import OrderedBag.Proofs.GatedCursors
import OrderedBag.Proofs.ThinSources

/-!
# Iterators that stay open

An indexed source looks up each entry of an interval, and a sequential source passes over the ones
before it. A client that opens an iterator upwards through an interval and asks it whenever it likes
cannot tell the one from the other, whatever it changes between two calls.

* `Session.Visits.asks` — such an iterator answers every call
* `Session.Alongside` — two sessions in which an iterator has had the same calls
* `Session.Alongside.play` — it goes on having the same calls, turn after turn
* `Session.sequential_walks_like_indexed` — a client is told the same while an iterator is open
-/

namespace OrderedBag

open Std OrderedBag.Action

variable {α : Type}

/-! ## Turns that leave a name alone -/

theorem Command.mem_names_of_target? {c : Command α} {name : String} (h : c.target? = some name) :
    name ∈ c.names := by
  cases c <;> cases h <;> simp [names]

/-- A turn within some names gives and forgets no other name, and asks no other iterator. -/
theorem Turn.Within.target {N : String → Prop} {u : Turn α} (hin : u.Within N) {c : Command α}
    (hc : c ∈ u.commands) {name : String} (h : c.target? = some name) : N name := by
  cases u with
  | command c =>
    obtain rfl := List.mem_singleton.mp hc
    exact hin.2 name (Command.mem_names_of_target? h)
  | visit x m n =>
    simp only [commands, List.mem_cons, List.not_mem_nil, or_false] at hc
    have hx : x = name := by rcases hc with rfl | rfl | rfl <;> exact Option.some.inj h
    exact hx ▸ hin.2.1

/-- The turn asks the iterator of a name, or leaves that name alone. -/
def Turn.AsksOnly (name : String) (u : Turn α) : Prop :=
  (∃ n, u = .command (.next name n)) ∨ u.Within (· ≠ name)

namespace Session

variable [Ord α] [TransOrd α] [Shown α] {b b' : Source α} {r : Interval α} {name : String}
  {s s' : Session α} {calls : List (Call α)}

/-! ## Calls in a run -/

/-- Anything else may happen, for as long as it likes. -/
theorem Visits.later_run {d : Direction} (h : Visits b r d name s calls) {cs : List (Command α)}
    (hv : ∀ c ∈ cs, c.Valid) (hname : ∀ c ∈ cs, c.target? ≠ some name) (watched : List String) :
    Visits b r d name (s.run watched cs).2 calls := by
  induction cs generalizing s with
  | nil => exact h
  | cons c cs ih =>
    obtain ⟨hv, hvs⟩ := List.forall_mem_cons.mp hv
    obtain ⟨hname, hnames⟩ := List.forall_mem_cons.mp hname
    exact ih (h.later hv hname watched) hvs hnames

/-- The iterator answers every call. -/
theorem Visits.asks (h : Visits b r .ascending name s calls) (ha : b.OffersCursor) (n : Nat) :
    ∃ (w : Walk α) (answers : List (Option (Entry α))), answers.length = n ∧
      s.table.find? name = some (.walk w) ∧
        (w.nexts s.registry.contents n).1 = answers.map (Option.map .entry) := by
  obtain ⟨-, -, -, t, -, -, hname⟩ := h.replies ha
  obtain ⟨answers, t', hlength, hnexts, -⟩ := t.replies_nexts s.registry.contents b.bag n
  exact ⟨.entries t, answers, hlength, hname, congrArg Prod.fst hnexts⟩

/-- The calls of an iterator in a run: what a bag held at each of them, and what it answered. -/
inductive Calls (watched : List String) (name : String) (b : BagId) :
    Session α → List (Command α) → List (Call α) → Prop
  | nil {s : Session α} : Calls watched name b s [] []
  /-- It is asked `n` times, and answers each time. -/
  | asked {s : Session α} {n : Nat} {cs : List (Command α)} {calls : List (Call α)}
      {answers : List (Option (Entry α))} (hlength : answers.length = n)
      (houtcome : (s.step watched (.next name n)).1.outcome =
        .ok (.items (answers.map (Option.map .entry))))
      (rest : Calls watched name b (s.step watched (.next name n)).2 cs calls) :
      Calls watched name b s (.next name n :: cs)
        ((answers.map fun answer => ⟨s.registry.contents b, answer⟩) ++ calls)
  /-- Anything else happens. -/
  | other {s : Session α} {c : Command α} {cs : List (Command α)} {calls : List (Call α)}
      (hname : c.target? ≠ some name) (rest : Calls watched name b (s.step watched c).2 cs calls) :
      Calls watched name b s (c :: cs) calls

theorem Calls.append {watched : List String} {b : BagId} {cs ds : List (Command α)}
    {more : List (Call α)} (h : Calls watched name b s cs calls)
    (h' : Calls watched name b (s.run watched cs).2 ds more) :
    Calls watched name b s (cs ++ ds) (calls ++ more) := by
  induction h with
  | nil => exact h'
  | asked hlength houtcome _ ih =>
    rw [List.append_assoc]
    exact .asked hlength houtcome (ih h')
  | other hname _ ih => exact .other hname (ih h')

/-- Commands that leave the iterator alone are no calls. -/
theorem calls_others (watched : List String) (b : BagId) (s : Session α) {cs : List (Command α)}
    (hname : ∀ c ∈ cs, c.target? ≠ some name) : Calls watched name b s cs [] := by
  induction cs generalizing s with
  | nil => exact .nil
  | cons c cs ih =>
    obtain ⟨hname, hnames⟩ := List.forall_mem_cons.mp hname
    exact .other hname (ih _ hnames)

/-! ## Iterators in two sessions -/

/-- An iterator that yields the same is asked on both sides. -/
theorem Paired.asked {S : Scope α} {N : String → Prop} (h : s.Paired S N s') (hname : ¬ N name)
    {n : Nat} (hwalk : ∀ w w', s.table.find? name = some (.walk w) →
      s'.table.find? name = some (.walk w') →
        (w'.nexts s'.registry.contents n).1 = (w.nexts s.registry.contents n).1)
    (watched : List String) :
    (s.step watched (.next name n)).2.Paired S N (s'.step watched (.next name n)).2 := by
  have hvalid : (Command.next name n : Command α).Valid := trivial
  have hnext := Command.next_matches (C := True) h.table h.fresh hwalk
  obtain ⟨-, hafter, -⟩ := h.step_of_matches hvalid hvalid hnext
    (fun _ _ hp => ⟨hp.answer, hp.core, fun x hx => hp.shared x ⟨hx, fun heq => hname (heq ▸ hx)⟩⟩)
    (fun _ _ hx => hx) watched
  exact hafter

/-- Two sessions that differ only in how sources answer. In each of them an iterator was opened
upwards over a source, under the same name, and has had the same calls with the same answers. -/
structure Alongside (b b' : Source α) (r : Interval α) (name : String) (s s' : Session α)
    (calls : List (Call α)) : Prop where
  paired : s.Paired .everything (· ≠ name) s'
  core : b'.core = b.core
  offers : b.OffersCursor
  offers' : b'.OffersCursor
  visits : Visits b r .ascending name s calls
  visits' : Visits b' r .ascending name s' calls

namespace Alongside

variable (h : Alongside b b' r name s s' calls) (watched : List String)
include h

/-- The iterators answer the same. -/
theorem asked (n : Nat) :
    (s'.step watched (.next name n)).1.outcome = (s.step watched (.next name n)).1.outcome ∧
      ∃ more, Calls watched name b.bag s [.next name n] more ∧
        Calls watched name b'.bag s' [.next name n] more ∧
        Alongside b b' r name (s.step watched (.next name n)).2 (s'.step watched (.next name n)).2
          (calls ++ more) := by
  obtain ⟨w, answers, hlength, hw, hnexts⟩ := h.visits.asks h.offers n
  obtain ⟨w', answers', hlength', hw', hnexts'⟩ := h.visits'.asks h.offers' n
  have hout := (step_walk hw n watched).1
  have hout' := (step_walk hw' n watched).1
  rw [hnexts] at hout
  rw [hnexts'] at hout'
  have hvisits := h.visits.asked hout
  have hvisits' := h.visits'.asked hout'
  -- both bags hold the same, so the answers are the same
  have hcontents : s'.registry.contents b'.bag = s.registry.contents b.bag :=
    Source.contents_of_core h.paired.registry h.core fun _ => rfl
  have hstored {answers : List (Option (Entry α))} (hlength : answers.length = n)
      (k : Histogram α) : (answers.map fun answer => (⟨k, answer⟩ : Call α)).map Call.stored =
        .replicate n k := by
    rw [List.map_map, ← hlength]
    exact List.map_const'
  rw [hcontents] at hvisits'
  have hcalls := hvisits.agree h.offers hvisits' h.offers'
    (congrArg Comparator.compare (Source.comparator_of_core h.core))
    (by rw [List.map_append, List.map_append, hstored hlength, hstored hlength'])
  have hanswers : answers' = answers :=
    List.map_injective_iff.mpr (fun _ _ => congrArg Call.answer) (List.append_cancel_left hcalls)
  subst hanswers
  have hwalk (v v' : Walk α) (hv : s.table.find? name = some (.walk v))
      (hv' : s'.table.find? name = some (.walk v')) :
      (v'.nexts s'.registry.contents n).1 = (v.nexts s.registry.contents n).1 := by
    rw [hw] at hv
    rw [hw'] at hv'
    cases hv
    cases hv'
    rw [hnexts, hnexts']
  refine ⟨hout'.trans hout.symm, _, .asked hlength hout .nil, ?_, ?_⟩
  · rw [← hcontents]
    exact .asked hlength hout' .nil
  · rw [List.append_nil]
    exact ⟨h.paired.asked (fun hne => hne rfl) hwalk watched, h.core, h.offers, h.offers', hvisits,
      hvisits'⟩

/-- A turn that leaves the iterators alone is answered the same, unless it is misled. -/
theorem turn {u u' : Turn α} (hu : u.Alike .everything u') (hv : u.Valid) (hv' : u'.Valid)
    (hin : u.Within (· ≠ name)) (hin' : u'.Within (· ≠ name)) :
    List.Forall₂ (SameOutcome (Answer.SameWhen (∀ c ∈ u.commands, ¬ s.Misled c)))
        ((s.run watched u.commands).1.map Report.outcome)
        ((s'.run watched u'.commands).1.map Report.outcome) ∧
      Calls watched name b.bag s u.commands [] ∧ Calls watched name b'.bag s' u'.commands [] ∧
      Alongside b b' r name (s.run watched u.commands).2 (s'.run watched u'.commands).2 calls := by
  have hother {u : Turn α} (hin : u.Within (· ≠ name)) :
      ∀ c ∈ u.commands, c.target? ≠ some name := fun c hc htarget => hin.target hc htarget rfl
  obtain ⟨hout, hpaired⟩ := h.paired.tellsAlike hu hv hv' hin watched
  exact ⟨hout, calls_others watched _ s (hother hin), calls_others watched _ s' (hother hin'),
    hpaired, h.core, h.offers, h.offers', h.visits.later_run hv (hother hin) watched,
    h.visits'.later_run hv' (hother hin') watched⟩

/-- Turn after turn the client is told the same, unless it is misled, and the iterators have the
same calls. -/
theorem play {us : List (Turn α)} (hv : ∀ u ∈ us, u.Valid) (hasks : ∀ u ∈ us, u.AsksOnly name) :
    TellAlike watched s s' (us.map (Turn.onSources .indexed))
        (us.map (Turn.onSources .sequential)) ∧
      ∃ more, Calls watched name b.bag s
          ((us.map (Turn.onSources .indexed)).flatMap Turn.commands) more ∧
        Calls watched name b'.bag s'
          ((us.map (Turn.onSources .sequential)).flatMap Turn.commands) more ∧
        Alongside b b' r name (s.play watched (us.map (Turn.onSources .indexed))).2
          (s'.play watched (us.map (Turn.onSources .sequential))).2 (calls ++ more) := by
  induction us generalizing s s' calls with
  | nil => exact ⟨.nil, [], .nil, .nil, by rw [List.append_nil]; exact h⟩
  | cons u us ih =>
    obtain ⟨hv, hvs⟩ := List.forall_mem_cons.mp hv
    obtain ⟨hasks, haskss⟩ := List.forall_mem_cons.mp hasks
    obtain ⟨hout, now, hcalls, hcalls', hafter⟩ :
        List.Forall₂ (SameOutcome (Answer.SameWhen
              (∀ c ∈ (u.onSources .indexed).commands, ¬ s.Misled c)))
            ((s.run watched (u.onSources .indexed).commands).1.map Report.outcome)
            ((s'.run watched (u.onSources .sequential).commands).1.map Report.outcome) ∧
          ∃ now, Calls watched name b.bag s (u.onSources .indexed).commands now ∧
            Calls watched name b'.bag s' (u.onSources .sequential).commands now ∧
            Alongside b b' r name (s.run watched (u.onSources .indexed).commands).2
              (s'.run watched (u.onSources .sequential).commands).2 (calls ++ now) := by
      rcases hasks with ⟨n, rfl⟩ | hin
      · obtain ⟨hout, now, hcalls, hcalls', hafter⟩ := h.asked watched n
        exact ⟨.cons (hout ▸ .sameWhen_refl _) .nil, now, hcalls, hcalls', hafter⟩
      · obtain ⟨hout, hcalls, hcalls', hafter⟩ := h.turn watched u.onSources_alike
          (Turn.valid_onSources hv _) (Turn.valid_onSources hv _)
          (Turn.within_onSources hin _) (Turn.within_onSources hin _)
        exact ⟨hout, [], hcalls, hcalls', by rw [List.append_nil]; exact hafter⟩
    obtain ⟨houts, more, hmore, hmore', hend⟩ := ih hafter hvs haskss
    rw [List.map_cons, List.map_cons, play_cons, play_cons, List.flatMap_cons, List.flatMap_cons]
    refine ⟨.cons hout houts, now ++ more, hcalls.append hmore, hcalls'.append hmore', ?_⟩
    rw [← List.append_assoc]
    exact hend

end Alongside

/-! ## A client with an open iterator -/

/-- The iterator is opened on both sides. -/
theorem Paired.alongside (h : s.Paired .everything (fun _ => True) s') (hs : s.Reachable)
    (hs' : s'.Reachable) {source : String}
    (hsource : s.table.find? source = some (.bag (.source b)))
    (hsource' : s'.table.find? source = some (.bag (.source b'))) (hoffers : b.OffersCursor)
    (hoffers' : b'.OffersCursor) {visit : Visit α}
    (hvisit : visit.Covers b.comparator r .ascending) (watched : List String) :
    (s'.step watched (.bind name (.walk source visit))).1.outcome =
        (s.step watched (.bind name (.walk source visit))).1.outcome ∧
      Alongside b b' r name (s.step watched (.bind name (.walk source visit))).2
        (s'.step watched (.bind name (.walk source visit))).2 [] := by
  have hcore : b'.core = b.core := by
    have hfind := Table.find?_of_core h.core source
    rw [hsource, hsource'] at hfind
    exact View.source.inj (Handle.bag.inj (Option.some.inj hfind))
  have hvisit' : visit.Covers b'.comparator r .ascending := by
    rwa [Source.comparator_of_core hcore]
  have hvalid : (Making.walk source visit).Valid := trivial
  have hopens : (Making.walk source visit).OpensIterator := trivial
  obtain ⟨hout, hpaired, -⟩ :
      (s'.step watched (.bind name (.walk source visit))).1.outcome = _ ∧ _ ∧ _ :=
    h.opened hvalid hopens trivial (fun _ _ => trivial) watched
  exact ⟨hout, { hpaired with shared := fun x hx => hpaired.shared x ⟨trivial, hx⟩ }, hcore,
    hoffers, hoffers', .opened hs hsource hvisit watched, .opened hs' hsource' hvisit' watched⟩

theorem reachable_play (hs : s.Reachable) {us : List (Turn α)}
    (hv : ∀ u ∈ us, u.Valid) (watched : List String) : (s.play watched us).2.Reachable :=
  hs.run (fun c hc => by
    obtain ⟨u, hu, hc⟩ := List.mem_flatMap.mp hc
    exact hv u hu c hc) watched

/-- A client opens an iterator upwards through an interval, over a source that looks everything up
or over one that derives it, and then takes any turns in which it may ask that iterator. It is told
the same, unless it asks whether a view is empty that miscounts. The two iterators have the same
calls, each of which is answered, and once they yielded nothing they yield nothing any more. Nor
does it matter how a source came to hold what it holds: any iterator through the interval answers
like these two while the same is stored. -/
theorem sequential_walks_like_indexed {before after : List (Turn α)} {source : String}
    {visit : Visit α} (hbefore : ∀ u ∈ before, u.Valid ∧ u.Within fun _ => True)
    (hafter : ∀ u ∈ after, u.Valid ∧ u.AsksOnly name) (watched : List String)
    (hsource : ((empty .wrapping).play watched
      (before.map (Turn.onSources .indexed))).2.table.find? source = some (.bag (.source b)))
    (hsource' : ((empty .wrapping).play watched
      (before.map (Turn.onSources .sequential))).2.table.find? source = some (.bag (.source b')))
    (hindexed : b.access = .indexed) (hsequential : b'.access = .sequential)
    (hvisit : visit.Covers b.comparator r .ascending) :
    let opening : Command α := .bind name (.walk source visit)
    let turns (a : Access) := (before ++ .command opening :: after).map (Turn.onSources a)
    let opened (a : Access) : Session α :=
      (((empty .wrapping).play watched (before.map (Turn.onSources a))).2.step watched opening).2
    let rest (a : Access) := (after.map (Turn.onSources a)).flatMap Turn.commands
    TellAlike watched (empty .wrapping) (empty .wrapping) (turns .indexed) (turns .sequential) ∧
      ∃ calls : List (Call α),
        Calls watched name b.bag (opened .indexed) (rest .indexed) calls ∧
        Calls watched name b'.bag (opened .sequential) (rest .sequential) calls ∧
        Tracks b.comparator r .ascending calls ∧
        ∀ {t : Session α} {m : Source α} {other : String} {others : List (Call α)},
          m.OffersCursor → m.comparator.compare = b.comparator.compare →
          Visits m r .ascending other t others →
          others.map Call.stored = calls.map Call.stored → others = calls := by
  intro opening turns opened rest
  have hstart : (empty .wrapping : Session α).Paired .everything (fun _ => True)
      (empty .wrapping) := paired_empty .everything (fun _ _ => rfl) _
  have hreachable (a : Access) :
      ((empty .wrapping).play watched (before.map (Turn.onSources a))).2.Reachable := by
    refine reachable_play .initial (List.forall_mem_map.mpr fun u hu => ?_) watched
    exact Turn.valid_onSources (hbefore u hu).1 a
  obtain ⟨htold, hpaired⟩ := hstart.play_onSources (fun u hu => (hbefore u hu).1)
    (fun u hu => (hbefore u hu).2) watched
  obtain ⟨hout, hopened⟩ := hpaired.alongside (hreachable .indexed) (hreachable .sequential)
    hsource hsource' (.inl hindexed) (.inr hsequential) hvisit watched
  obtain ⟨hrest, calls, hcalls, hcalls', hend⟩ := hopened.play watched
    (fun u hu => (hafter u hu).1) (fun u hu => (hafter u hu).2)
  refine ⟨?_, calls, hcalls, hcalls', (visits_spec hend.visits hindexed).1,
    fun hm hc hvisits hstored => hend.visits.agree hend.offers hvisits hm hc hstored⟩
  show TellAlike watched _ _ ((before ++ .command opening :: after).map (Turn.onSources .indexed))
    ((before ++ .command opening :: after).map (Turn.onSources .sequential))
  rw [List.map_append, List.map_append, List.map_cons, List.map_cons]
  exact htold.append (.cons (.cons (hout ▸ .sameWhen_refl _) .nil) hrest)

/-- Three numbers. -/
def filling : List (Turn Int) :=
  [.command (.bind "s" (.source .indexed (.evaluated .natural))),
    .command (.change "s" (.extend [5, 1, 3]))]

/-- The numbers change below, at and beyond the place of an iterator, between calls of it. -/
def replacements : List (Turn Int) :=
  [.command (.next "i" 1), .command (.change "s" (.removeAll 3)),
    .command (.change "s" (.insert 2)), .command (.next "i" 1),
    .command (.change "s" (.removeAll 2)), .command (.bind "t" (.view "s" (.tail ⟨3, .inclusive⟩))),
    .command (.askBag "t" (.poll .descending)), .command (.change "s" (.insert 4)),
    .command (.change "s" (.insert 6)), .command (.next "i" 2),
    .command (.change "s" (.insert 3)), .command (.next "i" 1)]

/-- The iterator goes up to the number four. -/
def upToFour : Visit Int :=
  .within .ascending (.upTo ⟨4, .inclusive⟩)

theorem sequential_walks_like_indexed_replacements :
    let turns (a : Access) := (filling ++ .command (.bind "i" (.walk "s" upToFour)) ::
      replacements).map (Turn.onSources a)
    ((empty .wrapping).play [] (turns .sequential)).1.map Report.outcome =
        [.ok .done, .ok .done, .ok .done, .ok (.items [some (.entry ⟨1, 1⟩)]),
          .ok (.maybeCount (some 1)), .ok (.maybeCount none), .ok (.items [some (.entry ⟨2, 1⟩)]),
          .ok (.maybeCount (some 1)), .ok .done, .ok (.maybeEntry (some ⟨5, 1⟩)),
          .ok (.maybeCount none), .ok (.maybeCount none),
          .ok (.items [some (.entry ⟨4, 1⟩), none]), .ok (.maybeCount none),
          .ok (.items [none])] ∧
      ((empty .wrapping).play [] (turns .sequential)).1.map Report.outcome =
        ((empty .wrapping).play [] (turns .indexed)).1.map Report.outcome := by
  intro turns
  let b (a : Access) : Source Int := ⟨0, 0, ⟨0, .natural, false⟩, a⟩
  have hfilling : ∀ u ∈ filling, u.Valid ∧ u.Within fun _ => True := by
    simp [filling, Turn.Valid, Turn.commands, Turn.Within, Command.Valid, Command.UsesIterator,
      Making.Valid, Making.OpensIterator, Change.Valid]
  have hreplacements : ∀ u ∈ replacements, u.Valid ∧ u.AsksOnly "i" := by
    simp [replacements, Turn.Valid, Turn.commands, Turn.AsksOnly, Turn.Within, Command.Valid,
      Command.UsesIterator, Making.Valid, Making.OpensIterator, Change.Valid, Command.names,
      Making.names, Change.names]
  have hcovers : upToFour.Covers (b .indexed).comparator (.upTo ⟨4, .inclusive⟩) .ascending :=
    ⟨rfl, rfl⟩
  have hsource (a : Access) :
      ((empty .wrapping).play [] (filling.map (Turn.onSources a))).2.table.find? "s" =
        some (.bag (.source (b a))) := by cases a <;> rfl
  have htold := sequential_walks_like_indexed hfilling hreplacements [] (hsource .indexed)
    (hsource .sequential) rfl rfl hcovers
  have hnever : ∀ u ∈ turns .indexed, ∀ c ∈ u.commands, ∀ t, c.probed? t = none := by
    simp [turns, filling, replacements, Turn.onSources, Command.onSources, Turn.commands,
      Command.probed?]
  exact ⟨by cbv, htold.1.outcomes_eq hnever⟩

end Session

end OrderedBag
