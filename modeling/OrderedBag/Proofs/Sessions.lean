import OrderedBag.Proofs.Commands
import OrderedBag.Proofs.Release

/-!
# Reachable sessions

A session is reachable when commands lead to it from the empty one, where totals wrap around.
Commands come in any order and may fail; all that is asked of them is that counts are counts.

* `Session.Sound` — what holds of every reachable session
* `Session.Sound.step` — every command keeps it
* `Session.Reachable.sound` — every reachable session is sound
-/

namespace OrderedBag

open OrderedBag.Action

variable {α : Type}

/-! ## What a table holds -/

namespace Table

variable {t : Table α}

theorem mem_held {entry : String × Handle α} (he : entry ∈ t) {i : NodeId}
    (hi : entry.2.held = some i) : i ∈ t.held :=
  List.mem_filterMap.mpr ⟨entry, he, hi⟩

/-- What a table holds is held after a new name is bound. -/
theorem mem_held_bind {name : String} (hnew : t.find? name = none) (h : Handle α) {i : NodeId}
    (hi : i ∈ t.held) : i ∈ (t.bind name h).held := by
  obtain ⟨entry, he, hheld⟩ := List.mem_filterMap.mp hi
  have hne : entry.1 ≠ name := by
    intro heq
    have hnone := List.lookup_eq_none_iff.mp hnew entry he
    simp [heq] at hnone
  refine mem_held (List.mem_cons_of_mem _ ?_) hheld
  exact List.mem_filter.mpr ⟨he, by simpa using hne⟩

/-- A release keeps the handles of the table live. -/
theorem Live.release {reg : Registry α} (ht : t.Live reg) : t.Live (reg.release t.held) := by
  intro entry he
  have hlive := ht entry he
  have hheld {i : NodeId} (hi : entry.2.held = some i) : i ∈ t.held := mem_held he hi
  obtain ⟨name, h⟩ := entry
  cases h with
  | bag v => exact Registry.Live.release hlive fun i hi => hheld hi
  | elements s => exact Registry.Live.release hlive fun i hi => hheld hi
  | entries s => exact Registry.Live.release hlive fun i hi => hheld hi
  | weak v => exact Registry.Houses.grow hlive (Registry.grows_release reg t.held)
  | walk w => trivial
  | comparator c => trivial

/-- What a live table holds exists. -/
theorem Live.isAlive {reg : Registry α} (ht : t.Live reg) {i : NodeId} (hi : i ∈ t.held) :
    reg.isAlive i = true := by
  obtain ⟨⟨name, h⟩, he, hi⟩ := List.mem_filterMap.mp hi
  have hlive := ht _ he
  cases h with
  | bag v => exact Registry.isAlive_of_live hlive hi
  | elements s => exact Registry.isAlive_of_live hlive hi
  | entries s => exact Registry.isAlive_of_live hlive hi
  | weak v => cases hi
  | walk w => cases hi
  | comparator c => cases hi

end Table

namespace Session

/-- What holds of every reachable session. -/
structure Sound (s : Session α) : Prop where
  registry : s.registry.Sound
  live : s.table.Live s.registry
  distinct : s.table.Distinct

theorem sound_empty : (empty .wrapping : Session α).Sound where
  registry := Registry.sound_empty
  live := fun _ he => absurd he List.not_mem_nil
  distinct := List.nodup_nil

/-- After a release the session is sound if its handles were live. -/
theorem sound_release {reg : Registry α} {t : Table α} (hs : reg.Sound) (ht : t.Live reg)
    (hd : t.Distinct) : (⟨t, reg.release t.held⟩ : Session α).Sound :=
  ⟨hs.release _, ht.release, hd⟩

/-- The registry on which the next command works. -/
def fresh (s : Session α) : Registry α :=
  s.registry.withLog []

theorem moves_fresh (s : Session α) : s.registry.Moves s.fresh :=
  s.registry.moves_withLog []

theorem Sound.fresh {s : Session α} (hs : s.Sound) : s.fresh.Sound :=
  hs.registry.moves s.moves_fresh

theorem Sound.live_fresh {s : Session α} (hs : s.Sound) : s.table.Live s.fresh :=
  hs.live.moves s.moves_fresh

variable [Ord α] [Std.TransOrd α] [Shown α] {s : Session α} {c : Command α}
  {watched : List String}

/-! ## One command -/

theorem step_outcome (s : Session α) (c : Command α) (watched : List String) :
    (s.step watched c).1.outcome = ((c.run s.table).perform s.fresh).1.map Prod.fst := rfl

/-- What a command tells and leaves follows from its outcome and the registry after it. -/
theorem step_of_perform (watched : List String) {o : Except Failure (Answer α × Table α)}
    {reg : Registry α} (h : (c.run s.table).perform s.fresh = (o, reg)) :
    s.step watched c =
      let table := (o.toOption.map Prod.snd).getD s.table
      let after : Session α := ⟨table, reg.release table.held⟩
      (⟨o.map Prod.fst, reg.log, watched.map after.watch⟩, after) := by
  have h : (c.run s.table).perform { s.registry with log := [] } = (o, reg) := h
  unfold step
  rw [h]

/-- A command that succeeds hands its table on. -/
theorem step_of_ok (watched : List String) {answer : Answer α} {t : Table α} {reg : Registry α}
    (h : (c.run s.table).perform s.fresh = (.ok (answer, t), reg)) :
    (s.step watched c).1.outcome = .ok answer ∧
      (s.step watched c).2 = ⟨t, reg.release t.held⟩ := by
  rw [step_of_perform watched h]
  exact ⟨rfl, rfl⟩

/-- A command that fails leaves the table as it was. -/
theorem step_of_error (watched : List String) {e : Failure} {reg : Registry α}
    (h : (c.run s.table).perform s.fresh = (.error e, reg)) :
    (s.step watched c).1.outcome = .error e ∧
      (s.step watched c).2 = ⟨s.table, reg.release s.table.held⟩ := by
  rw [step_of_perform watched h]
  exact ⟨rfl, rfl⟩

/-- A command of which the outcome and the contents are known. -/
theorem step_of_gives (watched : List String) {o : Except Failure (Answer α × Table α)}
    {k : BagId → Histogram α}
    (h : (c.run s.table).Gives s.fresh o k) :
    (s.step watched c).1.outcome = o.map Prod.fst ∧
      (s.step watched c).2.table = (o.toOption.map Prod.snd).getD s.table ∧
      (s.step watched c).2.registry.contents = k := by
  obtain ⟨reg, hp, -, hk⟩ := h
  cases o with
  | error e =>
    obtain ⟨hout, hafter⟩ := step_of_error watched hp
    exact ⟨hout, by rw [hafter]; rfl, by rw [hafter, Registry.contents_release, hk]⟩
  | ok p =>
    obtain ⟨hout, hafter⟩ := step_of_ok watched hp
    exact ⟨hout, by rw [hafter]; rfl, by rw [hafter, Registry.contents_release, hk]⟩

/-- A command that hands an answer on, and leaves the table as it is. -/
theorem step_of_answer {o : Except Failure (Answer α)} {k : BagId → Histogram α}
    (h : (c.run s.table).Gives s.fresh (o.map fun answer => (answer, s.table)) k)
    (watched : List String) :
    (s.step watched c).1.outcome = o ∧ (s.step watched c).2.table = s.table ∧
      (s.step watched c).2.registry.contents = k := by
  obtain ⟨hout, htable, hk⟩ := step_of_gives watched h
  cases o <;> exact ⟨hout, htable, hk⟩

/-- What a command that succeeded did. -/
theorem perform_of_outcome {answer : Answer α}
    (h : (s.step watched c).1.outcome = .ok answer) :
    ∃ t reg, (c.run s.table).perform s.fresh = (.ok (answer, t), reg) ∧
      (s.step watched c).2 = ⟨t, reg.release t.held⟩ := by
  cases hp : (c.run s.table).perform s.fresh with
  | mk o reg =>
    cases o with
    | error e => simp [(step_of_error watched hp).1] at h
    | ok p =>
      obtain ⟨a, t⟩ := p
      obtain ⟨hout, hafter⟩ := step_of_ok watched hp
      obtain rfl : a = answer := Except.ok.inj (hout.symm.trans h)
      exact ⟨t, reg, rfl, hafter⟩

/-- What is known of a command is true of the table and the registry that it left, from which the
release then took what is no longer held. -/
theorem ends_of_outcome {Q : Answer α × Table α → Registry α → Prop} {answer : Answer α}
    (hq : (c.run s.table).Ends s.fresh Q) (h : (s.step watched c).1.outcome = .ok answer) :
    ∃ t reg, s.fresh.Moves reg ∧ Q (answer, t) reg ∧
      (s.step watched c).2 = ⟨t, reg.release t.held⟩ := by
  obtain ⟨t, reg, hp, hafter⟩ := perform_of_outcome h
  obtain ⟨hm, hq⟩ := hq
  rw [hp] at hm hq
  exact ⟨t, reg, hm, hq _ rfl, hafter⟩

/-- A command makes moves and leaves a live table, also if it fails; then what is not held goes. -/
theorem Sound.step_moves (hs : s.Sound) (hc : c.Valid) (watched : List String) :
    ∃ t reg, s.registry.Moves reg ∧ t.Live reg ∧ t.Distinct ∧
      (s.step watched c).2 = ⟨t, reg.release t.held⟩ := by
  obtain ⟨hm, hq⟩ := Command.run_ends hs.fresh hs.live_fresh hs.distinct hc
  cases hp : (c.run s.table).perform s.fresh with
  | mk o reg =>
    rw [hp] at hm hq
    cases o with
    | error e =>
      exact ⟨s.table, reg, s.moves_fresh.trans hm, hs.live_fresh.moves hm, hs.distinct,
        (step_of_error watched hp).2⟩
    | ok p =>
      obtain ⟨answer, t⟩ := p
      obtain ⟨hlive, hdistinct⟩ := hq _ rfl
      exact ⟨t, reg, s.moves_fresh.trans hm, hlive, hdistinct, (step_of_ok watched hp).2⟩

/-- Every command keeps a session sound. -/
theorem Sound.step (hs : s.Sound) (hc : c.Valid) (watched : List String) :
    (s.step watched c).2.Sound := by
  obtain ⟨t, reg, hm, hlive, hdistinct, hafter⟩ := hs.step_moves hc watched
  rw [hafter]
  exact sound_release (hs.registry.moves hm) hlive hdistinct

/-! ## Many commands -/

/-- Commands are carried out one after the other. -/
theorem run_append (s : Session α) (cs ds : List (Command α)) :
    run watched s (cs ++ ds) =
      ((run watched s cs).1 ++ (run watched (run watched s cs).2 ds).1,
        (run watched (run watched s cs).2 ds).2) := by
  induction cs generalizing s with
  | nil => rfl
  | cons c cs ih => simp only [List.cons_append, run, ih]

/-- No command makes a session forget a view. -/
theorem Sound.grows (hs : s.Sound) (hc : c.Valid) (watched : List String) :
    s.registry.Grows (s.step watched c).2.registry := by
  obtain ⟨t, reg, hm, -, -, hafter⟩ := hs.step_moves hc watched
  rw [hafter]
  exact (Registry.Moves.grows hm).trans (Registry.grows_release reg _)

theorem Sound.grows_run (hs : s.Sound) {cs : List (Command α)} (hcs : ∀ c ∈ cs, c.Valid)
    (watched : List String) : s.registry.Grows (Session.run watched s cs).2.registry := by
  induction cs generalizing s with
  | nil => exact .refl _
  | cons c cs ih =>
    obtain ⟨hc, hcs⟩ := List.forall_mem_cons.mp hcs
    exact (hs.grows hc watched).trans (ih (hs.step hc watched) hcs)

/-- A name comes to stand for the view that a step makes from another name's view, once that view
has a node. -/
theorem view_of_outcome (hs : s.Sound) {name new : String} {v : View α} {st : ViewStep α}
    {answer : Answer α} (hname : s.table.find? name = some (.bag v))
    (h : (s.step watched (.bind new (.view name st))).1.outcome = .ok answer) :
    ∃ w reg, s.registry.Moves reg ∧ reg.Supports w ∧ st.Makes v w ∧ answer = .done ∧
      (s.step watched (.bind new (.view name st))).2.table =
        s.table.bind new (.bag (reg.enroll w).1) := by
  obtain ⟨t, reg', -, ⟨handle, ⟨-, v', w, reg, hfind, hm, hsup, hmakes, hhandle⟩, hp⟩, hafter⟩ :=
    ends_of_outcome (Command.bind_ends (Making.view_ends hs.fresh hs.live_fresh name st)) h
  obtain rfl : v = v' := Handle.bag.inj (Option.some.inj (hname.symm.trans hfind))
  obtain ⟨rfl, rfl⟩ := Prod.mk.inj hp
  refine ⟨w, reg, s.moves_fresh.trans hm, hsup, hmakes, rfl, ?_⟩
  rw [hafter, hhandle]

/-- A name comes to stand for the set that a step makes from another name's set, once the view of
that set has a node. -/
theorem elements_of_outcome (hs : s.Sound) {name new : String} {u : ElementSet α}
    {st : ElementStep α} {answer : Answer α} (hname : s.table.find? name = some (.elements u))
    (h : (s.step watched (.bind new (.elements name st))).1.outcome = .ok answer) :
    ∃ w reg, s.registry.Moves reg ∧ reg.Supports w.view ∧ st.Makes u w ∧ answer = .done ∧
      (s.step watched (.bind new (.elements name st))).2.table =
        s.table.bind new (.elements { w with view := (reg.enroll w.view).1 }) := by
  obtain ⟨t, reg', -, ⟨handle, ⟨-, u', w, reg, hfind, hm, hsup, hmakes, hhandle⟩, hp⟩, hafter⟩ :=
    ends_of_outcome (Command.bind_ends (Making.elements_ends hs.fresh hs.live_fresh name st)) h
  obtain rfl : u = u' := Handle.elements.inj (Option.some.inj (hname.symm.trans hfind))
  obtain ⟨rfl, rfl⟩ := Prod.mk.inj hp
  refine ⟨w, reg, s.moves_fresh.trans hm, hsup, hmakes, rfl, ?_⟩
  rw [hafter, hhandle]

/-- The sessions to which commands lead from the empty one, where totals wrap around. -/
inductive Reachable : Session α → Prop
  | initial : Reachable (empty .wrapping)
  | next {s : Session α} (hs : Reachable s) {c : Command α} (hc : c.Valid)
      (watched : List String) : Reachable (s.step watched c).2

/-- Every reachable session is sound. -/
theorem Reachable.sound (h : s.Reachable) : s.Sound := by
  induction h with
  | initial => exact sound_empty
  | next _ hc watched ih => exact ih.step hc watched

theorem Reachable.run (h : s.Reachable) {cs : List (Command α)} (hcs : ∀ c ∈ cs, c.Valid)
    (watched : List String) : (run watched s cs).2.Reachable := by
  induction cs generalizing s with
  | nil => exact h
  | cons c cs ih =>
    obtain ⟨hc, hcs⟩ := List.forall_mem_cons.mp hcs
    exact ih (h.next hc watched) hcs

/-- Every existing view is kept alive by a handle, directly or through other views. -/
theorem Reachable.reaches (h : s.Reachable) {i : NodeId} (hi : s.registry.isAlive i = true) :
    s.registry.Reaches s.table.held i := by
  cases h with
  | initial => simp [empty, Registry.empty, Registry.isAlive] at hi
  | @next s hs c hc watched =>
    obtain ⟨t, reg, hm, -, -, hafter⟩ := hs.sound.step_moves hc watched
    rw [hafter] at hi ⊢
    have hreaches := Registry.reaches_of_isAlive_release (hs.sound.registry.moves hm).wellFormed hi
    unfold Registry.Reaches at hreaches ⊢
    rwa [Registry.keeps_release]

end Session

end OrderedBag
