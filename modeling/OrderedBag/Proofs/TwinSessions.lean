import OrderedBag.Proofs.TwinCommands

/-!
# Twin sessions

A client takes turns: a turn is a command, or the opening of an iterator that is asked some times
and dropped. Two sessions are paired if their registries are twins and their tables have the same
shape. A client whose names show nothing outside of the scope is told the same in both, turn after
turn.

* `Turn`, `Turn.Within`, `Session.play` — what a client may do, and that it is done
* `Session.Paired` — two sessions that a client cannot tell apart
* `Session.Paired.turn`, `Session.Paired.play` — they stay so, and tell the client the same
-/

namespace OrderedBag

open OrderedBag.Action

variable {α : Type} {S : Scope α} {N : String → Prop}

/-! ## Turns -/

/-- What a client does at a time. -/
inductive Turn (α : Type)
  /-- One command. -/
  | command (c : Command α)
  /-- An iterator is opened, asked `n` times and dropped. -/
  | visit (name : String) (m : Making α) (n : Nat)

/-- The commands of a turn. -/
def Turn.commands : Turn α → List (Command α)
  | command c => [c]
  | visit name m n => [.bind name m, .next name n, .drop name]

/-- The counts of the turn are counts. -/
def Turn.Valid (u : Turn α) : Prop :=
  ∀ c ∈ u.commands, c.Valid

/-- The turn mentions no other names, and leaves no iterator open. -/
def Turn.Within (N : String → Prop) : Turn α → Prop
  | command c => ¬ c.UsesIterator ∧ ∀ name ∈ c.names, N name
  | visit name m _ => m.OpensIterator ∧ N name ∧ ∀ x ∈ m.names, N x

/-- The commands are the same, or they make sources that differ only in how they answer. No source
is made that its views cannot reach. -/
inductive Command.Alike (S : Scope α) : Command α → Command α → Prop
  | same {c : Command α} (h : ∀ name sorting, c ≠ .bind name (.source .detached sorting)) :
      Alike S c c
  | sources (name : String) (sorting : Sorting α) {a a' : Access} (ha : S.alike a a')
      (hattached : a ≠ .detached) :
      Alike S (.bind name (.source a sorting)) (.bind name (.source a' sorting))

/-- The turns are the same, apart from how the sources answer that they make. -/
inductive Turn.Alike (S : Scope α) : Turn α → Turn α → Prop
  | command {c c' : Command α} (h : c.Alike S c') : Alike S (.command c) (.command c')
  | visit (name : String) (m : Making α) (n : Nat) : Alike S (.visit name m n) (.visit name m n)

section

variable [Ord α] [Std.TransOrd α] [Shown α]

/-- Turns are taken one after the other. -/
def Session.play (watched : List String) (s : Session α) (us : List (Turn α)) :
    List (Report α) × Session α :=
  s.run watched (us.flatMap Turn.commands)

theorem Session.play_cons (watched : List String) (s : Session α) (u : Turn α)
    (us : List (Turn α)) :
    s.play watched (u :: us) =
      ((s.run watched u.commands).1 ++ ((s.run watched u.commands).2.play watched us).1,
        ((s.run watched u.commands).2.play watched us).2) := by
  unfold play
  rw [List.flatMap_cons, run_append]

/-- Turns are taken in two sessions, one after the other. Each is answered the same in both, unless
the client asks in the first session whether a view is empty that miscounts there, and is told that
it is, while it is told in the other session that it is not. -/
inductive Session.TellAlike (watched : List String) :
    Session α → Session α → List (Turn α) → List (Turn α) → Prop
  | nil {s s' : Session α} : TellAlike watched s s' [] []
  | cons {s s' : Session α} {u u' : Turn α} {us us' : List (Turn α)}
      (htold : List.Forall₂ (SameOutcome (Answer.SameWhen (∀ c ∈ u.commands, ¬ s.Misled c)))
        ((s.run watched u.commands).1.map Report.outcome)
        ((s'.run watched u'.commands).1.map Report.outcome))
      (hrest : TellAlike watched (s.run watched u.commands).2 (s'.run watched u'.commands).2 us
        us') :
      TellAlike watched s s' (u :: us) (u' :: us')

theorem Session.TellAlike.append {watched : List String} {s s' : Session α}
    {us us' vs vs' : List (Turn α)} (h : TellAlike watched s s' us us')
    (hrest : TellAlike watched (s.play watched us).2 (s'.play watched us').2 vs vs') :
    TellAlike watched s s' (us ++ vs) (us' ++ vs') := by
  induction h with
  | nil => exact hrest
  | cons htold _ ih =>
    rw [play_cons, play_cons] at hrest
    exact .cons htold (ih hrest)

/-- A client who never asks whether a view is empty is told the same. -/
theorem Session.TellAlike.outcomes_eq {watched : List String} {s s' : Session α}
    {us us' : List (Turn α)} (h : TellAlike watched s s' us us')
    (hnever : ∀ u ∈ us, ∀ c ∈ u.commands, ∀ t, c.probed? t = none) :
    (s'.play watched us').1.map Report.outcome = (s.play watched us).1.map Report.outcome := by
  induction h with
  | nil => rfl
  | cons htold _ ih =>
    obtain ⟨hnever, hnevers⟩ := List.forall_mem_cons.mp hnever
    have hquiet := outcomes_eq_of_sameWhen htold fun c hc ⟨v, hv, _⟩ => by
      rw [hnever c hc] at hv
      cases hv
    rw [play_cons, play_cons, List.map_append, List.map_append, hquiet, ih hnevers]

end

/-! ## Paired sessions -/

namespace Registry

/-- No bag ceases to exist. -/
theorem Moves.bags_le {reg reg' : Registry α} (h : reg.Moves reg') :
    reg.bags.size ≤ reg'.bags.size := by
  induction h with
  | refl => exact Nat.le_refl _
  | tail _ hmove ih =>
    refine Nat.le_trans ih ?_
    cases hmove with
    | aside hbags _ => exact Nat.le_of_eq (congrArg Array.size hbags.symm)
    | source c a => simp [addSource]
    | narrowed r _ _ => exact Nat.le_refl _
    | turned _ => exact Nat.le_refl _
    | reversed _ _ _ _ =>
      exact Nat.le_of_eq (congrArg Array.size (bags_updateNode (push _ _) _ _)).symm
    | annotated f _ _ _ _ _ =>
      exact Nat.le_of_eq (congrArg Array.size (bags_updateNode _ _ f)).symm
    | stored _ _ => simp [setContents]

end Registry

namespace Session

/-- Two sessions that differ only in how sources answer, in what lies outside of the scope, and in
the iterators that are open. The names of `N` show nothing outside of the scope, and nor do bags
that have yet to be made. -/
structure Paired (S : Scope α) (N : String → Prop) (s s' : Session α) : Prop where
  sound : s.Sound
  sound' : s'.Sound
  registry : s.registry.Twins S s'.registry
  core : s'.table.core = s.table.core
  shared : ∀ name, N name → ∀ h, s.table.find? name = some h → h.Shared S
  unmade : ∀ b, s.registry.bags.size ≤ b → ∀ x, S b x = true

namespace Paired

variable {s s' : Session α}

theorem fresh (h : s.Paired S N s') : s.fresh.Twins S s'.fresh :=
  h.registry.withLog [] []

theorem table (h : s.Paired S N s') : Table.Paired S N s.fresh s'.fresh s.table s'.table :=
  ⟨h.core, h.sound.live_fresh, h.sound'.live_fresh, h.shared⟩

/-- What a name of the client shows is the same. -/
theorem watch (h : s.Paired S N s') {name : String} (hname : N name) :
    s'.watch name = s.watch name := by
  have hfind := Table.find?_of_core h.core name
  unfold Session.watch
  cases hh : s.table.find? name with
  | none =>
    rw [hh, Option.map_none, Option.map_eq_none_iff] at hfind
    rw [hfind]
  | some handle =>
    rw [hh, Option.map_some, Option.map_eq_some_iff] at hfind
    obtain ⟨handle', hfind', hcore⟩ := hfind
    rw [hfind']
    cases handle <;> cases handle' <;> first | rfl | cases hcore | skip
    rename_i v w
    have hvw : View.Paired S s.registry s'.registry v w := ⟨Handle.bag.inj hcore,
      h.shared name hname _ hh, h.sound.live.find? hh, h.sound'.live.find? hfind'⟩
    exact congrArg some (View.entries_outcome h.registry h.sound.registry h.sound'.registry hvw).eq

/-- What is no longer held goes on both sides. -/
theorem released {t t' : Table α} {reg reg' : Registry α}
    (hs : (⟨t, reg.release t.held⟩ : Session α).Sound)
    (hs' : (⟨t', reg'.release t'.held⟩ : Session α).Sound) (hr : reg.Twins S reg')
    (hcore : t'.core = t.core)
    (hshared : ∀ name, N name → ∀ h, t.find? name = some h → h.Shared S)
    (hunmade : ∀ b, reg.bags.size ≤ b → ∀ x, S b x = true) :
    (⟨t, reg.release t.held⟩ : Session α).Paired S N ⟨t', reg'.release t'.held⟩ where
  sound := hs
  sound' := hs'
  registry := by
    have hheld : t'.held = t.held := by rw [← Table.held_core, hcore, Table.held_core]
    rw [hheld]
    exact hr.release t.held
  core := hcore
  shared := hshared
  unmade := by
    rw [Registry.bags_release]
    exact hunmade

variable [Ord α] [Std.TransOrd α] [Shown α] {c c' : Command α}

/-- A command that does the same on both sides is answered the same, and leaves paired sessions,
with the tables that it hands on if it succeeds. -/
theorem step_of_matches (h : s.Paired S N s') (hc : c.Valid) (hc' : c'.Valid)
    {P : Answer α × Table α → Answer α × Table α → Prop} {M : String → Prop} {C : Prop}
    (hm : (c.run s.table).Matches S P (c'.run s'.table) s.fresh s'.fresh)
    (hP : ∀ p p', P p p' → Command.SameResult S M C p p')
    (hM : ((c.run s.table).perform s.fresh).1.toOption = none → ∀ name, M name → N name)
    (watched : List String) :
    SameOutcome (Answer.SameWhen C) (s.step watched c).1.outcome
        (s'.step watched c').1.outcome ∧
      (s.step watched c).2.Paired S M (s'.step watched c').2 ∧
      ((s.step watched c).2.table = s.table ∧ (s'.step watched c').2.table = s'.table ∨
        ∃ p p', P p p' ∧ (s.step watched c).2.table = p.2 ∧
          (s'.step watched c').2.table = p'.2) := by
  have hsound := h.sound.step hc watched
  have hsound' := h.sound'.step hc' watched
  have hmoves : s.fresh.Moves ((c.run s.table).perform s.fresh).2 :=
    (Command.run_ends h.sound.fresh h.sound.live_fresh h.sound.distinct hc).1
  have hunmade (b : BagId) (hb : ((c.run s.table).perform s.fresh).2.bags.size ≤ b) :
      ∀ x, S b x = true :=
    h.unmade b (Nat.le_trans (Registry.Moves.bags_le (s.moves_fresh.trans hmoves)) hb)
  obtain ⟨hr, hout⟩ := hm
  cases hp : (c.run s.table).perform s.fresh with
  | mk o reg =>
    cases hp' : (c'.run s'.table).perform s'.fresh with
    | mk o' reg' =>
      rw [hp, hp'] at hr hout
      rw [hp] at hunmade hM
      cases hout with
      | error e =>
        obtain ⟨houtcome, hafter⟩ := step_of_error watched hp
        obtain ⟨houtcome', hafter'⟩ := step_of_error watched hp'
        rw [hafter] at hsound ⊢
        rw [hafter'] at hsound' ⊢
        rw [houtcome, houtcome']
        exact ⟨.error e, released hsound hsound' hr h.core
          (fun name hname => h.shared name (hM rfl name hname)) hunmade, .inl ⟨rfl, rfl⟩⟩
      | @ok p p' hpp =>
        obtain ⟨hanswer, hcore, hshared⟩ := hP p p' hpp
        obtain ⟨houtcome, hafter⟩ := step_of_ok watched hp
        obtain ⟨houtcome', hafter'⟩ := step_of_ok watched hp'
        rw [hafter] at hsound ⊢
        rw [hafter'] at hsound' ⊢
        rw [houtcome, houtcome']
        exact ⟨.ok hanswer, released hsound hsound' hr hcore hshared hunmade,
          .inr ⟨p, p', hpp, rfl, rfl⟩⟩

/-- A command that uses no iterator is answered the same, unless it does not concur. -/
theorem command (h : s.Paired S N s') (hc : c.Alike S c') (hv : c.Valid) (hv' : c'.Valid)
    (hin : (Turn.command c).Within N) (watched : List String) :
    SameOutcome (Answer.SameWhen
        (c.Concurs s.table s'.table s.registry.contents s'.registry.contents))
        (s.step watched c).1.outcome (s'.step watched c').1.outcome ∧
      (s.step watched c).2.Paired S N (s'.step watched c').2 := by
  obtain ⟨hclosed, hnames⟩ := hin
  have hnew : ∀ x, S s.fresh.bags.size x = true := h.unmade _ (Nat.le_refl _)
  have hstep {C : Prop} (hm : (c.run s.table).Matches S (Command.SameResult S N C) (c'.run s'.table)
      s.fresh s'.fresh) : SameOutcome (Answer.SameWhen C) (s.step watched c).1.outcome
        (s'.step watched c').1.outcome ∧
        (s.step watched c).2.Paired S N (s'.step watched c').2 := by
    obtain ⟨hout, hpaired, -⟩ :=
      h.step_of_matches hv hv' hm (fun _ _ hp => hp) (fun _ _ hname => hname) watched
    exact ⟨hout, hpaired⟩
  refine hstep ?_
  cases hc with
  | sources name sorting ha hattached =>
    exact Command.bind_matches h.table
      (Making.source_matches h.table h.fresh hnew sorting ha hattached)
  | same hdetached =>
    cases c with
    | bind name m =>
      refine Command.bind_matches h.table (Making.run_matches h.table h.fresh h.sound.fresh
        h.sound'.fresh (fun x hx => hnames x (List.mem_cons_of_mem _ hx)) hnew hclosed ?_)
      rintro sorting rfl
      exact hdetached name sorting rfl
    | drop name => exact Command.drop_matches h.table h.fresh fun _ hother _ => hother
    | next name n => exact absurd trivial hclosed
    | _ => exact Command.ask_matches h.table h.fresh h.sound.fresh h.sound'.fresh trivial hnames

/-- Opening an iterator changes no bag. -/
theorem contents_opens {name : String} {m : Making α} (hopens : m.OpensIterator) (s : Session α)
    (watched : List String) :
    (s.step watched (.bind name m)).2.registry.contents = s.registry.contents := by
  have hrun : (((Command.bind name m).run s.table).perform s.fresh).2.contents =
      s.registry.contents :=
    (Making.opens_respects hopens s.table).map Registry.contents_unlogged.toChained _ s.fresh
  exact (Registry.contents_release _ _).trans hrun

/-- An iterator is opened on both sides, and yields the same. -/
theorem opened (h : s.Paired S N s') {name : String} {m : Making α} (hv : m.Valid)
    (hopens : m.OpensIterator) (hname : N name) (hnames : ∀ x ∈ m.names, N x)
    (watched : List String) :
    (s'.step watched (.bind name m)).1.outcome = (s.step watched (.bind name m)).1.outcome ∧
      (s.step watched (.bind name m)).2.Paired S (fun x => N x ∧ x ≠ name)
        (s'.step watched (.bind name m)).2 ∧
      ∀ w w', (s.step watched (.bind name m)).2.table.find? name = some (.walk w) →
        (s'.step watched (.bind name m)).2.table.find? name = some (.walk w') →
        w.SameItems (s.step watched (.bind name m)).2.registry.contents
          (s'.step watched (.bind name m)).2.registry.contents w' := by
  have hopened := Making.opens_matches h.table h.fresh h.sound.fresh h.sound'.fresh hnames hopens
  have hbind : ((Command.bind name m).run s.table).Matches S (fun p p' => ∃ w w',
      p = (.done, s.table.bind name (.walk w)) ∧ p' = (.done, s'.table.bind name (.walk w')) ∧
        w.SameItems s.registry.contents s'.registry.contents w')
      ((Command.bind name m).run s'.table) s.fresh s'.fresh := by
    refine hopened.map ?_
    rintro _ _ ⟨w, w', rfl, rfl, hw⟩
    exact ⟨w, w', rfl, rfl, hw⟩
  have hvalid : (Command.bind name m).Valid := hv
  obtain ⟨hout, hpaired, htables⟩ := h.step_of_matches hvalid hvalid hbind
    (M := fun x => N x ∧ x ≠ name) (by
      rintro _ _ ⟨w, w', rfl, rfl, -⟩
      exact Command.bind_walk_result (C := True) h.table .done) (fun _ _ hx => hx.1) watched
  refine ⟨hout.eq_of_sameWhen trivial, hpaired, fun w w' hw hw' => ?_⟩
  rcases htables with ⟨htable, -⟩ | ⟨_, _, ⟨u, u', rfl, rfl, hu⟩, htable, htable'⟩
  · -- nothing was opened, and before that no name of the client stood for an iterator
    rw [htable] at hw
    exact (h.shared name hname _ hw).elim
  · rw [htable, Table.find?_bind_self, Option.some.injEq] at hw
    rw [htable', Table.find?_bind_self, Option.some.injEq] at hw'
    obtain rfl := Handle.walk.inj hw
    obtain rfl := Handle.walk.inj hw'
    rw [contents_opens hopens, contents_opens hopens]
    exact hu

/-- An iterator that is opened, asked and dropped tells the same. -/
theorem visit (h : s.Paired S N s') {name : String} {m : Making α} {n : Nat} (hv : m.Valid)
    (hin : (Turn.visit name m n).Within N) (watched : List String) :
    (s'.run watched (Turn.visit name m n).commands).1.map Report.outcome =
        (s.run watched (Turn.visit name m n).commands).1.map Report.outcome ∧
      (s.run watched (Turn.visit name m n).commands).2.Paired S N
        (s'.run watched (Turn.visit name m n).commands).2 := by
  obtain ⟨hopens, hname, hnames⟩ := hin
  have hask : (Command.next name n : Command α).Valid := trivial
  have hforget : (Command.drop name : Command α).Valid := trivial
  obtain ⟨hopened, h₁, hwalk⟩ := h.opened hv hopens hname hnames watched
  have hnext := Command.next_matches (C := True) h₁.table h₁.fresh
    fun w w' hw hw' => (hwalk w w' hw hw').nexts n
  obtain ⟨hasked, h₂, -⟩ := h₁.step_of_matches hask hask hnext
    (fun _ _ hp => ⟨hp.answer, hp.core, fun x hx => hp.shared x ⟨hx, hx.2⟩⟩)
    (fun _ _ hx => hx) watched
  have hdrop := Command.drop_matches (M := N) (C := True) h₂.table h₂.fresh
    fun x hx hne => ⟨hx, hne⟩
  obtain ⟨hdropped, h₃, -⟩ := h₂.step_of_matches hforget hforget hdrop
    (fun _ _ hp => hp) nofun watched
  refine ⟨?_, h₃⟩
  simp only [Turn.commands, Session.run, List.map_cons, List.map_nil, hopened,
    hasked.eq_of_sameWhen trivial, hdropped.eq_of_sameWhen trivial]

/-- A turn is answered the same, unless its commands do not concur, and leaves paired sessions. -/
theorem turn {u u' : Turn α} (h : s.Paired S N s') (hu : u.Alike S u')
    (hv : u.Valid) (hv' : u'.Valid) (hin : u.Within N) (watched : List String) :
    List.Forall₂ (SameOutcome (Answer.SameWhen (∀ c ∈ u.commands,
          c.Concurs s.table s'.table s.registry.contents s'.registry.contents)))
        ((s.run watched u.commands).1.map Report.outcome)
        ((s'.run watched u'.commands).1.map Report.outcome) ∧
      (s.run watched u.commands).2.Paired S N (s'.run watched u'.commands).2 := by
  cases hu with
  | command hc =>
    obtain ⟨hout, hafter⟩ := h.command hc (hv _ (List.mem_singleton_self _))
      (hv' _ (List.mem_singleton_self _)) hin watched
    exact ⟨.cons (hout.mono fun _ _ ha => ha.imp fun hall => hall _ (List.mem_singleton_self _))
      .nil, hafter⟩
  | visit name m n =>
    obtain ⟨hout, hafter⟩ := h.visit (hv _ List.mem_cons_self) hin watched
    rw [hout]
    exact ⟨List.forall₂_same.mpr fun o _ => .sameWhen_refl o, hafter⟩

omit [Ord α] [Std.TransOrd α] [Shown α] in
/-- The commands of a turn concur if the sources of both sessions answer in the same way. -/
theorem concurs_of_exact (h : s.Paired S N s') (hS : S.Exact) {u : Turn α} (hin : u.Within N) :
    ∀ c ∈ u.commands, c.Concurs s.table s'.table s.registry.contents s'.registry.contents := by
  intro c hc
  cases u with
  | command c =>
    obtain rfl := List.mem_singleton.mp hc
    exact Command.concurs_of_exact h.table h.fresh h.sound.fresh h.sound'.fresh hS hin.2
  | visit name m n =>
    simp only [Turn.commands, List.mem_cons, List.not_mem_nil, or_false] at hc
    rcases hc with rfl | rfl | rfl <;> exact nofun

/-- A turn is answered the same, unless it is misled. -/
theorem tellsAlike {u u' : Turn α} (h : s.Paired S N s') (hu : u.Alike S u')
    (hv : u.Valid) (hv' : u'.Valid) (hin : u.Within N) (watched : List String) :
    List.Forall₂ (SameOutcome (Answer.SameWhen (∀ c ∈ u.commands, ¬ s.Misled c)))
        ((s.run watched u.commands).1.map Report.outcome)
        ((s'.run watched u'.commands).1.map Report.outcome) ∧
      (s.run watched u.commands).2.Paired S N (s'.run watched u'.commands).2 := by
  obtain ⟨hout, hafter⟩ := h.turn hu hv hv' hin watched
  have hconcurs (hquiet : ∀ c ∈ u.commands, ¬ s.Misled c) : ∀ c ∈ u.commands,
      c.Concurs s.table s'.table s.registry.contents s'.registry.contents :=
    fun c hc => Command.concurs_of_not_misled (hquiet c hc) _ _
  exact ⟨hout.imp fun _ _ ho => ho.mono fun _ _ ha => ha.imp hconcurs, hafter⟩

variable {us us' : List (Turn α)}

/-- Turn after turn is answered the same, unless the first session is misled. -/
theorem play (h : s.Paired S N s') (hus : List.Forall₂ (Turn.Alike S) us us')
    (hv : ∀ u ∈ us, u.Valid) (hv' : ∀ u ∈ us', u.Valid) (hin : ∀ u ∈ us, u.Within N)
    (watched : List String) :
    TellAlike watched s s' us us' ∧ (s.play watched us).2.Paired S N (s'.play watched us').2 := by
  induction hus generalizing s s' with
  | nil => exact ⟨.nil, h⟩
  | @cons u u' us us' hu _ ih =>
    obtain ⟨hv, hvs⟩ := List.forall_mem_cons.mp hv
    obtain ⟨hv', hvs'⟩ := List.forall_mem_cons.mp hv'
    obtain ⟨hin, hins⟩ := List.forall_mem_cons.mp hin
    obtain ⟨hout, hafter⟩ := h.tellsAlike hu hv hv' hin watched
    obtain ⟨hrest, hend⟩ := ih hafter hvs hvs' hins
    rw [play_cons, play_cons]
    exact ⟨.cons hout hrest, hend⟩

end Paired

end Session

end OrderedBag
