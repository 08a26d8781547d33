import OrderedBag.Proofs.OwnedSets

/-!
# Lifetimes

When a view exists. The references that keep views alive form no cycle: a view keeps older ones, and
besides them at most its own descending view, which keeps nothing. So a view exists exactly as long
as something held leads to it, and none is left over when everything is dropped. A view that is gone
does not come back, because a new view always gets a number of its own.

* `Registry.rank` — sinks along every reference that keeps a view alive
* `Registry.Buries` — what is gone stays gone; so it is for every move, every release, every run
* `Session.lifetimes` — which views exist in a reachable session, and for how long
-/

namespace OrderedBag

open Relation

variable {α : Type}

namespace Registry

variable {reg reg' : Registry α}

/-! ## No cycles -/

/-- A measure that sinks along references: descending views with a weak reference are at the bottom,
since they keep nothing, and the others stand in the order in which they were made. -/
def rank (reg : Registry α) (i : NodeId) : Nat :=
  if (reg.nodes[i]?).any fun n => n.view.isWeak then 0 else i + 1

theorem rank_of_isWeak {i : NodeId} {n : Node α} (hn : reg.nodes[i]? = some n)
    (h : n.view.isWeak = true) : reg.rank i = 0 := by
  simp [rank, hn, h]

theorem rank_of_not_isWeak {i : NodeId} {n : Node α} (hn : reg.nodes[i]? = some n)
    (h : n.view.isWeak = false) : reg.rank i = i + 1 := by
  simp [rank, hn, h]

theorem rank_le (reg : Registry α) (i : NodeId) : reg.rank i ≤ i + 1 := by
  unfold rank
  split <;> omega

theorem Keeps.rank_lt (hw : reg.WellFormed) {i j : NodeId} (h : reg.Keeps i j) :
    reg.rank j < reg.rank i := by
  obtain ⟨n, hn, -⟩ := id h
  rw [rank_of_not_isWeak hn (h.isWeak_eq_false hw hn)]
  rcases h.older_or_weak hw with hlt | ⟨m, hm, hweak⟩
  · exact Nat.lt_of_le_of_lt (reg.rank_le j) (Nat.succ_lt_succ hlt)
  · rw [rank_of_isWeak hm hweak]
    exact Nat.succ_pos i

/-- Along any number of references the rank sinks, so they never lead back to where they started. -/
theorem not_transGen_keeps (hw : reg.WellFormed) (i : NodeId) : ¬ TransGen reg.Keeps i i := by
  have hlt {j : NodeId} (h : TransGen reg.Keeps i j) : reg.rank j < reg.rank i := by
    induction h with
    | single hkeeps => exact hkeeps.rank_lt hw
    | tail _ hkeeps ih => exact Nat.lt_trans (hkeeps.rank_lt hw) ih
  exact fun h => Nat.lt_irrefl _ (hlt h)

/-! ## What is gone stays gone -/

/-- The view with that number existed, and does not exist any more. -/
def Freed (reg : Registry α) (i : NodeId) : Prop :=
  ∃ n, reg.nodes[i]? = some n ∧ n.alive = false

/-- No view that is gone comes back. -/
def Buries (reg reg' : Registry α) : Prop :=
  ∀ i, reg.Freed i → reg'.Freed i

theorem Freed.isAlive_eq_false {i : NodeId} (h : reg.Freed i) : reg.isAlive i = false := by
  obtain ⟨n, hn, hgone⟩ := h
  rw [isAlive_eq hn, hgone]

theorem Buries.refl (reg : Registry α) : reg.Buries reg :=
  fun _ h => h

theorem Buries.trans {reg'' : Registry α} (h : reg.Buries reg') (h' : reg'.Buries reg'') :
    reg.Buries reg'' :=
  fun i hi => h' i (h i hi)

theorem buries_of_nodes (hnodes : reg'.nodes = reg.nodes) : reg.Buries reg' := by
  rintro i ⟨n, hn, hgone⟩
  exact ⟨n, by rw [hnodes, hn], hgone⟩

/-- A new view has a number that no view had before. -/
theorem buries_push (reg : Registry α) (v : View α) : reg.Buries (reg.push v) := by
  rintro i ⟨n, hn, hgone⟩
  refine ⟨n, ?_, hgone⟩
  rw [node_push, if_neg (Nat.ne_of_lt (lt_size_of_node hn)), hn]

theorem buries_updateNode {v : View α} {n : Node α} (hv : reg.Has v n) {f : Node α → Node α}
    (halive : (f n).alive = n.alive) : reg.Buries (reg.updateNode v f) := by
  rintro i ⟨m, hm, hgone⟩
  unfold Freed
  rw [node_updateNode hv]
  by_cases hi : v.node? = some i
  · obtain rfl : n = m := Option.some.inj ((hv.node_eq hi).symm.trans hm)
    exact ⟨f n, if_pos hi, halive.trans hgone⟩
  · exact ⟨m, by rw [if_neg hi, hm], hgone⟩

theorem Move.buries (h : reg.Move reg') : reg.Buries reg' := by
  cases h with
  | aside _ hnodes => exact buries_of_nodes hnodes
  | source c a => exact buries_push reg (.source _)
  | narrowed r _ _ => exact buries_push reg _
  | turned _ => exact buries_push reg _
  | reversed hv _ _ _ => exact (buries_push reg _).trans (buries_updateNode (hv.push _) rfl)
  | annotated f hv _ halive _ _ => exact buries_updateNode hv halive
  | stored _ _ => exact buries_of_nodes rfl

theorem Moves.buries (h : reg.Moves reg') : reg.Buries reg' := by
  induction h with
  | refl => exact .refl reg
  | tail _ hmove ih => exact ih.trans hmove.buries

theorem buries_sweep (reg : Registry α) (held : List NodeId) : reg.Buries (reg.sweep held) := by
  rintro i ⟨n, hn, hgone⟩
  refine ⟨{ n with alive := n.alive && (reg.kept held).contains i }, ?_, ?_⟩
  · rw [node_sweep, hn]
    rfl
  · simp [hgone]

theorem buries_release (reg : Registry α) (held : List NodeId) : reg.Buries (reg.release held) :=
  release_induction (P := fun r => reg.Buries r) (fun r hr => hr.trans (buries_sweep r held))
    (.refl reg)

end Registry

namespace Session

variable [Ord α] [Std.TransOrd α] [Shown α] {s : Session α} {watched : List String}

/-- No command brings a view back. -/
theorem Sound.buries (hs : s.Sound) {c : Command α} (hc : c.Valid) (watched : List String) :
    s.registry.Buries (s.step watched c).2.registry := by
  obtain ⟨t, reg, hm, -, -, hafter⟩ := hs.step_moves hc watched
  rw [hafter]
  exact (Registry.Moves.buries hm).trans (Registry.buries_release reg _)

theorem Sound.buries_run (hs : s.Sound) {cs : List (Command α)} (hcs : ∀ c ∈ cs, c.Valid)
    (watched : List String) : s.registry.Buries (Session.run watched s cs).2.registry := by
  induction cs generalizing s with
  | nil => exact .refl _
  | cons c cs ih =>
    obtain ⟨hc, hcs⟩ := List.forall_mem_cons.mp hcs
    exact (hs.buries hc watched).trans (ih (hs.step hc watched) hcs)

/-- A view exists exactly when a handle keeps it alive, directly or through other views. -/
theorem Reachable.isAlive_iff (hs : s.Reachable) (i : NodeId) :
    s.registry.isAlive i = true ↔ s.registry.Reaches s.table.held i :=
  ⟨hs.reaches, hs.sound.registry.closed.isAlive_of_reaches fun _ hi => hs.sound.live.isAlive hi⟩

/-- A command after which everything is held that was held before ends the existence of no view. -/
theorem Reachable.spares (hs : s.Reachable) {c : Command α} (hc : c.Valid) (watched : List String)
    (hheld : ∀ i ∈ s.table.held, i ∈ (s.step watched c).2.table.held) :
    s.registry.Spares (s.step watched c).2.registry := by
  intro i hi
  obtain ⟨k, hk, hpath⟩ := (hs.reaches hi).grow (hs.sound.grows hc watched)
  exact ((hs.next hc watched).isAlive_iff i).mpr ⟨k, hheld k hk, hpath⟩

/-- A weak reference leads somewhere exactly when a handle keeps its view alive. -/
theorem Reachable.outcome_isAlive (hs : s.Reachable) {name : String} {v : View α}
    (hname : s.table.find? name = some (.weak v)) (watched : List String) :
    ∃ i b, v.node? = some i ∧ (s.step watched (.isAlive name)).1.outcome = .ok (.flag b) ∧
      (b = true ↔ s.registry.Reaches s.table.held i) := by
  obtain ⟨n, hn⟩ := hs.sound.live.find? hname
  obtain ⟨i, hi, -⟩ := hn.index
  have hrun : ((Command.isAlive name).run s.table).perform s.fresh =
      (.ok (.flag (s.registry.isAlive i), s.table), s.fresh) := by
    refine (Action.perform_bind_ok (Table.perform_weak hname s.fresh)).trans ?_
    show (Except.ok (Answer.flag (v.node?.any s.registry.isAlive), s.table), s.fresh) = _
    rw [hi, Option.any_some]
  exact ⟨i, _, hi, (step_of_ok watched hrun).1, hs.isAlive_iff i⟩

/-- The handles that remain once some names are dropped were there before, under other names. -/
theorem held_drops {names : List String}
    (hall : ∀ entry ∈ s.table, entry.1 ∉ names → entry.2.held = none) :
    (run watched s (names.map .drop)).2.table.held = [] := by
  refine List.filterMap_eq_nil_iff.mpr fun entry he => ?_
  obtain ⟨hmem, hnames⟩ := mem_table_drops he
  exact hall entry hmem hnames

theorem Reachable.isAlive_drops (hs : s.Reachable) {names : List String}
    (hall : ∀ entry ∈ s.table, entry.1 ∉ names → entry.2.held = none) (i : NodeId) :
    (Session.run watched s (names.map .drop)).2.registry.isAlive i = false := by
  rw [Bool.eq_false_iff, ne_eq, (hs.drops watched names).isAlive_iff, held_drops hall]
  rintro ⟨k, hk, -⟩
  exact List.not_mem_nil hk

/-- In every reachable session, the references that keep views alive form no cycle; a view exists
exactly when a handle keeps it alive, directly or through other views, and this is what a weak
reference tells; a view that is gone stays gone whatever happens; and when every handle that holds
something is dropped, whatever iterators and weak references are left, no view exists any more. -/
theorem lifetimes (hs : s.Reachable) :
    (∀ i, ¬ TransGen s.registry.Keeps i i) ∧
    (∀ i, s.registry.isAlive i = true ↔ s.registry.Reaches s.table.held i) ∧
    (∀ name v, s.table.find? name = some (.weak v) → ∀ watched : List String,
      ∃ i b, v.node? = some i ∧ (s.step watched (.isAlive name)).1.outcome = .ok (.flag b) ∧
        (b = true ↔ s.registry.Reaches s.table.held i)) ∧
    (∀ i, s.registry.Freed i → ∀ (watched : List String) (cs : List (Command α)),
      (∀ c ∈ cs, c.Valid) → (run watched s cs).2.registry.Freed i) ∧
    (∀ (watched names : List String),
      (∀ entry ∈ s.table, entry.1 ∉ names → entry.2.held = none) →
        ∀ i, (run watched s (names.map .drop)).2.registry.isAlive i = false) := by
  refine ⟨Registry.not_transGen_keeps hs.sound.registry.wellFormed, hs.isAlive_iff, ?_, ?_, ?_⟩
  · exact fun name v hname watched => hs.outcome_isAlive hname watched
  · exact fun i hi watched cs hcs => hs.sound.buries_run hcs watched i hi
  · exact fun watched names hall i => hs.isAlive_drops hall i

/-- Three numbers with an open iterator and their descending view, and a weak reference to a head of
the numbers that is gone. -/
def threeWatched : Session Int :=
  (run [] threeReversed [.bind "k" (.walk "s" (.entries .ascending)),
    .bind "v" (.view "s" (.head ⟨3, .inclusive⟩)), .bind "w" (.weak "v"), .drop "v"]).2

theorem threeWatched_reachable : threeWatched.Reachable := by
  refine threeReversed_reachable.run (fun c hc => ?_) []
  rcases hc with _ | ⟨_, _ | ⟨_, _ | ⟨_, _ | ⟨_, ⟨⟩⟩⟩⟩⟩ <;> trivial

theorem lifetimes_threeWatched :
    (¬ TransGen threeWatched.registry.Keeps 0 0) ∧
    (threeWatched.registry.Reaches threeWatched.table.held 1 ∧
      ¬ threeWatched.registry.Reaches threeWatched.table.held 2) ∧
    (threeWatched.step [] (.isAlive "w")).1.outcome = .ok (.flag false) ∧
    (run [] threeWatched [.bind "v" (.view "s" (.head ⟨3, .inclusive⟩))]).2.registry.Freed 2 ∧
    (∀ i, (run [] threeWatched [.drop "s", .drop "d"]).2.registry.isAlive i = false) := by
  obtain ⟨hcycle, hiff, hweak, hfreed, hdrops⟩ := lifetimes threeWatched_reachable
  have hgone : ¬ threeWatched.registry.Reaches threeWatched.table.held 2 :=
    fun h => Bool.false_ne_true ((hiff 2).mpr h)
  refine ⟨hcycle 0, ⟨(hiff 1).mp rfl, hgone⟩, ?_, ?_, hdrops [] ["s", "d"] ?_⟩
  · obtain ⟨i, b, hi, houtcome, hb⟩ := hweak "w" _ rfl []
    obtain rfl : 2 = i := Option.some.inj hi
    cases b with
    | true => exact absurd (hb.mp rfl) hgone
    | false => exact houtcome
  · refine hfreed 2 ⟨_, rfl, rfl⟩ [] [.bind "v" (.view "s" (.head ⟨3, .inclusive⟩))] fun c hc => ?_
    rcases hc with _ | ⟨_, ⟨⟩⟩
    trivial
  · intro entry he hnot
    rcases he with _ | ⟨_, _ | ⟨_, _ | ⟨_, _ | ⟨_, ⟨⟩⟩⟩⟩⟩
    · rfl
    · rfl
    · simp at hnot
    · simp at hnot

end Session

end OrderedBag
