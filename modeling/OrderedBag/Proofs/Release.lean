import OrderedBag.Proofs.Registry

/-!
# What survives a release

Views keep each other alive without a cycle: a view keeps older views, and besides them at most the
descending view that it has built, which keeps nothing. So the rounds of a release leave exactly the
views that can be reached from what is held.

* `Registry.Sound.release` — the invariants survive a release
* `Registry.reaches_of_isAlive_release` — something held keeps every surviving view alive, directly
  or through other views
* `Registry.Closed.isAlive_of_reaches` — whatever is kept alive in this way exists
-/

namespace OrderedBag

open Relation

variable {α : Type}

namespace Registry

/-- The first node keeps the second one alive. -/
def Keeps (reg : Registry α) (i j : NodeId) : Prop :=
  ∃ n, reg.nodes[i]? = some n ∧ j ∈ n.keeps

/-- A held node keeps `j` alive, directly or through other nodes. -/
def Reaches (reg : Registry α) (held : List NodeId) (j : NodeId) : Prop :=
  ∃ i ∈ held, ReflTransGen reg.Keeps i j

/-! ## One round -/

variable {reg : Registry α} {held : List NodeId}

theorem mem_kept {j : NodeId} :
    j ∈ reg.kept held ↔ j ∈ held ∨ ∃ i, reg.isAlive i = true ∧ reg.Keeps i j := by
  unfold kept
  rw [List.mem_append, List.mem_flatMap]
  refine or_congr_right ⟨?_, ?_⟩
  · rintro ⟨n, hn, hj⟩
    obtain ⟨hmem, halive⟩ := List.mem_filter.mp hn
    obtain ⟨i, hi⟩ := List.mem_iff_getElem?.mp hmem
    rw [Array.getElem?_toList] at hi
    exact ⟨i, (isAlive_eq hi).trans halive, n, hi, hj⟩
  · rintro ⟨i, halive, n, hn, hj⟩
    rw [isAlive_eq hn] at halive
    refine ⟨n, List.mem_filter.mpr ⟨?_, halive⟩, hj⟩
    exact List.mem_iff_getElem?.mpr ⟨i, by rw [Array.getElem?_toList, hn]⟩

theorem node_sweep (i : NodeId) :
    (reg.sweep held).nodes[i]? =
      (reg.nodes[i]?).map fun n => { n with alive := n.alive && (reg.kept held).contains i } :=
  Array.getElem?_mapIdx

theorem isAlive_sweep {i : NodeId} :
    (reg.sweep held).isAlive i = true ↔ reg.isAlive i = true ∧ i ∈ reg.kept held := by
  rw [isAlive, node_sweep, isAlive]
  cases reg.nodes[i]? <;> simp

theorem grows_sweep (reg : Registry α) (held : List NodeId) : reg.Grows (reg.sweep held) := by
  intro i n hn
  rw [node_sweep, hn]
  exact ⟨_, rfl, rfl, fun _ hd => hd⟩

theorem keeps_sweep (reg : Registry α) (held : List NodeId) :
    (reg.sweep held).Keeps = reg.Keeps := by
  funext i j
  unfold Keeps
  rw [node_sweep]
  cases reg.nodes[i]? <;> simp [Node.keeps]

theorem houses_of_sweep {v : View α} (h : (reg.sweep held).Houses v) : reg.Houses v := by
  obtain ⟨n, hn⟩ := h
  obtain ⟨i, hi, hnode⟩ := hn.index
  rw [node_sweep] at hnode
  obtain ⟨m, hm, rfl⟩ := Option.map_eq_some_iff.mp hnode
  exact ⟨m, has_of_index hi hm hn.view⟩

/-- The invariants survive a round: what an existing view keeps is kept in that round as well. -/
theorem Sound.sweep (hs : reg.Sound) (held : List NodeId) : (reg.sweep held).Sound where
  wellFormed := by
    intro i n' hn'
    rw [node_sweep] at hn'
    obtain ⟨n, hn, rfl⟩ := Option.map_eq_some_iff.mp hn'
    exact (hs.wellFormed i n hn).grow (grows_sweep reg held) rfl rfl fun _ hc => .inl hc
  closed := by
    intro i n' hn' halive j hj
    have hi : (reg.sweep held).isAlive i = true := (isAlive_eq hn').trans halive
    have hkeeps : reg.Keeps i j := by
      rw [← keeps_sweep reg held]
      exact ⟨n', hn', hj⟩
    obtain ⟨n, hn, hj⟩ := hkeeps
    have hi := (isAlive_sweep.mp hi).1
    have hkept : j ∈ reg.kept held := mem_kept.mpr (.inr ⟨i, hi, n, hn, hj⟩)
    exact isAlive_sweep.mpr ⟨hs.closed i n hn ((isAlive_eq hn).symm.trans hi) j hj, hkept⟩
  stocked := hs.stocked.of_bags rfl fun _ h => houses_of_sweep h
  wrapping := hs.wrapping

/-! ## All rounds -/

/-- What one round keeps true, a release keeps true. -/
theorem settle_induction {P : Registry α → Prop} (hsweep : ∀ r, P r → P (r.sweep held))
    (rounds : Nat) (reg : Registry α) (h : P reg) : P (reg.settle held rounds) := by
  induction rounds generalizing reg with
  | zero => exact h
  | succ rounds ih =>
    unfold settle
    simp only
    split
    · exact h
    · exact ih _ (hsweep reg h)

theorem release_induction {P : Registry α → Prop} (hsweep : ∀ r, P r → P (r.sweep held))
    (h : P reg) : P (reg.release held) :=
  settle_induction hsweep _ reg h

theorem Sound.release (hs : reg.Sound) (held : List NodeId) : (reg.release held).Sound :=
  release_induction (fun _ hr => hr.sweep held) hs

theorem grows_release (reg : Registry α) (held : List NodeId) : reg.Grows (reg.release held) :=
  release_induction (P := fun r => reg.Grows r) (fun r hr => hr.trans (grows_sweep r held))
    (.refl reg)

theorem keeps_release (reg : Registry α) (held : List NodeId) :
    (reg.release held).Keeps = reg.Keeps :=
  release_induction (P := fun r => r.Keeps = reg.Keeps) (fun _ hr => (keeps_sweep _ _).trans hr) rfl

@[simp] theorem contents_release (reg : Registry α) (held : List NodeId) :
    (reg.release held).contents = reg.contents :=
  release_induction (P := fun r => r.contents = reg.contents) (fun _ hr => hr) rfl

theorem isAlive_of_release {i : NodeId} (h : (reg.release held).isAlive i = true) :
    reg.isAlive i = true :=
  release_induction (P := fun r => r.isAlive i = true → reg.isAlive i = true)
    (fun _ hr hi => hr (isAlive_sweep.mp hi).1) id h

/-- What is held exists after a release if it existed before. -/
theorem isAlive_release_of_mem {i : NodeId} (hi : i ∈ held) (halive : reg.isAlive i = true) :
    (reg.release held).isAlive i = true :=
  release_induction (P := fun r => r.isAlive i = true)
    (fun _ hr => isAlive_sweep.mpr ⟨hr, mem_kept.mpr (.inl hi)⟩) halive

theorem Live.release {v : View α} (h : reg.Live v) (hheld : ∀ i, v.node? = some i → i ∈ held) :
    (reg.release held).Live v := by
  obtain ⟨i, hi, halive⟩ := h.index
  exact live_of_index (h.1.grow (grows_release reg held)) hi
    (isAlive_release_of_mem (hheld i hi) halive)

/-! ## When the rounds end -/

/-- Numbered changes that bring no node to life leave at most as many alive, and if they leave as
many, they leave all. -/
theorem countP_mapIdx_alive (ns : List (Node α)) {f : Nat → Node α → Node α}
    (hf : ∀ i n, (f i n).alive = true → n.alive = true) :
    (ns.mapIdx f).countP Node.alive ≤ ns.countP Node.alive ∧
      ((ns.mapIdx f).countP Node.alive = ns.countP Node.alive →
        ∀ i n, ns[i]? = some n → n.alive = true → (f i n).alive = true) := by
  induction ns generalizing f with
  | nil => simp
  | cons m ns ih =>
    obtain ⟨hle, heq⟩ := ih (f := fun i => f (i + 1)) fun i => hf (i + 1)
    rw [List.mapIdx_cons, List.countP_cons, List.countP_cons]
    have hhead : (if (f 0 m).alive = true then 1 else 0) ≤ if m.alive = true then 1 else 0 := by
      cases hm : (f 0 m).alive with
      | false => simp
      | true => simp [hf 0 m hm]
    refine ⟨by omega, ?_⟩
    intro hsum i n hn halive
    cases i with
    | zero =>
      obtain rfl : m = n := by simpa using hn
      rw [halive] at hsum hhead
      cases hm : (f 0 m).alive with
      | true => rfl
      | false =>
        rw [hm] at hsum
        simp only [Bool.false_eq_true, if_false, if_true] at hsum
        omega
    | succ i => exact heq (by omega) i n (by simpa using hn) halive

theorem aliveCount_sweep_le (reg : Registry α) (held : List NodeId) :
    (reg.sweep held).aliveCount ≤ reg.aliveCount := by
  unfold aliveCount sweep
  rw [← Array.countP_toList, ← Array.countP_toList, Array.toList_mapIdx]
  exact (countP_mapIdx_alive reg.nodes.toList fun i n hn => (Bool.and_eq_true_iff.mp hn).1).1

/-- A round that ends the existence of no view finds every existing view kept. -/
theorem mem_kept_of_aliveCount (h : (reg.sweep held).aliveCount = reg.aliveCount) {i : NodeId}
    (hi : reg.isAlive i = true) : i ∈ reg.kept held := by
  unfold aliveCount sweep at h
  rw [← Array.countP_toList, ← Array.countP_toList, Array.toList_mapIdx] at h
  obtain ⟨n, hn, halive⟩ := exists_node_of_isAlive hi
  have hkept := (countP_mapIdx_alive reg.nodes.toList
    fun i n hn => (Bool.and_eq_true_iff.mp hn).1).2 h i n (by rw [Array.getElem?_toList, hn]) halive
  simpa [halive] using hkept

/-- With as many rounds as there are existing views, the last round changes nothing. -/
theorem settled_settle (rounds : Nat) (reg : Registry α) (h : reg.aliveCount ≤ rounds) :
    ((reg.settle held rounds).sweep held).aliveCount = (reg.settle held rounds).aliveCount := by
  induction rounds generalizing reg with
  | zero =>
    have hle := aliveCount_sweep_le reg held
    show (reg.sweep held).aliveCount = reg.aliveCount
    omega
  | succ rounds ih =>
    -- a round that is not the last one ends the existence of a view
    have hle := aliveCount_sweep_le reg held
    unfold settle
    simp only
    split
    next heq => exact heq
    next hne => exact ih _ (by omega)

/-- After a release every existing view is held or kept by an existing view. -/
theorem kept_of_isAlive_release {i : NodeId} (hi : (reg.release held).isAlive i = true) :
    i ∈ held ∨ ∃ k, (reg.release held).isAlive k = true ∧ reg.Keeps k i := by
  have hcount : reg.aliveCount ≤ reg.nodes.size := Array.countP_le_size
  rw [← keeps_release reg held]
  exact mem_kept.mp (mem_kept_of_aliveCount (settled_settle _ reg hcount) hi)

end Registry

/-! ## No cycles -/

/-- Whether a view refers to another view only weakly. -/
def View.isWeak : View α → Bool
  | descending _ .weak _ => true
  | source _ | range _ _ _ | descending _ .strong _ => false

namespace Registry

variable {reg : Registry α} {held : List NodeId}

/-- A node keeps older nodes, and besides them at most a view which refers weakly to its own. -/
theorem Keeps.older_or_weak (hw : reg.WellFormed) {i j : NodeId} (h : reg.Keeps i j) :
    j < i ∨ ∃ n, reg.nodes[j]? = some n ∧ n.view.isWeak = true := by
  obtain ⟨n, hn, hj⟩ := h
  rcases List.mem_append.mp hj with hj | hj
  · left
    obtain ⟨f, hf, hnode⟩ := View.mem_keeps hj
    obtain ⟨-, k, hlt, hk⟩ := (hw i n hn).base f hf
    obtain rfl : k = j := Option.some.inj (hk.symm.trans hnode)
    exact hlt
  · right
    obtain ⟨d, hd, hnode⟩ := Option.bind_eq_some_iff.mp (Option.mem_toList.mp hj)
    obtain ⟨⟨m, hm⟩, -, k, rfl⟩ := (hw i n hn).reversal d hd
    exact ⟨m, hm.node_eq hnode, by rw [hm.view]; rfl⟩

/-- A view which refers weakly to another one keeps nothing. -/
theorem Keeps.isWeak_eq_false (hw : reg.WellFormed) {i j : NodeId} (h : reg.Keeps i j)
    {n : Node α} (hn : reg.nodes[i]? = some n) : n.view.isWeak = false := by
  obtain ⟨m, hm, hj⟩ := h
  obtain rfl : n = m := Option.some.inj (hn.symm.trans hm)
  rcases List.mem_append.mp hj with hj | hj
  · cases hv : n.view with
    | source s => rfl
    | range k s r => rfl
    | descending k link f =>
      cases link with
      | strong => rfl
      | weak => simp [hv, View.keeps] at hj
  · obtain ⟨d, hd, -⟩ := Option.bind_eq_some_iff.mp (Option.mem_toList.mp hj)
    obtain ⟨-, hup, -⟩ := (hw i n hn).reversal d hd
    cases hv : n.view with
    | source s => rfl
    | range k s r => rfl
    | descending k link f => simp [hv, View.isDescending] at hup

/-- A node keeps nodes of views that its own view refers to, or of the descending view that it has
built. -/
theorem Keeps.refers (hw : reg.WellFormed) {i j : NodeId} (h : reg.Keeps i j) {n : Node α}
    (hn : reg.nodes[i]? = some n) :
    ∃ m, reg.nodes[j]? = some m ∧ reg.Houses m.view ∧
      (j ∈ n.view.keeps ∧ n.view.base? = some m.view ∨
        m.view = .descending (some j) .weak n.view) := by
  obtain ⟨n', hn', hj⟩ := h
  obtain rfl : n = n' := Option.some.inj (hn.symm.trans hn')
  rcases List.mem_append.mp hj with hj | hj
  · obtain ⟨f, hf, hnode⟩ := View.mem_keeps hj
    obtain ⟨⟨m, hm⟩, -⟩ := (hw i n hn).base f hf
    have hview := hm.view.symm
    exact ⟨m, hm.node_eq hnode, hview ▸ ⟨m, hm⟩, .inl ⟨hj, hview ▸ hf⟩⟩
  · obtain ⟨d, hd, hnode⟩ := Option.bind_eq_some_iff.mp (Option.mem_toList.mp hj)
    obtain ⟨⟨m, hm⟩, -, k, rfl⟩ := (hw i n hn).reversal d hd
    obtain rfl : k = some j := hnode
    have hview := hm.view.symm
    exact ⟨m, hm.node_eq rfl, hview ▸ ⟨m, hm⟩, .inr hm.view⟩

theorem Reaches.tail {i j : NodeId} (h : reg.Reaches held i) (hk : reg.Keeps i j) :
    reg.Reaches held j := by
  obtain ⟨r, hr, hpath⟩ := h
  exact ⟨r, hr, hpath.tail hk⟩

/-- What a view keeps alive keeps other views alive for it. -/
theorem Reaches.trans {i j : NodeId} (h : reg.Reaches held i) (h' : reg.Reaches [i] j) :
    reg.Reaches held j := by
  obtain ⟨r, hr, hpath⟩ := h
  obtain ⟨k, hk, hpath'⟩ := h'
  obtain rfl : k = i := List.mem_singleton.mp hk
  exact ⟨r, hr, hpath.trans hpath'⟩

/-- What keeps a view alive goes on keeping it as the registry grows. -/
theorem Keeps.grow {reg' : Registry α} {i j : NodeId} (h : reg.Keeps i j) (hg : reg.Grows reg') :
    reg'.Keeps i j := by
  obtain ⟨n, hn, hj⟩ := h
  obtain ⟨n', hn', hview, hrev⟩ := hg i n hn
  refine ⟨n', hn', ?_⟩
  rcases List.mem_append.mp hj with hj | hj
  · rw [Node.keeps, hview]
    exact List.mem_append_left _ hj
  · obtain ⟨d, hd, hnode⟩ := Option.bind_eq_some_iff.mp (Option.mem_toList.mp hj)
    refine List.mem_append_right _ (Option.mem_toList.mpr ?_)
    exact Option.bind_eq_some_iff.mpr ⟨d, hrev d hd, hnode⟩

theorem Reaches.grow {reg' : Registry α} {j : NodeId} (h : reg.Reaches held j)
    (hg : reg.Grows reg') : reg'.Reaches held j := by
  obtain ⟨i, hi, hpath⟩ := h
  exact ⟨i, hi, hpath.lift id fun _ _ hkeeps => Keeps.grow hkeeps hg⟩

/-- A surviving view which is not a weakly referring one is kept by a younger one, and so on up to
one that is held. -/
theorem reaches_of_not_isWeak (hw : reg.WellFormed) {i : NodeId} {n : Node α}
    (hi : (reg.release held).isAlive i = true) (hn : reg.nodes[i]? = some n)
    (hstrong : n.view.isWeak = false) : reg.Reaches held i := by
  -- what keeps such a view is younger, and there are only so many younger ones
  induction hd : reg.nodes.size - i using Nat.strongRecOn generalizing i n with
  | ind d ih =>
    rcases kept_of_isAlive_release hi with hheld | ⟨k, hk, hkeeps⟩
    · exact ⟨i, hheld, .refl⟩
    · obtain ⟨m, hm, -⟩ := exists_node_of_isAlive (isAlive_of_release hk)
      have hlt : i < k := by
        rcases hkeeps.older_or_weak hw with hlt | ⟨n', hn', hweak⟩
        · exact hlt
        · obtain rfl : n = n' := Option.some.inj (hn.symm.trans hn')
          simp [hstrong] at hweak
      have hless : reg.nodes.size - k < d := by
        rw [← hd]
        exact Nat.sub_lt_sub_left (Nat.lt_trans hlt (lt_size_of_node hm)) hlt
      exact (ih _ hless hk hm (hkeeps.isWeak_eq_false hw hm) rfl).tail hkeeps

theorem reaches_of_isAlive_release (hw : reg.WellFormed) {i : NodeId}
    (hi : (reg.release held).isAlive i = true) : reg.Reaches held i := by
  rcases kept_of_isAlive_release hi with hheld | ⟨k, hk, hkeeps⟩
  · exact ⟨i, hheld, .refl⟩
  · obtain ⟨m, hm, -⟩ := exists_node_of_isAlive (isAlive_of_release hk)
    exact (reaches_of_not_isWeak hw hk hm (hkeeps.isWeak_eq_false hw hm)).tail hkeeps

/-- What is kept alive by something that exists exists, through any number of references. -/
theorem Closed.isAlive_of_reaches (hc : reg.Closed)
    (hheld : ∀ i ∈ held, reg.isAlive i = true) {j : NodeId} (h : reg.Reaches held j) :
    reg.isAlive j = true := by
  obtain ⟨i, hi, hpath⟩ := h
  induction hpath with
  | refl => exact hheld i hi
  | tail _ hkeeps ih =>
    obtain ⟨n, hn, hj⟩ := hkeeps
    exact hc _ n hn ((isAlive_eq hn).symm.trans ih) _ hj

end Registry

end OrderedBag
