import OrderedBag.Proofs.Upkeep
import Mathlib.Data.List.Nodup

/-!
# Handles and tables

A handle is live when whatever it holds exists. Looking a name up changes nothing, and a table of
live handles hands out views that exist.

* `Handle.ofView_ends`, `Handle.ofElements_ends` — a new handle is live
* `Table.bag_bind`, … — what follows the look-up of a name
-/

namespace OrderedBag

open OrderedBag.Action

variable {α β : Type}

/-! ## Handles -/

/-- Whatever a handle holds exists, and a weak reference refers to something that existed. -/
def Handle.Live (reg : Registry α) : Handle α → Prop
  | bag v => reg.Live v
  | elements s => reg.Live s.view
  | entries s => reg.Live s.view
  | weak v => reg.Houses v
  | walk _ | comparator _ => True

namespace Handle

variable {reg reg' : Registry α}

theorem Live.moves {h : Handle α} (hl : h.Live reg) (hm : reg.Moves reg') : h.Live reg' := by
  cases h with
  | bag v => exact Registry.Live.moves hl hm
  | elements s => exact Registry.Live.moves hl hm
  | entries s => exact Registry.Live.moves hl hm
  | weak v => exact Registry.Houses.moves hl hm
  | walk w => trivial
  | comparator c => trivial

theorem ofView_ends {v : View α} (hv : reg.Supports v) :
    (ofView v).Ends reg fun h reg' => h.Live reg' ∧ h = .bag (reg.enroll v).1 := by
  obtain ⟨hm, hl⟩ := Registry.enroll_spec hv
  refine Ends.bind (P := fun w reg' => reg'.Live w ∧ w = (reg.enroll v).1)
    (ends_updating hm ⟨hl, rfl⟩) fun w reg' _ hw => ?_
  exact ends_pure ⟨hw.1, congrArg bag hw.2⟩

theorem ofElements_ends {s : ElementSet α} (hs : reg.Supports s.view) :
    (ofElements s).Ends reg fun h reg' =>
      h.Live reg' ∧ h = .elements { s with view := (reg.enroll s.view).1 } := by
  obtain ⟨hm, hl⟩ := Registry.enroll_spec hs
  refine Ends.bind (P := fun w reg' => reg'.Live w ∧ w = (reg.enroll s.view).1)
    (ends_updating hm ⟨hl, rfl⟩) fun w reg' _ hw => ?_
  refine ends_pure ⟨hw.1, ?_⟩
  rw [hw.2]

end Handle

/-! ## Tables -/

namespace Table

variable {reg reg' : Registry α} {t : Table α}

/-- Every handle of the table is live. -/
def Live (reg : Registry α) (t : Table α) : Prop :=
  ∀ entry ∈ t, entry.2.Live reg

theorem Live.moves (ht : t.Live reg) (hm : reg.Moves reg') : t.Live reg' :=
  fun entry he => (ht entry he).moves hm

theorem mem_of_find? {name : String} {h : Handle α} (hf : t.find? name = some h) :
    (name, h) ∈ t := by
  unfold find? at hf
  induction t with
  | nil => simp at hf
  | cons entry t ih =>
    obtain ⟨key, h'⟩ := entry
    rw [List.lookup_cons] at hf
    split at hf
    next hkey =>
      obtain rfl : name = key := eq_of_beq hkey
      obtain rfl : h' = h := Option.some.inj hf
      exact List.mem_cons_self
    next => exact List.mem_cons_of_mem _ (ih hf)

@[simp] theorem find?_bind_self (t : Table α) (name : String) (h : Handle α) :
    (t.bind name h).find? name = some h := by
  simp [bind, find?]

@[simp] theorem find?_erase_self (t : Table α) (name : String) :
    (t.erase name).find? name = none := by
  refine List.lookup_eq_none_iff.mpr fun entry he => ?_
  have hne : entry.1 ≠ name := by simpa using (List.mem_filter.mp he).2
  simpa using hne.symm

theorem find?_erase_of_ne (t : Table α) {name other : String} (hne : other ≠ name) :
    (t.erase name).find? other = t.find? other := by
  unfold erase find?
  induction t with
  | nil => rfl
  | cons entry t ih =>
    obtain ⟨key, h⟩ := entry
    by_cases hkey : key = name
    · subst hkey
      rw [List.filter_cons_of_neg (by simp), ih, List.lookup_cons, beq_false_of_ne hne]
    · rw [List.filter_cons_of_pos (by simpa using hkey), List.lookup_cons, List.lookup_cons, ih]

/-- Binding a name leaves the others as they are. -/
theorem find?_bind_of_ne (t : Table α) {name other : String} (hne : other ≠ name) (h : Handle α) :
    (t.bind name h).find? other = t.find? other := by
  rw [← find?_erase_of_ne t hne]
  unfold bind find?
  rw [List.lookup_cons, beq_false_of_ne hne]

theorem Live.find? (ht : t.Live reg) {name : String} {h : Handle α}
    (hf : t.find? name = some h) : h.Live reg :=
  ht _ (mem_of_find? hf)

theorem Live.erase (ht : t.Live reg) (name : String) : (t.erase name).Live reg :=
  fun entry he => ht entry (List.mem_filter.mp he).1

theorem Live.bind (ht : t.Live reg) {h : Handle α} (hh : h.Live reg) (name : String) :
    (t.bind name h).Live reg := by
  intro entry he
  rcases List.mem_cons.mp he with rfl | he
  · exact hh
  · exact ht.erase name entry he

/-- No name stands for two handles. -/
def Distinct (t : Table α) : Prop :=
  (t.map Prod.fst).Nodup

theorem Distinct.erase (ht : t.Distinct) (name : String) : (t.erase name).Distinct :=
  List.Nodup.sublist (List.filter_sublist.map Prod.fst) ht

theorem Distinct.bind (ht : t.Distinct) (name : String) (h : Handle α) :
    (t.bind name h).Distinct := by
  refine List.nodup_cons.mpr ⟨?_, ht.erase name⟩
  intro hmem
  obtain ⟨entry, he, hname⟩ := List.mem_map.mp hmem
  have hne := (List.mem_filter.mp he).2
  simp [hname] at hne

theorem Distinct.eq_of_mem (ht : t.Distinct) {name : String} {h h' : Handle α}
    (hh : (name, h) ∈ t) (hh' : (name, h') ∈ t) : h = h' :=
  congrArg Prod.snd (List.inj_on_of_nodup_map ht hh hh' rfl)

/-- A table answers a handle of the wanted kind or fails, and nothing changes. -/
theorem perform_expect (t : Table α) (pick : Handle α → Option β) (name : String)
    (reg : Registry α) :
    (t.expect pick name).perform reg =
      (match (t.find? name).bind pick with
        | some b => .ok b
        | none => .error (.unsuitableHandle name), reg) := by
  unfold expect
  cases (t.find? name).bind pick <;> rfl

section

variable {name : String}

theorem perform_bag {v : View α} (h : t.find? name = some (.bag v)) (reg : Registry α) :
    (t.bag name).perform reg = (.ok v, reg) := by
  rw [bag, perform_expect, h]
  rfl

theorem perform_source {s : Source α} (h : t.find? name = some (.bag (.source s)))
    (reg : Registry α) : (t.source name).perform reg = (.ok s, reg) := by
  rw [source, perform_expect, h]
  rfl

theorem perform_elements {u : ElementSet α} (h : t.find? name = some (.elements u))
    (reg : Registry α) : (t.elements name).perform reg = (.ok u, reg) := by
  rw [elements, perform_expect, h]
  rfl

theorem perform_entries {u : EntrySet α} (h : t.find? name = some (.entries u))
    (reg : Registry α) : (t.entries name).perform reg = (.ok u, reg) := by
  rw [entries, perform_expect, h]
  rfl

theorem perform_walk {w : Walk α} (h : t.find? name = some (.walk w)) (reg : Registry α) :
    (t.walk name).perform reg = (.ok w, reg) := by
  rw [walk, perform_expect, h]
  rfl

theorem perform_comparator {c : Comparator α} (h : t.find? name = some (.comparator c))
    (reg : Registry α) : (t.comparator name).perform reg = (.ok c, reg) := by
  rw [comparator, perform_expect, h]
  rfl

theorem perform_weak {v : View α} (h : t.find? name = some (.weak v)) (reg : Registry α) :
    (t.weak name).perform reg = (.ok v, reg) := by
  rw [weak, perform_expect, h]
  rfl

end

theorem expect_orderly (t : Table α) (pick : Handle α → Option β) (name : String)
    (reg : Registry α) : (t.expect pick name).Orderly reg := by
  refine ⟨?_, fun _ _ => trivial⟩
  rw [perform_expect]

/-- What follows a look-up in the table. -/
theorem expect_bind {pick : Handle α → Option β} {name : String} {γ : Type}
    {R : γ → Registry α → Prop} {f : β → Action α γ}
    (hf : ∀ h b, t.find? name = some h → pick h = some b → (f b).Ends reg R) :
    (t.expect pick name >>= f).Ends reg R := by
  refine .read (by rw [perform_expect]) fun b hb => ?_
  rw [perform_expect] at hb
  cases hfind : t.find? name with
  | none => simp [hfind] at hb
  | some h =>
    rw [hfind, Option.bind_some] at hb
    cases hpick : pick h with
    | none => simp [hpick] at hb
    | some b' =>
      rw [hpick] at hb
      obtain rfl : b' = b := Except.ok.inj hb
      exact hf h b' hfind hpick

section

variable {γ : Type} {R : γ → Registry α → Prop} {name : String}

theorem bag_bind (ht : t.Live reg) {f : View α → Action α γ}
    (hf : ∀ v, t.find? name = some (.bag v) → reg.Live v → (f v).Ends reg R) :
    (t.bag name >>= f).Ends reg R := by
  refine expect_bind fun h v hfind hpick => ?_
  cases h <;> cases hpick
  exact hf v hfind (ht.find? hfind)

theorem source_bind (ht : t.Live reg) {f : Source α → Action α γ}
    (hf : ∀ s, t.find? name = some (.bag (.source s)) → reg.Live (.source s) → (f s).Ends reg R) :
    (t.source name >>= f).Ends reg R := by
  refine expect_bind fun h s hfind hpick => ?_
  rcases h with v | _ | _ | _ | _ | _
  · cases v <;> cases hpick
    exact hf s hfind (ht.find? hfind)
  all_goals cases hpick

theorem elements_bind (ht : t.Live reg) {f : ElementSet α → Action α γ}
    (hf : ∀ s, t.find? name = some (.elements s) → reg.Live s.view → (f s).Ends reg R) :
    (t.elements name >>= f).Ends reg R := by
  refine expect_bind fun h s hfind hpick => ?_
  cases h <;> cases hpick
  exact hf s hfind (ht.find? hfind)

theorem entries_bind (ht : t.Live reg) {f : EntrySet α → Action α γ}
    (hf : ∀ s, t.find? name = some (.entries s) → reg.Live s.view → (f s).Ends reg R) :
    (t.entries name >>= f).Ends reg R := by
  refine expect_bind fun h s hfind hpick => ?_
  cases h <;> cases hpick
  exact hf s hfind (ht.find? hfind)

end

end Table

end OrderedBag
