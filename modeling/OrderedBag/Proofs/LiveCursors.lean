import OrderedBag.Proofs.NestedViews

/-!
# Live cursors

An iterator over a bag may be asked while the bag changes. Each time it answers the nearest entry
that is stored at that moment, lies in its interval and is strictly beyond the last one that it
answered; when there is none, it is through for good. So what it yields is strictly monotone, and an
element that is stored all along is yielded exactly once.

* `Serves`, `Tracks` — what the calls of such an iterator answer, one after the other and in all
* `Cursor.serves` — a cursor serves its calls, whatever is stored at each of them
* `Session.Visits` — an iterator over a source in a run, with the calls that were made of it
* `Session.visits_spec` — those calls track what is stored, whatever happens between them
-/

namespace OrderedBag

open Std OrderedBag.Action

variable {α : Type} {c : Comparator α} {r : Interval α} {d : Direction}

/-- One call of an iterator: what is stored at that moment, and the answer. -/
structure Call (α : Type) where
  /-- The contents of the bag. -/
  stored : Histogram α
  /-- The entry that is yielded, if any. -/
  answer : Option (Entry α)

/-- The last element that the calls yielded, if any. -/
def latest (calls : List (Call α)) : Option α :=
  (calls.filterMap Call.answer).getLast?.map Entry.element

/-- The entry is stored, lies in the interval, and comes strictly after the last element. -/
structure Ahead (c : Comparator α) (r : Interval α) (d : Direction) (last : Option α)
    (h : Histogram α) (e : Entry α) : Prop where
  stored : e ∈ h.entries
  inside : r.contains c e.element = true
  beyond : ∀ x ∈ last, (c.towards d).compare x e.element = .lt

/-- The calls answer one entry after the other, each the nearest of those ahead, until none is
ahead; after that they answer nothing. -/
inductive Serves (c : Comparator α) (r : Interval α) (d : Direction) :
    Option α → List (Call α) → Prop
  | nil {last : Option α} : Serves c r d last []
  | found {last : Option α} {h : Histogram α} {e : Entry α} {calls : List (Call α)}
      (hahead : Ahead c r d last h e)
      (hnearest : ∀ f, Ahead c r d last h f → f = e ∨ (c.towards d).Precedes e f)
      (rest : Serves c r d (some e.element) calls) : Serves c r d last (⟨h, some e⟩ :: calls)
  | done {last : Option α} {h : Histogram α} {calls : List (Call α)}
      (hnone : ∀ f, ¬ Ahead c r d last h f) (rest : ∀ call ∈ calls, call.answer = none) :
      Serves c r d last (⟨h, none⟩ :: calls)

theorem Comparator.towards_eq {x y : α} (h : c.compare x y = .eq) (d : Direction) :
    (c.towards d).compare x y = .eq := by
  cases d with
  | ascending => exact h
  | descending => rw [towards, compare_reversed, h]; rfl

/-! ## Cursors -/

namespace Cursor

/-- What a cursor answers when it is asked once for each of the contents. -/
def answers : Cursor α → List (Histogram α) → List (Option (Entry α))
  | _, [] => []
  | k, h :: hs => (k.next h).1 :: answers (k.next h).2 hs

/-- The cursor after that. -/
def after : Cursor α → List (Histogram α) → Cursor α
  | k, [] => k
  | k, h :: hs => after (k.next h).2 hs

theorem answers_append (k : Cursor α) (hs hs' : List (Histogram α)) :
    k.answers (hs ++ hs') = k.answers hs ++ (k.after hs).answers hs' := by
  induction hs generalizing k with
  | nil => rfl
  | cons h hs ih => exact congrArg ((k.next h).1 :: ·) (ih _)

theorem after_append (k : Cursor α) (hs hs' : List (Histogram α)) :
    k.after (hs ++ hs') = (k.after hs).after hs' := by
  induction hs generalizing k with
  | nil => rfl
  | cons h hs ih => exact ih _

theorem length_answers (k : Cursor α) (hs : List (Histogram α)) :
    (k.answers hs).length = hs.length := by
  induction hs generalizing k with
  | nil => rfl
  | cons h hs ih => exact congrArg (· + 1) (ih _)

/-- Whatever is stored, what remains for the cursor is what is ahead of its last element. -/
structure Awaits (c : Comparator α) (r : Interval α) (d : Direction) (k : Cursor α) : Prop where
  comparator : k.comparator = c
  direction : k.direction = d
  remaining : ∀ h : Histogram α, k.remaining h =
    d.orient (h.entries.filter fun e =>
      r.contains c e.element && k.last.all fun x => ((c.towards d).compare x e.element).isLT)

theorem awaits_begin (c : Comparator α) (r : Interval α) (d : Direction) :
    (begin c r d).Awaits c r d := by
  refine ⟨rfl, rfl, fun h => ?_⟩
  rw [remaining_begin]
  simp [begin]

theorem Awaits.mem_remaining {k : Cursor α} (hk : k.Awaits c r d) {h : Histogram α}
    {e : Entry α} : e ∈ k.remaining h ↔ Ahead c r d k.last h e := by
  rw [hk.remaining, Direction.mem_orient, List.mem_filter, Bool.and_eq_true, Option.all_eq_true]
  simp only [Ordering.isLT_iff_eq_lt]
  exact ⟨fun ⟨hmem, hin, hlast⟩ => ⟨hmem, hin, hlast⟩, fun ⟨hmem, hin, hlast⟩ => ⟨hmem, hin, hlast⟩⟩

theorem Awaits.pairwise {k : Cursor α} (hk : k.Awaits c r d) {h : Histogram α}
    (hv : h.Valid c) : (k.remaining h).Pairwise (c.towards d).Precedes := by
  have hsorted := pairwise_remaining (k := k) (h := h) (by rw [hk.comparator]; exact hv.sorted)
  rwa [hk.comparator, hk.direction] at hsorted

/-- A cursor that yields an entry awaits what is beyond that entry. -/
theorem Awaits.yield {k : Cursor α} (hk : k.Awaits c r d) {h : Histogram α} {e : Entry α}
    (he : e ∈ k.remaining h) : ({ k with last := some e.element } : Cursor α).Awaits c r d := by
  refine ⟨hk.comparator, hk.direction, fun h' => ?_⟩
  have hahead := hk.mem_remaining.mp he
  have hopen : k.exhausted = false := by
    cases hk' : k.exhausted with
    | false => rfl
    | true => simp [remaining_of_exhausted hk'] at he
  have hadm : k.admits e.element = true := by
    rw [remaining_eq hopen, Direction.mem_orient] at he
    exact (List.mem_filter.mp he).2
  rw [remaining_last hopen hadm, hk.remaining, hk.comparator, hk.direction,
    Direction.filter_orient, List.filter_filter]
  -- beyond the new element is beyond the old one, too
  refine congrArg d.orient (List.filter_congr fun f _ => ?_)
  rw [Bool.eq_iff_iff]
  simp only [Bool.and_eq_true, Option.all_eq_true, Ordering.isLT_iff_eq_lt]
  constructor
  · rintro ⟨hlt, hin, -⟩
    refine ⟨hin, ?_⟩
    rintro x ⟨⟩
    exact hlt
  · rintro ⟨hin, hlt⟩
    have hlt := hlt e.element rfl
    exact ⟨hlt, hin, fun x hx => TransCmp.lt_trans (hahead.beyond x hx) hlt⟩

theorem next_of_nil {k : Cursor α} {h : Histogram α} (hrem : k.remaining h = []) :
    k.next h = (none, { k with exhausted := true }) := by
  unfold next advance
  rw [hrem]
  rfl

theorem next_of_cons {k : Cursor α} {h : Histogram α} {e : Entry α} {es : List (Entry α)}
    (hrem : k.remaining h = e :: es) :
    k.next h = (some e, { k with last := some e.element }) := by
  unfold next advance
  rw [hrem]
  rfl

/-- A cursor yields the nearest entry ahead and awaits what is beyond it, or there is none ahead and
the cursor is exhausted. -/
theorem Awaits.next {k : Cursor α} (hk : k.Awaits c r d) {h : Histogram α} (hv : h.Valid c) :
    (∃ e, k.next h = (some e, { k with last := some e.element }) ∧ Ahead c r d k.last h e ∧
      (∀ f, Ahead c r d k.last h f → f = e ∨ (c.towards d).Precedes e f) ∧
        ({ k with last := some e.element } : Cursor α).Awaits c r d) ∨
      k.next h = (none, { k with exhausted := true }) ∧ ∀ f, ¬ Ahead c r d k.last h f := by
  cases hrem : k.remaining h with
  | nil =>
    refine .inr ⟨next_of_nil hrem, fun f hf => ?_⟩
    simpa [hrem] using hk.mem_remaining.mpr hf
  | cons e es =>
    have he : e ∈ k.remaining h := by rw [hrem]; exact List.mem_cons_self
    refine .inl ⟨e, next_of_cons hrem, hk.mem_remaining.mp he, fun f hf => ?_, hk.yield he⟩
    have hsorted := hk.pairwise hv
    have hmem := hk.mem_remaining.mpr hf
    rw [hrem] at hsorted hmem
    exact (List.mem_cons.mp hmem).imp_right ((List.pairwise_cons.mp hsorted).1 f)

/-- An exhausted cursor answers nothing. -/
theorem answers_of_exhausted {k : Cursor α} (hk : k.exhausted = true) (hs : List (Histogram α)) :
    ∀ a ∈ k.answers hs, a = none := by
  induction hs with
  | nil => simp [answers]
  | cons h hs ih =>
    rw [answers, next_of_exhausted hk]
    exact List.forall_mem_cons.mpr ⟨rfl, ih⟩

/-- A cursor serves its calls, whatever is stored at each of them. -/
theorem serves {k : Cursor α} (hk : k.Awaits c r d) {calls : List (Call α)}
    (hvalid : ∀ call ∈ calls, call.stored.Valid c)
    (hcalls : calls.map Call.answer = k.answers (calls.map Call.stored)) :
    Serves c r d k.last calls := by
  induction calls generalizing k with
  | nil => exact .nil
  | cons call calls ih =>
    obtain ⟨h, answer⟩ := call
    obtain ⟨hv, hvalids⟩ := List.forall_mem_cons.mp hvalid
    rw [List.map_cons, List.map_cons, answers, List.cons_eq_cons] at hcalls
    obtain ⟨hanswer, hrest⟩ := hcalls
    rcases hk.next hv with ⟨e, hnext, hahead, hnearest, hyield⟩ | ⟨hnext, hnone⟩
    · rw [hnext] at hanswer hrest
      obtain rfl : answer = some e := hanswer
      exact .found hahead hnearest (ih hyield hvalids hrest)
    · rw [hnext] at hanswer hrest
      obtain rfl : answer = none := hanswer
      refine .done hnone fun call hcall => ?_
      refine answers_of_exhausted (k := { k with exhausted := true }) rfl
        (calls.map Call.stored) call.answer ?_
      rw [← hrest]
      exact List.mem_map_of_mem hcall

end Cursor

/-! ## What follows from the single calls -/

@[simp] theorem Call.yields_some (h : Histogram α) (e : Entry α) (calls : List (Call α)) :
    (⟨h, some e⟩ :: calls).filterMap answer = e :: calls.filterMap answer := rfl

@[simp] theorem Call.yields_none (h : Histogram α) (calls : List (Call α)) :
    (⟨h, none⟩ :: calls).filterMap answer = calls.filterMap answer := rfl

namespace Serves

variable {last : Option α} {calls : List (Call α)}

/-- What is yielded is stored at the moment of the call, and lies in the interval. -/
theorem stored (hs : Serves c r d last calls) {call : Call α} (hcall : call ∈ calls) {e : Entry α}
    (he : call.answer = some e) :
    e ∈ call.stored.entries ∧ r.contains c e.element = true := by
  induction hs with
  | nil => cases hcall
  | found hahead _ _ ih =>
    rcases List.mem_cons.mp hcall with rfl | hcall
    · obtain rfl := Option.some.inj he
      exact ⟨hahead.stored, hahead.inside⟩
    · exact ih hcall
  | done _ rest =>
    rcases List.mem_cons.mp hcall with rfl | hcall
    · cases he
    · rw [rest call hcall] at he
      cases he

/-- What is yielded comes strictly after the last element. -/
theorem beyond (hs : Serves c r d last calls) {e : Entry α}
    (he : e ∈ calls.filterMap Call.answer) :
    ∀ x ∈ last, (c.towards d).compare x e.element = .lt := by
  induction hs with
  | nil => cases he
  | found hahead _ _ ih =>
    rw [Call.yields_some, List.mem_cons] at he
    rcases he with rfl | he
    · exact hahead.beyond
    · exact fun x hx => TransCmp.lt_trans (hahead.beyond x hx) (ih he _ rfl)
  | done _ rest =>
    obtain ⟨call, hcall, he⟩ := List.mem_filterMap.mp he
    rcases List.mem_cons.mp hcall with rfl | hcall
    · cases he
    · rw [rest call hcall] at he
      cases he

/-- After a call that yields nothing no call yields anything. -/
theorem ended (hs : Serves c r d last calls) {before after : List (Call α)} {call : Call α}
    (hsplit : calls = before ++ call :: after) (hcall : call.answer = none) :
    ∀ p ∈ after, p.answer = none := by
  induction hs generalizing before with
  | nil => simp at hsplit
  | found _ _ _ ih =>
    cases before with
    | nil =>
      obtain ⟨rfl, -⟩ := List.cons.inj hsplit
      cases hcall
    | cons p before => exact ih (List.cons.inj hsplit).2
  | done _ rest =>
    cases before with
    | nil =>
      obtain ⟨-, rfl⟩ := List.cons.inj hsplit
      exact rest
    | cons p before =>
      obtain ⟨-, rfl⟩ := List.cons.inj hsplit
      exact fun q hq => rest q (List.mem_append_right _ (List.mem_cons_of_mem _ hq))

/-- What is yielded is strictly monotone in the direction of the iterator. -/
theorem pairwise (hs : Serves c r d last calls) :
    (calls.filterMap Call.answer).Pairwise (c.towards d).Precedes := by
  induction hs with
  | nil => exact .nil
  | found _ _ rest ih =>
    rw [Call.yields_some]
    exact List.pairwise_cons.mpr ⟨fun f hf => rest.beyond hf _ rfl, ih⟩
  | @done last h calls _ rest =>
    have hnil : calls.filterMap Call.answer = [] := List.filterMap_eq_nil_iff.mpr rest
    rw [Call.yields_none, hnil]
    exact .nil

/-- As long as every call yields an entry, the next one answers the nearest entry ahead. -/
theorem nearest (hs : Serves c r d last calls) {before after : List (Call α)} {call : Call α}
    (hsplit : calls = before ++ call :: after) (hbefore : ∀ p ∈ before, p.answer ≠ none) :
    (∀ e, call.answer = some e → Ahead c r d ((latest before).or last) call.stored e ∧
      ∀ f, Ahead c r d ((latest before).or last) call.stored f →
        f = e ∨ (c.towards d).Precedes e f) ∧
    (call.answer = none → ∀ f, ¬ Ahead c r d ((latest before).or last) call.stored f) := by
  induction hs generalizing before with
  | nil => simp at hsplit
  | @found last h e calls hahead hnearest _ ih =>
    cases before with
    | nil =>
      obtain ⟨rfl, -⟩ := List.cons.inj hsplit
      refine ⟨?_, fun hnone => (by cases hnone)⟩
      rintro _ ⟨⟩
      exact ⟨hahead, hnearest⟩
    | cons p before =>
      obtain ⟨rfl, hrest⟩ := List.cons.inj hsplit
      have hlatest : (latest (⟨h, some e⟩ :: before)).or last =
          (latest before).or (some e.element) := by
        unfold latest
        rw [Call.yields_some, List.getLast?_cons]
        cases (before.filterMap Call.answer).getLast? <;> rfl
      rw [hlatest]
      exact ih hrest fun q hq => hbefore q (List.mem_cons_of_mem _ hq)
  | @done last h calls hnone _ =>
    cases before with
    | nil =>
      obtain ⟨rfl, -⟩ := List.cons.inj hsplit
      exact ⟨fun e he => (by cases he), fun _ => hnone⟩
    | cons p before =>
      obtain ⟨rfl, -⟩ := List.cons.inj hsplit
      exact absurd rfl (hbefore _ List.mem_cons_self)

/-- An entry of the given element that is stored is ahead if the element is. -/
theorem ahead_of_eq {h : Histogram α} {f : Entry α} {x : α} (hf : f ∈ h.entries)
    (hfx : c.compare f.element x = .eq) (hx : r.contains c x = true)
    (hlast : ∀ y ∈ last, (c.towards d).compare y x = .lt) : Ahead c r d last h f where
  stored := hf
  inside := by rw [Interval.contains_congr hfx, hx]
  beyond := fun y hy =>
    TransCmp.lt_of_lt_of_eq (hlast y hy) (Comparator.eq_symm (Comparator.towards_eq hfx d))

/-- An element that is stored at every call until one yields nothing is yielded exactly once. -/
theorem once (hs : Serves c r d last calls) {before after : List (Call α)} {call : Call α}
    (hsplit : calls = before ++ call :: after) (hcall : call.answer = none)
    (hbefore : ∀ p ∈ before, p.answer ≠ none) {x : α} (hx : r.contains c x = true)
    (hlast : ∀ y ∈ last, (c.towards d).compare y x = .lt)
    (hstored : ∀ p ∈ before ++ [call], ∃ e ∈ p.stored.entries, c.compare e.element x = .eq) :
    ((before.filterMap Call.answer).countP fun e => (c.compare e.element x).isEq) = 1 := by
  induction hs generalizing before with
  | nil => simp at hsplit
  | @found last h e calls hahead hnearest rest ih =>
    cases before with
    | nil =>
      obtain ⟨rfl, -⟩ := List.cons.inj hsplit
      cases hcall
    | cons p before =>
      obtain ⟨rfl, hrest⟩ := List.cons.inj hsplit
      rw [Call.yields_some, List.countP_cons]
      -- the entry of `x` is ahead, so it is yielded now or is still ahead afterwards
      obtain ⟨f, hf, hfx⟩ := hstored ⟨h, some e⟩ List.mem_cons_self
      rcases hnearest f (ahead_of_eq hf hfx hx hlast) with rfl | hef
      · have hnone : (before.filterMap Call.answer).countP
            (fun g => (c.compare g.element x).isEq) = 0 := by
          refine List.countP_eq_zero.mpr fun g hg hgx => ?_
          rw [Ordering.isEq_iff_eq_eq] at hgx
          obtain ⟨q, hq, hgq⟩ := List.mem_filterMap.mp hg
          have hcalls : g ∈ calls.filterMap Call.answer := by
            rw [hrest]
            exact List.mem_filterMap.mpr ⟨q, List.mem_append_left _ hq, hgq⟩
          have hlt := rest.beyond hcalls _ rfl
          rw [Comparator.towards_eq (TransCmp.eq_trans hfx (Comparator.eq_symm hgx)) d] at hlt
          cases hlt
        rw [hnone, hfx]
        rfl
      · have hex : (c.towards d).compare e.element x = .lt :=
          TransCmp.lt_of_lt_of_eq hef (Comparator.towards_eq hfx d)
        have hne : (c.compare e.element x).isEq = false := by
          cases hcmp : c.compare e.element x with
          | eq => simp [Comparator.towards_eq hcmp d] at hex
          | _ => rfl
        rw [hne, ih hrest (fun q hq => hbefore q (List.mem_cons_of_mem _ hq))
          (by rintro _ ⟨⟩; exact hex) fun q hq => hstored q (List.mem_cons_of_mem _ hq)]
        rfl
  | @done last h calls hnone _ =>
    cases before with
    | nil =>
      obtain ⟨rfl, -⟩ := List.cons.inj hsplit
      obtain ⟨f, hf, hfx⟩ := hstored ⟨h, none⟩ List.mem_cons_self
      exact absurd (ahead_of_eq hf hfx hx hlast) (hnone f)
    | cons p before =>
      obtain ⟨rfl, -⟩ := List.cons.inj hsplit
      exact absurd rfl (hbefore _ List.mem_cons_self)

end Serves

/-- What the calls of an iterator over an interval tell of what is stored meanwhile. -/
structure Tracks (c : Comparator α) (r : Interval α) (d : Direction) (calls : List (Call α)) :
    Prop where
  /-- What is yielded lies in the interval, and is stored with this count at that moment. -/
  stored : ∀ call ∈ calls, ∀ e, call.answer = some e →
    e ∈ call.stored.entries ∧ r.contains c e.element = true
  /-- What is yielded is strictly monotone. -/
  monotone : (calls.filterMap Call.answer).Pairwise (c.towards d).Precedes
  /-- Up to the first call that yields nothing, each answers the nearest of the entries that lie
  strictly beyond the last one, and yields nothing only if there is none. -/
  nearest : ∀ before call after, calls = before ++ call :: after →
    (∀ p ∈ before, p.answer ≠ none) →
    (∀ e, call.answer = some e → Ahead c r d (latest before) call.stored e ∧
      ∀ f, Ahead c r d (latest before) call.stored f → f = e ∨ (c.towards d).Precedes e f) ∧
    (call.answer = none → ∀ f, ¬ Ahead c r d (latest before) call.stored f)
  /-- What is stored all along until then is yielded exactly once. -/
  once : ∀ before call after, calls = before ++ call :: after → call.answer = none →
    (∀ p ∈ before, p.answer ≠ none) → ∀ x, r.contains c x = true →
    (∀ p ∈ before ++ [call], ∃ e ∈ p.stored.entries, c.compare e.element x = .eq) →
    ((before.filterMap Call.answer).countP fun e => (c.compare e.element x).isEq) = 1
  /-- And after that nothing is yielded any more. -/
  ended : ∀ before call after, calls = before ++ call :: after → call.answer = none →
    ∀ p ∈ after, p.answer = none

theorem Serves.tracks {calls : List (Call α)} (hs : Serves c r d none calls) :
    Tracks c r d calls where
  stored := fun _ hcall _ he => hs.stored hcall he
  monotone := hs.pairwise
  nearest := fun before call after hsplit hbefore => by
    have h := hs.nearest hsplit hbefore
    rwa [Option.or_none] at h
  once := fun _ _ _ hsplit hcall hbefore _ hx hstored =>
    hs.once hsplit hcall hbefore hx (by rintro _ ⟨⟩) hstored
  ended := fun _ _ _ hsplit hcall => hs.ended hsplit hcall

/-! ## Names that a command leaves alone -/

section

variable {β γ : Type}

/-- Whatever the action answers fulfils `P`. -/
def Action.Promises (a : Action α β) (P : β → Prop) : Prop :=
  ∀ reg b, (a.perform reg).1 = .ok b → P b

theorem Action.promises_pure {P : β → Prop} {b : β} (h : P b) :
    (pure b : Action α β).Promises P := by
  rintro reg _ ⟨⟩
  exact h

theorem Action.Promises.bind {P : γ → Prop} {a : Action α β} {f : β → Action α γ}
    (h : ∀ b, (f b).Promises P) : (a >>= f).Promises P := by
  intro reg x hx
  rw [perform_bind] at hx
  rcases hp : a.perform reg with ⟨_ | b, reg'⟩
  · rw [hp] at hx
    cases hx
  · rw [hp] at hx
    exact h b reg' x hx

end

/-- The name that a command gives or forgets, or the iterator that it asks. -/
def Command.target? : Command α → Option String
  | bind name _ | drop name | next name _ => some name
  | isAlive _ | same _ _ | change _ _ | askBag _ _ | askElements _ _ | askEntries _ _ |
    askComparator _ _ => none

/-- Any other name stands for what it stood for. -/
theorem Command.run_promises [Ord α] [TransOrd α] [Shown α] {t : Table α} {c : Command α}
    {name : String} (h : c.target? ≠ some name) :
    (c.run t).Promises fun p => p.2.find? name = t.find? name := by
  have hpure (a : Answer α) : (pure (a, t) : Action α (Answer α × Table α)).Promises fun p =>
      p.2.find? name = t.find? name := promises_pure rfl
  cases c with
  | bind target making =>
    have hne : name ≠ target := fun heq => h (congrArg some heq.symm)
    exact .bind fun handle => promises_pure (Table.find?_bind_of_ne t hne handle)
  | drop target =>
    have hne : name ≠ target := fun heq => h (congrArg some heq.symm)
    exact promises_pure (Table.find?_erase_of_ne t hne)
  | next target n =>
    have hne : name ≠ target := fun heq => h (congrArg some heq.symm)
    exact .bind fun w => .bind fun reg => promises_pure (Table.find?_bind_of_ne t hne _)
  | isAlive target => exact .bind fun v => .bind fun reg => hpure _
  | same first second => exact .bind fun b => hpure _
  | change target ch => exact .bind fun s => .bind fun a => hpure a
  | askBag target q => exact .bind fun v => .bind fun a => hpure a
  | askElements target q => exact .bind fun u => .bind fun a => hpure a
  | askEntries target q => exact .bind fun u => .bind fun a => hpure a
  | askComparator target q => exact .bind fun k => .bind fun a => hpure a

theorem Session.find?_step [Ord α] [TransOrd α] [Shown α] (s : Session α) {c : Command α}
    {name : String} (h : c.target? ≠ some name) (watched : List String) :
    (s.step watched c).2.table.find? name = s.table.find? name := by
  cases hp : (c.run s.table).perform s.fresh with
  | mk o reg =>
    cases o with
    | error e => rw [(step_of_error watched hp).2]
    | ok p =>
      obtain ⟨answer, t⟩ := p
      rw [(step_of_ok watched hp).2]
      exact Command.run_promises h s.fresh (answer, t) (by rw [hp])

/-! ## Iterators in a run -/

/-- Asking an iterator over a source several times asks its cursor. -/
theorem Walk.nexts_live (contents : BagId → Histogram α) (b : BagId) (k : Cursor α) (n : Nat) :
    (Walk.entries (.direct (.live b k))).nexts contents n =
      ((k.answers (.replicate n (contents b))).map (Option.map .entry),
        .entries (.direct (.live b (k.after (.replicate n (contents b)))))) := by
  induction n generalizing k with
  | zero => rfl
  | succ n ih =>
    rw [List.replicate_succ, Cursor.answers, Cursor.after, List.map_cons]
    show ((k.next (contents b)).1.map Item.entry ::
        ((Walk.entries (.direct (.live b (k.next (contents b)).2))).nexts contents n).1,
      ((Walk.entries (.direct (.live b (k.next (contents b)).2))).nexts contents n).2) = _
    rw [ih]

/-- The visits of a source with a comparator which go over an interval in a direction. -/
def Visit.Covers (c : Comparator α) (r : Interval α) (d : Direction) : Visit α → Prop
  | entries d' => d' = d ∧ r = .all
  | within d' q => d' = d ∧ q.eval c = some r
  | occurrences => False

/-- Over a source, a visit of all entries is the traversal that the source offers. -/
theorem Visit.perform_entries (b : Source α) (d : Direction) (reg : Registry α) :
    ((Visit.entries d).run (.source b)).perform reg =
      (.ok (.entries (b.scan reg.contents d)), reg) := by
  have hread : (reading fun reg => (View.source b).scan reg d).perform reg =
      (.ok (b.scan reg.contents d), reg) := by
    rw [perform_reading]
    rfl
  exact perform_bind_ok hread

/-- And a visit of an interval is the one that it offers for the interval. -/
theorem Visit.perform_within {b : Source α} {q : IntervalExpr α} (hq : q.eval b.comparator = some r)
    (d : Direction) (reg : Registry α) :
    ((Visit.within d q).run (.source b)).perform reg =
      (.ok (.entries (b.scanWithin reg.contents d r)), reg) := by
  have hrequire : (q.require b.comparator).perform reg = (.ok r, reg) := by
    unfold IntervalExpr.require
    rw [hq]
    rfl
  have hexpr : ((View.source b).scanExpr d q).perform reg =
      (.ok (b.scanWithin reg.contents d r), reg) := by
    refine (perform_bind_ok (b := b.comparator) rfl).trans ?_
    refine (perform_bind_ok hrequire).trans ?_
    rw [perform_reading]
    rfl
  exact perform_bind_ok hexpr

/-- Such a visit sets a cursor on the near end of the interval. -/
theorem Visit.run_covers {b : Source α} (ha : b.access = .indexed) {visit : Visit α}
    (hvisit : visit.Covers b.comparator r d) (reg : Registry α) :
    (visit.run (.source b)).perform reg =
      (.ok (.entries (.direct (.live b.bag (.begin b.comparator r d)))), reg) := by
  cases visit with
  | entries d' =>
    obtain ⟨rfl, rfl⟩ := hvisit
    have hscan : b.scan reg.contents d' = .direct (.live b.bag (.begin b.comparator .all d')) := by
      cases d' with
      | ascending => simp [Source.scan, Source.feed, ha]
      | descending => simp [Source.scan, Source.scanWithin, ha]
    rw [perform_entries, hscan]
  | within d' q =>
    obtain ⟨rfl, hq⟩ := hvisit
    have hscan : b.scanWithin reg.contents d' r =
        .direct (.live b.bag (.begin b.comparator r d')) := by
      simp [Source.scanWithin, ha]
    rw [perform_within hq, hscan]
  | occurrences => exact hvisit.elim

namespace Session

variable [Ord α] [TransOrd α] [Shown α]

/-- The calls of an iterator that was opened over a source, with any commands in between. -/
inductive Visits (b : Source α) (r : Interval α) (d : Direction) (name : String) :
    Session α → List (Call α) → Prop
  /-- The iterator is opened, under a name. -/
  | opened {s : Session α} {source : String} {visit : Visit α} (hs : s.Reachable)
      (hsource : s.table.find? source = some (.bag (.source b)))
      (hvisit : visit.Covers b.comparator r d) (watched : List String) :
      Visits b r d name (s.step watched (.bind name (.walk source visit))).2 []
  /-- It is asked, once or several times. -/
  | asked {s : Session α} {calls : List (Call α)} (h : Visits b r d name s calls) {n : Nat}
      {watched : List String} {answers : List (Option (Entry α))}
      (houtcome : (s.step watched (.next name n)).1.outcome =
        .ok (.items (answers.map (Option.map .entry)))) :
      Visits b r d name (s.step watched (.next name n)).2
        (calls ++ answers.map fun answer => ⟨s.registry.contents b.bag, answer⟩)
  /-- Anything else happens. -/
  | later {s : Session α} {calls : List (Call α)} (h : Visits b r d name s calls)
      {c : Command α} (hc : c.Valid) (hname : c.target? ≠ some name) (watched : List String) :
      Visits b r d name (s.step watched c).2 calls

variable {b : Source α} {name : String} {s : Session α} {calls : List (Call α)}

theorem Visits.reachable (h : Visits b r d name s calls) : s.Reachable := by
  induction h with
  | opened hs _ _ watched => exact hs.next (c := .bind _ (.walk _ _)) trivial watched
  | asked _ _ ih => exact ih.next (c := .next _ _) trivial _
  | later _ hc _ watched ih => exact ih.next hc watched

/-- A name is given to an iterator that is opened over a source. -/
theorem step_open {source : String} (hsource : s.table.find? source = some (.bag (.source b)))
    {visit : Visit α} {w : Walk α}
    (hvisit : (visit.run (.source b)).perform s.fresh = (.ok w, s.fresh)) (watched : List String) :
    (s.step watched (.bind name (.walk source visit))).2.table.find? name = some (.walk w) := by
  have hwalk : ((Making.walk source visit).run s.table).perform s.fresh =
      (.ok (.walk w), s.fresh) :=
    (perform_bind_ok (Table.perform_bag hsource s.fresh)).trans (perform_bind_ok hvisit)
  have hrun : ((Command.bind name (.walk source visit)).run s.table).perform s.fresh = _ :=
    perform_bind_ok hwalk
  rw [(step_of_ok watched hrun).2]
  exact Table.find?_bind_self _ _ _

/-- Asking an iterator tells what it yields, and leaves it in its new state. -/
theorem step_walk {w : Walk α} (hname : s.table.find? name = some (.walk w)) (n : Nat)
    (watched : List String) :
    (s.step watched (.next name n)).1.outcome =
        .ok (.items (w.nexts s.registry.contents n).1) ∧
      (s.step watched (.next name n)).2.table.find? name =
        some (.walk (w.nexts s.registry.contents n).2) := by
  have hrun : ((Command.next name n).run s.table).perform s.fresh = _ :=
    perform_bind_ok (Table.perform_walk hname s.fresh)
  obtain ⟨hout, hafter⟩ := step_of_ok watched (hrun.trans (perform_bind_ok (perform_get s.fresh)))
  rw [hafter]
  exact ⟨hout, Table.find?_bind_self _ _ _⟩

/-- Asking the iterator asks its cursor. -/
theorem step_next {k : Cursor α} (hname : s.table.find? name =
      some (.walk (.entries (.direct (.live b.bag k))))) (n : Nat) (watched : List String) :
    (s.step watched (.next name n)).1.outcome = .ok (.items ((k.answers
        (.replicate n (s.registry.contents b.bag))).map (Option.map .entry))) ∧
      (s.step watched (.next name n)).2.table.find? name = some (.walk (.entries (.direct
        (.live b.bag (k.after (.replicate n (s.registry.contents b.bag))))))) := by
  have hwalk := step_walk hname n watched
  rwa [Walk.nexts_live] at hwalk

/-- Meanwhile the name stands for the iterator, and its calls answered what its cursor yields. -/
theorem Visits.cursor (h : Visits b r d name s calls) (ha : b.access = .indexed) :
    s.registry.Houses (.source b) ∧
      s.table.find? name = some (.walk (.entries (.direct
        (.live b.bag ((Cursor.begin b.comparator r d).after (calls.map Call.stored)))))) ∧
      calls.map Call.answer =
        (Cursor.begin b.comparator r d).answers (calls.map Call.stored) ∧
      ∀ call ∈ calls, call.stored.Valid b.comparator := by
  induction h with
  | @opened s source visit hs hsource hvisit watched =>
    have hhouses := (hs.sound.live.find? hsource).1
    exact ⟨hhouses.grow (hs.sound.grows (c := .bind _ (.walk _ _)) trivial watched),
      step_open hsource (Visit.run_covers ha hvisit s.fresh) watched, rfl,
      fun _ hcall => absurd hcall List.not_mem_nil⟩
  | @asked s calls h n watched answers houtcome ih =>
    obtain ⟨hhouses, hname, hanswers, hvalid⟩ := ih
    have hs := h.reachable.sound
    obtain ⟨hout, hnext⟩ := step_next hname n watched
    -- the calls answered what the cursor yields, one for each time that the contents were looked at
    have hitems := Answer.items.inj (Except.ok.inj (houtcome.symm.trans hout))
    have hnew := List.map_injective_iff.mpr (Option.map_injective fun _ _ => Item.entry.inj) hitems
    have hlength : answers.length = n := by
      rw [hnew, Cursor.length_answers, List.length_replicate]
    have hstored : (answers.map fun answer =>
        (⟨s.registry.contents b.bag, answer⟩ : Call α)).map Call.stored =
          .replicate n (s.registry.contents b.bag) := by
      rw [List.map_map, ← hlength]
      exact List.map_const'
    have hanswer : (answers.map fun answer =>
        (⟨s.registry.contents b.bag, answer⟩ : Call α)).map Call.answer = answers := by
      rw [List.map_map]
      exact List.map_id _
    refine ⟨hhouses.grow (hs.grows (c := .next _ _) trivial watched), ?_, ?_, ?_⟩
    · rw [List.map_append, hstored, Cursor.after_append]
      exact hnext
    · rw [List.map_append, List.map_append, hstored, hanswer, Cursor.answers_append, hanswers, hnew]
    · intro call hcall
      rcases List.mem_append.mp hcall with hcall | hcall
      · exact hvalid call hcall
      · obtain ⟨answer, -, rfl⟩ := List.mem_map.mp hcall
        exact (hs.registry.stocks_root hhouses).2
  | @later s calls h c hc hname watched ih =>
    obtain ⟨hhouses, hfind, hanswers, hvalid⟩ := ih
    exact ⟨hhouses.grow (h.reachable.sound.grows hc watched),
      (s.find?_step hname watched).trans hfind, hanswers, hvalid⟩

/-- An iterator over a source with its own index answers every call. Whatever happens between the
calls, they track what is stored. -/
theorem visits_spec (h : Visits b r d name s calls) (ha : b.access = .indexed) :
    Tracks b.comparator r d calls ∧
      ∀ n watched, ∃ answers : List (Option (Entry α)), answers.length = n ∧
        (s.step watched (.next name n)).1.outcome =
          .ok (.items (answers.map (Option.map .entry))) := by
  obtain ⟨-, hname, hanswers, hvalid⟩ := h.cursor ha
  refine ⟨(Cursor.serves (Cursor.awaits_begin _ r d) hvalid hanswers).tracks, fun n watched => ?_⟩
  refine ⟨_, ?_, (step_next hname n watched).1⟩
  rw [Cursor.length_answers, List.length_replicate]

/-- An iterator over the three numbers, up to the number four. -/
def threeVisited : Session Int :=
  (threeNumbers.step [] (.bind "i" (.walk "s" (.within .ascending (.upTo ⟨4, .inclusive⟩))))).2

/-- It has yielded the number one; then the number four comes to the others. -/
def threeExtended : Session Int :=
  ((threeVisited.step [] (.next "i" 1)).2.step [] (.change "s" (.insert 4))).2

theorem visits_spec_threeExtended :
    ∃ (b : Source Int) (calls : List (Call Int)),
      Visits b (.upTo ⟨4, .inclusive⟩) .ascending "i" (threeExtended.step [] (.next "i" 3)).2
        calls ∧
        calls.filterMap Call.answer = [⟨1, 1⟩, ⟨3, 1⟩, ⟨4, 1⟩] ∧
        Tracks b.comparator (.upTo ⟨4, .inclusive⟩) .ascending calls := by
  let b : Source Int := ⟨0, 0, ⟨0, .natural, false⟩, .indexed⟩
  let upTo : Visit Int := .within .ascending (.upTo ⟨4, .inclusive⟩)
  have hcovers : upTo.Covers b.comparator (.upTo ⟨4, .inclusive⟩) .ascending := ⟨rfl, rfl⟩
  have hopened : Visits b _ .ascending "i" threeVisited [] :=
    .opened threeNumbers_reachable rfl hcovers []
  have hone : (threeVisited.step [] (.next "i" 1)).1.outcome =
      .ok (.items ([some ⟨1, 1⟩].map (Option.map .entry))) := rfl
  have hchanged := (hopened.asked hone).later (c := .change "s" (.insert 4)) trivial nofun []
  have hothers : (threeExtended.step [] (.next "i" 3)).1.outcome =
      .ok (.items ([some ⟨3, 1⟩, some ⟨4, 1⟩, none].map (Option.map .entry))) := rfl
  have hvisits := hchanged.asked hothers
  exact ⟨b, _, hvisits, rfl, (visits_spec hvisits rfl).1⟩

end Session

end OrderedBag
