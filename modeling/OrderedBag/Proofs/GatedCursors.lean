import Mathlib.Data.List.Find
import OrderedBag.Proofs.LiveCursors

/-!
# Gated cursors

A sequential source visits an interval with a cursor through all of its entries, behind a gate that
skips what is too low and closes at the first entry that is too high. The bag may change between two
calls all the same: such a traversal answers what a cursor in the interval would answer.

* `Traversal.Seeks`, `Traversal.Spent` — a traversal that may still yield, and one that is through
* `Traversal.Seeks.next` — what a call comes to
* `Traversal.Replies.serves` — a traversal that seeks serves its calls
* `Serves.unique` — what is stored at the calls decides what they answer
* `Session.Visits.agree` — iterators over two sources answer the same while these hold the same
-/

namespace OrderedBag

open Std OrderedBag.Action

variable {α : Type} {c c' : Comparator α} {r : Interval α} {d : Direction} {b : BagId}
  {last : Option α}

theorem ahead_iff_all {h : Histogram α} {e : Entry α} :
    Ahead c r d last h e ↔ Ahead c .all d last h e ∧ r.contains c e.element = true :=
  ⟨fun ha => ⟨⟨ha.stored, rfl, ha.beyond⟩, ha.inside⟩, fun ⟨ha, hin⟩ => ⟨ha.stored, hin, ha.beyond⟩⟩

/-- Beyond an element of the interval nothing is too low. -/
theorem Interval.tooLow_beyond {x y : α} (hx : r.contains c x = true) (h : c.compare x y = .lt) :
    r.tooLow c y = false := by
  cases hlow : r.tooLow c y with
  | false => rfl
  | true =>
    rw [contains, tooLow_of_isLE (by rw [h]; rfl) hlow] at hx
    cases hx

namespace Cursor

variable {k : Cursor α}

theorem advance_of_exhausted (hk : k.exhausted = true) (p : Entry α → Bool) (h : Histogram α) :
    k.advance p h = (none, k) := by
  cases k
  simp_all [advance, remaining]

/-- A gate that was entered need not skip: what remains for its cursor is not too low. -/
theorem Awaits.find?_entered (hk : k.Awaits c .all .ascending)
    (hlast : ∀ x ∈ k.last, r.contains c x = true) (h : Histogram α) :
    ((k.remaining h).find? fun e => k.last.isSome || !r.tooLow c e.element) =
      (k.remaining h).find? fun e => !r.tooLow c e.element := by
  refine List.find?_congr fun e he => ?_
  cases hx : k.last with
  | none => rfl
  | some x =>
    rw [Interval.tooLow_beyond (hlast x hx) ((hk.mem_remaining.mp he).beyond x hx)]
    rfl

end Cursor

/-! ## One call -/

namespace Traversal

/-- The traversal goes up through what a bag holds of an interval, and has yielded an element last.
A gate in front of its cursor has been entered once an element was yielded, and is not closed. -/
inductive Seeks (c : Comparator α) (r : Interval α) (b : BagId) : Option α → Traversal α → Prop
  | cursor {k : Cursor α} (hk : k.Awaits c r .ascending) : Seeks c r b k.last (.direct (.live b k))
  | gate {k : Cursor α} (hk : k.Awaits c .all .ascending)
      (hlast : ∀ x ∈ k.last, r.contains c x = true) :
      Seeks c r b k.last (.gated ⟨c, r, k.last.isSome, false⟩ (.live b k))

/-- The traversal is through: its cursor is exhausted, or its gate is closed. -/
inductive Spent : Traversal α → Prop
  | cursor {b : BagId} {k : Cursor α} (hk : k.exhausted = true) : Spent (.direct (.live b k))
  | gate {g : Gate α} {b : BagId} {k : Cursor α} (hk : k.exhausted = true) :
      Spent (.gated g (.live b k))
  | closed {g : Gate α} {f : Feed α} (hg : g.closed = true) : Spent (.gated g f)

/-- Whatever is stored, a traversal that is through yields nothing and stays as it is. -/
theorem Spent.next {t : Traversal α} (ht : t.Spent) (contents : BagId → Histogram α) :
    t.next contents = (none, t) := by
  cases ht with
  | cursor hk => simp [Traversal.next, Feed.advance, Cursor.advance_of_exhausted hk]
  | gate hk => simp [Traversal.next, Feed.advance, Cursor.advance_of_exhausted hk]
  | closed hg => simp [Traversal.next, hg]

/-- What a call comes to, of a traversal that goes up through the interval. -/
inductive Next (c : Comparator α) (r : Interval α) (b : BagId) (last : Option α)
    (h : Histogram α) : Option (Entry α) × Traversal α → Prop
  /-- The nearest entry ahead is yielded. -/
  | found {e : Entry α} {t : Traversal α} (hahead : Ahead c r .ascending last h e)
      (hnearest : ∀ f, Ahead c r .ascending last h f → f = e ∨ c.Precedes e f)
      (ht : t.Seeks c r b (some e.element)) : Next c r b last h (some e, t)
  /-- There is none, and the traversal is through. -/
  | done {t : Traversal α} (hnone : ∀ f, ¬ Ahead c r .ascending last h f) (ht : t.Spent) :
      Next c r b last h (none, t)

/-- A gate that is open looks at the first entry that it does not skip. -/
theorem next_open (c : Comparator α) (r : Interval α) (entered : Bool) (b : BagId) (k : Cursor α)
    (contents : BagId → Histogram α) :
    (gated ⟨c, r, entered, false⟩ (.live b k)).next contents =
      match (k.remaining (contents b)).find? fun e => entered || !r.tooLow c e.element with
      | none => (none, gated ⟨c, r, entered, false⟩ (.live b { k with exhausted := true }))
      | some e =>
        if r.tooHigh c e.element then
          (none, gated ⟨c, r, true, true⟩ (.live b { k with last := some e.element }))
        else (some e, gated ⟨c, r, true, false⟩ (.live b { k with last := some e.element })) := by
  simp only [next, Bool.false_eq_true, if_false, Feed.advance, Cursor.advance]
  cases (k.remaining (contents b)).find? fun e => entered || !r.tooLow c e.element <;> rfl

variable {k : Cursor α} {contents : BagId → Histogram α}

theorem next_cursor (hk : k.Awaits c r .ascending) (hv : (contents b).Valid c) :
    Next c r b k.last (contents b) ((direct (.live b k)).next contents) := by
  show Next c r b k.last _ ((k.next (contents b)).1, direct (.live b (k.next (contents b)).2))
  rcases hk.next hv with ⟨e, hnext, hahead, hnearest, hyield⟩ | ⟨hnext, hnone⟩
  · rw [hnext]
    exact .found hahead hnearest (.cursor hyield)
  · rw [hnext]
    exact .done hnone (.cursor rfl)

theorem next_gate (hk : k.Awaits c .all .ascending) (hlast : ∀ x ∈ k.last, r.contains c x = true)
    (hv : (contents b).Valid c) :
    Next c r b k.last (contents b)
      ((gated ⟨c, r, k.last.isSome, false⟩ (.live b k)).next contents) := by
  have hahead {f : Entry α} (hf : Ahead c r .ascending k.last (contents b) f) :
      f ∈ k.remaining (contents b) ∧ r.tooLow c f.element = false ∧
        r.tooHigh c f.element = false := by
    obtain ⟨hall, hin⟩ := ahead_iff_all.mp hf
    exact ⟨hk.mem_remaining.mpr hall, by simpa [Interval.contains] using hin⟩
  rw [next_open, hk.find?_entered hlast]
  cases hfind : (k.remaining (contents b)).find? fun e => !r.tooLow c e.element with
  | none =>
    refine .done (fun f hf => ?_) (.gate rfl)
    obtain ⟨hmem, hlow, -⟩ := hahead hf
    exact List.find?_eq_none.mp hfind f hmem (by rw [hlow]; rfl)
  | some e =>
    -- what is skipped is too low, so what is ahead is `e` or follows it
    have hfollows {f : Entry α} (hf : Ahead c r .ascending k.last (contents b) f) :
        f = e ∨ c.Precedes e f := by
      obtain ⟨hmem, hlow, -⟩ := hahead hf
      exact (hk.pairwise hv).eq_or_of_find? hfind hmem (by rw [hlow]; rfl)
    show Next c r b k.last _ (if r.tooHigh c e.element then _ else _)
    cases hhigh : r.tooHigh c e.element with
    | true =>
      refine .done (fun f hf => ?_) (.closed rfl)
      have hle : (c.compare e.element f.element).isLE = true := by
        rcases hfollows hf with rfl | hlt
        · rw [Comparator.compare_self]; rfl
        · rw [hlt]; rfl
      have hfhigh := (hahead hf).2.2
      rw [Interval.tooHigh_of_isLE hle hhigh] at hfhigh
      cases hfhigh
    | false =>
      have hmem : e ∈ k.remaining (contents b) := List.mem_of_find?_eq_some hfind
      have hlow : r.tooLow c e.element = false := by simpa using List.find?_some hfind
      have hin : r.contains c e.element = true := by rw [Interval.contains, hlow, hhigh]; rfl
      refine .found (ahead_iff_all.mpr ⟨hk.mem_remaining.mp hmem, hin⟩) (fun f => hfollows)
        (.gate (hk.yield hmem) ?_)
      rintro _ ⟨⟩
      exact hin

/-- A call yields the nearest entry ahead, or there is none and the traversal is through. -/
theorem Seeks.next {t : Traversal α} (ht : t.Seeks c r b last) (hv : (contents b).Valid c) :
    Next c r b last (contents b) (t.next contents) := by
  cases ht with
  | cursor hk => exact next_cursor hk hv
  | gate hk hlast => exact next_gate hk hlast hv

end Traversal

/-! ## All the calls -/

/-- The traversal is asked again and again: what the bag holds at each call, the answers, and what
the traversal is in the end. -/
inductive Traversal.Replies (b : BagId) : Traversal α → List (Call α) → Traversal α → Prop
  | nil {t : Traversal α} : Replies b t [] t
  | cons {t t' : Traversal α} {calls : List (Call α)} (contents : BagId → Histogram α)
      (rest : Replies b (t.next contents).2 calls t') :
      Replies b t (⟨contents b, (t.next contents).1⟩ :: calls) t'

namespace Traversal

variable {t t' t'' : Traversal α} {calls calls' : List (Call α)}

theorem Replies.append (h : Replies b t calls t') (h' : Replies b t' calls' t'') :
    Replies b t (calls ++ calls') t'' := by
  induction h with
  | nil => exact h'
  | cons contents _ ih => exact .cons contents (ih h')

theorem Spent.replies (ht : t.Spent) (h : Replies b t calls t') :
    ∀ call ∈ calls, call.answer = none := by
  induction h with
  | nil => exact fun call hcall => absurd hcall List.not_mem_nil
  | cons contents _ ih =>
    rw [ht.next] at ih ⊢
    exact List.forall_mem_cons.mpr ⟨rfl, ih ht⟩

/-- A traversal that seeks serves its calls, whatever is stored at each of them. -/
theorem Replies.serves (h : Replies b t calls t') (ht : t.Seeks c r b last)
    (hvalid : ∀ call ∈ calls, call.stored.Valid c) : Serves c r .ascending last calls := by
  induction h generalizing last with
  | nil => exact .nil
  | @cons t _ _ contents rest ih =>
    obtain ⟨hv, hvalids⟩ := List.forall_mem_cons.mp hvalid
    have hnext := ht.next hv
    rw [← Prod.eta (t.next contents)] at hnext
    generalize (t.next contents).1 = answer, (t.next contents).2 = t₁ at *
    cases hnext with
    | found hahead hnearest ht => exact .found hahead hnearest (ih ht hvalids)
    | done hnone ht => exact .done hnone (ht.replies rest)

/-- An iterator that is asked several times in a row. -/
theorem replies_nexts (t : Traversal α) (contents : BagId → Histogram α) (b : BagId) (n : Nat) :
    ∃ (answers : List (Option (Entry α))) (t' : Traversal α), answers.length = n ∧
      (Walk.entries t).nexts contents n = (answers.map (Option.map .entry), .entries t') ∧
        t.Replies b (answers.map fun answer => ⟨contents b, answer⟩) t' := by
  induction n generalizing t with
  | zero => exact ⟨[], t, rfl, rfl, .nil⟩
  | succ n ih =>
    obtain ⟨answers, t', hlength, hnexts, hreplies⟩ := ih (t.next contents).2
    refine ⟨(t.next contents).1 :: answers, t', congrArg (· + 1) hlength, ?_, .cons _ hreplies⟩
    show ((t.next contents).1.map Item.entry ::
        ((Walk.entries (t.next contents).2).nexts contents n).1,
      ((Walk.entries (t.next contents).2).nexts contents n).2) = _
    rw [hnexts]
    rfl

end Traversal

/-! ## Calls while the same is stored -/

theorem Comparator.towards_congr (hc : c'.compare = c.compare) (d : Direction) :
    (c'.towards d).compare = (c.towards d).compare := by
  cases d with
  | ascending => exact hc
  | descending => rw [towards, towards, reversed_compare, reversed_compare, hc]

/-- What is ahead depends only on how the comparator compares. -/
theorem Ahead.congr {h : Histogram α} {e : Entry α} (hc : c'.compare = c.compare)
    (ha : Ahead c r d last h e) : Ahead c' r d last h e where
  stored := ha.stored
  inside := by
    have hin := ha.inside
    unfold Interval.contains Interval.tooLow Interval.tooHigh at hin ⊢
    rwa [hc]
  beyond := by
    rw [Comparator.towards_congr hc]
    exact ha.beyond

theorem Call.eq_of_silent {calls calls' : List (Call α)}
    (hstored : calls'.map stored = calls.map stored) (h : ∀ call ∈ calls, call.answer = none)
    (h' : ∀ call ∈ calls', call.answer = none) : calls' = calls := by
  have hsilent {calls : List (Call α)} (h : ∀ call ∈ calls, call.answer = none) :
      (calls.map stored).map (⟨·, none⟩) = calls := by
    rw [List.map_map]
    refine (List.map_congr_left fun call hcall => ?_).trans (List.map_id calls)
    obtain ⟨k, answer⟩ := call
    exact congrArg (Call.mk k) (h _ hcall).symm
  rw [← hsilent h, ← hsilent h', hstored]

/-- Calls that are served while the same is stored answer the same. -/
theorem Serves.unique {calls calls' : List (Call α)} (h : Serves c r d last calls)
    (h' : Serves c' r d last calls') (hc : c'.compare = c.compare)
    (hstored : calls'.map Call.stored = calls.map Call.stored) : calls' = calls := by
  induction h generalizing calls' with
  | nil => exact List.map_eq_nil_iff.mp hstored
  | @found last k e calls hahead hnearest _ ih =>
    cases h' with
    | nil => cases hstored
    | done hnone _ =>
      obtain ⟨rfl, -⟩ := List.cons.inj hstored
      exact absurd (hahead.congr hc) (hnone e)
    | @found _ _ f _ hahead' hnearest' rest' =>
      obtain ⟨rfl, hrest⟩ := List.cons.inj hstored
      -- of two nearest entries neither precedes the other
      have hfe : f = e := by
        rcases hnearest f (hahead'.congr hc.symm) with heq | hef
        · exact heq
        · rcases hnearest' e (hahead.congr hc) with heq | hfe
          · exact heq.symm
          · rw [Comparator.Precedes, Comparator.towards_congr hc] at hfe
            exact absurd (TransCmp.lt_trans hef hfe) (by simp [Comparator.compare_self])
      subst hfe
      rw [ih rest' hrest]
  | @done last k calls hnone rest =>
    cases h' with
    | nil => cases hstored
    | found hahead' _ _ =>
      obtain ⟨rfl, -⟩ := List.cons.inj hstored
      exact absurd (hahead'.congr hc.symm) (hnone _)
    | done _ rest' =>
      obtain ⟨rfl, hrest⟩ := List.cons.inj hstored
      rw [Call.eq_of_silent hrest rest rest']

/-! ## Iterators in a run -/

/-- The source offers a live cursor: within any interval, or at least through all of its entries. -/
def Source.OffersCursor (b : Source α) : Prop :=
  b.access = .indexed ∨ b.access = .sequential

/-- A visit upwards of such a source seeks what it is to yield. -/
theorem Visit.run_seeks {b : Source α} (ha : b.OffersCursor) {visit : Visit α}
    (hvisit : visit.Covers b.comparator r .ascending) (reg : Registry α) :
    ∃ t : Traversal α, t.Seeks b.comparator r b.bag none ∧
      (visit.run (.source b)).perform reg = (.ok (.entries t), reg) := by
  have hcursor : Traversal.Seeks b.comparator r b.bag none
      (.direct (.live b.bag (.begin b.comparator r .ascending))) :=
    .cursor (Cursor.awaits_begin b.comparator r .ascending)
  rcases ha with ha | ha
  · exact ⟨_, hcursor, run_covers ha hvisit reg⟩
  · cases visit with
    | entries d =>
      obtain ⟨rfl, rfl⟩ := hvisit
      have hscan : b.scan reg.contents .ascending =
          .direct (.live b.bag (.begin b.comparator .all .ascending)) := by
        simp [Source.scan, Source.feed, ha]
      exact ⟨_, hcursor, by rw [perform_entries, hscan]⟩
    | within d q =>
      obtain ⟨rfl, hq⟩ := hvisit
      have hscan : b.scanWithin reg.contents .ascending r = .gated (.initial b.comparator r)
          (.live b.bag (.begin b.comparator .all .ascending)) := by
        simp [Source.scanWithin, Source.feed, ha]
      have hgate : Traversal.Seeks b.comparator r b.bag none (.gated (.initial b.comparator r)
          (.live b.bag (.begin b.comparator .all .ascending))) :=
        .gate (Cursor.awaits_begin b.comparator .all .ascending) (by rintro _ ⟨⟩)
      exact ⟨_, hgate, by rw [perform_within hq, hscan]⟩
    | occurrences => exact hvisit.elim

namespace Session

variable [Ord α] [TransOrd α] [Shown α] {b b' : Source α} {name name' : String}
  {s s' : Session α} {calls calls' : List (Call α)}

/-- Meanwhile the name stands for the iterator, in the state in which its calls left it. -/
theorem Visits.replies (h : Visits b r .ascending name s calls) (ha : b.OffersCursor) :
    s.registry.Houses (.source b) ∧ (∀ call ∈ calls, call.stored.Valid b.comparator) ∧
      ∃ t t' : Traversal α, t.Seeks b.comparator r b.bag none ∧ t.Replies b.bag calls t' ∧
        s.table.find? name = some (.walk (.entries t')) := by
  induction h with
  | @opened s source visit hs hsource hvisit watched =>
    obtain ⟨t, hseeks, hvisit⟩ := Visit.run_seeks ha hvisit s.fresh
    have hhouses := (hs.sound.live.find? hsource).1
    exact ⟨hhouses.grow (hs.sound.grows (c := .bind _ (.walk _ _)) trivial watched),
      fun _ hcall => absurd hcall List.not_mem_nil, t, t, hseeks, .nil,
      step_open hsource hvisit watched⟩
  | @asked s calls h n watched answers houtcome ih =>
    obtain ⟨hhouses, hvalid, t, t', hseeks, hreplies, hname⟩ := ih
    have hs := h.reachable.sound
    obtain ⟨hout, hafter⟩ := step_walk hname n watched
    obtain ⟨answers', t'', -, hnexts, hmore⟩ := t'.replies_nexts s.registry.contents b.bag n
    rw [hnexts] at hout hafter
    have hitems := Answer.items.inj (Except.ok.inj (houtcome.symm.trans hout))
    obtain rfl := List.map_injective_iff.mpr
      (Option.map_injective fun _ _ => Item.entry.inj) hitems
    refine ⟨hhouses.grow (hs.grows (c := .next _ _) trivial watched),
      List.forall_mem_append.mpr ⟨hvalid, ?_⟩, t, t'', hseeks, hreplies.append hmore, hafter⟩
    exact List.forall_mem_map.mpr fun _ _ => (hs.registry.stocks_root hhouses).2
  | @later s calls h c hc hname watched ih =>
    obtain ⟨hhouses, hvalid, t, t', hseeks, hreplies, hfind⟩ := ih
    exact ⟨hhouses.grow (h.reachable.sound.grows hc watched), hvalid, t, t', hseeks, hreplies,
      (s.find?_step hname watched).trans hfind⟩

theorem Visits.serves (h : Visits b r .ascending name s calls) (ha : b.OffersCursor) :
    Serves b.comparator r .ascending none calls := by
  obtain ⟨-, hvalid, t, t', hseeks, hreplies, -⟩ := h.replies ha
  exact hreplies.serves hseeks hvalid

/-- Two iterators upwards through an interval, over sources that compare alike. If the same was
stored at each of their calls, they answered the same. -/
theorem Visits.agree (h : Visits b r .ascending name s calls) (ha : b.OffersCursor)
    (h' : Visits b' r .ascending name' s' calls') (ha' : b'.OffersCursor)
    (hc : b'.comparator.compare = b.comparator.compare)
    (hstored : calls'.map Call.stored = calls.map Call.stored) : calls' = calls :=
  (h.serves ha).unique (h'.serves ha') hc hstored

end Session

end OrderedBag
