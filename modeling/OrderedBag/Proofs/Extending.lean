import OrderedBag.Proofs.Bookkeeping
import OrderedBag.Source.Change

/-!
# Extending a source

The occurrences in a view are inserted while they are visited, and the view may be one of the very
source that is extended. That makes no difference: a visit does not look for what it has met, so the
source is extended by what the view showed at the start.

* `Source.absorb_eq`, `Source.absorb_view` — the occurrences of a traversal, and of a view that is
  visited, are inserted as those of a list
* `Source.insert_posts`, `Source.extend_posts`, `Source.remove_posts`, `Source.removeAll_posts`,
  `Source.clear_posts` — every change can be written down, and insertions succeed as long as there
  is room
-/

namespace OrderedBag

open Std OrderedBag.Action

variable {α : Type}

/-! ## What a visit does not notice -/

/-- An insertion leaves the entries that differ from the inserted element. -/
theorem Histogram.filter_addTo {c : Comparator α} {x : α} {p : α → Bool}
    (hp : ∀ y, c.compare x y = .eq → p y = false) (n : Nat) (es : List (Entry α)) :
    ((addTo c x n es).filter fun e => p e.element) = es.filter fun e => p e.element := by
  have hx : ¬ p x = true := by simp [hp x (Comparator.compare_self c x)]
  induction es with
  | nil => exact List.filter_cons_of_neg hx
  | cons e es ih =>
    unfold addTo
    split
    next => exact List.filter_cons_of_neg hx
    next hxe =>
      have he : ¬ p e.element = true := by simp [hp e.element hxe]
      rw [List.filter_cons_of_neg (by exact he), List.filter_cons_of_neg (by exact he)]
    next => rw [List.filter_cons, List.filter_cons, ih]

/-- A cursor that has yielded an element does not look for it any more. -/
theorem Cursor.admits_of_eq (k : Cursor α) {x y : α} (h : k.comparator.compare x y = .eq) :
    ({ k with last := some x } : Cursor α).admits y = false := by
  obtain ⟨c, r, d, last, exhausted⟩ := k
  cases d with
  | ascending => rw [admits_ascending, h]; rfl
  | descending => rw [admits_descending, Comparator.eq_symm h]; simp

namespace Feed

variable {s : Source α} {x : α} {contents contents' : BagId → Histogram α}

/-- A live cursor in the bag of a source goes by the order of the source. -/
def Agrees (s : Source α) : Feed α → Prop
  | live b k => b = s.bag → k.comparator = s.comparator
  | copied _ => True

/-- A live cursor in the bag of a source does not look for `x`. -/
def HasPassed (s : Source α) (x : α) : Feed α → Prop
  | live b k => b = s.bag → ∀ y, s.comparator.compare x y = .eq → k.admits y = false
  | copied _ => True

/-- A feed agrees with the source as before, and has passed the element that it yielded. -/
theorem advance_passed {f f' : Feed α} {p : Entry α → Bool} {e : Entry α} (ha : f.Agrees s)
    (h : f.advance p contents = (some e, f')) : f'.Agrees s ∧ f'.HasPassed s e.element := by
  cases f with
  | live b k =>
    cases hfind : (k.remaining (contents b)).find? p with
    | none => simp [advance, Cursor.advance, hfind] at h
    | some e' =>
      simp only [advance, Cursor.advance, hfind, Prod.mk.injEq, Option.some.injEq] at h
      obtain ⟨rfl, rfl⟩ := h
      refine ⟨ha, fun hb y hy => k.admits_of_eq ?_⟩
      rw [ha hb]
      exact hy
  | copied es =>
    cases hdrop : es.dropWhile fun e => !p e with
    | nil => simp [advance, hdrop] at h
    | cons e' rest =>
      simp only [advance, hdrop, Prod.mk.injEq] at h
      obtain ⟨-, rfl⟩ := h
      exact ⟨trivial, trivial⟩

/-- The contents of the bag of a source after an insertion, while all others stay as they are. -/
structure Inserted (s : Source α) (x : α) (contents contents' : BagId → Histogram α) : Prop where
  own : (contents' s.bag).entries = (contents s.bag).entries ∨
    ∃ n, (contents' s.bag).entries = Histogram.addTo s.comparator x n (contents s.bag).entries
  other : ∀ b, b ≠ s.bag → contents' b = contents b

theorem remaining_inserted {f : Feed α} (hp : f.HasPassed s x)
    (h : Inserted s x contents contents') : f.remaining contents' = f.remaining contents := by
  cases f with
  | copied es => rfl
  | live b k =>
    by_cases hb : b = s.bag
    · subst hb
      cases hk : k.exhausted with
      | true =>
        exact (Cursor.remaining_of_exhausted hk).trans (Cursor.remaining_of_exhausted hk).symm
      | false =>
        show k.remaining _ = k.remaining _
        rw [Cursor.remaining_eq hk, Cursor.remaining_eq hk]
        rcases h.own with hown | ⟨n, hown⟩
        · rw [hown]
        · rw [hown, Histogram.filter_addTo (hp rfl)]
    · exact congrArg k.remaining (h.other b hb)

theorem fits_inserted {f : Feed α} (ha : f.Agrees s) (hf : f.Fits contents)
    (h : Inserted s x contents contents') : f.Fits contents' := by
  cases f with
  | copied es => trivial
  | live b k =>
    by_cases hb : b = s.bag
    · subst hb
      have hf : (contents s.bag).entries.Pairwise k.comparator.Precedes := hf
      show (contents' s.bag).entries.Pairwise k.comparator.Precedes
      rcases h.own with hown | ⟨n, hown⟩
      · rwa [hown]
      · rw [hown, ha rfl] at *
        exact Histogram.pairwise_addTo hf x n
    · show (contents' b).entries.Pairwise k.comparator.Precedes
      rw [h.other b hb]
      exact hf

end Feed

namespace Traversal

variable {s : Source α} {contents contents' : BagId → Histogram α}

/-- Where the entries of a traversal come from. -/
def feed : Traversal α → Feed α
  | direct f => f
  | gated _ f => f

theorem fits_iff {t : Traversal α} : t.Fits contents ↔ t.feed.Fits contents := by
  cases t <;> rfl

theorem remaining_congr {t : Traversal α}
    (h : t.feed.remaining contents' = t.feed.remaining contents) :
    t.remaining contents' = t.remaining contents := by
  cases t with
  | direct f => exact h
  | gated g f =>
    have h : f.remaining contents' = f.remaining contents := h
    unfold remaining
    simp only [h]

/-- A traversal has passed the element that it yielded. -/
theorem next_passed {t t' : Traversal α} {e : Entry α} (ha : t.feed.Agrees s)
    (h : t.next contents = (some e, t')) :
    t'.feed.Agrees s ∧ t'.feed.HasPassed s e.element := by
  cases t with
  | direct f =>
    cases hf : f.advance (fun _ => true) contents with
    | mk found f' =>
      simp only [next, hf, Prod.mk.injEq] at h
      obtain ⟨rfl, rfl⟩ := h
      exact Feed.advance_passed ha hf
  | gated g f =>
    cases hc : g.closed with
    | true => simp [next, hc] at h
    | false =>
      cases hf : f.advance (fun e => g.entered || !g.interval.tooLow g.comparator e.element)
        contents with
      | mk found f' =>
        simp only [next, hc, hf, Bool.false_eq_true, if_false] at h
        cases found with
        | none => cases h
        | some e' =>
          cases hh : g.interval.tooHigh g.comparator e'.element with
          | true => simp [hh] at h
          | false =>
            simp only [hh, Bool.false_eq_true, if_false, Prod.mk.injEq, Option.some.injEq] at h
            obtain ⟨rfl, rfl⟩ := h
            exact Feed.advance_passed ha hf

end Traversal

/-! ## Visiting a view -/

/-- Whatever a source opens goes by the order of any source of the same bag. -/
theorem Source.scanWithin_agrees {s s' : Source α} (h : s'.bag = s.bag → s' = s)
    (contents : BagId → Histogram α) (d : Direction) (r : Interval α) :
    (s'.scanWithin contents d r).feed.Agrees s := by
  have hlive (r : Interval α) (d : Direction) :
      (Feed.live s'.bag (Cursor.begin s'.comparator r d)).Agrees s :=
    fun hb => congrArg comparator (h hb)
  unfold scanWithin feed
  cases s'.access <;> cases d <;> first | exact hlive _ _ | trivial

theorem View.scan_agrees {s : Source α} {reg : Registry α} {v : View α}
    (h : v.root.bag = s.bag → v.root = s) {d : Direction} {t : Traversal α}
    (ht : v.scan reg d = .ok t) : t.feed.Agrees s := by
  induction v generalizing d with
  | source s' =>
    obtain rfl := Except.ok.inj ht
    cases d with
    | ascending =>
      show (s'.feed reg.contents).Agrees s
      unfold Source.feed
      cases s'.access <;> first | exact fun hb => congrArg Source.comparator (h hb) | trivial
    | descending => exact Source.scanWithin_agrees h _ _ _
  | range n s' r =>
    obtain rfl := Except.ok.inj ht
    exact Source.scanWithin_agrees h _ _ _
  | descending n link f ih =>
    unfold scan at ht
    cases hfollow : reg.follow link f with
    | error e =>
      rw [hfollow] at ht
      cases ht
    | ok _ =>
      rw [hfollow] at ht
      exact ih h ht

namespace Source

variable {s : Source α} {reg reg' : Registry α} {t : Traversal α}

/-- Inserting an element changes one bag at most. -/
theorem inserted_of_insert {x : α} {n : Nat} {o : Option Nat}
    (h : (s.insert x n).perform reg = (.ok o, reg')) :
    Feed.Inserted s x reg.contents reg'.contents := by
  unfold insert at h
  rw [perform_bind_ok (perform_get reg)] at h
  cases hi : (reg.contents s.bag).insert? s.comparator x n with
  | none =>
    rw [hi] at h
    cases h
  | some k =>
    rw [hi] at h
    obtain ⟨_, mid, hsettle, h⟩ := exists_of_perform_bind h
    obtain rfl := (Prod.mk.inj h).2
    obtain rfl := eq_of_perform_settle hsettle
    constructor
    · rw [Registry.contents_setContents]
      split
      · exact .inr ⟨n, Histogram.entries_of_insert? hi⟩
      · exact .inl rfl
    · intro b hb
      rw [Registry.contents_setContents, if_neg fun hcond => hb hcond.1]

/-- While elements are inserted that a traversal has passed, it has the same entries ahead. -/
theorem remaining_extend {xs : List α} (h : (s.extend xs).perform reg = (.ok (), reg'))
    (ha : t.feed.Agrees s) (hf : t.Fits reg.contents) (hp : ∀ x ∈ xs, t.feed.HasPassed s x) :
    t.Fits reg'.contents ∧ t.remaining reg'.contents = t.remaining reg.contents := by
  induction xs generalizing reg with
  | nil =>
    obtain ⟨-, rfl⟩ := Prod.mk.inj h
    exact ⟨hf, rfl⟩
  | cons x xs ih =>
    obtain ⟨hx, hxs⟩ := List.forall_mem_cons.mp hp
    obtain ⟨n, mid, hi, h⟩ := exists_of_perform_bind h
    have hinserted := inserted_of_insert hi
    have hf' := Feed.fits_inserted ha (Traversal.fits_iff.mp hf) hinserted
    obtain ⟨hfits, hrem⟩ := ih h (Traversal.fits_iff.mpr hf') hxs
    exact ⟨hfits, hrem.trans (Traversal.remaining_congr (Feed.remaining_inserted hx hinserted))⟩

theorem extend_append (s : Source α) (xs ys : List α) :
    s.extend (xs ++ ys) = s.extend xs >>= fun _ => s.extend ys := by
  induction xs with
  | nil => simp [extend]
  | cons x xs ih => simp [extend, ih]

theorem insertTimes_eq (s : Source α) (x : α) (n : Nat) :
    s.insertTimes x n = s.extend (List.replicate n x) := by
  induction n with
  | zero => rfl
  | succ n ih => rw [List.replicate_succ, insertTimes, extend, ih]

/-- The entries that are visited are those that were ahead at the start. -/
theorem absorbUpTo_eq (ha : t.feed.Agrees s) (hf : t.Fits reg.contents) (n : Nat) :
    (s.absorbUpTo n t).perform reg =
      (s.extend (((t.remaining reg.contents).take n).flatMap Entry.occurrences)).perform reg := by
  induction n generalizing t reg with
  | zero => rfl
  | succ n ih =>
    have hfst := Traversal.next_fst reg.contents t
    have hsnd := Traversal.remaining_next hf
    have hfits := Traversal.fits_next hf
    unfold absorbUpTo
    rw [perform_bind_ok (perform_get reg)]
    cases hnext : t.next reg.contents with
    | mk e? t' =>
      rw [hnext] at hfst hsnd hfits
      cases hrem : t.remaining reg.contents with
      | nil =>
        rw [hrem] at hfst
        obtain rfl : e? = none := hfst
        rfl
      | cons e es =>
        rw [hrem] at hfst hsnd
        obtain rfl : e? = some e := hfst
        obtain ⟨ha', hp'⟩ := Traversal.next_passed ha hnext
        rw [List.take_succ_cons, List.flatMap_cons, extend_append, Entry.occurrences,
          ← insertTimes_eq]
        -- while the occurrences of `e` come, the rest stays ahead
        show (s.insertTimes e.element e.count >>= fun _ => s.absorbUpTo n t').perform reg = _
        rw [perform_bind, perform_bind]
        cases hi : (s.insertTimes e.element e.count).perform reg with
        | mk o reg' =>
          cases o with
          | error f => rfl
          | ok _ =>
            rw [insertTimes_eq] at hi
            obtain ⟨hfits', hrem'⟩ := remaining_extend hi ha' hfits fun x hx =>
              List.eq_of_mem_replicate hx ▸ hp'
            have hstep := ih ha' hfits'
            rw [hrem', hsnd] at hstep
            exact hstep

/-- The occurrences of a traversal are inserted as those of the entries which it has ahead, also if
it draws on the bag in which they are inserted. -/
theorem absorb_eq (ha : t.feed.Agrees s) (hf : t.Fits reg.contents) :
    (s.absorb t).perform reg =
      (s.extend ((t.remaining reg.contents).flatMap Entry.occurrences)).perform reg := by
  unfold absorb
  rw [perform_bind_ok (perform_get reg), absorbUpTo_eq ha hf, List.take_length]

/-- The occurrences in a view that is visited are those of its entries. The bags may have been seen
in another registry before, with the same contents. -/
theorem absorb_view {v : View α} (hu : v.Usable reg) (hroot : v.root.bag = s.bag → v.root = s)
    (hsame : reg'.contents = reg.contents) :
    ∃ t, v.scan reg .ascending = .ok t ∧
      (s.absorb t).perform reg' =
        (s.extend ((v.listing reg.contents).flatMap Entry.occurrences)).perform reg' := by
  obtain ⟨t, hscan, hfits, hrem⟩ := View.scan_spec hu .ascending
  have hahead : t.remaining reg'.contents = v.listing reg.contents := by
    rw [hsame]
    exact hrem
  refine ⟨t, hscan, ?_⟩
  rw [← hahead]
  exact absorb_eq (View.scan_agrees hroot hscan) (hsame ▸ hfits)

end Source

/-! ## Changes in the books -/

/-- The action succeeds, and then the contents of the source are what the history tells. -/
def Action.Posts {β : Type} (a : Action α β) (reg : Registry α) (s : Source α) (answer : β)
    (past : History α) : Prop :=
  ∃ reg', a.perform reg = (.ok answer, reg') ∧ reg.Moves reg' ∧
    (reg'.contents s.bag).Accounts s.comparator past

namespace Action

variable {β γ : Type} {reg : Registry α} {s : Source α} {past : History α} {a : Action α β}
  {b : β} {c : γ} {f : β → Action α γ}

theorem Posts.map (h : a.Posts reg s b past) (g : β → γ) :
    (a >>= fun b => pure (g b)).Posts reg s (g b) past := by
  obtain ⟨reg', hp, hm, ha⟩ := h
  exact ⟨reg', perform_bind_ok hp, hm, ha⟩

theorem Posts.gives (h : a.Posts reg s b past) :
    ∃ k, a.Gives reg (.ok b) k ∧ (k s.bag).Accounts s.comparator past := by
  obtain ⟨reg', hp, hm, ha⟩ := h
  exact ⟨_, ⟨reg', hp, hm, rfl⟩, ha⟩

end Action

namespace Source

variable {reg : Registry α} {s : Source α} {t : Traversal α} {past : History α}
  (hs : reg.Sound) (hh : reg.Houses (.source s))
  (ha : (reg.contents s.bag).Accounts s.comparator past)

include ha in
theorem previous?_eq (x : α) : s.previous? reg x = past.previous? s.comparator x :=
  ha.previous?_eq x

include hs hh

/-- Contents that are replaced, in the books. -/
theorem stored_accounts {h : Histogram α} {past : History α} (ha : h.Accounts s.comparator past) :
    reg.Moves (reg.setContents s.bag h) ∧
      ((reg.setContents s.bag h).contents s.bag).Accounts s.comparator past := by
  refine ⟨.single (.stored hh ha.valid), ?_⟩
  rw [Registry.contents_setContents, if_pos ⟨rfl, (hs.stocked.stocks s hh).1⟩]
  exact ha

theorem clear_posts (past : History α) : s.clear.Posts reg s () (.cleared :: past) := by
  obtain ⟨hm, ha⟩ := stored_accounts hs hh (.empty s.comparator past)
  exact ⟨_, rfl, hm, ha⟩

include ha

/-- A removal tells how many occurrences there were. -/
theorem remove_posts (x : α) :
    (s.remove x).Posts reg s (past.previous? s.comparator x)
      (((past.previous? s.comparator x).map fun _ => .removed x 1).toList ++ past) := by
  obtain ⟨hm, ha'⟩ := stored_accounts hs hh (ha.removeOne_previous x)
  refine ⟨_, ?_, hm, ha'⟩
  rw [← previous?_eq ha]
  exact perform_remove hs.wrapping s x

theorem removeAll_posts (x : α) :
    (s.removeAll x).Posts reg s (past.previous? s.comparator x)
      (((past.previous? s.comparator x).map (.removed x)).toList ++ past) := by
  obtain ⟨hm, ha'⟩ := stored_accounts hs hh (ha.erase_previous x)
  refine ⟨_, ?_, hm, ha'⟩
  rw [← previous?_eq ha]
  exact perform_removeAll hs.wrapping s x

/-- An insertion for which there is room succeeds. It tells how many occurrences there were. -/
theorem insert_accounts (x : α) {n : Nat} (hn : 1 ≤ n)
    (hroom : (reg.contents s.bag).total + n ≤ maxCount) :
    ∃ reg', (s.insert x n).perform reg = (.ok (past.previous? s.comparator x), reg') ∧
      reg.Moves reg' ∧
      (reg'.contents s.bag).Accounts s.comparator (.inserted x n :: past) ∧
      (reg'.contents s.bag).total = (reg.contents s.bag).total + n := by
  have hlt := (hs.stocked.stocks s hh).1
  have hmult := ha.multiplicity_le_total x
  have hinsert : (reg.contents s.bag).insert? s.comparator x n = some
      ⟨Histogram.addTo s.comparator x n (reg.contents s.bag).entries,
        wrap ((reg.contents s.bag).total + n)⟩ :=
    if_pos (by omega)
  obtain ⟨hm, ha'⟩ := stored_accounts hs hh (ha.insert hn hroom hinsert)
  refine ⟨_, ?_, hm, ha', ?_⟩
  · rw [perform_insert hs.wrapping, hinsert, ← previous?_eq ha]
  · rw [Registry.contents_setContents, if_pos ⟨rfl, hlt⟩]
    exact wrap_of_le hroom

theorem insert_posts (x : α) {n : Nat} (hn : 1 ≤ n)
    (hroom : (reg.contents s.bag).total + n ≤ maxCount) :
    (s.insert x n).Posts reg s (past.previous? s.comparator x) (.inserted x n :: past) := by
  obtain ⟨reg', hp, hm, ha', -⟩ := insert_accounts hs hh ha x hn hroom
  exact ⟨reg', hp, hm, ha'⟩

/-- Elements for which there is room can all be inserted. -/
theorem extend_posts {xs : List α} (hroom : (reg.contents s.bag).total + xs.length ≤ maxCount) :
    (s.extend xs).Posts reg s () (.arrivals xs ++ past) := by
  induction xs generalizing reg past with
  | nil => exact ⟨reg, rfl, .refl, ha⟩
  | cons x xs ih =>
    rw [List.length_cons] at hroom
    obtain ⟨reg', hx, hm, ha', htotal⟩ := insert_accounts hs hh ha x (Nat.le_refl 1) (by omega)
    obtain ⟨reg'', hxs, hm', ha''⟩ := ih (hs.moves hm) (hh.moves hm) ha' (by omega)
    refine ⟨reg'', (perform_bind_ok hx).trans hxs, hm.trans hm', ?_⟩
    rw [History.arrivals_cons, List.append_assoc]
    exact ha''

end Source

end OrderedBag
