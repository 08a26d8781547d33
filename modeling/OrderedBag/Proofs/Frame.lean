import OrderedBag.Proofs.Answers
import OrderedBag.Proofs.Sessions

/-!
# What commands leave alone

Most of what a command does concerns only a part of the registry. Which part it leaves alone is said
by a relation between the registries before and after: one that does not mind a new node or another
line of the log holds of every command, unless the command changes a bag of which the relation
speaks, or asks for an order while the relation speaks of what descending views remember.

* `Action.Respects` — the registries before and after an action are related, whether it fails or not
* `Registry.Unlogged`, `Registry.Placid`, `Registry.Steady` — what a relation must not mind
* `Command.Edits`, `Command.AsksOrder`, `Command.Requests` — the sources that a command changes, the
  views of which it wants the order, and those of which it wants what they build only once
* `Command.run_respects` — a command respects whatever it does not change
* `Session.contents_step`, `Session.memo_step` — what becomes of the contents of a bag, and of the
  comparators that are remembered
-/

namespace OrderedBag

open OrderedBag.Action

variable {α β γ : Type}

namespace Registry

/-- Every registry is related to itself, and the relation goes on from one change to the next. -/
structure Chained (R : Registry α → Registry α → Prop) : Prop where
  refl : ∀ reg, R reg reg
  trans : ∀ {reg reg' reg''}, R reg reg' → R reg' reg'' → R reg reg''

/-- A relation that does not mind the log. -/
structure Unlogged (R : Registry α → Registry α → Prop) : Prop extends Chained R where
  log : ∀ reg l, R reg (reg.withLog l)

/-- A relation that does not mind the log, new comparators and new views. It speaks of no bag that
has yet to be made. -/
structure Placid (R : Registry α → Registry α → Prop) : Prop extends Unlogged R where
  evaluated : ∀ reg o, R reg (reg.evaluate o).2
  push : ∀ reg v, R reg (reg.push v)
  source : ∀ reg c a, R reg (reg.addSource c a).2
  filled : ∀ {reg reg' b} h, reg.bags.size ≤ b → R reg reg' → R reg (reg'.setContents b h)

/-- A relation that does not mind, either, what nodes remember besides comparators. -/
structure Steady (R : Registry α → Registry α → Prop) : Prop extends Placid R where
  update : ∀ reg v {f : Node α → Node α}, (∀ n, (f n).comparator = n.comparator) →
    R reg (reg.updateNode v f)

end Registry

/-- The registry before the action is related to the one after it. -/
def Action.Respects (a : Action α β) (R : Registry α → Registry α → Prop) : Prop :=
  ∀ reg, R reg (a.perform reg).2

variable {R : Registry α → Registry α → Prop}

namespace Action

variable {a : Action α β} {f : β → Action α γ}

theorem respects_pure (hR : Registry.Chained R) (b : β) : (pure b : Action α β).Respects R :=
  hR.refl

theorem respects_throw (hR : Registry.Chained R) (e : Failure) :
    (throw e : Action α β).Respects R :=
  hR.refl

theorem respects_get (hR : Registry.Chained R) : (get : Action α (Registry α)).Respects R :=
  hR.refl

theorem respects_reading (hR : Registry.Chained R) (g : Registry α → Except Failure β) :
    (reading g).Respects R := by
  intro reg
  rw [perform_reading]
  exact hR.refl reg

theorem respects_updating {g : Registry α → β × Registry α} (h : ∀ reg, R reg (g reg).2) :
    (updating g).Respects R :=
  h

theorem respects_modify {g : Registry α → Registry α} (h : ∀ reg, R reg (g reg)) :
    (modify g : Action α Unit).Respects R :=
  h

theorem respects_record (hR : Registry.Unlogged R) (r : Record) :
    (record r : Action α Unit).Respects R :=
  fun reg => hR.log reg _

theorem Respects.bind (ha : a.Respects R) (hR : Registry.Chained R) (hf : ∀ b, (f b).Respects R) :
    (a >>= f).Respects R := by
  intro reg
  have hstep := ha reg
  rw [perform_bind]
  cases hp : a.perform reg with
  | mk o reg' =>
    rw [hp] at hstep
    cases o with
    | error e => exact hstep
    | ok b => exact hR.trans hstep (hf b reg')

/-- An action that only goes on from the answer of another one. -/
theorem Respects.map (ha : a.Respects R) (hR : Registry.Chained R) (g : β → γ) :
    (a >>= fun b => pure (g b)).Respects R :=
  ha.bind hR fun b => respects_pure hR (g b)

/-- What follows a part that hands on a registry and leaves it as it is. -/
theorem Respects.reading (hR : Registry.Chained R) {g : Registry α → Except Failure β}
    (hf : ∀ b, (f b).Respects R) : (Action.reading g >>= f).Respects R :=
  (respects_reading hR g).bind hR hf

/-- An action that writes to the log only. -/
theorem respects_of_answers (hR : Registry.Unlogged R) (ha : ∀ reg, ∃ o, a.Answers reg o) :
    a.Respects R := by
  intro reg
  obtain ⟨o, l, hl⟩ := ha reg
  rw [hl]
  exact hR.log reg l

end Action

/-! ## Changing a source -/

/-- The relation does not mind what happens in the bag. -/
def Registry.Ignores (R : Registry α → Registry α → Prop) (b : BagId) : Prop :=
  ∀ reg h, R reg (reg.setContents b h)

namespace Source

variable {s : Source α}

theorem replace_respects (hset : Registry.Ignores R s.bag) (h : Histogram α) :
    (s.replace h).Respects R :=
  fun reg => hset reg h

theorem checkTotal_respects (hR : Registry.Chained R) (s : Source α) (fits : Bool) (m : Misfit) :
    (s.checkTotal fits m).Respects R := by
  intro reg
  rw [perform_checkTotal_snd]
  exact hR.refl reg

theorem settle_respects (hR : Registry.Chained R) (hset : Registry.Ignores R s.bag)
    (h : Histogram α) (fits : Bool) (m : Misfit) : (s.settle h fits m).Respects R :=
  (respects_get hR).bind hR fun _ => (replace_respects hset _).bind hR fun _ =>
    (checkTotal_respects hR s fits m).bind hR fun _ => replace_respects hset h

theorem insert_respects (hR : Registry.Chained R) (hset : Registry.Ignores R s.bag) (x : α)
    (n : Nat) : (s.insert x n).Respects R := by
  refine (respects_get hR).bind hR fun reg => ?_
  cases (reg.contents s.bag).insert? s.comparator x n with
  | none => exact respects_throw hR _
  | some h => exact (settle_respects hR hset h _ _).map hR _

theorem remove_respects (hR : Registry.Chained R) (hset : Registry.Ignores R s.bag) (x : α) :
    (s.remove x).Respects R :=
  (respects_get hR).bind hR fun _ => (checkTotal_respects hR s _ _).bind hR fun _ =>
    (replace_respects hset _).map hR _

theorem removeAll_respects (hR : Registry.Chained R) (hset : Registry.Ignores R s.bag) (x : α) :
    (s.removeAll x).Respects R :=
  (respects_get hR).bind hR fun _ => (settle_respects hR hset _ _ _).map hR _

theorem extend_respects (hR : Registry.Chained R) (hset : Registry.Ignores R s.bag) (xs : List α) :
    (s.extend xs).Respects R := by
  induction xs with
  | nil => exact respects_pure hR ()
  | cons x xs ih => exact (insert_respects hR hset x 1).bind hR fun _ => ih

theorem insertTimes_respects (hR : Registry.Chained R) (hset : Registry.Ignores R s.bag) (x : α)
    (n : Nat) : (s.insertTimes x n).Respects R := by
  induction n with
  | zero => exact respects_pure hR ()
  | succ n ih => exact (insert_respects hR hset x 1).bind hR fun _ => ih

theorem absorbUpTo_respects (hR : Registry.Chained R) (hset : Registry.Ignores R s.bag) (n : Nat)
    (t : Traversal α) : (s.absorbUpTo n t).Respects R := by
  induction n generalizing t with
  | zero => exact respects_pure hR ()
  | succ n ih =>
    refine (respects_get hR).bind hR fun reg => ?_
    rcases t.next reg.contents with ⟨_ | e, t'⟩
    · exact respects_pure hR ()
    · exact (insertTimes_respects hR hset e.element e.count).bind hR fun _ => ih t'

theorem absorb_respects (hR : Registry.Chained R) (hset : Registry.Ignores R s.bag)
    (t : Traversal α) : (s.absorb t).Respects R :=
  (respects_get hR).bind hR fun _ => absorbUpTo_respects hR hset _ t

theorem insertEntries_respects (hR : Registry.Chained R) (hset : Registry.Ignores R s.bag)
    (es : List (Entry α)) : (s.insertEntries es).Respects R := by
  induction es with
  | nil => exact respects_pure hR ()
  | cons e es ih => exact (insert_respects hR hset e.element e.count).bind hR fun _ => ih

theorem lose_respects (hR : Registry.Chained R) (hset : Registry.Ignores R s.bag)
    (e? : Option (Entry α)) (h : Histogram α) : (s.lose e? h).Respects R :=
  (respects_get hR).bind hR fun _ => (settle_respects hR hset h _ _).map hR _

theorem take_respects (hR : Registry.Chained R) (hset : Registry.Ignores R s.bag) (x : α) :
    (s.take x).Respects R :=
  (respects_get hR).bind hR fun _ => lose_respects hR hset _ _

theorem poll_respects (hR : Registry.Chained R) (hset : Registry.Ignores R s.bag) (d : Direction) :
    (s.poll d).Respects R := by
  unfold poll
  split
  · exact (respects_get hR).bind hR fun _ => lose_respects hR hset _ _
  · refine (respects_get hR).bind hR fun reg => ?_
    cases s.extreme? reg.contents d with
    | none => exact respects_pure hR none
    | some e => exact take_respects hR hset e.element

end Source

/-! ## Views -/

namespace View

theorem enroll_respects (hR : Registry.Placid R) (v : View α) (reg : Registry α) :
    R reg (reg.enroll v).2 := by
  induction v with
  | source s => exact hR.refl reg
  | range n s r =>
    cases n with
    | some i => exact hR.refl reg
    | none => exact hR.push reg _
  | descending n link f ih =>
    cases n with
    | some i => exact hR.refl reg
    | none => exact hR.trans ih (hR.push _ _)

theorem updating_enroll_respects (hR : Registry.Placid R) (v : View α) :
    (Action.updating fun reg => reg.enroll v).Respects R :=
  respects_updating (enroll_respects hR v)

/-- What follows once a view has a node. -/
theorem enrolling_respects (hR : Registry.Placid R) (v : View α) {f : View α → Action α β}
    (hf : ∀ reg', (f (Registry.enroll reg' v).1).Respects R) :
    (Action.updating (fun reg => reg.enroll v) >>= f).Respects R := by
  intro reg
  rw [perform_bind_ok (perform_updating _ reg)]
  exact hR.trans (enroll_respects hR v reg) (hf reg _)

theorem narrow_respects (hR : Registry.Unlogged R) (v : View α) (q : Interval α) :
    (v.narrow q).Respects R :=
  respects_of_answers hR fun reg => ⟨_, narrow_answers v q reg⟩

theorem sub_respects (hR : Registry.Unlogged R) (v : View α) (lo hi : Endpoint α) :
    (v.sub lo hi).Respects R :=
  respects_of_answers hR fun reg => ⟨_, sub_answers v lo hi reg⟩

/-- A view that is not descending may come to remember the descending view which is made for it. -/
theorem reversed_respects (hR : Registry.Placid R) (v : View α)
    (hupdate : ∀ reg reg' d, R reg (reg.updateNode (Registry.enroll reg' v).1
      fun n => { n with reversal := some d })) : v.reversed.Respects R := by
  have hchained := hR.toChained
  cases hup : v.isDescending with
  | true =>
    cases v with
    | source s => simp [isDescending] at hup
    | range n s r => simp [isDescending] at hup
    | descending n link f => exact .reading hchained fun _ => respects_pure hchained f
  | false =>
    rw [reversed_of_up hup]
    refine enrolling_respects hR v fun reg' => (respects_get hchained).bind hchained fun reg => ?_
    cases (reg.nodeOf? (Registry.enroll reg' v).1).bind Node.reversal with
    | some d => exact respects_pure hchained d
    | none =>
      refine (respects_record hR.toUnlogged _).bind hchained fun _ => ?_
      refine (updating_enroll_respects hR _).bind hchained fun d => ?_
      exact (respects_modify fun reg => hupdate reg reg' d).bind hchained fun _ =>
        respects_pure hchained d

theorem reachItself_respects (hR : Registry.Chained R) (v : View α) : v.reachItself.Respects R := by
  cases v with
  | source s =>
    show s.reachItself.Respects R
    unfold Source.reachItself
    split
    · exact respects_throw hR _
    · exact respects_pure hR _
  | range n s r => exact respects_pure hR _
  | descending n link f => exact respects_pure hR _

/-- What a descending view remembers is all that changes when it is asked for its order. -/
theorem comparator_respects (hR : Registry.Chained R)
    (hupdate : ∀ reg v c, R reg (reg.updateNode v fun m => { m with comparator := some c }))
    (v : View α) : v.comparator.Respects R := by
  induction v with
  | source s => exact respects_pure hR _
  | range n s r => exact respects_pure hR _
  | descending n link f ih =>
    rw [comparator_descending]
    refine (respects_get hR).bind hR fun reg => ?_
    cases (reg.nodeOf? (descending n link f)).bind Node.comparator with
    | some c => exact respects_pure hR c
    | none =>
      refine .reading hR fun _ => ih.bind hR fun c => ?_
      exact (respects_modify fun reg => hupdate reg _ _).bind hR fun _ => respects_pure hR _

theorem require_respects (hR : Registry.Unlogged R) (c : Comparator α) (q : IntervalExpr α) :
    (q.require c).Respects R :=
  respects_of_answers hR fun reg => ⟨_, View.require_answers c q reg⟩

theorem scanExpr_respects (hR : Registry.Unlogged R) {v : View α} (horder : v.comparator.Respects R)
    (d : Direction) (q : IntervalExpr α) : (v.scanExpr d q).Respects R :=
  horder.bind hR.toChained fun c => (require_respects hR c q).bind hR.toChained fun _ =>
    respects_reading hR.toChained _

theorem count_respects (hR : Registry.Unlogged R) (v : View α) (x : α) :
    (v.count x).Respects R := by
  have hchained := hR.toChained
  have hsource (s : Source α) : (s.count x).Respects R := by
    have hrange : (s.countInRange x).Respects R := by
      refine (narrow_respects hR (.source s) _).bind hchained fun tail => .reading hchained ?_
      intro e?
      cases e? <;> exact respects_pure hchained _
    unfold Source.count
    cases s.access with
    | indexed => exact (respects_get hchained).bind hchained fun _ => respects_pure hchained _
    | sequential | copying | detached => exact hrange
  induction v with
  | source s => exact hsource s
  | range n s r =>
    unfold count
    split
    · exact hsource s
    · exact respects_pure hchained _
  | descending n link f ih => exact .reading hchained fun _ => ih

theorem contains_respects (hR : Registry.Unlogged R) (v : View α) (x : α) :
    (v.contains x).Respects R := by
  have hchained := hR.toChained
  have hcount := (count_respects hR v x).map hchained fun n => decide (0 < n)
  cases v with
  | source s =>
    show (s.contains x).Respects R
    unfold Source.contains
    cases s.access with
    | indexed => exact (respects_get hchained).bind hchained fun _ => respects_pure hchained _
    | sequential | copying | detached => exact hcount
  | range n s r => exact hcount
  | descending n link f => exact hcount

theorem take_respects (hR : Registry.Chained R) {v : View α}
    (hset : Registry.Ignores R v.root.bag) (x : α) : (v.take x).Respects R := by
  induction v with
  | source s => exact Source.take_respects hR hset x
  | range n s r =>
    unfold take
    split
    · exact Source.take_respects hR hset x
    · exact respects_pure hR none
  | descending n link f ih => exact .reading hR fun _ => ih hset

theorem poll_respects (hR : Registry.Chained R) {v : View α}
    (hset : Registry.Ignores R v.root.bag) (d : Direction) : (v.poll d).Respects R := by
  induction v generalizing d with
  | source s => exact Source.poll_respects hR hset d
  | range n s r =>
    refine .reading hR fun e? => ?_
    cases e? with
    | none => exact respects_pure hR none
    | some e => exact take_respects hR hset e.element
  | descending n link f ih => exact .reading hR fun _ => ih hset d.flip

theorem drain_respects (hR : Registry.Chained R) (v : View α) (d : Direction) :
    (v.drain d).Respects R :=
  .reading hR fun _ => (respects_get hR).map hR _

end View

/-! ## Sets -/

theorem View.elementSet_respects (hR : Registry.Placid R) (v : View α)
    (hupdate : ∀ reg reg', R reg (reg.updateNode (Registry.enroll reg' v).1
      fun n => { n with hasElementSet := true })) : v.elementSet.Respects R := by
  have hchained := hR.toChained
  refine View.enrolling_respects hR v fun reg' => ?_
  refine (respects_get hchained).bind hchained fun reg => ?_
  split
  · exact respects_pure hchained _
  · refine (respects_record hR.toUnlogged _).bind hchained fun _ => ?_
    exact (respects_modify fun reg => hupdate reg reg').bind hchained fun _ =>
      respects_pure hchained _

theorem View.entrySet_respects (hR : Registry.Placid R) (v : View α)
    (hupdate : ∀ reg reg', R reg (reg.updateNode (Registry.enroll reg' v).1
      fun n => { n with hasEntrySet := true })) : v.entrySet.Respects R := by
  have hchained := hR.toChained
  refine View.enrolling_respects hR v fun reg' => ?_
  refine (respects_get hchained).bind hchained fun reg => ?_
  split
  · exact respects_pure hchained _
  · refine (respects_record hR.toUnlogged _).bind hchained fun _ => ?_
    exact (respects_modify fun reg => hupdate reg reg').bind hchained fun _ =>
      respects_pure hchained _

namespace ElementSet

/-- What follows the reference of a set to its view. -/
theorem bag_respects (hR : Registry.Chained R) {s : ElementSet α} {f : View α → Action α β}
    (hf : (f s.view).Respects R) : (s.bag >>= f).Respects R := by
  intro reg
  have hlink := perform_follow s.link s.view reg
  cases hfollow : reg.follow s.link s.view with
  | error e =>
    rw [hfollow] at hlink
    rw [bag, perform_bind_error (perform_bind_error hlink)]
    exact hR.refl reg
  | ok _ =>
    rw [perform_bind_ok (perform_bag hfollow)]
    exact hf reg

theorem keeping_respects (hR : Registry.Unlogged R) (v : View α) : (keeping v).Respects R :=
  (respects_record hR _).map hR.toChained _

theorem descending_respects (hR : Registry.Unlogged R) (s : ElementSet α) :
    s.descending.Respects R :=
  bag_respects hR.toChained
    ((respects_record hR _).bind hR.toChained fun _ => keeping_respects hR _)

theorem scan_respects (hR : Registry.Chained R) (s : ElementSet α) : s.scan.Respects R :=
  bag_respects hR (respects_reading hR _)

theorem scanTowards_respects (hR : Registry.Unlogged R) (s : ElementSet α) (d : Direction) :
    (s.scanTowards d).Respects R := by
  cases d with
  | ascending => exact scan_respects hR.toChained s
  | descending =>
    exact (descending_respects hR s).bind hR.toChained fun t => scan_respects hR.toChained t

theorem lastBefore_respects (hR : Registry.Unlogged R) (s : ElementSet α) (hi : Endpoint α) :
    (s.lastBefore hi).Respects R :=
  bag_respects hR.toChained ((View.narrow_respects hR _ _).bind hR.toChained fun _ =>
    (respects_reading hR.toChained _).map hR.toChained _)

theorem firstAfter_respects (hR : Registry.Unlogged R) (s : ElementSet α) (lo : Endpoint α) :
    (s.firstAfter lo).Respects R :=
  bag_respects hR.toChained ((View.narrow_respects hR _ _).bind hR.toChained fun _ =>
    (respects_reading hR.toChained _).map hR.toChained _)

theorem extreme_respects (hR : Registry.Chained R) (s : ElementSet α) (d : Direction) :
    (s.extreme d).Respects R := by
  refine (bag_respects hR (respects_reading hR _)).bind hR fun e? => ?_
  cases e? with
  | none => exact respects_throw hR _
  | some e => exact respects_pure hR _

end ElementSet

theorem EntrySet.bag_respects (hR : Registry.Chained R) {s : EntrySet α} {f : View α → Action α β}
    (hf : (f s.view).Respects R) : (s.bag >>= f).Respects R :=
  ElementSet.bag_respects (s := ⟨.weak, s.view⟩) hR hf

theorem EntrySet.scan_respects (hR : Registry.Chained R) (s : EntrySet α) : s.scan.Respects R :=
  bag_respects hR (respects_reading hR _)

theorem ElementStep.run_respects (hR : Registry.Unlogged R) (s : ElementSet α)
    (st : ElementStep α) : (st.run s).Respects R := by
  have hkeep {a : View α → Action α (View α)} (ha : (a s.view).Respects R) :
      (do ElementSet.keeping (← a (← s.bag)) : Action α (ElementSet α)).Respects R :=
    ElementSet.bag_respects hR.toChained (ha.bind hR.toChained (ElementSet.keeping_respects hR))
  cases st with
  | head hi => exact hkeep (a := fun v => v.head hi) (View.narrow_respects hR _ _)
  | tail lo => exact hkeep (a := fun v => v.tail lo) (View.narrow_respects hR _ _)
  | sub lo hi => exact hkeep (a := fun v => v.sub lo hi) (View.sub_respects hR _ lo hi)
  | descending => exact ElementSet.descending_respects hR s

/-- What a view builds only once, and then keeps. -/
inductive Keepsake
  /-- The descending view. -/
  | reversal
  /-- The element set. -/
  | elementSet
  /-- The entry set. -/
  | entrySet
  deriving DecidableEq

/-- What the view does when it is asked for that respects the relation. -/
def Keepsake.Respected (R : Registry α → Registry α → Prop) (v : View α) : Keepsake → Prop
  | reversal => v.reversed.Respects R
  | elementSet => v.elementSet.Respects R
  | entrySet => v.entrySet.Respects R

theorem Keepsake.respected (hR : Registry.Steady R) (v : View α) (k : Keepsake) :
    k.Respected R v := by
  cases k with
  | reversal => exact v.reversed_respects hR.toPlacid fun _ _ _ => hR.update _ _ fun _ => rfl
  | elementSet => exact v.elementSet_respects hR.toPlacid fun _ _ => hR.update _ _ fun _ => rfl
  | entrySet => exact v.entrySet_respects hR.toPlacid fun _ _ => hR.update _ _ fun _ => rfl

theorem ViewStep.run_respects (hR : Registry.Placid R) (v : View α) (st : ViewStep α)
    (hbuild : st = .reversed → v.reversed.Respects R) : (st.run v).Respects R := by
  cases st with
  | head hi => exact View.narrow_respects hR.toUnlogged v _
  | tail lo => exact View.narrow_respects hR.toUnlogged v _
  | sub lo hi => exact View.sub_respects hR.toUnlogged v lo hi
  | reversed => exact hbuild rfl
  | itself => exact View.reachItself_respects hR.toChained v

/-! ## What a command changes -/

/-- The command changes what is in the source. -/
def Command.Edits (t : Table α) (s : Source α) : Command α → Prop
  | change name _ => t.find? name = some (.bag (.source s))
  | askBag name (.poll _) | askBag name (.take _) =>
    ∃ v, t.find? name = some (.bag v) ∧ v.root = s
  | askElements name (.poll _) | askElements name (.remove _) =>
    ∃ u, t.find? name = some (.elements u) ∧ u.view.root = s
  | _ => False

/-- A question to a bag edits the source behind it, if any. -/
theorem Command.bag_of_edits {t : Table α} {b : Source α} {name : String} {q : BagQuery α}
    (h : (askBag name q).Edits t b) : ∃ v, t.find? name = some (.bag v) ∧ v.root = b := by
  cases q <;> first | exact h | cases h

theorem Command.elements_of_edits {t : Table α} {b : Source α} {name : String} {q : ElementQuery α}
    (h : (askElements name q).Edits t b) :
    ∃ u, t.find? name = some (.elements u) ∧ u.view.root = b := by
  cases q <;> first | exact h | cases h

/-- The command asks the view for its order, be it to compare endpoints of an interval. -/
def Command.AsksOrder (t : Table α) (v : View α) : Command α → Prop
  | bind _ (.comparatorOf name) | bind _ (.walk name (.within _ _)) | askBag name (.within _ _) =>
    t.find? name = some (.bag v)
  | bind _ (.comparatorOfElements name) =>
    ∃ u, t.find? name = some (.elements u) ∧ u.view = v
  | _ => False

/-- How the view of a name is asked for it. -/
def Keepsake.making (name : String) : Keepsake → Making α
  | reversal => .view name .reversed
  | elementSet => .elementSet name
  | entrySet => .entrySet name

/-- The command asks the view for something that the view builds only once. -/
def Command.Requests (t : Table α) (k : Keepsake) (v : View α) (c : Command α) : Prop :=
  ∃ new name, c = .bind new (k.making name) ∧ t.find? name = some (.bag v)

namespace Table

variable {t : Table α} {name : String}

/-- What follows a look-up in the table. -/
theorem expect_respects (hR : Registry.Chained R) {pick : Handle α → Option β}
    {f : β → Action α γ}
    (hf : ∀ h b, t.find? name = some h → pick h = some b → (f b).Respects R) :
    (t.expect pick name >>= f).Respects R := by
  unfold expect
  cases hb : (t.find? name).bind pick with
  | none =>
    intro reg
    rw [perform_bind_error (perform_throw _ reg)]
    exact hR.refl reg
  | some b =>
    obtain ⟨h, hfind, hpick⟩ := Option.bind_eq_some_iff.mp hb
    intro reg
    rw [perform_bind_ok (perform_pure b reg)]
    exact hf h b hfind hpick reg

theorem bag_respects (hR : Registry.Chained R) {f : View α → Action α γ}
    (hf : ∀ v, t.find? name = some (.bag v) → (f v).Respects R) :
    (t.bag name >>= f).Respects R := by
  refine expect_respects hR fun h v hfind hpick => ?_
  cases h <;> cases hpick
  exact hf v hfind

theorem source_respects (hR : Registry.Chained R) {f : Source α → Action α γ}
    (hf : ∀ s, t.find? name = some (.bag (.source s)) → (f s).Respects R) :
    (t.source name >>= f).Respects R := by
  refine expect_respects hR fun h s hfind hpick => ?_
  rcases h with v | _ | _ | _ | _ | _
  · cases v <;> cases hpick
    exact hf s hfind
  all_goals cases hpick

theorem elements_respects (hR : Registry.Chained R) {f : ElementSet α → Action α γ}
    (hf : ∀ s, t.find? name = some (.elements s) → (f s).Respects R) :
    (t.elements name >>= f).Respects R := by
  refine expect_respects hR fun h s hfind hpick => ?_
  cases h <;> cases hpick
  exact hf s hfind

end Table

/-- A new source has a bag of its own, so filling it changes nothing of which the relation
speaks. -/
theorem filled_respects [Ord α] [Std.TransOrd α] (hR : Registry.Placid R)
    {fill : Source α → Action α Unit}
    (hfill : ∀ (s : Source α) (R' : Registry α → Registry α → Prop), Registry.Chained R' →
      Registry.Ignores R' s.bag → (fill s).Respects R') :
    (do
      let s ← Source.makeNatural
      fill s
      return .bag (.source s) : Action α (Handle α)).Respects R := by
  intro reg
  obtain ⟨s, reg', hmake, hbag, hstart⟩ : ∃ s reg',
      (Source.makeNatural : Action α (Source α)).perform reg = (.ok s, reg') ∧
        s.bag = reg.bags.size ∧ R reg reg' := by
    have hcompare := hR.evaluated reg .natural
    have hnew := hR.source (reg.evaluate .natural).2 (reg.evaluate .natural).1 .indexed
    exact ⟨_, _, rfl, rfl, hR.trans hcompare hnew⟩
  rw [perform_bind_ok hmake]
  -- seen from where it all started, the new bag does not matter
  let R' (reg₁ reg₂ : Registry α) : Prop := R reg reg₁ → R reg reg₂
  have hR' : Registry.Chained R' := ⟨fun _ h => h, fun h h' hr => h' (h hr)⟩
  have hset : Registry.Ignores R' s.bag := fun reg₁ h hr => hR.filled h (Nat.le_of_eq hbag.symm) hr
  exact ((hfill s R' hR' hset).map hR' fun _ => Handle.bag (.source s)) reg' hstart

theorem Visit.run_respects (hR : Registry.Unlogged R) {v : View α} (visit : Visit α)
    (horder : ∀ d q, visit = .within d q → v.comparator.Respects R) :
    (visit.run v).Respects R := by
  have hchained := hR.toChained
  cases visit with
  | entries d => exact (respects_reading hchained _).map hchained _
  | within d q => exact (View.scanExpr_respects hR (horder d q rfl) d q).map hchained _
  | occurrences => exact (respects_reading hchained _).map hchained _

theorem Handle.ofView_respects (hR : Registry.Placid R) (v : View α) :
    (Handle.ofView v).Respects R :=
  (View.updating_enroll_respects hR v).map hR.toChained _

theorem Handle.ofElements_respects (hR : Registry.Placid R) (s : ElementSet α) :
    (Handle.ofElements s).Respects R :=
  (View.updating_enroll_respects hR s.view).map hR.toChained _

theorem Making.run_respects [Ord α] [Std.TransOrd α] [Shown α] (hR : Registry.Placid R)
    {t : Table α} {new : String} {m : Making α}
    (horder : ∀ v, (Command.bind new m).AsksOrder t v → v.comparator.Respects R)
    (hbuild : ∀ k v, (Command.bind new m).Requests t k v → k.Respected R v) :
    (m.run t).Respects R := by
  have hchained := hR.toChained
  cases m with
  | source a sorting =>
    have hsort : (sorting.run t).Respects R := by
      cases sorting with
      | evaluated o => exact respects_updating fun reg => hR.evaluated reg o
      | named name =>
        intro reg
        rw [Sorting.run, Table.comparator, Table.perform_expect]
        exact hR.refl reg
    refine hsort.bind hchained fun c => ?_
    exact (respects_updating fun reg => hR.source reg c a).map hchained _
  | ofElements xs => exact filled_respects hR fun s R' h hset => s.extend_respects h hset xs
  | ofEntries es => exact filled_respects hR fun s R' h hset => s.insertEntries_respects h hset es
  | copyEntries name =>
    refine Table.bag_respects hchained fun v _ => .reading hchained fun es => ?_
    exact filled_respects hR fun s R' h hset => s.insertEntries_respects h hset es
  | copyElements name =>
    refine Table.bag_respects hchained fun v _ => .reading hchained fun w => ?_
    exact filled_respects hR fun s R' h hset => s.absorb_respects h hset w
  | comparator o =>
    have heval : (updating fun reg : Registry α => reg.evaluate o).Respects R :=
      fun reg => hR.evaluated reg o
    exact heval.map hchained _
  | weak name => exact Table.bag_respects hchained fun v _ => respects_pure hchained _
  | walk name visit =>
    refine Table.bag_respects hchained fun v hv =>
      (visit.run_respects hR.toUnlogged ?_).map hchained _
    rintro d q rfl
    exact horder v hv
  | walkElements name d =>
    exact Table.elements_respects hchained fun s _ =>
      (s.scanTowards_respects hR.toUnlogged d).map hchained _
  | walkEntries name =>
    exact Table.expect_respects hchained fun _ s _ _ => (s.scan_respects hchained).map hchained _
  | view name st =>
    refine Table.bag_respects hchained fun v hv => ?_
    refine (ViewStep.run_respects hR v st ?_).bind hchained (Handle.ofView_respects hR)
    rintro rfl
    exact hbuild .reversal v ⟨new, name, rfl, hv⟩
  | comparatorOf name =>
    exact Table.bag_respects hchained fun v hv => (horder v hv).map hchained _
  | elementSet name =>
    refine Table.bag_respects hchained fun v hv => ?_
    exact Respects.map (hbuild .elementSet v ⟨new, name, rfl, hv⟩) hchained _
  | entrySet name =>
    refine Table.bag_respects hchained fun v hv => ?_
    exact Respects.map (hbuild .entrySet v ⟨new, name, rfl, hv⟩) hchained _
  | elements name st =>
    exact Table.elements_respects hchained fun s _ =>
      (st.run_respects hR.toUnlogged s).bind hchained (Handle.ofElements_respects hR)
  | bagOfElements name =>
    exact Table.elements_respects hchained fun s _ =>
      ElementSet.bag_respects hchained (Handle.ofView_respects hR s.view)
  | comparatorOfElements name =>
    refine Table.elements_respects hchained fun s hs => ?_
    have hcomp : s.comparator.Respects R :=
      ElementSet.bag_respects hchained (horder s.view ⟨s, hs, rfl⟩)
    exact hcomp.map hchained _
  | bagOfEntries name =>
    exact Table.expect_respects hchained fun _ s _ _ =>
      EntrySet.bag_respects hchained (Handle.ofView_respects hR s.view)
  | reversedComparator name =>
    exact Table.expect_respects hchained fun _ _ _ _ => respects_pure hchained _

theorem Change.run_respects (hR : Registry.Chained R) {t : Table α} {s : Source α}
    (hset : Registry.Ignores R s.bag) (c : Change α) : (c.run t s).Respects R := by
  cases c with
  | insert x =>
    refine (s.insert_respects hR hset x 1).bind hR fun previous => ?_
    cases s.access <;> exact respects_pure hR _
  | insertMany x n => exact (s.insert_respects hR hset x n).map hR _
  | extend xs => exact (s.extend_respects hR hset xs).map hR _
  | absorb name =>
    refine Table.bag_respects hR fun v _ => .reading hR fun w => ?_
    exact (s.absorb_respects hR hset w).map hR _
  | remove x => exact (s.remove_respects hR hset x).map hR _
  | removeAll x => exact (s.removeAll_respects hR hset x).map hR _
  | clear => exact (s.replace_respects hset _).map hR _

theorem drained_respects (hR : Registry.Chained R) {a : Action α (Traversal α)}
    (ha : a.Respects R) (g : List (Entry α) → Answer α) :
    (do return g (← (← a).drain) : Action α (Answer α)).Respects R :=
  ha.bind hR fun _ => ((respects_get hR).map hR _).map hR g

section

variable [Shown α]

theorem BagQuery.run_respects (hR : Registry.Unlogged R) {t : Table α} {name : String} {v : View α}
    (hv : t.find? name = some (.bag v)) {q : BagQuery α}
    (hset : (Command.askBag name q).Edits t v.root → Registry.Ignores R v.root.bag)
    (horder : (Command.askBag name q).AsksOrder t v → v.comparator.Respects R) :
    (q.run v).Respects R := by
  have hchained := hR.toChained
  cases q with
  | entries d => exact (v.drain_respects hchained d).map hchained _
  | within d q => exact drained_respects hchained (View.scanExpr_respects hR (horder hv) d q) _
  | extreme d => exact (respects_reading hchained _).map hchained _
  | poll d => exact (View.poll_respects hchained (hset ⟨v, hv, rfl⟩) d).map hchained _
  | take x => exact (View.take_respects hchained (hset ⟨v, hv, rfl⟩) x).map hchained _
  | count x => exact (v.count_respects hR x).map hchained _
  | contains x => exact (v.contains_respects hR x).map hchained _
  | size => exact (respects_reading hchained _).map hchained _
  | distinctSize => exact (respects_reading hchained _).map hchained _
  | isEmpty => exact (respects_reading hchained _).map hchained _
  | occurrences limit => exact .reading hchained fun _ => (respects_get hchained).map hchained _
  | debug => exact (v.drain_respects hchained .ascending).map hchained _
  | pretty => exact (v.drain_respects hchained .ascending).map hchained _

theorem ElementQuery.run_respects (hR : Registry.Unlogged R) {t : Table α} {name : String}
    {s : ElementSet α} (hs : t.find? name = some (.elements s)) {q : ElementQuery α}
    (hset : (Command.askElements name q).Edits t s.view.root →
      Registry.Ignores R s.view.root.bag) : (q.run s).Respects R := by
  have hchained := hR.toChained
  cases q with
  | extreme d => exact (s.extreme_respects hchained d).map hchained _
  | lower x => exact (s.lastBefore_respects hR _).map hchained _
  | floor x => exact (s.lastBefore_respects hR _).map hchained _
  | ceiling x => exact (s.firstAfter_respects hR _).map hchained _
  | higher x => exact (s.firstAfter_respects hR _).map hchained _
  | poll d =>
    have hpoll := View.poll_respects hchained (hset ⟨s, hs, rfl⟩) d
    exact Respects.map (ElementSet.bag_respects hchained (hpoll.map hchained _)) hchained _
  | contains x =>
    exact Respects.map (ElementSet.bag_respects hchained (s.view.contains_respects hR x)) hchained _
  | remove x =>
    have htake := View.take_respects hchained (hset ⟨s, hs, rfl⟩) x
    exact Respects.map (ElementSet.bag_respects hchained (htake.map hchained _)) hchained _
  | isEmpty =>
    exact Respects.map (ElementSet.bag_respects hchained (respects_reading hchained _)) hchained _
  | size =>
    exact Respects.map (ElementSet.bag_respects hchained (respects_reading hchained _)) hchained _
  | elements d => exact drained_respects hchained (s.scanTowards_respects hR d) _
  | debug => exact drained_respects hchained (s.scan_respects hchained) _
  | pretty => exact drained_respects hchained (s.scan_respects hchained) _

theorem EntryQuery.run_respects (hR : Registry.Unlogged R) (s : EntrySet α) (q : EntryQuery α) :
    (q.run s).Respects R := by
  have hchained := hR.toChained
  cases q with
  | entries => exact drained_respects hchained (s.scan_respects hchained) _
  | size =>
    exact Respects.map (EntrySet.bag_respects hchained (respects_reading hchained _)) hchained _
  | isEmpty =>
    exact Respects.map (EntrySet.bag_respects hchained (respects_reading hchained _)) hchained _
  | contains e =>
    have hcount := (s.view.count_respects hR e.element).map hchained (· == e.count)
    exact Respects.map (EntrySet.bag_respects hchained hcount) hchained _
  | display => exact drained_respects hchained (s.scan_respects hchained) _
  | debug => exact drained_respects hchained (s.scan_respects hchained) _
  | pretty => exact drained_respects hchained (s.scan_respects hchained) _

end

theorem Table.same_respects (hR : Registry.Chained R) (t : Table α) (first second : String) :
    (t.same first second).Respects R := by
  unfold same
  split
  · exact expect_respects hR fun _ _ _ _ => respects_pure hR _
  · exact expect_respects hR fun _ _ _ _ => respects_pure hR _
  · exact expect_respects hR fun _ _ _ _ => expect_respects hR fun _ _ _ _ => respects_pure hR _

/-- A command respects every relation that does not mind what the command changes. -/
theorem Command.run_respects [Ord α] [Std.TransOrd α] [Shown α] (hR : Registry.Placid R)
    {t : Table α} {c : Command α} (hset : ∀ s, c.Edits t s → Registry.Ignores R s.bag)
    (horder : ∀ v, c.AsksOrder t v → v.comparator.Respects R)
    (hbuild : ∀ k v, c.Requests t k v → k.Respected R v) : (c.run t).Respects R := by
  have hchained := hR.toChained
  cases c with
  | bind name m => exact (Making.run_respects hR horder hbuild).map hchained _
  | drop name => exact respects_pure hchained _
  | isAlive name =>
    exact Table.expect_respects hchained fun _ _ _ _ => (respects_get hchained).map hchained _
  | same first second => exact (t.same_respects hchained first second).map hchained _
  | next name n =>
    exact Table.expect_respects hchained fun _ _ _ _ => (respects_get hchained).map hchained _
  | change name c =>
    exact Table.source_respects hchained fun s hs =>
      (c.run_respects hchained (hset s hs)).map hchained _
  | askBag name q =>
    refine Table.bag_respects hchained fun v hv => ?_
    exact (q.run_respects hR.toUnlogged hv (hset v.root) (horder v)).map hchained _
  | askElements name q =>
    refine Table.elements_respects hchained fun s hs => ?_
    exact (q.run_respects hR.toUnlogged hs (hset s.view.root)).map hchained _
  | askEntries name q =>
    exact Table.expect_respects hchained fun _ s _ _ =>
      (q.run_respects hR.toUnlogged s).map hchained _
  | askComparator name q =>
    refine Table.expect_respects hchained fun _ c _ _ => ?_
    cases q with
    | compare a b => exact respects_pure hchained _
    | equals other =>
      exact (Table.expect_respects hchained fun _ _ _ _ => respects_pure hchained _).map hchained _
    | debug => exact respects_pure hchained _

/-! ## Contents and comparators -/

namespace Registry

/-- The bag, if it is there, keeps its contents. -/
def SameContents (b : BagId) (reg reg' : Registry α) : Prop :=
  b < reg.bags.size → b < reg'.bags.size ∧ reg'.contents b = reg.contents b

/-- The comparator that a node remembers, if it does. -/
def memo (reg : Registry α) (i : NodeId) : Option (Comparator α) :=
  reg.nodes[i]?.bind Node.comparator

/-- Every node remembers the comparator that it remembered, and no other one. -/
def SameMemory (reg reg' : Registry α) : Prop :=
  reg'.memo = reg.memo

theorem sameContents_of_bags {b : BagId} {reg reg' : Registry α} (h : reg'.bags = reg.bags) :
    SameContents b reg reg' := by
  intro hb
  rw [contents, contents, h]
  exact ⟨hb, rfl⟩

theorem bags_updateNode (reg : Registry α) (v : View α) (f : Node α → Node α) :
    (reg.updateNode v f).bags = reg.bags := by
  unfold updateNode
  split <;> rfl

theorem sameContents_setContents {b b' : BagId} (hne : b ≠ b') (reg : Registry α)
    (h : Histogram α) : SameContents b reg (reg.setContents b' h) := by
  intro hb
  refine ⟨by simpa [setContents] using hb, ?_⟩
  rw [contents_setContents, if_neg fun heq => hne heq.1]

theorem sameContents_steady (b : BagId) : Steady (SameContents (α := α) b) where
  refl _ hb := ⟨hb, rfl⟩
  trans h h' hb := ⟨(h' (h hb).1).1, (h' (h hb).1).2.trans (h hb).2⟩
  log _ _ := sameContents_of_bags rfl
  evaluated _ _ := sameContents_of_bags rfl
  push _ _ := sameContents_of_bags rfl
  update reg v {f} _ := sameContents_of_bags (bags_updateNode reg v f)
  source reg c a := by
    intro hb
    refine ⟨?_, ?_⟩
    · show b < (reg.bags.push .empty).size
      rw [Array.size_push]
      exact Nat.lt_succ_of_lt hb
    · unfold contents addSource
      rw [Array.getElem?_push_lt hb, Array.getElem?_eq_getElem hb]
  filled {reg reg' b'} h hnew hr := by
    intro hb
    obtain ⟨hb', hsame⟩ := hr hb
    have hset := sameContents_setContents (Nat.ne_of_lt (Nat.lt_of_lt_of_le hb hnew)) reg' h hb'
    exact ⟨hset.1, hset.2.trans hsame⟩

theorem memo_push (reg : Registry α) (v : View α) : (reg.push v).memo = reg.memo := by
  funext i
  rw [memo, node_push, memo]
  split
  next hi => rw [hi, Array.getElem?_eq_none (Nat.le_refl _)]; rfl
  next => rfl

theorem memo_of_nodes {reg reg' : Registry α} (h : reg'.nodes = reg.nodes) :
    reg'.memo = reg.memo := by
  funext i
  rw [memo, memo, h]

theorem memo_updateNode (reg : Registry α) (v : View α) {f : Node α → Node α}
    (hf : ∀ n, (f n).comparator = n.comparator) : (reg.updateNode v f).memo = reg.memo := by
  funext i
  unfold updateNode memo
  cases v.node? with
  | none => rfl
  | some j =>
    simp only [Array.getElem?_modify]
    split
    next => cases reg.nodes[i]? <;> simp [hf]
    next => rfl

theorem sameMemory_steady : Steady (SameMemory (α := α)) where
  refl _ := rfl
  trans h h' := h'.trans h
  log _ _ := memo_of_nodes rfl
  evaluated _ _ := memo_of_nodes rfl
  push := memo_push
  update reg v {_} hf := memo_updateNode reg v hf
  source reg c a :=
    (memo_of_nodes rfl).trans (memo_push reg (.source ⟨reg.nodes.size, reg.bags.size, c, a⟩))
  filled _ _ hr := (memo_of_nodes rfl).trans hr

theorem memo_sweep (reg : Registry α) (held : List NodeId) : (reg.sweep held).memo = reg.memo := by
  funext i
  rw [memo, node_sweep, memo]
  cases reg.nodes[i]? <;> rfl

@[simp] theorem memo_release (reg : Registry α) (held : List NodeId) :
    (reg.release held).memo = reg.memo :=
  release_induction (P := fun r => r.memo = reg.memo) (fun r hr => (memo_sweep r held).trans hr) rfl

end Registry

namespace Session

variable [Ord α] [Std.TransOrd α] [Shown α] {s : Session α} {c : Command α}

/-- A bag keeps its contents unless the command changes a source that has this bag. -/
theorem contents_step {b : BagId} (hb : b < s.registry.bags.size)
    (hedit : ∀ s', c.Edits s.table s' → s'.bag ≠ b) (watched : List String) :
    (s.step watched c).2.registry.contents b = s.registry.contents b := by
  have hrun : (c.run s.table).Respects (Registry.SameContents b) := by
    have hR := Registry.sameContents_steady (α := α) b
    refine Command.run_respects hR.toPlacid (fun s' hs' reg h => ?_) ?_
      fun k v _ => k.respected hR v
    · exact Registry.sameContents_setContents (hedit s' hs').symm reg h
    · exact fun v _ => View.comparator_respects hR.toChained
        (fun reg v _ => Registry.sameContents_of_bags (Registry.bags_updateNode reg v _)) v
  have hsame := (hrun s.fresh hb).2
  exact (congrFun (Registry.contents_release _ _) b).trans hsame

/-- Nothing is remembered anew unless the command asks for an order. -/
theorem memo_step (hask : ∀ v, ¬ c.AsksOrder s.table v) (watched : List String) :
    (s.step watched c).2.registry.memo = s.registry.memo := by
  have hrun : (c.run s.table).Respects Registry.SameMemory :=
    Command.run_respects Registry.sameMemory_steady.toPlacid
      (fun _ _ _ _ => Registry.memo_of_nodes rfl) (fun v hv => absurd hv (hask v))
      fun k v _ => k.respected Registry.sameMemory_steady v
  exact (Registry.memo_release _ _).trans (hrun s.fresh)

end Session

end OrderedBag
