import OrderedBag.Proofs.Sessions

/-!
# Totals that are checked

Where totals are checked, a command may fail because a total is out of range. As long as this does
not happen, a session is like one in which totals wrap around: it tells the same, writes the same to
the log and shows the same, and what is left of it differs in nothing but the arithmetic. So what is
known of sessions in which totals wrap around is known of such a session.

* `Failure.ofTotal` — the failures of totals
* `Action.Uniform` — an action that does the same either way unless it fails for a total
* `Command.run_uniform` — all commands are such actions
* `Session.run_unchecked` — a run in which no command fails for a total
* `Session.reachable_unchecked` — it leads to a session that is reachable, but for the arithmetic
-/

namespace OrderedBag

open OrderedBag.Action

variable {α β γ : Type}

/-! ## Failures of totals -/

/-- A total is out of range. -/
def Failure.ofTotal : Failure → Bool
  | @countOverflow .sum | @countOverflow .difference => true
  | _ => false

/-- What is told is no failure of a total. -/
def Spared (o : Except Failure β) : Prop :=
  ∀ e, o = .error e → e.ofTotal = false

theorem Spared.map {o : Except Failure β} {g : β → γ} : Spared (o.map g) ↔ Spared o := by
  cases o with
  | error e =>
    refine ⟨fun h e' he => ?_, fun h e' he => ?_⟩
    all_goals
      cases he
      exact h e rfl
  | ok b => exact ⟨fun _ => nofun, fun _ => nofun⟩

/-- A sum that is told without a failure does not wrap around. -/
theorem Arithmetic.sum_of_spared {a : Arithmetic} {es : List (Entry α)} (h : Spared (a.sum es)) :
    Arithmetic.wrapping.sum es = a.sum es := by
  cases a with
  | wrapping => rfl
  | checked =>
    by_cases hle : totalCount es ≤ maxCount
    · exact (congrArg Except.ok (wrap_of_le hle)).trans (if_pos hle).symm
    · cases h _ (if_neg hle)

/-! ## Registries -/

namespace Registry

/-- The registry, where totals wrap around. -/
def unchecked (reg : Registry α) : Registry α :=
  { reg with arithmetic := .wrapping }

theorem updateNode_unchecked (reg : Registry α) (v : View α) (f : Node α → Node α) :
    reg.unchecked.updateNode v f = (reg.updateNode v f).unchecked := by
  unfold updateNode
  cases v.node? <;> rfl

theorem enroll_unchecked (reg : Registry α) (v : View α) :
    reg.unchecked.enroll v = ((reg.enroll v).1, (reg.enroll v).2.unchecked) := by
  induction v with
  | source s => rfl
  | range n s r => cases n <;> rfl
  | descending n link f ih =>
    cases n with
    | some i => rfl
    | none =>
      rw [enroll, ih]
      rfl

theorem settle_unchecked (reg : Registry α) (held : List NodeId) (rounds : Nat) :
    settle held rounds reg.unchecked = (settle held rounds reg).unchecked := by
  induction rounds generalizing reg with
  | zero => rfl
  | succ rounds ih =>
    have hcount : (reg.unchecked.sweep held).aliveCount = (reg.sweep held).aliveCount := rfl
    unfold settle
    by_cases hsame : (reg.sweep held).aliveCount = reg.aliveCount
    · exact (if_pos (hcount.trans hsame)).trans (congrArg unchecked (if_pos hsame).symm)
    · exact (if_neg fun h => hsame (hcount.symm.trans h)).trans
        ((ih (reg.sweep held)).trans (congrArg unchecked (if_neg hsame).symm))

theorem release_unchecked (reg : Registry α) (held : List NodeId) :
    reg.unchecked.release held = (reg.release held).unchecked :=
  reg.settle_unchecked held _

end Registry

/-! ## Reading views -/

namespace View

variable (reg : Registry α) (v : View α)

/-- A question that a source or a range answers without a look at the arithmetic. A descending view
puts it to the view behind it, and may turn it around. -/
theorem reading_unchecked {ι : Type} (g : Registry α → View α → ι → Except Failure β) (turn : ι → ι)
    (hsource : ∀ s i, g reg.unchecked (source s) i = g reg (source s) i)
    (hrange : ∀ n s r i, g reg.unchecked (range n s r) i = g reg (range n s r) i)
    (hdescending : ∀ reg n link f i,
      g reg (descending n link f) i = (do reg.follow link f; g reg f (turn i)))
    (i : ι) : g reg.unchecked v i = g reg v i := by
  induction v generalizing i with
  | source s => exact hsource s i
  | range n s r => exact hrange n s r i
  | descending n link f ih =>
    rw [hdescending, hdescending, ih]
    rfl

theorem scan_unchecked (d : Direction) : v.scan reg.unchecked d = v.scan reg d :=
  v.reading_unchecked reg (fun reg v d => v.scan reg d) Direction.flip (fun _ _ => rfl)
    (fun _ _ _ _ => rfl) (fun _ _ _ _ _ => rfl) d

theorem scanWithin_unchecked (d : Direction) (q : Interval α) :
    v.scanWithin reg.unchecked d q = v.scanWithin reg d q :=
  v.reading_unchecked reg (fun reg v (i : Direction × Interval α) => v.scanWithin reg i.1 i.2)
    (fun i => (i.1.flip, i.2.reverse)) (fun _ _ => rfl) (fun _ _ _ _ => rfl)
    (fun _ _ _ _ _ => rfl) (d, q)

theorem extreme?_unchecked (d : Direction) : v.extreme? reg.unchecked d = v.extreme? reg d :=
  v.reading_unchecked reg (fun reg v d => v.extreme? reg d) Direction.flip (fun _ _ => rfl)
    (fun _ _ _ _ => rfl) (fun _ _ _ _ _ => rfl) d

theorem distinctSize_unchecked : v.distinctSize reg.unchecked = v.distinctSize reg :=
  v.reading_unchecked reg (fun reg v (_ : Unit) => v.distinctSize reg) id (fun _ _ => rfl)
    (fun _ _ _ _ => rfl) (fun _ _ _ _ _ => rfl) ()

theorem isEmpty_unchecked : v.isEmpty reg.unchecked = v.isEmpty reg :=
  v.reading_unchecked reg (fun reg v (_ : Unit) => v.isEmpty reg) id (fun _ _ => rfl)
    (fun _ _ _ _ => rfl) (fun _ _ _ _ _ => rfl) ()

theorem entries_unchecked : v.entries reg.unchecked = v.entries reg := by
  unfold entries
  rw [scan_unchecked]
  rfl

theorem occurrences_unchecked : v.occurrences reg.unchecked = v.occurrences reg := by
  unfold occurrences
  rw [scan_unchecked]

variable {reg v}

/-- A size that is told without a failure does not wrap around. -/
theorem size_unchecked (h : Spared (v.size reg)) : v.size reg.unchecked = v.size reg := by
  induction v with
  | source s =>
    show s.size reg.unchecked = s.size reg
    change Spared (s.size reg) at h
    unfold Source.size at h ⊢
    cases haccess : s.access with
    | indexed => rfl
    | sequential | copying | detached =>
      rw [haccess] at h
      exact Arithmetic.sum_of_spared h
  | range n s r => exact Arithmetic.sum_of_spared h
  | descending n link f ih =>
    show (do reg.follow link f; f.size reg.unchecked) = (do reg.follow link f; f.size reg)
    change Spared (do reg.follow link f; f.size reg) at h
    cases hfollow : reg.follow link f with
    | error e => rfl
    | ok _ =>
      rw [hfollow] at h
      exact ih h

end View

/-! ## Actions -/

/-- Unless it fails for a total, the action does the same where totals wrap around. -/
def Action.Uniform (a : Action α β) : Prop :=
  ∀ reg, Spared (a.perform reg).1 →
    a.perform reg.unchecked = ((a.perform reg).1, (a.perform reg).2.unchecked)

namespace Action

variable {a : Action α β} {f : β → Action α γ}

theorem uniform_pure (b : β) : (pure b : Action α β).Uniform :=
  fun _ _ => rfl

theorem uniform_throw (e : Failure) : (throw e : Action α β).Uniform :=
  fun _ _ => rfl

theorem uniform_record (r : Record) : (record r : Action α Unit).Uniform :=
  fun _ _ => rfl

theorem uniform_follow (link : Link) (v : View α) : (follow link v).Uniform := by
  intro reg _
  rw [perform_follow, perform_follow]
  rfl

theorem uniform_reading {g : Registry α → Except Failure β}
    (hg : ∀ reg, Spared (g reg) → g reg.unchecked = g reg) : (reading g).Uniform := by
  intro reg h
  rw [perform_reading] at h ⊢
  rw [hg reg h, perform_reading]

theorem uniform_updating {g : Registry α → β × Registry α}
    (hg : ∀ reg, g reg.unchecked = ((g reg).1, (g reg).2.unchecked)) : (updating g).Uniform := by
  intro reg _
  rw [perform_updating, perform_updating, hg reg]

theorem uniform_modify {g : Registry α → Registry α}
    (hg : ∀ reg, g reg.unchecked = (g reg).unchecked) :
    (modify g : Action α Unit).Uniform := by
  intro reg _
  rw [perform_modify, perform_modify, hg reg]

theorem Uniform.bind (ha : a.Uniform) (hf : ∀ b, (f b).Uniform) : (a >>= f).Uniform := by
  intro reg h
  have hstep := ha reg
  rcases hp : a.perform reg with ⟨e | b, reg'⟩
  all_goals rw [hp] at hstep
  · -- what the first part fails for, the whole fails for
    rw [perform_bind_error hp] at h ⊢
    exact perform_bind_error (hstep fun e' he => h e' (congrArg _ (Except.error.inj he)))
  · rw [perform_bind_ok hp] at h ⊢
    rw [perform_bind_ok (hstep nofun)]
    exact hf b reg' h

/-- An action that only goes on from the answer of another one. -/
theorem Uniform.map (ha : a.Uniform) (g : β → γ) : (a >>= fun b => pure (g b)).Uniform :=
  ha.bind fun b => uniform_pure (g b)

/-- What looks at the registry, but not at its arithmetic. -/
theorem uniform_get {f : Registry α → Action α γ} (hsame : ∀ reg, f reg.unchecked = f reg)
    (hf : ∀ reg, (f reg).Uniform) : (get >>= f).Uniform := by
  intro reg h
  rw [perform_bind_ok (perform_get reg)] at h ⊢
  rw [perform_bind_ok (perform_get _), hsame reg]
  exact hf reg reg h

end Action

/-! ## Changing a source -/

namespace Source

variable (s : Source α)

theorem replace_uniform (h : Histogram α) : (s.replace h).Uniform :=
  uniform_modify fun _ => rfl

/-- If it fails at all, it fails for a total. -/
theorem checkTotal_uniform (fits : Bool) {m : Misfit}
    (hm : (@Failure.countOverflow m).ofTotal = true) : (s.checkTotal fits m).Uniform := by
  intro reg h
  rw [perform_checkTotal (show reg.unchecked.arithmetic = .wrapping from rfl) s fits m]
  have hreg := perform_checkTotal_snd s fits m reg
  suffices hok : ((s.checkTotal fits m).perform reg).1 = .ok () by rw [hok, hreg]
  unfold checkTotal at h ⊢
  rw [perform_bind_ok (perform_get reg)] at h ⊢
  split at h
  next => exact absurd (h _ rfl) (by simp [hm])
  next hcase => rw [if_neg hcase]; rfl

theorem settle_uniform (h : Histogram α) (fits : Bool) {m : Misfit}
    (hm : (@Failure.countOverflow m).ofTotal = true) : (s.settle h fits m).Uniform :=
  uniform_get (fun _ => rfl) fun _ => (s.replace_uniform _).bind fun _ =>
    (s.checkTotal_uniform fits hm).bind fun _ => s.replace_uniform h

theorem insert_uniform (x : α) (n : Nat) : (s.insert x n).Uniform := by
  refine uniform_get (fun _ => rfl) fun reg => ?_
  cases (reg.contents s.bag).insert? s.comparator x n with
  | none => exact uniform_throw _
  | some h => exact (s.settle_uniform h _ rfl).map _

theorem extend_uniform (xs : List α) : (s.extend xs).Uniform := by
  induction xs with
  | nil => exact uniform_pure ()
  | cons x xs ih => exact (s.insert_uniform x 1).bind fun _ => ih

theorem insertTimes_uniform (x : α) (n : Nat) : (s.insertTimes x n).Uniform := by
  induction n with
  | zero => exact uniform_pure ()
  | succ n ih => exact (s.insert_uniform x 1).bind fun _ => ih

theorem absorbUpTo_uniform (n : Nat) (t : Traversal α) : (s.absorbUpTo n t).Uniform := by
  induction n generalizing t with
  | zero => exact uniform_pure ()
  | succ n ih =>
    refine uniform_get (fun _ => rfl) fun reg => ?_
    rcases t.next reg.contents with ⟨_ | e, t'⟩
    · exact uniform_pure ()
    · exact (s.insertTimes_uniform e.element e.count).bind fun _ => ih t'

theorem absorb_uniform (t : Traversal α) : (s.absorb t).Uniform :=
  uniform_get (fun _ => rfl) fun _ => s.absorbUpTo_uniform _ t

theorem insertEntries_uniform (es : List (Entry α)) : (s.insertEntries es).Uniform := by
  induction es with
  | nil => exact uniform_pure ()
  | cons e es ih => exact (s.insert_uniform e.element e.count).bind fun _ => ih

theorem remove_uniform (x : α) : (s.remove x).Uniform :=
  uniform_get (fun _ => rfl) fun _ => (s.checkTotal_uniform _ rfl).bind fun _ =>
    (s.replace_uniform _).map _

theorem removeAll_uniform (x : α) : (s.removeAll x).Uniform :=
  uniform_get (fun _ => rfl) fun _ => (s.settle_uniform _ _ rfl).map _

theorem lose_uniform (e? : Option (Entry α)) (h : Histogram α) : (s.lose e? h).Uniform :=
  uniform_get (fun _ => rfl) fun _ => (s.settle_uniform h _ rfl).map _

theorem take_uniform (x : α) : (s.take x).Uniform :=
  uniform_get (fun _ => rfl) fun _ => s.lose_uniform _ _

theorem poll_uniform (d : Direction) : (s.poll d).Uniform := by
  unfold poll
  split
  · exact uniform_get (fun _ => rfl) fun _ => s.lose_uniform _ _
  · refine uniform_get (fun _ => rfl) fun reg => ?_
    cases s.extreme? reg.contents d with
    | none => exact uniform_pure none
    | some e => exact s.take_uniform e.element

theorem reachItself_uniform : s.reachItself.Uniform := by
  unfold reachItself
  split
  · exact uniform_throw _
  · exact uniform_pure _

theorem narrow_uniform (q : Interval α) : (s.narrow q).Uniform :=
  s.reachItself_uniform.bind fun _ => (uniform_record _).bind fun _ => uniform_pure _

end Source

/-! ## Views -/

namespace View

variable (v : View α)

theorem updating_enroll_uniform : (Action.updating fun reg => reg.enroll v).Uniform :=
  uniform_updating fun reg => reg.enroll_unchecked v

theorem modify_updateNode_uniform (f : Node α → Node α) :
    (modify fun reg => reg.updateNode v f : Action α Unit).Uniform :=
  uniform_modify fun reg => reg.updateNode_unchecked v f

theorem reading_scan_uniform (d : Direction) :
    (Action.reading fun reg => v.scan reg d).Uniform :=
  uniform_reading fun reg _ => v.scan_unchecked reg d

theorem reading_extreme?_uniform (d : Direction) :
    (Action.reading fun reg => v.extreme? reg d).Uniform :=
  uniform_reading fun reg _ => v.extreme?_unchecked reg d

theorem reading_size_uniform : (Action.reading v.size).Uniform :=
  uniform_reading fun _ => size_unchecked

theorem reading_distinctSize_uniform : (Action.reading v.distinctSize).Uniform :=
  uniform_reading fun reg _ => v.distinctSize_unchecked reg

theorem reading_isEmpty_uniform : (Action.reading v.isEmpty).Uniform :=
  uniform_reading fun reg _ => v.isEmpty_unchecked reg

theorem narrow_uniform (q : Interval α) : (v.narrow q).Uniform := by
  induction v generalizing q with
  | source s => exact s.narrow_uniform q
  | range n s r => exact (uniform_record _).bind fun _ => uniform_pure _
  | descending n link f ih =>
    exact (uniform_follow link f).bind fun _ => (ih q.reverse).bind fun _ =>
      (uniform_record _).bind fun _ => uniform_pure _

theorem between_uniform (c : Comparator α) (lo hi : Endpoint α) :
    (Action.between c lo hi).Uniform := by
  unfold Action.between
  cases Interval.between? c lo hi with
  | some r => exact uniform_pure r
  | none => exact (uniform_record _).bind fun _ => uniform_throw _

theorem sub_uniform (lo hi : Endpoint α) : (v.sub lo hi).Uniform := by
  induction v generalizing lo hi with
  | source s => exact (between_uniform _ lo hi).bind fun q => s.narrow_uniform q
  | range n s r => exact (between_uniform _ lo hi).bind fun q => narrow_uniform (range n s r) q
  | descending n link f ih =>
    exact (uniform_follow link f).bind fun _ => (ih hi lo).bind fun _ =>
      (uniform_record _).bind fun _ => uniform_pure _

theorem buildReversal_uniform : v.buildReversal.Uniform :=
  (uniform_record _).bind fun _ => (updating_enroll_uniform _).bind fun _ =>
    (v.modify_updateNode_uniform _).bind fun _ => uniform_pure _

theorem reversed_uniform : v.reversed.Uniform := by
  cases hup : v.isDescending with
  | true =>
    cases v with
    | source s => simp [isDescending] at hup
    | range n s r => simp [isDescending] at hup
    | descending n link f => exact (uniform_follow link f).bind fun _ => uniform_pure f
  | false =>
    rw [reversed_of_up hup]
    refine v.updating_enroll_uniform.bind fun w => uniform_get (fun _ => rfl) fun reg => ?_
    cases (reg.nodeOf? w).bind Node.reversal with
    | some d => exact uniform_pure d
    | none => exact w.buildReversal_uniform

theorem reachItself_uniform : v.reachItself.Uniform := by
  cases v with
  | source s => exact s.reachItself_uniform
  | range n s r => exact uniform_pure _
  | descending n link f => exact uniform_pure _

theorem comparator_uniform : v.comparator.Uniform := by
  induction v with
  | source s => exact uniform_pure _
  | range n s r => exact uniform_pure _
  | descending n link f ih =>
    refine uniform_get (fun _ => rfl) fun reg => ?_
    cases (reg.nodeOf? (descending n link f)).bind Node.comparator with
    | some c => exact uniform_pure c
    | none =>
      exact (uniform_follow link f).bind fun _ => ih.bind fun _ =>
        (modify_updateNode_uniform _ _).bind fun _ => uniform_pure _

theorem scanExpr_uniform (d : Direction) (q : IntervalExpr α) : (v.scanExpr d q).Uniform := by
  refine v.comparator_uniform.bind fun c => ?_
  have hrequire : (q.require c).Uniform := by
    unfold IntervalExpr.require
    cases q.eval c with
    | some r => exact uniform_pure r
    | none => exact (uniform_record _).bind fun _ => uniform_throw _
  exact hrequire.bind fun r => uniform_reading fun reg _ => v.scanWithin_unchecked reg d r

end View

theorem Source.count_uniform (s : Source α) (x : α) : (s.count x).Uniform := by
  unfold count
  split
  · exact uniform_get (fun _ => rfl) fun _ => uniform_pure _
  · refine (s.narrow_uniform _).bind fun tail => ?_
    refine (tail.reading_extreme?_uniform .ascending).bind fun e? => ?_
    cases e? <;> exact uniform_pure _

theorem Source.contains_uniform (s : Source α) (x : α) : (s.contains x).Uniform := by
  unfold contains
  split
  · exact uniform_get (fun _ => rfl) fun _ => uniform_pure _
  · exact (s.count_uniform x).map _

namespace View

variable (v : View α)

theorem count_uniform (x : α) : (v.count x).Uniform := by
  induction v with
  | source s => exact s.count_uniform x
  | range n s r =>
    unfold count
    split
    · exact s.count_uniform x
    · exact uniform_pure 0
  | descending n link f ih => exact (uniform_follow link f).bind fun _ => ih

theorem contains_uniform (x : α) : (v.contains x).Uniform := by
  cases v with
  | source s => exact s.contains_uniform x
  | range n s r => exact (count_uniform _ x).map _
  | descending n link f => exact (count_uniform _ x).map _

theorem take_uniform (x : α) : (v.take x).Uniform := by
  induction v with
  | source s => exact s.take_uniform x
  | range n s r =>
    unfold take
    split
    · exact s.take_uniform x
    · exact uniform_pure none
  | descending n link f ih => exact (uniform_follow link f).bind fun _ => ih

theorem poll_uniform (d : Direction) : (v.poll d).Uniform := by
  induction v generalizing d with
  | source s => exact s.poll_uniform d
  | range n s r =>
    refine (reading_extreme?_uniform _ d).bind fun e? => ?_
    cases e? with
    | none => exact uniform_pure none
    | some e => exact take_uniform _ e.element
  | descending n link f ih => exact (uniform_follow link f).bind fun _ => ih d.flip

end View

/-! ## Sets -/

theorem View.elementSet_uniform (v : View α) : v.elementSet.Uniform := by
  refine v.updating_enroll_uniform.bind fun w => uniform_get (fun _ => rfl) fun reg => ?_
  split
  · exact uniform_pure _
  · exact (uniform_record _).bind fun _ => (w.modify_updateNode_uniform _).bind fun _ =>
      uniform_pure _

theorem View.entrySet_uniform (v : View α) : v.entrySet.Uniform := by
  refine v.updating_enroll_uniform.bind fun w => uniform_get (fun _ => rfl) fun reg => ?_
  split
  · exact uniform_pure _
  · exact (uniform_record _).bind fun _ => (w.modify_updateNode_uniform _).bind fun _ =>
      uniform_pure _

namespace ElementSet

variable (s : ElementSet α)

theorem bag_uniform : s.bag.Uniform :=
  (uniform_follow _ _).map _

theorem keeping_uniform (v : View α) : (keeping v).Uniform :=
  (uniform_record _).map _

theorem scan_uniform : s.scan.Uniform :=
  s.bag_uniform.bind fun v => v.reading_scan_uniform .ascending

theorem descending_uniform : s.descending.Uniform :=
  s.bag_uniform.bind fun _ => (uniform_record _).bind fun _ => keeping_uniform _

theorem scanTowards_uniform (d : Direction) : (s.scanTowards d).Uniform := by
  cases d with
  | ascending => exact s.scan_uniform
  | descending => exact s.descending_uniform.bind scan_uniform

theorem extreme_uniform (d : Direction) : (s.extreme d).Uniform := by
  have hbag := s.bag_uniform
  refine (hbag.bind fun v => v.reading_extreme?_uniform d).bind fun e? => ?_
  cases e? with
  | none => exact uniform_throw _
  | some e => exact uniform_pure _

theorem lastBefore_uniform (hi : Endpoint α) : (s.lastBefore hi).Uniform :=
  s.bag_uniform.bind fun v => (v.narrow_uniform _).bind fun w =>
    (w.reading_extreme?_uniform .descending).map _

theorem firstAfter_uniform (lo : Endpoint α) : (s.firstAfter lo).Uniform :=
  s.bag_uniform.bind fun v => (v.narrow_uniform _).bind fun w =>
    (w.reading_extreme?_uniform .ascending).map _

end ElementSet

theorem EntrySet.bag_uniform (s : EntrySet α) : s.bag.Uniform :=
  (uniform_follow _ _).map _

theorem EntrySet.scan_uniform (s : EntrySet α) : s.scan.Uniform :=
  s.bag_uniform.bind fun v => v.reading_scan_uniform .ascending

/-! ## Commands -/

theorem Traversal.drain_uniform (t : Traversal α) : t.drain.Uniform :=
  uniform_get (fun _ => rfl) fun _ => uniform_pure _

theorem View.drain_uniform (v : View α) (d : Direction) : (v.drain d).Uniform :=
  (v.reading_scan_uniform d).bind Traversal.drain_uniform

theorem Table.expect_uniform (t : Table α) (pick : Handle α → Option β) (name : String) :
    (t.expect pick name).Uniform := by
  unfold expect
  cases (t.find? name).bind pick with
  | some b => exact uniform_pure b
  | none => exact uniform_throw _

theorem Handle.ofView_uniform (v : View α) : (Handle.ofView v).Uniform :=
  v.updating_enroll_uniform.map _

theorem Handle.ofElements_uniform (s : ElementSet α) : (Handle.ofElements s).Uniform :=
  s.view.updating_enroll_uniform.map _

theorem Source.makeNatural_uniform [Ord α] [Std.TransOrd α] :
    (Source.makeNatural : Action α (Source α)).Uniform :=
  uniform_updating fun _ => rfl

theorem ViewStep.run_uniform (v : View α) (st : ViewStep α) : (st.run v).Uniform := by
  cases st with
  | head hi => exact v.narrow_uniform _
  | tail lo => exact v.narrow_uniform _
  | sub lo hi => exact v.sub_uniform lo hi
  | reversed => exact v.reversed_uniform
  | itself => exact v.reachItself_uniform

theorem ElementStep.run_uniform (s : ElementSet α) (st : ElementStep α) : (st.run s).Uniform := by
  have hkeep {a : View α → Action α (View α)} (ha : ∀ v, (a v).Uniform) :
      (do ElementSet.keeping (← a (← s.bag)) : Action α (ElementSet α)).Uniform :=
    s.bag_uniform.bind fun v => (ha v).bind ElementSet.keeping_uniform
  cases st with
  | head hi => exact hkeep fun v => v.narrow_uniform _
  | tail lo => exact hkeep fun v => v.narrow_uniform _
  | sub lo hi => exact hkeep fun v => v.sub_uniform lo hi
  | descending => exact s.descending_uniform

theorem Visit.run_uniform (v : View α) (visit : Visit α) : (visit.run v).Uniform := by
  cases visit with
  | entries d => exact (v.reading_scan_uniform d).map _
  | within d q => exact (v.scanExpr_uniform d q).map _
  | occurrences => exact (uniform_reading fun reg _ => v.occurrences_unchecked reg).map _

theorem Making.run_uniform [Ord α] [Std.TransOrd α] (t : Table α) (m : Making α) :
    (m.run t).Uniform := by
  have hfilled {fill : Source α → Action α Unit} (hfill : ∀ s, (fill s).Uniform) :
      (do
        let s ← Source.makeNatural
        fill s
        return .bag (.source s) : Action α (Handle α)).Uniform :=
    Source.makeNatural_uniform.bind fun s => (hfill s).map _
  cases m with
  | source a sorting =>
    have hsort : (sorting.run t).Uniform := by
      cases sorting with
      | evaluated o => exact uniform_updating fun _ => rfl
      | named name => exact t.expect_uniform _ name
    exact hsort.bind fun c => Uniform.map (uniform_updating fun _ => rfl) _
  | ofElements xs => exact hfilled fun s => s.extend_uniform xs
  | ofEntries es => exact hfilled fun s => s.insertEntries_uniform es
  | copyEntries name =>
    refine (t.expect_uniform _ name).bind fun v => ?_
    refine (uniform_reading fun reg _ => v.entries_unchecked reg).bind fun es => ?_
    exact hfilled fun s => s.insertEntries_uniform es
  | copyElements name =>
    refine (t.expect_uniform _ name).bind fun v => ?_
    refine (v.reading_scan_uniform .ascending).bind fun w => ?_
    exact hfilled fun s => s.absorb_uniform w
  | comparator o => exact Uniform.map (uniform_updating fun _ => rfl) _
  | weak name => exact (t.expect_uniform _ name).map _
  | walk name visit => exact (t.expect_uniform _ name).bind fun v => (visit.run_uniform v).map _
  | walkElements name d =>
    exact (t.expect_uniform _ name).bind fun s => (s.scanTowards_uniform d).map _
  | walkEntries name => exact (t.expect_uniform _ name).bind fun s => s.scan_uniform.map _
  | view name st =>
    exact (t.expect_uniform _ name).bind fun v => (st.run_uniform v).bind Handle.ofView_uniform
  | comparatorOf name => exact (t.expect_uniform _ name).bind fun v => v.comparator_uniform.map _
  | elementSet name => exact (t.expect_uniform _ name).bind fun v => v.elementSet_uniform.map _
  | entrySet name => exact (t.expect_uniform _ name).bind fun v => v.entrySet_uniform.map _
  | elements name st =>
    exact (t.expect_uniform _ name).bind fun s => (st.run_uniform s).bind Handle.ofElements_uniform
  | bagOfElements name =>
    exact (t.expect_uniform _ name).bind fun s => s.bag_uniform.bind Handle.ofView_uniform
  | comparatorOfElements name =>
    exact (t.expect_uniform _ name).bind fun s =>
      Uniform.map (s.bag_uniform.bind View.comparator_uniform) _
  | bagOfEntries name =>
    exact (t.expect_uniform _ name).bind fun s => s.bag_uniform.bind Handle.ofView_uniform
  | reversedComparator name => exact (t.expect_uniform _ name).map _

theorem Change.run_uniform (t : Table α) (s : Source α) (c : Change α) : (c.run t s).Uniform := by
  cases c with
  | insert x =>
    refine (s.insert_uniform x 1).bind fun previous => ?_
    cases s.access <;> exact uniform_pure _
  | insertMany x n => exact (s.insert_uniform x n).map _
  | extend xs => exact (s.extend_uniform xs).map _
  | absorb name =>
    exact (t.expect_uniform _ name).bind fun v => (v.reading_scan_uniform .ascending).bind fun w =>
      (s.absorb_uniform w).map _
  | remove x => exact (s.remove_uniform x).map _
  | removeAll x => exact (s.removeAll_uniform x).map _
  | clear => exact (s.replace_uniform _).map _

section

variable [Shown α]

theorem BagQuery.run_uniform (v : View α) (q : BagQuery α) : (q.run v).Uniform := by
  cases q with
  | entries d => exact (v.drain_uniform d).map _
  | within d q =>
    exact (v.scanExpr_uniform d q).bind fun t => t.drain_uniform.map _
  | extreme d => exact (v.reading_extreme?_uniform d).map _
  | poll d => exact (v.poll_uniform d).map _
  | take x => exact (v.take_uniform x).map _
  | count x => exact (v.count_uniform x).map _
  | contains x => exact (v.contains_uniform x).map _
  | size => exact v.reading_size_uniform.map _
  | distinctSize => exact v.reading_distinctSize_uniform.map _
  | isEmpty => exact v.reading_isEmpty_uniform.map _
  | occurrences limit =>
    exact (uniform_reading fun reg _ => v.occurrences_unchecked reg).bind fun _ =>
      uniform_get (fun _ => rfl) fun _ => uniform_pure _
  | debug => exact (v.drain_uniform .ascending).map _
  | pretty => exact (v.drain_uniform .ascending).map _

theorem ElementQuery.run_uniform (s : ElementSet α) (q : ElementQuery α) :
    (q.run s).Uniform := by
  cases q with
  | extreme d => exact (s.extreme_uniform d).map _
  | lower x => exact (s.lastBefore_uniform _).map _
  | floor x => exact (s.lastBefore_uniform _).map _
  | ceiling x => exact (s.firstAfter_uniform _).map _
  | higher x => exact (s.firstAfter_uniform _).map _
  | poll d => exact Uniform.map (s.bag_uniform.bind fun v => (v.poll_uniform d).map _) _
  | contains x => exact Uniform.map (s.bag_uniform.bind fun v => v.contains_uniform x) _
  | remove x => exact Uniform.map (s.bag_uniform.bind fun v => (v.take_uniform x).map _) _
  | isEmpty => exact Uniform.map (s.bag_uniform.bind View.reading_isEmpty_uniform) _
  | size => exact Uniform.map (s.bag_uniform.bind View.reading_distinctSize_uniform) _
  | elements d => exact (s.scanTowards_uniform d).bind fun t => t.drain_uniform.map _
  | debug => exact s.scan_uniform.bind fun t => t.drain_uniform.map _
  | pretty => exact s.scan_uniform.bind fun t => t.drain_uniform.map _

theorem EntryQuery.run_uniform (s : EntrySet α) (q : EntryQuery α) : (q.run s).Uniform := by
  cases q with
  | entries => exact s.scan_uniform.bind fun t => t.drain_uniform.map _
  | size => exact Uniform.map (s.bag_uniform.bind View.reading_distinctSize_uniform) _
  | isEmpty => exact Uniform.map (s.bag_uniform.bind View.reading_isEmpty_uniform) _
  | contains e =>
    exact Uniform.map (s.bag_uniform.bind fun v => (v.count_uniform e.element).map _) _
  | display => exact s.scan_uniform.bind fun t => t.drain_uniform.map _
  | debug => exact s.scan_uniform.bind fun t => t.drain_uniform.map _
  | pretty => exact s.scan_uniform.bind fun t => t.drain_uniform.map _

end

theorem ComparatorQuery.run_uniform (t : Table α) (c : Comparator α) (q : ComparatorQuery α) :
    (q.run t c).Uniform := by
  cases q with
  | compare a b => exact uniform_pure _
  | equals other => exact (t.expect_uniform _ other).map _
  | debug => exact uniform_pure _

theorem Table.same_uniform (t : Table α) (first second : String) :
    (t.same first second).Uniform := by
  unfold same
  split
  · exact (t.expect_uniform _ second).map _
  · exact (t.expect_uniform _ second).map _
  · exact (t.expect_uniform _ first).bind fun _ => (t.expect_uniform _ second).map _

variable [Ord α] [Std.TransOrd α] [Shown α]

/-- Unless it fails for a total, a command does the same where totals wrap around. -/
theorem Command.run_uniform (t : Table α) (c : Command α) : (c.run t).Uniform := by
  cases c with
  | bind name m => exact (m.run_uniform t).map _
  | drop name => exact uniform_pure _
  | isAlive name =>
    exact (t.expect_uniform _ name).bind fun _ => uniform_get (fun _ => rfl) fun _ => uniform_pure _
  | same first second => exact (t.same_uniform first second).map _
  | next name n =>
    exact (t.expect_uniform _ name).bind fun _ => uniform_get (fun _ => rfl) fun _ => uniform_pure _
  | change name c => exact (t.expect_uniform _ name).bind fun s => (c.run_uniform t s).map _
  | askBag name q => exact (t.expect_uniform _ name).bind fun v => (q.run_uniform v).map _
  | askElements name q => exact (t.expect_uniform _ name).bind fun s => (q.run_uniform s).map _
  | askEntries name q => exact (t.expect_uniform _ name).bind fun s => (q.run_uniform s).map _
  | askComparator name q => exact (t.expect_uniform _ name).bind fun c => (q.run_uniform t c).map _

/-! ## Sessions -/

namespace Session

/-- The session, where totals wrap around. -/
def unchecked (s : Session α) : Session α :=
  ⟨s.table, s.registry.unchecked⟩

omit [Ord α] [Std.TransOrd α] [Shown α] in
theorem watch_unchecked (s : Session α) : s.unchecked.watch = s.watch := by
  funext name
  have htable : s.unchecked.table = s.table := rfl
  unfold watch
  rw [htable]
  cases s.table.find? name with
  | none => rfl
  | some h =>
    cases h with
    | bag v => exact congrArg some (v.entries_unchecked s.registry)
    | _ => rfl

/-- A command that does not fail for a total. -/
theorem step_unchecked {watched : List String} {s : Session α} {c : Command α}
    (h : Spared (s.step watched c).1.outcome) :
    s.unchecked.step watched c = ((s.step watched c).1, (s.step watched c).2.unchecked) := by
  have hrun := c.run_uniform s.table s.fresh (Spared.map.mp h)
  rcases hp : (c.run s.table).perform s.fresh with ⟨o, reg⟩
  rw [hp] at hrun
  rw [step_of_perform watched hp, step_of_perform (s := s.unchecked) watched hrun]
  have hafter (t : Table α) : (⟨t, reg.unchecked.release t.held⟩ : Session α) =
      (⟨t, reg.release t.held⟩ : Session α).unchecked :=
    congrArg _ (reg.release_unchecked t.held)
  simp only [hafter, watch_unchecked]
  rfl

/-- In a run in which no command fails for a total, the commands tell and leave the same as where
totals wrap around. -/
theorem run_unchecked {watched : List String} {s : Session α} {cs : List (Command α)}
    (h : ∀ r ∈ (run watched s cs).1, Spared r.outcome) :
    run watched s.unchecked cs = ((run watched s cs).1, (run watched s cs).2.unchecked) := by
  induction cs generalizing s with
  | nil => rfl
  | cons c cs ih =>
    have hc : Spared (s.step watched c).1.outcome := h _ List.mem_cons_self
    have hcs := ih (s := (s.step watched c).2) fun r hr => h r (List.mem_cons_of_mem _ hr)
    rw [run, step_unchecked hc]
    show (_ :: (run watched (s.step watched c).2.unchecked cs).1, _) = _
    rw [hcs]
    rfl

/-- From the empty session, such a run leads to a session that can be reached where totals wrap
around. -/
theorem reachable_unchecked {watched : List String} {a : Arithmetic} {cs : List (Command α)}
    (hcs : ∀ c ∈ cs, c.Valid) (h : ∀ r ∈ (run watched (empty a) cs).1, Spared r.outcome) :
    (run watched (empty a) cs).2.unchecked.Reachable := by
  have hrun := run_unchecked h
  have hreach := Reachable.initial.run hcs watched
  rwa [show (empty .wrapping : Session α) = (empty a).unchecked from rfl, hrun] at hreach

end Session

end OrderedBag
