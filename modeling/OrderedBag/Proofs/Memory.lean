import OrderedBag.Proofs.Frame
import OrderedBag.Proofs.Lifetimes

/-!
# Remembered orders

A descending view that is asked for its order asks the view behind it, unless it remembers the
answer. So a view that has answered remembers its order, and so do all descending views on the way
down from it; nothing else makes a view remember.

* `View.chain` — a view and the views to which it refers, down to the source
* `View.comparator_error_iff` — a view cannot answer when a reference leads nowhere and no view on
  the way down remembers
* `Session.Answered` — the view has answered for its order at some point of the run
* `Session.Reachable.answered_iff` — exactly the descending views that have answered remember
-/

namespace OrderedBag

open OrderedBag.Action

variable {α β γ : Type}

/-! ## The way down -/

namespace View

/-- The view itself and the views to which it refers, down to the source. -/
def chain : View α → List (View α)
  | source s => [source s]
  | range n s r => [range n s r, source s]
  | descending n link f => descending n link f :: f.chain

theorem mem_chain_trans {u v w : View α} (hw : w ∈ v.chain) (hu : u ∈ w.chain) : u ∈ v.chain := by
  induction v with
  | source s =>
    obtain rfl := List.mem_singleton.mp hw
    exact hu
  | range n s r =>
    rcases List.mem_cons.mp hw with rfl | hw
    · exact hu
    · obtain rfl := List.mem_singleton.mp hw
      exact List.mem_cons_of_mem _ hu
  | descending n link f ih =>
    rcases List.mem_cons.mp hw with rfl | hw
    · exact hu
    · exact List.mem_cons_of_mem _ (ih hw)

/-- Below a view that is not descending there is no descending view. -/
theorem isDescending_of_mem_chain {v w : View α} (hup : v.isDescending = false)
    (hw : w ∈ v.chain) : w.isDescending = false := by
  cases v with
  | source s =>
    obtain rfl := List.mem_singleton.mp hw
    rfl
  | range n s r =>
    rcases List.mem_cons.mp hw with rfl | hw
    · rfl
    · obtain rfl := List.mem_singleton.mp hw
      rfl
  | descending n link f => cases hup

theorem houses_of_mem_chain {reg : Registry α} (hw : reg.WellFormed) {v w : View α}
    (hv : reg.Houses v) (hmem : w ∈ v.chain) : reg.Houses w := by
  induction v with
  | source s =>
    obtain rfl := List.mem_singleton.mp hmem
    exact hv
  | range n s r =>
    rcases List.mem_cons.mp hmem with rfl | hmem
    · exact hv
    · obtain rfl := List.mem_singleton.mp hmem
      exact hv.base hw rfl
  | descending n link f ih =>
    rcases List.mem_cons.mp hmem with rfl | hmem
    · exact hv
    · exact ih (hv.base hw rfl) hmem

end View

namespace Registry

variable {reg reg' : Registry α} {v w f : View α} {n : Option NodeId} {link : Link}

/-! ## Memory -/

/-- The view remembers its order. -/
def Recalls (reg : Registry α) (v : View α) : Prop :=
  ∃ i, v.node? = some i ∧ reg.memo i ≠ none

theorem recalls_congr (h : reg'.memo = reg.memo) : reg'.Recalls v ↔ reg.Recalls v := by
  unfold Recalls
  rw [h]

theorem memoOf_eq (reg : Registry α) (v : View α) :
    (reg.nodeOf? v).bind Node.comparator = v.node?.bind reg.memo := by
  unfold nodeOf? memo
  cases v.node? <;> rfl

theorem recalls_iff : reg.Recalls v ↔ (reg.nodeOf? v).bind Node.comparator ≠ none := by
  rw [memoOf_eq, Recalls]
  cases v.node? <;> simp

/-- Following one reference, one either fails or is left with what is further down. -/
theorem follow_cases (reg : Registry α) (n : Option NodeId) (link : Link) (f : View α) :
    (link = .weak ∧ reg.follow link f = .error .ownerDropped ∧ reg.canUpgrade f = false ∧
      reg.canReach (.descending n link f) = false) ∨
    (reg.follow link f = .ok () ∧ reg.canReach (.descending n link f) = reg.canReach f) := by
  cases link with
  | strong => exact .inr ⟨rfl, rfl⟩
  | weak =>
    rw [follow_weak, canReach]
    cases hup : reg.canUpgrade f with
    | false => exact .inl ⟨rfl, rfl, rfl, rfl⟩
    | true => exact .inr ⟨rfl, Bool.true_and _⟩

end Registry

/-! ## Asking for an order -/

namespace View

variable {reg : Registry α} {n : Option NodeId} {link : Link} {f v : View α}

/-- What is remembered is answered. -/
theorem comparator_of_recalls (h : reg.Recalls (descending n link f)) :
    ∃ c, (descending n link f).comparator.perform reg = (.ok c, reg) := by
  obtain ⟨c, hc⟩ := Option.ne_none_iff_exists'.mp (Registry.recalls_iff.mp h)
  refine ⟨c, ?_⟩
  rw [comparator_descending, perform_bind_ok (perform_get reg), hc]
  rfl

/-- Without memory the answer is computed. -/
theorem comparator_of_not_recalls (h : ¬ reg.Recalls (descending n link f)) :
    (descending n link f).comparator.perform reg = (computeComparator n link f).perform reg := by
  rw [Registry.recalls_iff, not_not] at h
  rw [comparator_descending, perform_bind_ok (perform_get reg), h]

/-- If the reference cannot be followed, nothing is computed. -/
theorem computeComparator_of_error {e : Failure} (h : reg.follow link f = .error e) :
    (computeComparator n link f).perform reg = (.error e, reg) :=
  perform_bind_error (by rw [perform_follow, h])

/-- Otherwise the view behind is asked. -/
theorem computeComparator_of_ok (h : reg.follow link f = .ok ()) :
    (computeComparator n link f).perform reg =
      ((f.comparator.perform reg).1.map Comparator.reversed,
        match f.comparator.perform reg with
        | (.ok c, reg') => reg'.updateNode (descending n link f) fun m =>
          { m with comparator := some c.reversed }
        | (.error _, reg') => reg') := by
  unfold computeComparator
  rw [perform_bind_ok (perform_follow_ok h), perform_bind]
  rcases f.comparator.perform reg with ⟨_ | c, reg'⟩ <;> rfl

/-- No descending view on the way down remembers its order. -/
def Oblivious (reg : Registry α) (v : View α) : Prop :=
  ∀ w ∈ v.chain, w.isDescending = true → ¬ reg.Recalls w

theorem oblivious_of_up (hup : v.isDescending = false) : v.Oblivious reg :=
  fun w hw hdesc => by simp [isDescending_of_mem_chain hup hw] at hdesc

theorem oblivious_descending :
    (descending n link f).Oblivious reg ↔
      ¬ reg.Recalls (descending n link f) ∧ f.Oblivious reg := by
  constructor
  · intro h
    exact ⟨h _ List.mem_cons_self rfl, fun w hw => h w (List.mem_cons_of_mem _ hw)⟩
  · rintro ⟨hself, hf⟩ w hw
    rcases List.mem_cons.mp hw with rfl | hw
    · exact fun _ => hself
    · exact hf w hw

/-- A view fails to answer for its order exactly when a reference on the way down leads nowhere, and
no descending view on the way down remembers its own order. -/
theorem comparator_error_iff (hw : reg.WellFormed) (hv : reg.Houses v) :
    (v.comparator.perform reg).1 = .error .ownerDropped ↔
      reg.canReach v = false ∧ v.Oblivious reg := by
  induction v with
  | source s => exact ⟨fun h => (nomatch h), fun h => (nomatch h.1)⟩
  | range n s r => exact ⟨fun h => (nomatch h), fun h => (nomatch h.1)⟩
  | descending n link f ih =>
    rw [oblivious_descending]
    by_cases hrec : reg.Recalls (descending n link f)
    · obtain ⟨c, hc⟩ := comparator_of_recalls hrec
      rw [hc]
      exact ⟨fun h => (nomatch h), fun h => absurd hrec h.2.1⟩
    · rw [comparator_of_not_recalls hrec]
      rcases reg.follow_cases n link f with ⟨rfl, hfollow, -, hreach⟩ | ⟨hfollow, hreach⟩
      · -- behind a weak reference no view is descending, so none remembers an order
        rw [computeComparator_of_error hfollow]
        have hup := Registry.isDescending_of_weak hw hv
        exact ⟨fun _ => ⟨hreach, hrec, oblivious_of_up hup⟩, fun _ => rfl⟩
      · rw [computeComparator_of_ok hfollow, hreach]
        have hf := ih (hv.base hw rfl)
        rw [and_left_comm, ← hf, and_iff_right hrec]
        cases (f.comparator.perform reg).1 with
        | error e => simp [Except.map]
        | ok c => simp [Except.map]

end View

namespace Registry

variable {reg reg' : Registry α} {v w f : View α}

/-- With a view, all descending views on the way down from it remember. -/
def Layered (reg : Registry α) : Prop :=
  ∀ v, reg.Houses v → reg.Recalls v → ∀ w ∈ v.chain, w.isDescending = true → reg.Recalls w

/-- Besides what was remembered before, the descending views on the way down from `v` remember. -/
def Learns (v : View α) (reg reg' : Registry α) : Prop :=
  ∀ i, reg'.memo i ≠ none ↔
    reg.memo i ≠ none ∨ ∃ w ∈ v.chain, w.isDescending = true ∧ w.node? = some i

theorem memo_remember {v : View α} {n : Node α} (hv : reg.Has v n) (c : Comparator α) (i : NodeId) :
    (reg.updateNode v fun m => { m with comparator := some c }).memo i =
      if v.node? = some i then some c else reg.memo i := by
  rw [memo, node_updateNode hv]
  split <;> rfl

/-- A view that is not descending has nothing to remember. -/
theorem learns_of_up (hup : v.isDescending = false) (reg : Registry α) : Learns v reg reg := by
  refine fun i => ⟨.inl, fun h => h.resolve_right ?_⟩
  rintro ⟨w, hmem, hdesc, -⟩
  simp [View.isDescending_of_mem_chain hup hmem] at hdesc

/-- What is remembered already, with all that is on the way down, need not be learnt. -/
theorem learns_of_recalls (hl : reg.Layered) (hv : reg.Houses v) (hrec : reg.Recalls v) :
    Learns v reg reg := by
  refine fun i => ⟨.inl, fun h => h.elim id ?_⟩
  rintro ⟨w, hmem, hdesc, hi⟩
  obtain ⟨j, hj, hc⟩ := hl v hv hrec w hmem hdesc
  obtain rfl : j = i := Option.some.inj (hj.symm.trans hi)
  exact hc

/-- After the views behind it, a descending view comes to remember. -/
theorem Learns.remember {n : Option NodeId} {link : Link} {m : Node α} (h : Learns f reg reg')
    (hv : reg'.Has (.descending n link f) m) (c : Comparator α) :
    Learns (.descending n link f) reg
      (reg'.updateNode (.descending n link f) fun m => { m with comparator := some c }) := by
  intro i
  rw [memo_remember hv]
  by_cases hi : (View.descending n link f).node? = some i
  · rw [if_pos hi]
    exact ⟨fun _ => .inr ⟨_, List.mem_cons_self, rfl, hi⟩, fun _ => by simp⟩
  · rw [if_neg hi, h i]
    refine or_congr_right ⟨?_, ?_⟩
    · rintro ⟨w, hmem, hw⟩
      exact ⟨w, List.mem_cons_of_mem _ hmem, hw⟩
    · rintro ⟨w, hmem, hw⟩
      rcases List.mem_cons.mp hmem with rfl | hmem
      · exact absurd hw.2 hi
      · exact ⟨w, hmem, hw⟩

/-- A view that answers makes the views on the way down remember, and one that fails makes none. -/
theorem comparator_learns (hs : reg.Sound) (hl : reg.Layered) (hv : reg.Houses v) :
    (∃ c, (v.comparator.perform reg).1 = .ok c) ∧ Learns v reg (v.comparator.perform reg).2 ∨
      (∃ e, (v.comparator.perform reg).1 = .error e) ∧
        (v.comparator.perform reg).2.memo = reg.memo := by
  induction v with
  | source s => exact .inl ⟨⟨_, rfl⟩, learns_of_up rfl reg⟩
  | range n s r => exact .inl ⟨⟨_, rfl⟩, learns_of_up rfl reg⟩
  | descending n link f ih =>
    by_cases hrec : reg.Recalls (.descending n link f)
    · obtain ⟨c, hc⟩ := View.comparator_of_recalls hrec
      rw [hc]
      exact .inl ⟨⟨c, rfl⟩, learns_of_recalls hl hv hrec⟩
    · rw [View.comparator_of_not_recalls hrec]
      rcases reg.follow_cases n link f with ⟨-, hfollow, -⟩ | ⟨hfollow, -⟩
      · rw [View.computeComparator_of_error hfollow]
        exact .inr ⟨⟨_, rfl⟩, rfl⟩
      · rw [View.computeComparator_of_ok hfollow]
        have hf := hv.base hs.wellFormed rfl
        have hm : reg.Moves (f.comparator.perform reg).2 := (View.comparator_orderly hs hf).1
        have hbehind := ih hf
        cases hp : f.comparator.perform reg with
        | mk o reg' =>
          rw [hp] at hbehind hm
          rcases hbehind with ⟨⟨c, rfl⟩, hlearn⟩ | ⟨⟨e, rfl⟩, hsame⟩
          · obtain ⟨m, hm'⟩ := hv.moves hm
            exact .inl ⟨⟨_, rfl⟩, hlearn.remember hm' _⟩
          · exact .inr ⟨⟨_, rfl⟩, hsame⟩

/-- A node that remembers belongs to a view which had it before. -/
theorem houses_of_memo (hg : reg.Grows reg') (hv : reg'.Houses v) {i : NodeId}
    (hi : v.node? = some i) (hmemo : reg.memo i ≠ none) : reg.Houses v := by
  obtain ⟨c, hc⟩ := Option.ne_none_iff_exists'.mp hmemo
  obtain ⟨n, hn, -⟩ := Option.bind_eq_some_iff.mp hc
  obtain ⟨n', hn', hview, -⟩ := hg i n hn
  obtain ⟨m, hm⟩ := hv
  obtain rfl : m = n' := Option.some.inj ((hm.node_eq hi).symm.trans hn')
  exact ⟨n, has_of_index hi hn (hview.symm.trans hm.view)⟩

/-- Learning keeps to the way down, so memory stays layered. -/
theorem Layered.learn (hl : reg.Layered) (hw : reg.WellFormed) (hg : reg.Grows reg')
    (hv : reg.Houses v) (h : Learns v reg reg') : reg'.Layered := by
  rintro u hu ⟨i, hi, hmemo⟩ w hmem hdesc
  rcases (h i).mp hmemo with hold | ⟨u', hu', -, hi'⟩
  · obtain ⟨j, hj, hold'⟩ := hl u (houses_of_memo hg hu hi hold) ⟨i, hi, hold⟩ w hmem hdesc
    exact ⟨j, hj, (h j).mpr (.inl hold')⟩
  · -- the view that remembers now is one of those on the way down
    have hhouses' := (View.houses_of_mem_chain hw hv hu').grow hg
    obtain rfl : u = u' := houses_unique hu hhouses' (hi.trans hi'.symm)
    have hmem' := View.mem_chain_trans hu' hmem
    obtain ⟨m, hm⟩ := View.houses_of_mem_chain hw hv hmem'
    obtain ⟨j, hj, -⟩ := hm.index
    exact ⟨j, hj, (h j).mpr (.inr ⟨w, hmem', hdesc, hj⟩)⟩

theorem Layered.grow (hl : reg.Layered) (hg : reg.Grows reg') (h : reg'.memo = reg.memo) :
    reg'.Layered := by
  rintro u hu ⟨i, hi, hmemo⟩ w hmem hdesc
  rw [h] at hmemo
  rw [recalls_congr h]
  exact hl u (houses_of_memo hg hu hi hmemo) ⟨i, hi, hmemo⟩ w hmem hdesc

end Registry

/-! ## Commands that ask for an order -/

/-- What follows an action, but does not make any view remember. -/
theorem Action.memo_bind {a : Action α β} {f : β → Action α γ}
    (hf : ∀ b, (f b).Respects Registry.SameMemory) (reg : Registry α) :
    ((a >>= f).perform reg).2.memo = (a.perform reg).2.memo := by
  rw [perform_bind]
  rcases a.perform reg with ⟨_ | b, reg'⟩
  · rfl
  · exact hf b reg'

/-- What comes after a part that only reads. -/
theorem Action.memo_after {a : Action α β} {f : β → Action α γ} {reg : Registry α} {b : β}
    (ha : a.perform reg = (.ok b, reg)) :
    ((a >>= f).perform reg).2.memo = ((f b).perform reg).2.memo := by
  rw [perform_bind_ok ha]

theorem Action.memo_map (a : Action α β) (g : β → γ) (reg : Registry α) :
    ((a >>= fun b => pure (g b)).perform reg).2.memo = (a.perform reg).2.memo :=
  memo_bind (fun b => respects_pure Registry.sameMemory_steady.toChained (g b)) reg

theorem View.memo_scanExpr (v : View α) (d : Direction) (q : IntervalExpr α) (reg : Registry α) :
    ((v.scanExpr d q).perform reg).2.memo = (v.comparator.perform reg).2.memo := by
  have hR := Registry.sameMemory_steady (α := α)
  have hlog := hR.toUnlogged
  exact memo_bind (fun c => (View.require_respects hlog c q).bind hR.toChained fun _ =>
    respects_reading hR.toChained _) reg

/-- A set whose view exists leads to it, or the view is a source and has nothing to remember. -/
theorem ElementSet.memo_comparator {reg : Registry α} {s : ElementSet α} (hl : reg.Live s.view) :
    (s.comparator.perform reg).2.memo = (s.view.comparator.perform reg).2.memo := by
  have hlink := perform_follow s.link s.view reg
  unfold comparator
  cases hfollow : reg.follow s.link s.view with
  | ok _ => rw [perform_bind_ok (perform_bag hfollow)]
  | error e =>
    rw [hfollow] at hlink
    rw [bag, perform_bind_error (perform_bind_error hlink)]
    cases hv : s.view with
    | source b => rfl
    | range n b r => rfl
    | descending n link f =>
      -- a descending view that exists can always be reached
      rw [hv] at hl hfollow
      cases hs : s.link with
      | strong => rw [hs] at hfollow; cases hfollow
      | weak =>
        rw [hs, Registry.follow_weak, Registry.canUpgrade, hl.2] at hfollow
        cases hfollow

/-- A command that asks for an order makes the views remember that the asking makes remember. -/
theorem Command.AsksOrder.memo [Ord α] [Std.TransOrd α] [Shown α] {t : Table α} {v : View α}
    {c : Command α} {reg : Registry α} (hc : c.AsksOrder t v) (ht : t.Live reg) :
    ((c.run t).perform reg).2.memo = (v.comparator.perform reg).2.memo := by
  have hR := (Registry.sameMemory_steady (α := α)).toChained
  cases c with
  | bind new m =>
    have hbind : (((Command.bind new m).run t).perform reg).2.memo =
        ((m.run t).perform reg).2.memo := memo_map (m.run t) _ reg
    rw [hbind]
    cases m with
    | comparatorOf name =>
      have hlook := Table.perform_bag (show t.find? name = some (.bag v) from hc) reg
      exact (memo_after hlook).trans (memo_map _ _ reg)
    | comparatorOfElements name =>
      obtain ⟨u, hfind, rfl⟩ := hc
      have hlook := Table.perform_elements hfind reg
      refine (memo_after hlook).trans ?_
      exact (memo_map _ _ reg).trans (ElementSet.memo_comparator (ht.find? hfind))
    | walk name visit =>
      cases visit with
      | within d q =>
        have hlook := Table.perform_bag (show t.find? name = some (.bag v) from hc) reg
        refine (memo_after hlook).trans ?_
        refine (memo_map ((Visit.within d q).run v) _ reg).trans ?_
        exact (memo_map _ _ reg).trans (v.memo_scanExpr d q reg)
      | entries d => exact hc.elim
      | occurrences => exact hc.elim
    | _ => exact hc.elim
  | askBag name q =>
    cases q with
    | within d q =>
      have hlook := Table.perform_bag (show t.find? name = some (.bag v) from hc) reg
      refine (memo_after hlook).trans ?_
      refine (memo_map ((BagQuery.within d q).run v) _ reg).trans ?_
      refine Eq.trans ?_ (v.memo_scanExpr d q reg)
      exact memo_bind (fun w => ((respects_get hR).map hR _).map hR _) reg
    | _ => exact hc.elim
  | _ => exact hc.elim

namespace Session

variable {s : Session α} {c : Command α} {v w : View α}

/-- A view of which a command wants the order has a node. -/
theorem houses_of_asksOrder (hs : s.Sound) (h : c.AsksOrder s.table v) : s.registry.Houses v := by
  have hbag {name : String} (hfind : s.table.find? name = some (.bag v)) : s.registry.Houses v :=
    (hs.live.find? hfind).1
  cases c with
  | bind new m =>
    cases m with
    | comparatorOf name => exact hbag h
    | comparatorOfElements name =>
      obtain ⟨u, hfind, rfl⟩ := h
      exact (hs.live.find? hfind).1
    | walk name visit =>
      cases visit with
      | within d q => exact hbag h
      | entries d => exact h.elim
      | occurrences => exact h.elim
    | _ => exact h.elim
  | askBag name q =>
    cases q with
    | within d q => exact hbag h
    | _ => exact h.elim
  | _ => exact h.elim

theorem layered_fresh (hl : s.registry.Layered) : s.fresh.Layered :=
  hl.grow (Registry.Moves.grows s.moves_fresh) (Registry.memo_of_nodes rfl)

variable [Ord α] [Std.TransOrd α] [Shown α]

/-- The command asks the view for its order, and the view answers. -/
def AnswersOrder (s : Session α) (c : Command α) (v : View α) : Prop :=
  c.AsksOrder s.table v ∧ ∃ o, (v.comparator.perform s.fresh).1 = .ok o

/-- The view has answered for its order: it was asked itself, or by a view further up that had to
know. -/
inductive Answered : Session α → View α → Prop
  /-- A command asks a view, which answers; so do those on the way down from it. -/
  | asked {s : Session α} (hs : s.Reachable) {c : Command α} (hc : c.Valid) {v w : View α}
      (hask : s.AnswersOrder c v) (hw : w ∈ v.chain) (watched : List String) :
      Answered (s.step watched c).2 w
  /-- Anything else happens. -/
  | later {s : Session α} (hs : s.Reachable) {w : View α} (h : Answered s w) {c : Command α}
      (hc : c.Valid) (watched : List String) : Answered (s.step watched c).2 w

theorem Sound.memo_of_asksOrder (hs : s.Sound) (hask : c.AsksOrder s.table v)
    (watched : List String) :
    (s.step watched c).2.registry.memo = (v.comparator.perform s.fresh).2.memo :=
  (Registry.memo_release _ _).trans (hask.memo hs.live_fresh)

/-- A command to which a view answers makes the views on the way down from it remember. -/
theorem Sound.learns (hs : s.Sound) (hl : s.registry.Layered) (hans : s.AnswersOrder c v)
    (watched : List String) : Registry.Learns v s.registry (s.step watched c).2.registry := by
  obtain ⟨hask, o, ho⟩ := hans
  have hv := (houses_of_asksOrder hs hask).moves s.moves_fresh
  intro i
  rw [hs.memo_of_asksOrder hask watched]
  rcases Registry.comparator_learns hs.fresh (layered_fresh hl) hv with
    ⟨-, hlearn⟩ | ⟨⟨e, he⟩, -⟩
  · exact hlearn i
  · cases he.symm.trans ho

/-- Any other command makes no view remember. -/
theorem Sound.memo_kept (hs : s.Sound) (hl : s.registry.Layered)
    (hans : ∀ v, ¬ s.AnswersOrder c v) (watched : List String) :
    (s.step watched c).2.registry.memo = s.registry.memo := by
  by_cases hask : ∃ v, c.AsksOrder s.table v
  · obtain ⟨v, hask⟩ := hask
    have hv := (houses_of_asksOrder hs hask).moves s.moves_fresh
    rcases Registry.comparator_learns hs.fresh (layered_fresh hl) hv with ⟨hok, -⟩ | ⟨-, hkeep⟩
    · exact absurd ⟨hask, hok⟩ (hans v)
    · exact (hs.memo_of_asksOrder hask watched).trans hkeep
  · exact memo_step (not_exists.mp hask) watched

/-- In every reachable session, with a view all descending views on the way down from it
remember. -/
theorem Reachable.layered (hs : s.Reachable) : s.registry.Layered := by
  induction hs with
  | initial =>
    rintro v - ⟨i, -, hmemo⟩
    simp [empty, Registry.empty, Registry.memo] at hmemo
  | @next s hs c hc watched ih =>
    have hg := hs.sound.grows hc watched
    by_cases hans : ∃ v, s.AnswersOrder c v
    · obtain ⟨v, hans⟩ := hans
      have hv := houses_of_asksOrder hs.sound hans.1
      exact ih.learn hs.sound.registry.wellFormed hg hv (hs.sound.learns ih hans watched)
    · exact ih.grow hg (hs.sound.memo_kept ih (not_exists.mp hans) watched)

/-- What is remembered is not forgotten. -/
theorem Reachable.recalls_step (hs : s.Reachable) (h : s.registry.Recalls w) (c : Command α)
    (watched : List String) : (s.step watched c).2.registry.Recalls w := by
  by_cases hans : ∃ v, s.AnswersOrder c v
  · obtain ⟨v, hans⟩ := hans
    obtain ⟨i, hi, hmemo⟩ := h
    exact ⟨i, hi, (hs.sound.learns hs.layered hans watched i).mpr (.inl hmemo)⟩
  · have hkept := hs.sound.memo_kept hs.layered (not_exists.mp hans) watched
    exact (Registry.recalls_congr hkept).mpr h

theorem Answered.recalls (h : s.Answered w) (hdesc : w.isDescending = true) :
    s.registry.Recalls w := by
  induction h with
  | @asked s hs c hc v w hask hw watched =>
    have hv := houses_of_asksOrder hs.sound hask.1
    obtain ⟨n, hn⟩ := View.houses_of_mem_chain hs.sound.registry.wellFormed hv hw
    obtain ⟨i, hi, -⟩ := hn.index
    have hlearn := hs.sound.learns hs.layered hask watched
    exact ⟨i, hi, (hlearn i).mpr (.inr ⟨w, hw, hdesc, hi⟩)⟩
  | later hs _ hc watched ih => exact hs.recalls_step (ih hdesc) _ watched

/-- The descending views that remember their order are those that have answered for it. -/
theorem Reachable.answered_iff (hs : s.Reachable) (hw : s.registry.Houses w)
    (hdesc : w.isDescending = true) : s.Answered w ↔ s.registry.Recalls w := by
  refine ⟨fun h => h.recalls hdesc, fun h => ?_⟩
  obtain ⟨i, hi, hmemo⟩ := h
  induction hs with
  | initial => simp [empty, Registry.empty, Registry.memo] at hmemo
  | @next s hs c hc watched ih =>
    have hg := hs.sound.grows hc watched
    have hold (h : s.registry.memo i ≠ none) : (s.step watched c).2.Answered w :=
      .later hs (ih (Registry.houses_of_memo hg hw hi h) h) hc watched
    by_cases hans : ∃ v, s.AnswersOrder c v
    · obtain ⟨v, hans⟩ := hans
      rcases (hs.sound.learns hs.layered hans watched i).mp hmemo with h | ⟨u, hu, -, hi'⟩
      · exact hold h
      · -- the view that remembers now is one of those on the way down from the view that was asked
        have hv := houses_of_asksOrder hs.sound hans.1
        have hu' := (View.houses_of_mem_chain hs.sound.registry.wellFormed hv hu).grow hg
        obtain rfl : w = u := Registry.houses_unique hw hu' (hi.trans hi'.symm)
        exact .asked hs hc hans hu watched
    · rw [hs.sound.memo_kept hs.layered (not_exists.mp hans) watched] at hmemo
      exact hold hmemo

end Session

end OrderedBag
