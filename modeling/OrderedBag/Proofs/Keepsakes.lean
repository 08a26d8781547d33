import OrderedBag.Proofs.Frame
import OrderedBag.Proofs.NestedViews

/-!
# What a view builds only once

A view builds its descending view, its element set and its entry set on first request, and hands out
the same ones from then on. Nothing else makes it build them, and nothing makes it forget them. A
descending view builds no descending view of its own: it hands out the view behind it.

* `Session.keepsake?_step` — a command that asks the view for nothing leaves alone what it has kept
* `Session.request_spec`, `Session.request_behind` — one request
* `Session.built_once` — all requests of a run
-/

namespace OrderedBag

open OrderedBag.Action

variable {α : Type} {k k' : Keepsake} {i j : NodeId}

namespace Keepsake

/-- What the log tells when it is built. -/
def record : Keepsake → Record
  | reversal => .descendingView
  | elementSet => .elementSet
  | entrySet => .entrySet

/-- What a node has kept. -/
def slot (n : Node α) : Keepsake → Option (Handle α)
  | reversal => n.reversal.map .bag
  | elementSet => if n.hasElementSet then some (.elements ⟨.weak, n.view⟩) else none
  | entrySet => if n.hasEntrySet then some (.entries ⟨n.view⟩) else none

theorem slot_fresh (k : Keepsake) (v : View α) : k.slot (Node.fresh v) = none := by
  cases k <;> rfl

end Keepsake

/-! ## What a registry has kept -/

namespace Registry

variable {reg reg' : Registry α} {v : View α} {n : Node α}

/-- What the view with that identity has kept. -/
def keepsake? (reg : Registry α) (k : Keepsake) (i : NodeId) : Option (Handle α) :=
  reg.nodes[i]?.bind k.slot

/-- The view keeps what it has kept, and builds nothing. -/
def SameKeepsake (k : Keepsake) (i : NodeId) (reg reg' : Registry α) : Prop :=
  reg'.keepsake? k i = reg.keepsake? k i

theorem Has.keepsake? (h : reg.Has v n) (hi : v.node? = some i) :
    reg.keepsake? k i = k.slot n := by
  rw [Registry.keepsake?, h.node_eq hi, Option.bind_some]

theorem keepsake?_of_nodes (h : reg'.nodes = reg.nodes) :
    reg'.keepsake? k i = reg.keepsake? k i := by
  rw [keepsake?, keepsake?, h]

theorem keepsake?_push (reg : Registry α) (v : View α) :
    (reg.push v).keepsake? k i = reg.keepsake? k i := by
  rw [keepsake?, node_push, keepsake?]
  split
  next hi =>
    rw [hi, Array.getElem?_eq_none (Nat.le_refl _)]
    exact k.slot_fresh v
  next => rfl

theorem keepsake?_updateNode (reg : Registry α) {f : Node α → Node α}
    (hf : v.node? = some i → ∀ n, k.slot (f n) = k.slot n) :
    (reg.updateNode v f).keepsake? k i = reg.keepsake? k i := by
  unfold updateNode keepsake?
  cases hv : v.node? with
  | none => rfl
  | some j =>
    simp only [Array.getElem?_modify]
    split
    next hji =>
      have hsame := hf (by rw [hv, hji])
      cases reg.nodes[i]? <;> simp [hsame]
    next => rfl

theorem keepsake?_sweep (reg : Registry α) (held : List NodeId) :
    (reg.sweep held).keepsake? k i = reg.keepsake? k i := by
  rw [keepsake?, node_sweep, keepsake?]
  cases reg.nodes[i]? with
  | none => rfl
  | some n => cases k <;> rfl

@[simp] theorem keepsake?_release (reg : Registry α) (held : List NodeId) :
    (reg.release held).keepsake? k i = reg.keepsake? k i :=
  release_induction (P := fun r => r.keepsake? k i = reg.keepsake? k i)
    (fun r hr => (keepsake?_sweep r held).trans hr) rfl

theorem sameKeepsake_placid (k : Keepsake) (i : NodeId) : Placid (SameKeepsake (α := α) k i) where
  refl _ := rfl
  trans h h' := h'.trans h
  log _ _ := keepsake?_of_nodes rfl
  evaluated _ _ := keepsake?_of_nodes rfl
  push reg v := keepsake?_push reg v
  source reg c a :=
    (keepsake?_of_nodes rfl).trans
      (keepsake?_push reg (.source ⟨reg.nodes.size, reg.bags.size, c, a⟩))
  filled _ _ hr := (keepsake?_of_nodes rfl).trans hr

/-- A view which has kept its descending view is not descending. -/
theorem isDescending_of_keepsake? {h : Handle α} (hw : reg.WellFormed) (hv : reg.Houses v)
    (hi : v.node? = some i) (hkept : reg.keepsake? .reversal i = some h) :
    v.isDescending = false := by
  obtain ⟨n, hn⟩ := hv
  rw [hn.keepsake? hi] at hkept
  obtain ⟨d, hd, -⟩ := Option.map_eq_some_iff.mp hkept
  exact (hn.reversal_eq hw hd).2.1

/-- A view that has a number is not given a node. -/
theorem enroll_of_node? (reg : Registry α) (hv : v.node? = some j) : reg.enroll v = (v, reg) := by
  cases v with
  | source s => rfl
  | range m s r => obtain rfl : m = some j := hv; rfl
  | descending m link f => obtain rfl : m = some j := hv; rfl

end Registry

/-- A request for something else, or to another view, does not concern what the view has kept. -/
theorem Keepsake.respected_other {v : View α} (hv : v.node? = some j) (hne : k' = k → j ≠ i) :
    k'.Respected (Registry.SameKeepsake k i) v := by
  have hR := Registry.sameKeepsake_placid (α := α) k i
  have hupdate {f : Node α → Node α} (hf : k' ≠ k → ∀ n, k.slot (f n) = k.slot n)
      (reg reg' : Registry α) :
      Registry.SameKeepsake k i reg (reg.updateNode (Registry.enroll reg' v).1 f) := by
    rw [Registry.enroll_of_node? reg' hv]
    refine Registry.keepsake?_updateNode reg fun hi => hf fun hk => hne hk ?_
    exact Option.some.inj (hv.symm.trans hi)
  cases k' with
  | reversal =>
    exact v.reversed_respects hR fun reg reg' _ =>
      hupdate (fun h n => by cases k <;> simp_all [slot]) reg reg'
  | elementSet =>
    exact v.elementSet_respects hR (hupdate fun h n => by cases k <;> simp_all [slot])
  | entrySet =>
    exact v.entrySet_respects hR (hupdate fun h n => by cases k <;> simp_all [slot])

/-! ## Asking for it -/

theorem Registry.log_updateNode (reg : Registry α) (v : View α) (f : Node α → Node α) :
    (reg.updateNode v f).log = reg.log := by
  unfold updateNode
  split <;> rfl

theorem Registry.Has.keepsake?_updateNode {reg : Registry α} {v : View α} {n : Node α}
    (hn : reg.Has v n) (hi : v.node? = some i) (f : Node α → Node α) :
    (reg.updateNode v f).keepsake? k i = k.slot (f n) := by
  rw [Registry.keepsake?, node_updateNode hn, if_pos hi, Option.bind_some]

theorem Handle.perform_ofView {v : View α} (hv : v.node? = some j) (reg : Registry α) :
    (Handle.ofView v).perform reg = (.ok (.bag v), reg) := by
  unfold Handle.ofView
  rw [perform_bind_ok (perform_updating _ reg), Registry.enroll_of_node? reg hv, perform_pure]

namespace Keepsake

variable [Ord α] [Std.TransOrd α] {reg : Registry α} {v : View α} {t : Table α} {name : String}

/-- What is asked for is handed out as it was kept, or built, which the log tells, and kept. -/
theorem perform_making (hw : reg.WellFormed) (hv : reg.Houses v) (hi : v.node? = some i)
    (hname : t.find? name = some (.bag v)) (hup : k = .reversal → v.isDescending = false) :
    ∃ h reg', ((k.making name).run t).perform reg = (.ok h, reg') ∧
      reg'.keepsake? k i = some h ∧
      (reg.keepsake? k i = some h ∧ reg'.log = reg.log ∨
        reg.keepsake? k i = none ∧ reg'.log = reg.log ++ [k.record]) := by
  obtain ⟨n, hn⟩ := hv
  have hview := hn.view
  have hbag := Table.perform_bag hname reg
  have hrecord : (reg.record k.record).Has v n := ⟨hn.found, hn.view⟩
  -- what the node has not kept is recorded and registered
  have hbuilt {reg' : Registry α} {f : Node α → Node α} {h : Handle α} (hn' : reg'.Has v n)
      (hlog : reg'.log = reg.log ++ [k.record]) (hnone : k.slot n = none)
      (hsome : k.slot (f n) = some h) :
      (reg'.updateNode v f).keepsake? k i = some h ∧
        (reg.keepsake? k i = some h ∧ (reg'.updateNode v f).log = reg.log ∨
          reg.keepsake? k i = none ∧ (reg'.updateNode v f).log = reg.log ++ [k.record]) := by
    refine ⟨(hn'.keepsake?_updateNode hi f).trans hsome, .inr ⟨(hn.keepsake? hi).trans hnone, ?_⟩⟩
    rw [Registry.log_updateNode, hlog]
  have hkept {h : Handle α} (hsome : k.slot n = some h) :
      reg.keepsake? k i = some h ∧ (reg.keepsake? k i = some h ∧ reg.log = reg.log ∨
        reg.keepsake? k i = none ∧ reg.log = reg.log ++ [k.record]) :=
    have hsame := (hn.keepsake? hi).trans hsome
    ⟨hsame, .inl ⟨hsame, rfl⟩⟩
  cases k with
  | reversal =>
    have hrun {d : View α} {reg' : Registry α} {j : NodeId} (hd : d.node? = some j)
        (h : v.reversed.perform reg = (.ok d, reg')) :
        ((reversal.making name).run t).perform reg = (.ok (.bag d), reg') :=
      (perform_bind_ok hbag).trans ((perform_bind_ok h).trans (Handle.perform_ofView hd reg'))
    have hask := congrArg (fun a => a.perform reg) (View.reversed_of_up (hup rfl))
    rw [perform_bind_ok (View.perform_enroll ⟨n, hn⟩), perform_bind_ok (perform_get reg),
      hn.found] at hask
    cases hslot : n.reversal with
    | some d =>
      simp only [Option.bind_some, hslot, perform_pure] at hask
      obtain ⟨⟨m, hm⟩, -⟩ := hn.reversal_eq hw hslot
      obtain ⟨j, hj, -⟩ := hm.index
      exact ⟨_, _, hrun hj hask, hkept (by simp [slot, hslot])⟩
    | none =>
      simp only [Option.bind_some, hslot, View.perform_buildReversal ⟨n, hn⟩] at hask
      exact ⟨_, _, hrun rfl hask, hbuilt (hrecord.push _) rfl (by simp [slot, hslot]) rfl⟩
  | elementSet =>
    have hrun : ((elementSet.making name).run t).perform reg = (.ok (.elements ⟨.weak, v⟩), _) :=
      (perform_bind_ok hbag).trans ((perform_bind_ok (View.perform_elementSet hn)).trans
        (perform_pure _ _))
    refine ⟨_, _, hrun, ?_⟩
    cases hflag : n.hasElementSet with
    | true => exact hkept (by simp [slot, hflag, hview])
    | false => exact hbuilt hrecord rfl (by simp [slot, hflag]) (by simp [slot, hview])
  | entrySet =>
    have hrun : ((entrySet.making name).run t).perform reg = (.ok (.entries ⟨v⟩), _) :=
      (perform_bind_ok hbag).trans ((perform_bind_ok (View.perform_entrySet hn)).trans
        (perform_pure _ _))
    refine ⟨_, _, hrun, ?_⟩
    cases hflag : n.hasEntrySet with
    | true => exact hkept (by simp [slot, hflag, hview])
    | false => exact hbuilt hrecord rfl (by simp [slot, hflag]) (by simp [slot, hview])

/-- A descending view hands out the view behind it, if it can be reached, and builds nothing. -/
theorem perform_making_behind {n : Option NodeId} {link : Link} {f : View α}
    (hw : reg.WellFormed) (hv : reg.Houses (.descending n link f))
    (hname : t.find? name = some (.bag (.descending n link f))) :
    ((reversal.making name).run t).perform reg =
      ((reg.follow link f).map fun _ => .bag f, reg) := by
  have hbag := Table.perform_bag hname reg
  have hask := View.reversed_down n link f reg
  obtain ⟨m, hm⟩ := Registry.Houses.base hw hv (f := f) rfl
  obtain ⟨j, hj, -⟩ := hm.index
  cases hfollow : reg.follow link f with
  | error e =>
    rw [hfollow] at hask
    exact (perform_bind_ok hbag).trans (perform_bind_error hask)
  | ok _ =>
    rw [hfollow] at hask
    exact (perform_bind_ok hbag).trans ((perform_bind_ok hask).trans (Handle.perform_ofView hj reg))

end Keepsake

namespace Session

variable [Ord α] [Std.TransOrd α] [Shown α] {s : Session α} {c : Command α} {v : View α}
  {watched : List String}

/-! ## One request -/

/-- A command leaves alone what a view has kept, unless it asks that very view for it. -/
theorem keepsake?_step (hs : s.Sound) (hask : ∀ v, c.Requests s.table k v → v.node? ≠ some i)
    (watched : List String) :
    (s.step watched c).2.registry.keepsake? k i = s.registry.keepsake? k i := by
  have hR := Registry.sameKeepsake_placid (α := α) k i
  have hrun : (c.run s.table).Respects (Registry.SameKeepsake k i) := by
    refine Command.run_respects hR (fun _ _ _ _ => Registry.keepsake?_of_nodes rfl) ?_ ?_
    · exact fun v _ => View.comparator_respects hR.toChained
        (fun reg v c => Registry.keepsake?_updateNode reg fun _ n => by cases k <;> rfl) v
    · intro k' v hrequest
      obtain ⟨new, name, rfl, hname⟩ := hrequest
      obtain ⟨n, hn⟩ := (hs.live.find? hname).1
      obtain ⟨j, hj, -⟩ := hn.index
      refine Keepsake.respected_other hj ?_
      rintro rfl rfl
      exact hask v ⟨new, name, rfl, hname⟩ hj
  exact (Registry.keepsake?_release _ _).trans (hrun s.fresh)

/-- What making a handle did is what the session reports. -/
theorem step_bind (new : String) {m : Making α} {h : Handle α} {reg : Registry α}
    (hp : (m.run s.table).perform s.fresh = (.ok h, reg)) (watched : List String) :
    (s.step watched (.bind new m)).1.outcome = .ok .done ∧
      (s.step watched (.bind new m)).1.log = reg.log ∧
      (s.step watched (.bind new m)).2.table = s.table.bind new h ∧
      ∀ k i, (s.step watched (.bind new m)).2.registry.keepsake? k i = reg.keepsake? k i := by
  have hrun : ((Command.bind new m).run s.table).perform s.fresh =
      (.ok (.done, s.table.bind new h), reg) := perform_bind_ok hp
  obtain ⟨hout, hafter⟩ := step_of_ok watched hrun
  refine ⟨hout, congrArg (fun p => p.2.log) hrun, by rw [hafter], fun k i => ?_⟩
  rw [hafter]
  exact Registry.keepsake?_release _ _

/-- A view that is asked hands out what it has kept, or it builds it and keeps it from then on. -/
theorem request_spec (hs : s.Sound) {name : String} (hname : s.table.find? name = some (.bag v))
    (hi : v.node? = some i) (hup : k = .reversal → v.isDescending = false) (new : String)
    (watched : List String) :
    ∃ h, (s.step watched (.bind new (k.making name))).1.outcome = .ok .done ∧
      (s.step watched (.bind new (k.making name))).2.table.find? new = some h ∧
      (s.step watched (.bind new (k.making name))).2.registry.keepsake? k i = some h ∧
      (s.registry.keepsake? k i = some h ∧
          (s.step watched (.bind new (k.making name))).1.log = [] ∨
        s.registry.keepsake? k i = none ∧
          (s.step watched (.bind new (k.making name))).1.log = [k.record]) := by
  obtain ⟨h, reg, hp, hkept, hcases⟩ := Keepsake.perform_making hs.fresh.wellFormed
    (hs.live_fresh.find? hname).1 hi hname hup
  obtain ⟨hout, hlog, htable, hafter⟩ := step_bind new hp watched
  refine ⟨h, hout, by rw [htable, Table.find?_bind_self], (hafter k i).trans hkept, ?_⟩
  rw [hlog]
  exact hcases

/-- A descending view that is reversed hands out the view behind it, or fails, and keeps nothing. -/
theorem request_behind (hs : s.Sound) {name : String} {n : Option NodeId} {link : Link}
    {f : View α} (hname : s.table.find? name = some (.bag (.descending n link f))) (new : String)
    (watched : List String) :
    (s.step watched (.bind new (.view name .reversed))).1.log = [] ∧
      (∀ answer, (s.step watched (.bind new (.view name .reversed))).1.outcome = .ok answer →
        (s.step watched (.bind new (.view name .reversed))).2.table.find? new = some (.bag f)) ∧
      ∀ k i, (s.step watched (.bind new (.view name .reversed))).2.registry.keepsake? k i =
        s.registry.keepsake? k i := by
  have hp := Keepsake.perform_making_behind hs.fresh.wellFormed (hs.live_fresh.find? hname).1 hname
  cases hfollow : s.fresh.follow link f with
  | ok _ =>
    rw [hfollow] at hp
    obtain ⟨-, hlog, htable, hafter⟩ := step_bind new hp watched
    have hnew := (congrArg (fun t => t.find? new) htable).trans (Table.find?_bind_self _ _ _)
    exact ⟨hlog, fun _ _ => hnew, hafter⟩
  | error e =>
    rw [hfollow] at hp
    have hrun : ((Command.bind new (.view name .reversed)).run s.table).perform s.fresh =
        (.error e, s.fresh) := perform_bind_error hp
    obtain ⟨hout, hafter⟩ := step_of_error watched hrun
    refine ⟨congrArg (fun p => p.2.log) hrun, fun answer h => ?_, fun k i => ?_⟩
    · rw [hout] at h
      cases h
    · rw [hafter]
      exact Registry.keepsake?_release _ _

end Session

/-! ## All requests of a run -/

/-- Whenever two names stand for the handle, they are found to stand for the same. -/
def Handle.Recognised (h : Handle α) : Prop :=
  ∀ (t : Table α) (first second : String) (reg : Registry α), t.find? first = some h →
    t.find? second = some h → (t.same first second).perform reg = (.ok true, reg)

theorem Handle.recognised_bag (v : View α) : (Handle.bag v).Recognised := by
  intro t first second reg hfirst hsecond
  unfold Table.same
  rw [hfirst]
  refine (perform_bind_ok (Table.perform_bag hfirst reg)).trans ?_
  refine (perform_bind_ok (Table.perform_bag hsecond reg)).trans ?_
  rw [perform_pure, beq_self_eq_true]

/-- What a view has kept is always found to be the same. -/
theorem Keepsake.recognised {n : Node α} {h : Handle α} (hslot : k.slot n = some h) :
    h.Recognised := by
  cases k with
  | reversal =>
    obtain ⟨d, -, rfl⟩ := Option.map_eq_some_iff.mp hslot
    exact Handle.recognised_bag d
  | elementSet =>
    obtain ⟨-, ⟨⟩⟩ := Option.ite_none_right_eq_some.mp hslot
    intro t first second reg hfirst hsecond
    unfold Table.same
    rw [hfirst]
    refine (perform_bind_ok (Table.perform_elements hsecond reg)).trans ?_
    rw [perform_pure, beq_self_eq_true, beq_self_eq_true]
    rfl
  | entrySet =>
    obtain ⟨-, ⟨⟩⟩ := Option.ite_none_right_eq_some.mp hslot
    intro t first second reg hfirst hsecond
    unfold Table.same
    rw [hfirst]
    refine (perform_bind_ok (Table.perform_entries hsecond reg)).trans ?_
    rw [perform_pure, beq_self_eq_true]

/-- A request to a view, and what came of it. -/
structure Request (α : Type) where
  /-- The view that was asked. -/
  view : View α
  /-- The answer, or why there is none. -/
  outcome : Except Failure (Answer α)
  /-- What the new name stands for after it. -/
  handle? : Option (Handle α)
  /-- What it wrote to the log. -/
  log : List Record

/-- The view was not only asked, but handed something out. -/
def Request.Served (r : Request α) : Prop :=
  ∃ answer, r.outcome = .ok answer

/-- What a command asks a view for, the name of the view, and the name of what is handed out. -/
def Command.request? : Command α → Option (Keepsake × String × String)
  | bind new (.view name .reversed) => some (.reversal, name, new)
  | bind new (.elementSet name) => some (.elementSet, name, new)
  | bind new (.entrySet name) => some (.entrySet, name, new)
  | _ => none

theorem Command.request?_eq_some {c : Command α} {name new : String} :
    c.request? = some (k, name, new) ↔ c = .bind new (k.making name) := by
  constructor
  · intro h
    unfold request? at h
    split at h <;> first | cases h; rfl | cases h
  · rintro rfl
    cases k <;> rfl

/-- All requests were to one view, and whenever it handed something out it was the same thing. A
view that is not descending always does, and the first request may have built it, as `built` tells;
any other request is not even logged. To reverse a descending view leads to the view behind it. -/
structure Keepsake.BuiltOnce (k : Keepsake) (rs : List (Request α)) (built : List (List Record)) :
    Prop where
  view : ∀ r ∈ rs, ∀ r' ∈ rs, r.view = r'.view
  handle : ∀ r ∈ rs, ∀ r' ∈ rs, r.Served → r'.Served →
    ∃ h, r.handle? = some h ∧ r'.handle? = some h ∧ h.Recognised
  served : ∀ r ∈ rs, (k = .reversal → r.view.isDescending = false) → r.outcome = .ok .done
  behind : k = .reversal → ∀ r ∈ rs, ∀ n link f, r.view = .descending n link f → r.Served →
    r.handle? = some (.bag f)
  logged : rs.flatMap Request.log = [] ∨ rs.flatMap Request.log = [k.record]
  quiet : ∀ r ∈ rs.tail, r.log = []
  built : built = [] ∨ built = [[k.record]]

/-- A view that is not descending hands out the same thing to all. -/
theorem Keepsake.BuiltOnce.of_handed {rs : List (Request α)} {built : List (List Record)}
    {v : View α} {h : Handle α} (hup : k = .reversal → v.isDescending = false)
    (hh : h.Recognised)
    (hrs : ∀ r ∈ rs, r.view = v ∧ r.outcome = .ok .done ∧ r.handle? = some h)
    (hlogged : rs.flatMap Request.log = [] ∨ rs.flatMap Request.log = [k.record])
    (hquiet : ∀ r ∈ rs.tail, r.log = []) (hbuilt : built = [] ∨ built = [[k.record]]) :
    k.BuiltOnce rs built where
  view r hr r' hr' := (hrs r hr).1.trans (hrs r' hr').1.symm
  handle r hr r' hr' _ _ := ⟨h, (hrs r hr).2.2, (hrs r' hr').2.2, hh⟩
  served r hr _ := (hrs r hr).2.1
  behind hk r hr n link f hview _ := by
    have hdown := hup hk
    rw [← (hrs r hr).1, hview] at hdown
    cases hdown
  logged := hlogged
  quiet := hquiet
  built := hbuilt

/-- A descending view that is reversed builds nothing. -/
theorem Keepsake.BuiltOnce.of_behind {rs : List (Request α)} {n : Option NodeId} {link : Link}
    {f : View α} (hrs : ∀ r ∈ rs, r.view = .descending n link f ∧
      (r.Served → r.handle? = some (.bag f)) ∧ r.log = []) : reversal.BuiltOnce rs [] where
  view r hr r' hr' := (hrs r hr).1.trans (hrs r' hr').1.symm
  handle r hr r' hr' hserved hserved' :=
    ⟨.bag f, (hrs r hr).2.1 hserved, (hrs r' hr').2.1 hserved', Handle.recognised_bag f⟩
  served r hr hup := by
    have hdown := hup rfl
    rw [(hrs r hr).1] at hdown
    cases hdown
  behind _ r hr n' link' f' hview hserved := by
    obtain ⟨-, -, rfl⟩ := View.descending.inj ((hrs r hr).1.symm.trans hview)
    exact (hrs r hr).2.1 hserved
  logged := .inl (List.flatMap_eq_nil_iff.mpr fun r hr => (hrs r hr).2.2)
  quiet r hr := (hrs r (List.mem_of_mem_tail hr)).2.2
  built := .inl rfl

namespace Session

variable [Ord α] [Std.TransOrd α] [Shown α] {s : Session α} {c : Command α} {cs : List (Command α)}
  {watched : List String}

/-- The request that the command is, if it asks the view with that identity for the keepsake. -/
def request? (watched : List String) (k : Keepsake) (i : NodeId) (s : Session α) (c : Command α) :
    Option (Request α) :=
  match c.request? with
  | none => none
  | some (k', name, new) =>
    match s.table.find? name with
    | some (.bag v) =>
      let (report, after) := s.step watched c
      if k' = k ∧ v.node? = some i then
        some ⟨v, report.outcome, after.table.find? new, report.log⟩
      else none
    | _ => none

/-- The requests of a run for a keepsake of the view with that identity. -/
def requests (watched : List String) (k : Keepsake) (i : NodeId) :
    Session α → List (Command α) → List (Request α)
  | _, [] => []
  | s, c :: cs => (s.request? watched k i c).toList ++ requests watched k i (s.step watched c).2 cs

/-- What those commands of a run wrote to the log through which the view with that identity came to
have the keepsake. -/
def buildings (watched : List String) (k : Keepsake) (i : NodeId) :
    Session α → List (Command α) → List (List Record)
  | _, [] => []
  | s, c :: cs =>
    let (report, after) := s.step watched c
    let later := buildings watched k i after cs
    if (s.registry.keepsake? k i).isNone && (after.registry.keepsake? k i).isSome then
      report.log :: later
    else later

theorem spec_of_request? {r : Request α} (h : s.request? watched k i c = some r) :
    ∃ new name, c = .bind new (k.making name) ∧ s.table.find? name = some (.bag r.view) ∧
      r.view.node? = some i ∧ r.outcome = (s.step watched c).1.outcome ∧
      r.handle? = (s.step watched c).2.table.find? new ∧ r.log = (s.step watched c).1.log := by
  unfold request? at h
  cases hc : c.request? with
  | none => simp [hc] at h
  | some asked =>
    obtain ⟨k', name, new⟩ := asked
    simp only [hc] at h
    split at h
    next v hname =>
      obtain ⟨⟨rfl, hi⟩, ⟨⟩⟩ := Option.ite_none_right_eq_some.mp h
      exact ⟨new, name, Command.request?_eq_some.mp hc, hname, hi, rfl, rfl, rfl⟩
    next => cases h

theorem not_requests_of_request? (h : s.request? watched k i c = none) (v : View α)
    (hv : c.Requests s.table k v) : v.node? ≠ some i := by
  obtain ⟨new, name, rfl, hname⟩ := hv
  rintro hi
  have hc : (Command.bind (α := α) new (k.making name)).request? = some (k, name, new) :=
    Command.request?_eq_some.mpr rfl
  simp [request?, hc, hname, hi] at h

/-- Once a view has kept something, it hands out nothing else. -/
theorem requests_of_kept (watched : List String) (hs : s.Sound) (hcs : ∀ c ∈ cs, c.Valid)
    {v : View α} {h : Handle α}
    (hv : s.registry.Houses v) (hi : v.node? = some i)
    (hkept : s.registry.keepsake? k i = some h) :
    (∀ r ∈ requests watched k i s cs,
      r.view = v ∧ r.outcome = .ok .done ∧ r.handle? = some h ∧ r.log = []) ∧
    buildings watched k i s cs = [] := by
  induction cs generalizing s with
  | nil => exact ⟨by simp [requests], rfl⟩
  | cons c cs ih =>
    obtain ⟨hc, hcs⟩ := List.forall_mem_cons.mp hcs
    have hv' := hv.grow (hs.grows hc watched)
    have hlater (hafter : (s.step watched c).2.registry.keepsake? k i = some h) :=
      ih (hs.step hc watched) hcs hv' hafter
    have hbuild : buildings watched k i s (c :: cs) =
        buildings watched k i (s.step watched c).2 cs := by
      simp [buildings, hkept]
    rw [requests, hbuild]
    cases hr : s.request? watched k i c with
    | none =>
      have hsame := keepsake?_step hs (not_requests_of_request? hr) watched
      exact hlater (hsame.trans hkept)
    | some r =>
      obtain ⟨new, name, rfl, hname, hi', hout, hhandle, hlog⟩ := spec_of_request? hr
      have hrv := (hs.live.find? hname).1
      have hup (hk : k = .reversal) : r.view.isDescending = false :=
        Registry.isDescending_of_keepsake? hs.registry.wellFormed hrv hi' (hk ▸ hkept)
      obtain ⟨h', hdone, hnew, hafter, ⟨hbefore, hnone⟩ | ⟨hbefore, -⟩⟩ :=
        request_spec hs hname hi' hup new watched
      · obtain rfl : h = h' := Option.some.inj (hkept.symm.trans hbefore)
        obtain ⟨hrs, hbs⟩ := hlater hafter
        refine ⟨List.forall_mem_cons.mpr ⟨⟨?_, ?_, ?_, ?_⟩, hrs⟩, hbs⟩
        · exact Registry.houses_unique hrv hv (hi'.trans hi.symm)
        · rw [hout, hdone]
        · rw [hhandle, hnew]
        · rw [hlog, hnone]
      · rw [hkept] at hbefore
        cases hbefore

/-- A descending view hands out the view behind it. -/
theorem requests_of_descending (watched : List String) (hs : s.Sound) (hcs : ∀ c ∈ cs, c.Valid)
    {n : Option NodeId}
    {link : Link} {f : View α} (hv : s.registry.Houses (.descending n link f))
    (hi : (View.descending n link f).node? = some i) :
    (∀ r ∈ requests watched .reversal i s cs,
      r.view = .descending n link f ∧ (r.Served → r.handle? = some (.bag f)) ∧ r.log = []) ∧
    buildings watched .reversal i s cs = [] := by
  induction cs generalizing s with
  | nil => exact ⟨by simp [requests], rfl⟩
  | cons c cs ih =>
    obtain ⟨hc, hcs⟩ := List.forall_mem_cons.mp hcs
    have hs' := hs.step hc watched
    have hv' := hv.grow (hs.grows hc watched)
    obtain ⟨hrs, hbs⟩ := ih hs' hcs hv'
    have hnone : (s.step watched c).2.registry.keepsake? .reversal i = none := by
      refine Option.eq_none_iff_forall_ne_some.mpr fun h hkept => ?_
      simpa [View.isDescending] using
        Registry.isDescending_of_keepsake? hs'.registry.wellFormed hv' hi hkept
    have hbuild : buildings watched .reversal i s (c :: cs) =
        buildings watched .reversal i (s.step watched c).2 cs := by
      simp [buildings, hnone]
    rw [requests, hbuild]
    cases hr : s.request? watched .reversal i c with
    | none => exact ⟨hrs, hbs⟩
    | some r =>
      obtain ⟨new, name, rfl, hname, hi', hout, hhandle, hlog⟩ := spec_of_request? hr
      have hview := Registry.houses_unique (hs.live.find? hname).1 hv (hi'.trans hi.symm)
      rw [hview] at hname
      obtain ⟨hquiet, hback, -⟩ := request_behind hs hname new watched
      refine ⟨List.forall_mem_cons.mpr ⟨⟨hview, fun hserved => ?_, ?_⟩, hrs⟩, hbs⟩
      · obtain ⟨answer, h⟩ := hserved
        rw [hhandle]
        exact hback answer (hout.symm.trans h)
      · rw [hlog]
        exact hquiet

/-- What comes of all requests is settled by the first one. -/
theorem built_once_of_request (hs : s.Sound) (hc : c.Valid) (hcs : ∀ c ∈ cs, c.Valid)
    {r : Request α} (hr : s.request? watched k i c = some r) :
    k.BuiltOnce (requests watched k i s (c :: cs)) (buildings watched k i s (c :: cs)) := by
  obtain ⟨new, name, rfl, hname, hi, hout, hhandle, hlog⟩ := spec_of_request? hr
  have hv := (hs.live.find? hname).1
  have hall := List.forall_mem_cons.mpr ⟨hc, hcs⟩
  by_cases hdown : k = .reversal ∧ r.view.isDescending = true
  · obtain ⟨rfl, hdown⟩ := hdown
    cases hview : r.view with
    | source b => rw [hview] at hdown; cases hdown
    | range n b q => rw [hview] at hdown; cases hdown
    | descending n link f =>
      rw [hview] at hv hi
      obtain ⟨hrs, hbs⟩ := requests_of_descending watched hs hall hv hi
      rw [hbs]
      exact .of_behind hrs
  have hup (hk : k = .reversal) : r.view.isDescending = false :=
    Bool.eq_false_iff.mpr fun h => hdown ⟨hk, h⟩
  obtain ⟨h, hdone, hnew, hafter, hcases⟩ := request_spec hs hname hi hup new watched
  have hh : h.Recognised := by
    obtain ⟨n, -, hslot⟩ := Option.bind_eq_some_iff.mp hafter
    exact Keepsake.recognised hslot
  rcases hcases with ⟨hkept, -⟩ | ⟨hnone, hrecord⟩
  · -- the view had it before the run
    obtain ⟨hrs, hbs⟩ := requests_of_kept watched hs hall hv hi hkept
    exact .of_handed hup hh (fun r hr => ⟨(hrs r hr).1, (hrs r hr).2.1, (hrs r hr).2.2.1⟩)
      (.inl (List.flatMap_eq_nil_iff.mpr fun r hr => (hrs r hr).2.2.2))
      (fun r hr => (hrs r (List.mem_of_mem_tail hr)).2.2.2) (.inl hbs)
  · -- this request builds it, and every later one finds it
    obtain ⟨hrs, hbs⟩ := requests_of_kept watched (hs.step hc watched) hcs
      (hv.grow (hs.grows hc watched)) hi hafter
    have hbuild : buildings watched k i s (.bind new (k.making name) :: cs) = [[k.record]] := by
      simp [buildings, hnone, hafter, hbs, hrecord]
    have hlist : requests watched k i s (.bind new (k.making name) :: cs) =
        r :: requests watched k i (s.step watched (.bind new (k.making name))).2 cs := by
      simp [requests, hr]
    rw [hbuild, hlist]
    refine .of_handed hup hh (List.forall_mem_cons.mpr ⟨⟨rfl, ?_, ?_⟩, ?_⟩) (.inr ?_) ?_ (.inr rfl)
    · exact hout.trans hdone
    · exact hhandle.trans hnew
    · exact fun r hr => ⟨(hrs r hr).1, (hrs r hr).2.1, (hrs r hr).2.2.1⟩
    · rw [List.flatMap_cons, hlog, hrecord,
        List.flatMap_eq_nil_iff.mpr fun r hr => (hrs r hr).2.2.2, List.append_nil]
    · exact fun r hr => (hrs r hr).2.2.2

/-- In every run, whatever else happens in it, a view builds its descending view, its element set
and its entry set at most once, and all requests for one of them lead to the same. -/
theorem built_once (hs : s.Reachable) (hcs : ∀ c ∈ cs, c.Valid) (watched : List String)
    (k : Keepsake) (i : NodeId) :
    k.BuiltOnce (requests watched k i s cs) (buildings watched k i s cs) := by
  replace hs := hs.sound
  induction cs generalizing s with
  | nil => constructor <;> simp [requests, buildings]
  | cons c cs ih =>
    obtain ⟨hc, hcs⟩ := List.forall_mem_cons.mp hcs
    cases hr : s.request? watched k i c with
    | none =>
      have hsame := keepsake?_step hs (not_requests_of_request? hr) watched
      have hbuild : ((s.registry.keepsake? k i).isNone &&
          ((s.step watched c).2.registry.keepsake? k i).isSome) = false := by
        rw [hsame]
        cases s.registry.keepsake? k i <;> rfl
      simp only [requests, buildings, hr, hbuild]
      exact ih hcs (hs.step hc watched)
    | some r => exact built_once_of_request hs hc hcs hr

/-- Asks for the element set of the numbers, and again after the first one was dropped and the
numbers have changed. -/
def elementSetTwice : List (Command Int) :=
  [.bind "e" (.elementSet "s"), .drop "e", .change "s" (.insert 4), .bind "f" (.elementSet "s")]

theorem built_once_threeNumbers :
    ∃ r r' : Request Int, requests [] .elementSet 0 threeNumbers elementSetTwice = [r, r'] ∧
      buildings [] .elementSet 0 threeNumbers elementSetTwice = [[.elementSet]] ∧
      r.log = [.elementSet] ∧ r'.log = [] ∧
      ∃ h, r.handle? = some h ∧ r'.handle? = some h ∧ h.Recognised := by
  have hvalid : ∀ c ∈ elementSetTwice, c.Valid := by
    simp [elementSetTwice, Command.Valid, Making.Valid, Change.Valid]
  have honce := built_once threeNumbers_reachable hvalid [] .elementSet 0
  obtain ⟨r, r', hrs, hlog, hserved, hserved'⟩ : ∃ r r' : Request Int,
      requests [] .elementSet 0 threeNumbers elementSetTwice = [r, r'] ∧
        r.log = [.elementSet] ∧ r.Served ∧ r'.Served := ⟨_, _, rfl, rfl, ⟨_, rfl⟩, ⟨_, rfl⟩⟩
  rw [hrs] at honce
  exact ⟨r, r', hrs, rfl, hlog, honce.quiet r' List.mem_cons_self,
    honce.handle r List.mem_cons_self r' (List.mem_cons_of_mem _ List.mem_cons_self)
      hserved hserved'⟩

end Session

end OrderedBag
