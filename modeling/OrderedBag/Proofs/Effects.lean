import OrderedBag.Proofs.Registry
import OrderedBag.Registry.Action

/-!
# What actions do

Three ways to say what an action does, from the most to the least precise. An action may write to
the log only; it may make moves and leave known contents; or it may make moves, and something is
known about its answer if there is one. Each comes with a rule for running one action after another.

* `Action.Answers` — the outcome, when nothing but the log changes
* `Action.Gives` — the outcome and the contents after it
* `Action.Ends` — what holds after an answer
-/

namespace OrderedBag

variable {α β γ : Type}

namespace Registry

/-- The registry with another log. -/
def withLog (reg : Registry α) (l : List Record) : Registry α :=
  { reg with log := l }

variable (reg : Registry α) (l : List Record)

@[simp] theorem contents_withLog : (reg.withLog l).contents = reg.contents := rfl

theorem moves_withLog : reg.Moves (reg.withLog l) :=
  .single (.aside rfl rfl rfl)

end Registry

namespace Action

variable {reg : Registry α} {a : Action α β} {f : β → Action α γ}

theorem perform_follow_ok {link : Link} {v : View α} (h : reg.follow link v = .ok ()) :
    (follow link v).perform reg = (.ok (), reg) := by
  rw [perform_follow, h]

/-! ## Actions that write to the log only -/

/-- The outcome of `a` is `o`, and nothing but the log changes. -/
def Answers (a : Action α β) (reg : Registry α) (o : Except Failure β) : Prop :=
  ∃ l, a.perform reg = (o, reg.withLog l)

theorem answers_pure (b : β) : (pure b : Action α β).Answers reg (.ok b) :=
  ⟨reg.log, rfl⟩

theorem answers_throw (e : Failure) : (throw e : Action α β).Answers reg (.error e) :=
  ⟨reg.log, rfl⟩

theorem answers_get : (get : Action α (Registry α)).Answers reg (.ok reg) :=
  ⟨reg.log, rfl⟩

theorem answers_reading (g : Registry α → Except Failure β) :
    (reading g).Answers reg (g reg) :=
  ⟨reg.log, perform_reading g reg⟩

theorem answers_record (r : Record) : (record r : Action α Unit).Answers reg (.ok ()) :=
  ⟨reg.log ++ [r], rfl⟩

theorem answers_follow (reg : Registry α) (link : Link) (v : View α) :
    (follow link v).Answers reg (reg.follow link v) :=
  answers_reading _

theorem Answers.bind_ok {b : β} {o : Except Failure γ} (ha : a.Answers reg (.ok b))
    (hf : ∀ l, (f b).Answers (reg.withLog l) o) : (a >>= f).Answers reg o := by
  obtain ⟨l, hl⟩ := ha
  obtain ⟨l', hl'⟩ := hf l
  exact ⟨l', (perform_bind_ok hl).trans hl'⟩

theorem Answers.bind_error {e : Failure} (ha : a.Answers reg (.error e)) :
    (a >>= f).Answers reg (.error e) := by
  obtain ⟨l, hl⟩ := ha
  exact ⟨l, perform_bind_error hl⟩

/-- What follows a part that only reads. -/
theorem Answers.after {b : β} {o : Except Failure γ} (ha : a.perform reg = (.ok b, reg))
    (hf : (f b).Answers reg o) : (a >>= f).Answers reg o := by
  obtain ⟨l, hl⟩ := hf
  exact ⟨l, (perform_bind_ok ha).trans hl⟩

/-- An action that only goes on from the answer of another one. -/
theorem Answers.map {o : Except Failure β} (ha : a.Answers reg o) (g : β → γ) :
    (a >>= fun b => pure (g b)).Answers reg (o.map g) := by
  cases o with
  | error e => exact ha.bind_error
  | ok b => exact ha.bind_ok fun l => ⟨l, rfl⟩

/-! ## Actions that leave known contents -/

/-- The outcome of `a` is `o`, and after some moves the contents are `k`. -/
def Gives (a : Action α β) (reg : Registry α) (o : Except Failure β) (k : BagId → Histogram α) :
    Prop :=
  ∃ reg', a.perform reg = (o, reg') ∧ reg.Moves reg' ∧ reg'.contents = k

theorem Answers.gives {o : Except Failure β} (ha : a.Answers reg o) :
    a.Gives reg o reg.contents := by
  obtain ⟨l, hl⟩ := ha
  exact ⟨_, hl, reg.moves_withLog l, rfl⟩

theorem Gives.bind_ok {b : β} {o : Except Failure γ} {k k' : BagId → Histogram α}
    (ha : a.Gives reg (.ok b) k)
    (hf : ∀ reg', reg.Moves reg' → reg'.contents = k → (f b).Gives reg' o k') :
    (a >>= f).Gives reg o k' := by
  obtain ⟨reg', hl, hm, hk⟩ := ha
  obtain ⟨reg'', hl', hm', hk'⟩ := hf reg' hm hk
  exact ⟨reg'', (perform_bind_ok hl).trans hl', hm.trans hm', hk'⟩

/-- What follows a part that only reads. -/
theorem Gives.after {b : β} {o : Except Failure γ} {k : BagId → Histogram α}
    (ha : a.perform reg = (.ok b, reg)) (hf : (f b).Gives reg o k) : (a >>= f).Gives reg o k := by
  obtain ⟨reg', hl, hm, hk⟩ := hf
  exact ⟨reg', (perform_bind_ok ha).trans hl, hm, hk⟩

theorem Gives.bind_error {e : Failure} {k : BagId → Histogram α}
    (ha : a.Gives reg (.error e) k) : (a >>= f).Gives reg (.error e) k := by
  obtain ⟨reg', hl, hm, hk⟩ := ha
  exact ⟨reg', perform_bind_error hl, hm, hk⟩

theorem Gives.map {o : Except Failure β} {k : BagId → Histogram α} (ha : a.Gives reg o k)
    (g : β → γ) : (a >>= fun b => pure (g b)).Gives reg (o.map g) k := by
  cases o with
  | error e => exact ha.bind_error
  | ok b => exact ha.bind_ok fun reg' _ hk => ⟨reg', rfl, .refl, hk⟩

/-! ## What holds after an answer -/

/-- The registry makes moves, and if `a` answers `b`, then `b` and the registry fulfil `Q`. -/
def Ends (a : Action α β) (reg : Registry α) (Q : β → Registry α → Prop) : Prop :=
  reg.Moves (a.perform reg).2 ∧
    ∀ b, (a.perform reg).1 = .ok b → Q b (a.perform reg).2

variable {P Q : β → Registry α → Prop} {R : γ → Registry α → Prop}

theorem Gives.ends {o : Except Failure β} {k : BagId → Histogram α} (ha : a.Gives reg o k)
    (hq : ∀ b reg', o = .ok b → reg.Moves reg' → reg'.contents = k → Q b reg') :
    a.Ends reg Q := by
  obtain ⟨reg', hl, hm, hk⟩ := ha
  unfold Ends
  rw [hl]
  exact ⟨hm, fun b hb => hq b reg' hb hm hk⟩

theorem Answers.ends {o : Except Failure β} (ha : a.Answers reg o)
    (hq : ∀ b reg', o = .ok b → reg.Moves reg' → Q b reg') : a.Ends reg Q :=
  ha.gives.ends fun b reg' hb hm _ => hq b reg' hb hm

/-- What is known of an answer holds of the answer that an action gives. -/
theorem Gives.with_ends {b : β} {k : BagId → Histogram α} (ha : a.Gives reg (.ok b) k)
    (hq : a.Ends reg Q) :
    ∃ reg', a.perform reg = (.ok b, reg') ∧ reg.Moves reg' ∧ reg'.contents = k ∧ Q b reg' := by
  obtain ⟨reg', hl, hm, hk⟩ := ha
  have hq := hq.2
  rw [hl] at hq
  exact ⟨reg', hl, hm, hk, hq b rfl⟩

theorem Ends.mono (ha : a.Ends reg P) (h : ∀ b reg', P b reg' → Q b reg') : a.Ends reg Q :=
  ⟨ha.1, fun b hb => h b _ (ha.2 b hb)⟩

theorem Ends.bind (ha : a.Ends reg P)
    (hf : ∀ b reg', reg.Moves reg' → P b reg' → (f b).Ends reg' R) : (a >>= f).Ends reg R := by
  obtain ⟨hm, hp⟩ := ha
  unfold Ends
  rw [perform_bind]
  revert hm hp
  rcases a.perform reg with ⟨_ | b, reg'⟩
  · intro hm _
    exact ⟨hm, by simp⟩
  · intro hm hp
    obtain ⟨hm', hr⟩ := hf b reg' hm (hp b rfl)
    exact ⟨hm.trans hm', hr⟩

theorem Ends.after {b : β} (ha : a.perform reg = (.ok b, reg)) (hf : (f b).Ends reg R) :
    (a >>= f).Ends reg R := by
  unfold Ends
  rw [perform_bind_ok ha]
  exact hf

theorem ends_pure {b : β} (hq : Q b reg) : (pure b : Action α β).Ends reg Q :=
  ⟨.refl, by rintro _ ⟨⟩; exact hq⟩

theorem ends_throw (e : Failure) : (throw e : Action α β).Ends reg Q :=
  ⟨.refl, by simp⟩

theorem ends_reading (g : Registry α → Except Failure β)
    (hq : ∀ b, g reg = .ok b → Q b reg) : (reading g).Ends reg Q := by
  unfold Ends
  rw [perform_reading]
  exact ⟨.refl, hq⟩

theorem ends_updating {g : Registry α → β × Registry α} (hm : reg.Moves (g reg).2)
    (hq : Q (g reg).1 (g reg).2) : (updating g).Ends reg Q :=
  ⟨hm, by rintro _ ⟨⟩; exact hq⟩

theorem ends_modify {g : Registry α → Registry α} {Q : Unit → Registry α → Prop}
    (hm : reg.Moves (g reg)) (hq : Q () (g reg)) : (modify g : Action α Unit).Ends reg Q :=
  ⟨hm, by rintro _ ⟨⟩; exact hq⟩

theorem ends_record (r : Record) : (record r : Action α Unit).Ends reg fun _ _ => True :=
  (answers_record r).ends fun _ _ _ _ => trivial

end Action

end OrderedBag
