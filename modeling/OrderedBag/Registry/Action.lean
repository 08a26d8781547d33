import OrderedBag.Registry.Basic

/-!
# Actions

An action may change a registry and may fail. A failure keeps the changes made before it.

* `Action.perform` — the outcome of an action, and the registry after it
* `Action.perform_bind` — the second part of an action starts where the first one ended, unless that
  failed
-/

namespace OrderedBag

variable {α β γ : Type}

/-- An operation on a registry. -/
abbrev Action (α β : Type) := ExceptT Failure (StateM (Registry α)) β

namespace Action

/-- The outcome of an action, and the registry after it. -/
def perform (a : Action α β) (reg : Registry α) : Except Failure β × Registry α :=
  a.run.run reg

/-- Reads the registry, which may fail. -/
def reading (f : Registry α → Except Failure β) : Action α β := do
  let reg ← get
  match f reg with
  | .ok b => return b
  | .error e => throw e

/-- Changes the registry and answers something. -/
def updating (f : Registry α → β × Registry α) : Action α β := do
  let reg ← get
  let (b, reg) := f reg
  set reg
  return b

/-- Writes to the log. -/
def record (r : Record) : Action α Unit :=
  modify fun reg => reg.record r

/-- Follows a reference to a view. -/
def follow (link : Link) (v : View α) : Action α Unit :=
  reading fun reg => reg.follow link v

/-! ## What each action does -/

@[simp] theorem perform_pure (b : β) (reg : Registry α) :
    (pure b : Action α β).perform reg = (.ok b, reg) := rfl

@[simp] theorem perform_throw (e : Failure) (reg : Registry α) :
    (throw e : Action α β).perform reg = (.error e, reg) := rfl

@[simp] theorem perform_get (reg : Registry α) :
    (get : Action α (Registry α)).perform reg = (.ok reg, reg) := rfl

@[simp] theorem perform_modify (f : Registry α → Registry α) (reg : Registry α) :
    (modify f : Action α Unit).perform reg = (.ok (), f reg) := rfl

theorem perform_bind (a : Action α β) (f : β → Action α γ) (reg : Registry α) :
    (a >>= f).perform reg =
      match a.perform reg with
      | (.ok b, reg) => (f b).perform reg
      | (.error e, reg) => (.error e, reg) := by
  show ExceptT.bindCont f (a.run.run reg).1 (a.run.run reg).2 = _
  unfold perform
  rcases a.run.run reg with ⟨_ | b, reg⟩ <;> rfl

theorem perform_bind_ok {a : Action α β} {f : β → Action α γ} {reg reg' : Registry α} {b : β}
    (h : a.perform reg = (.ok b, reg')) : (a >>= f).perform reg = (f b).perform reg' := by
  rw [perform_bind, h]

theorem perform_bind_error {a : Action α β} {f : β → Action α γ} {reg reg' : Registry α}
    {e : Failure} (h : a.perform reg = (.error e, reg')) :
    (a >>= f).perform reg = (.error e, reg') := by
  rw [perform_bind, h]

/-- If one action after another answers, both do. -/
theorem exists_of_perform_bind {a : Action α β} {f : β → Action α γ} {reg reg' : Registry α} {c : γ}
    (h : (a >>= f).perform reg = (.ok c, reg')) :
    ∃ b mid, a.perform reg = (.ok b, mid) ∧ (f b).perform mid = (.ok c, reg') := by
  rw [perform_bind] at h
  rcases ha : a.perform reg with ⟨_ | b, mid⟩
  · rw [ha] at h
    cases h
  · rw [ha] at h
    exact ⟨b, mid, rfl, h⟩

@[simp] theorem perform_reading (f : Registry α → Except Failure β) (reg : Registry α) :
    (reading f).perform reg = (f reg, reg) := by
  show (match f reg with
    | .ok b => (pure b : Action α β)
    | .error e => throw e).perform reg = _
  cases f reg <;> rfl

@[simp] theorem perform_updating (f : Registry α → β × Registry α) (reg : Registry α) :
    (updating f).perform reg = (.ok (f reg).1, (f reg).2) := rfl

@[simp] theorem perform_record (r : Record) (reg : Registry α) :
    (record r).perform reg = (.ok (), reg.record r) := rfl

@[simp] theorem perform_follow (link : Link) (v : View α) (reg : Registry α) :
    (follow link v).perform reg = (reg.follow link v, reg) :=
  perform_reading _ _

end Action

end OrderedBag
