import OrderedBag.Registry.Action

/-!
# Storing contents

The entries of a source are replaced first, and its running total after them. If the total would be
out of range and that is checked, the operation fails in between: the entries have changed by then,
and the total has not.

* `Source.checkTotal` — fails if the running total would be out of range
* `Source.settle` — replaces the entries, and then the total
* `Source.perform_settle` — where totals wrap around, this replaces the contents
-/

namespace OrderedBag

variable {α : Type}

namespace Source

/-- Replaces the contents. -/
def replace (s : Source α) (h : Histogram α) : Action α Unit :=
  modify fun reg => reg.setContents s.bag h

/-- Fails if a running total that is kept and checked does not fit. -/
def checkTotal (s : Source α) (fits : Bool) (m : Misfit) : Action α Unit := do
  if !fits && s.access.keepsTotal && (← get).arithmetic == .checked then
    throw (@Failure.countOverflow m)

/-- Replaces the contents, the entries first and then the total if that fits. -/
def settle (s : Source α) (h : Histogram α) (fits : Bool) (m : Misfit) : Action α Unit := do
  let total := ((← get).contents s.bag).total
  s.replace { h with total }
  s.checkTotal fits m
  s.replace h

/-! ## What a success tells -/

variable {reg reg' : Registry α}

@[simp] theorem perform_replace (s : Source α) (h : Histogram α) (reg : Registry α) :
    (s.replace h).perform reg = (.ok (), reg.setContents s.bag h) := rfl

theorem perform_checkTotal_snd (s : Source α) (fits : Bool) (m : Misfit) (reg : Registry α) :
    ((s.checkTotal fits m).perform reg).2 = reg := by
  unfold checkTotal
  rw [Action.perform_bind_ok (Action.perform_get reg)]
  split <;> rfl

/-- If the total fits, the contents are replaced. -/
theorem eq_of_perform_settle {s : Source α} {h : Histogram α} {fits : Bool} {m : Misfit}
    (hp : (s.settle h fits m).perform reg = (.ok (), reg')) : reg' = reg.setContents s.bag h := by
  unfold settle at hp
  rw [Action.perform_bind_ok (Action.perform_get reg),
    Action.perform_bind_ok (perform_replace s _ _)] at hp
  obtain ⟨_, mid, hcheck, hp⟩ := Action.exists_of_perform_bind hp
  obtain rfl : reg.setContents s.bag _ = mid :=
    (perform_checkTotal_snd s fits m _).symm.trans (congrArg Prod.snd hcheck)
  rw [perform_replace, Registry.setContents_setContents] at hp
  exact (Prod.mk.inj hp).2.symm

/-! ## Where totals wrap around -/

theorem perform_checkTotal (hw : reg.arithmetic = .wrapping) (s : Source α) (fits : Bool)
    (m : Misfit) : (s.checkTotal fits m).perform reg = (.ok (), reg) := by
  unfold checkTotal
  rw [Action.perform_bind_ok (Action.perform_get reg), hw]
  cases fits <;> cases s.access <;> rfl

theorem perform_settle (hw : reg.arithmetic = .wrapping) (s : Source α) (h : Histogram α)
    (fits : Bool) (m : Misfit) :
    (s.settle h fits m).perform reg = (.ok (), reg.setContents s.bag h) := by
  unfold settle
  rw [Action.perform_bind_ok (Action.perform_get reg),
    Action.perform_bind_ok (perform_replace s _ _),
    Action.perform_bind_ok (perform_checkTotal (by exact hw) s fits m), perform_replace,
    Registry.setContents_setContents]

end Source

end OrderedBag
