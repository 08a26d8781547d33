import OrderedBag.Entry
import OrderedBag.Failure

/-!
# Totals

A total is a number of sixty-four bits, like a count. Where a sum or a difference of totals would be
out of range, it is either a failure or wraps around.

* `wrap` — what is left of a number that is too large
* `Arithmetic.sum` — the number of occurrences in a list of entries
-/

namespace OrderedBag

variable {α : Type}

/-- What becomes of a total that would be out of range. -/
inductive Arithmetic
  /-- The operation fails. -/
  | checked
  /-- The total wraps around. -/
  | wrapping
  deriving DecidableEq

/-- A number that has wrapped around as often as it must to be in range. -/
def wrap (n : Nat) : Nat :=
  n % (maxCount + 1)

/-- The difference of two totals, which wraps around below zero. -/
def wrapSub (m n : Nat) : Nat :=
  if n ≤ m then m - n else m + (maxCount + 1) - n

/-- The number of occurrences in a list of entries, added up. -/
def Arithmetic.sum (es : List (Entry α)) : Arithmetic → Except Failure Nat
  | checked =>
    if totalCount es ≤ maxCount then .ok (totalCount es) else .error (@Failure.countOverflow .sum)
  | wrapping => .ok (wrap (totalCount es))

theorem wrap_of_le {n : Nat} (h : n ≤ maxCount) : wrap n = n :=
  Nat.mod_eq_of_lt (Nat.lt_succ_of_le h)

theorem wrap_le (n : Nat) : wrap n ≤ maxCount :=
  Nat.le_of_lt_succ (Nat.mod_lt _ (Nat.succ_pos _))

@[simp] theorem wrap_zero : wrap 0 = 0 := rfl

/-- It makes no difference whether a number wraps around before something is added. -/
@[simp] theorem wrap_wrap_add (m n : Nat) : wrap (wrap m + n) = wrap (m + n) :=
  Nat.mod_add_mod _ _ _

/-- What is subtracted from a sum that has wrapped around is gone from the sum. -/
theorem wrapSub_wrap_add (m : Nat) {n : Nat} (hn : n ≤ maxCount) :
    wrapSub (wrap (m + n)) n = wrap m := by
  unfold wrapSub wrap maxCount at *
  split <;> omega

end OrderedBag
