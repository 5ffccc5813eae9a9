/-!
# Rounding quotients

A quotient of naturals goes to the nearest natural. Where two are equally near, the caller's
tie rule decides.
-/

namespace WireParity

/-- Which of two equally near neighbours is taken. -/
inductive Tie
  | even
  | up
deriving Repr, DecidableEq

/-- The natural nearest to `num / den`. -/
def roundDiv (tie : Tie) (num den : Nat) : Nat :=
  let below := num / den
  let rest := num % den
  if 2 * rest < den then below
  else if den < 2 * rest then below + 1
  else match tie with
    | .even => below + below % 2
    | .up => below + 1

/-- An exact quotient needs no rounding. -/
theorem roundDiv_mul_right (tie : Tie) (n : Nat) {den : Nat} (h : 0 < den) :
    roundDiv tie (n * den) den = n := by
  simp [roundDiv, Nat.mul_div_cancel n h, h]

end WireParity
