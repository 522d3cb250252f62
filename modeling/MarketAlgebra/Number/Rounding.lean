/-!
# Rounding a quotient

Three places of the library replace an exact quotient of naturals by an integer: the conversion of
a rational to a binary floating-point number, the search for the shortest decimal of such a number,
and amounts with a fixed count of decimal places.  They differ only in what happens to a quotient
that lies halfway between two integers, so that choice is a parameter.
-/

namespace MarketAlgebra

/-- Where a quotient goes that lies halfway between two integers. -/
inductive Tie where
  /-- To the even neighbour. -/
  | toEven
  /-- To the larger neighbour. -/
  | up
deriving DecidableEq, Repr

/-- The integer nearest to `n / d`, for a positive `d`. -/
def roundDiv (tie : Tie) (n d : Nat) : Nat :=
  let q := n / d
  let r := n % d
  if 2 * r < d then q
  else if d < 2 * r then q + 1
  else
    match tie with
    | .toEven => q + q % 2
    | .up => q + 1

/-- The rounded quotient is one of the two integers around the exact one. -/
theorem roundDiv_eq_or (tie : Tie) (n d : Nat) :
    roundDiv tie n d = n / d ∨ roundDiv tie n d = n / d + 1 := by
  unfold roundDiv
  rcases Nat.mod_two_eq_zero_or_one (n / d) with h | h <;> cases tie <;> grind

/-- A quotient that is an integer stays what it is. -/
theorem roundDiv_mul_right (tie : Tie) (q : Nat) {d : Nat} (hd : 0 < d) :
    roundDiv tie (q * d) d = q := by
  simp [roundDiv, Nat.mul_div_cancel q hd, hd]

example : roundDiv .toEven 5 2 = 2 ∧ roundDiv .up 5 2 = 3 ∧ roundDiv .toEven 7 2 = 4 := by decide

end MarketAlgebra
