/-!
# Square roots of naturals

`floorSqrt` is the integer part of a square root.  `SurdForm.ofNat` writes a square root as a
natural times the square root of a smaller one, by pulling out square factors with small bases.
-/

namespace MarketAlgebra

/-- The integer part of the square root, two bits of the argument at a time. -/
def floorSqrt (n : Nat) : Nat :=
  if n = 0 then 0
  else
    let r := 2 * floorSqrt (n / 4)
    if (r + 1) * (r + 1) ≤ n then r + 1 else r
termination_by n
decreasing_by omega

/-- The integer part of a square root is its largest natural below. -/
theorem floorSqrt_mul_self_le_and_lt (n : Nat) :
    floorSqrt n * floorSqrt n ≤ n ∧ n < (floorSqrt n + 1) * (floorSqrt n + 1) := by
  fun_induction floorSqrt n with
  | case1 => simp
  | case2 n hn r hr ih =>
    refine ⟨hr, ?_⟩
    have h : n < 4 * ((floorSqrt (n / 4) + 1) * (floorSqrt (n / 4) + 1)) := by omega
    grind
  | case3 n hn r hr ih =>
    have h : 4 * (floorSqrt (n / 4) * floorSqrt (n / 4)) ≤ n := by omega
    grind

/-- The square root of a natural as `outside * sqrt inside`. -/
structure SurdForm where
  /-- The factor in front of the root. -/
  outside : Nat
  /-- The number under the root. -/
  inside : Nat
deriving DecidableEq, Repr

namespace SurdForm

/-- The largest base whose square is tried as a factor. -/
def trialLimit : Nat := 10000

/-- The same root with every factor `k ^ 2` pulled out. -/
def pull (k : Nat) (s : SurdForm) : SurdForm :=
  if h : 2 ≤ k ∧ 0 < s.inside ∧ s.inside % (k * k) = 0 then
    have : s.inside / (k * k) < s.inside :=
      Nat.div_lt_self h.2.1 (Nat.lt_of_lt_of_le (by decide) (Nat.mul_le_mul h.1 h.1))
    pull k ⟨s.outside * k, s.inside / (k * k)⟩
  else s
termination_by s.inside

/-- The same root with the square factors of bases from `k` to the limit pulled out, as far as the
square of the base does not exceed the number under the root. -/
def pullFrom (k : Nat) (s : SurdForm) : SurdForm :=
  if k ≤ trialLimit ∧ k * k ≤ s.inside then pullFrom (k + 1) (s.pull k) else s
termination_by trialLimit + 1 - k

/-- The square root of a natural.  Nothing is left under the root of a square. -/
def ofNat (n : Nat) : SurdForm :=
  let root := floorSqrt n
  if root * root = n then ⟨root, 1⟩ else pullFrom 2 ⟨1, n⟩

end SurdForm

end MarketAlgebra
