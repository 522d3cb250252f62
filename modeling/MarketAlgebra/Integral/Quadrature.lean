/-!
# Adaptive Simpson quadrature

A function is integrated over an interval by Simpson's rule on panels.  A panel is halved as long as
the estimate of its two halves differs too much from its own, and then each half may have half of
the error.  The estimate of a panel that is not halved further is corrected by a fifteenth of that
difference.  A function that is undefined at a sample point has no integral.
-/

namespace MarketAlgebra

namespace Quadrature

/-- An interval with the values of a function at both ends and in the middle. -/
structure Panel where
  /-- The left end. -/
  left : Float
  /-- The right end. -/
  right : Float
  /-- The value at the left end. -/
  atLeft : Float
  /-- The value in the middle. -/
  atMiddle : Float
  /-- The value at the right end. -/
  atRight : Float

/-- The estimate of Simpson's rule. -/
def Panel.simpson (p : Panel) : Float :=
  (p.right - p.left) / 6 * (p.atLeft + 4 * p.atMiddle + p.atRight)

/-- The integral over a panel, which may be halved `depth` times. -/
def refine (f : Float → Option Float) (depth : Nat) (tolerance : Float) (p : Panel)
    (whole : Float) : Option Float := do
  let m := (p.left + p.right) / 2
  let left : Panel := ⟨p.left, m, p.atLeft, ← f ((p.left + m) / 2), p.atMiddle⟩
  let right : Panel := ⟨m, p.right, p.atMiddle, ← f ((m + p.right) / 2), p.atRight⟩
  let refined := left.simpson + right.simpson
  let error := (refined - whole) / 15
  match depth with
  | 0 => return refined + error
  | depth + 1 =>
    if error.abs < tolerance then return refined + error
    else
      let l ← refine f depth (tolerance / 2) left left.simpson
      let r ← refine f depth (tolerance / 2) right right.simpson
      return l + r

end Quadrature

open Quadrature in
/-- The integral of a function from `a` to `b`. -/
def adaptiveSimpson (f : Float → Option Float) (a b tolerance : Float) (depth : Nat) :
    Option Float := do
  let fa ← f a
  let fb ← f b
  let fm ← f ((a + b) / 2)
  let p : Panel := ⟨a, b, fa, fm, fb⟩
  refine f depth tolerance p p.simpson

end MarketAlgebra
