import MarketAlgebra.Poly.Content
import MarketAlgebra.Poly.Division

/-!
# Isolating real roots

The real roots of a square-free polynomial are separated with its Sturm chain: the polynomial, its
derivative, and then each time the negated remainder of the two before.  The number of sign changes
along the chain drops by the number of roots from one end of a half-open interval to the other
(`rootCount`).

An interval that holds all roots is halved until every part holds at most one (`isolate`).  Roots of
a polynomial with integer coefficients cannot be arbitrarily close together, and `isolationDepth`
bounds how often an interval has to be halved.  A part with one root is halved further until it is
narrow in relation to the root (`narrow`).
-/

namespace MarketAlgebra.Roots

/-! ## Counting roots -/

/-- The Sturm chain that starts with two polynomials. -/
def chain (p q : Poly) : List Poly :=
  if h : q.size = 0 then [p]
  else
    have : (-(p.divMod q).2).size < q.size :=
      Nat.lt_of_le_of_lt (Poly.size_neg_le _) (Poly.size_divMod_lt p h)
    p :: chain q (-(p.divMod q).2)
termination_by q.size

/-- The Sturm chain of a polynomial. -/
def sturmChain (p : Poly) : List Poly := chain p p.derivative

/-- The number of changes of sign in a list of rationals without zeros. -/
def signChanges : List Rat → Nat
  | a :: b :: rest => (if (0 < a) = (0 < b) then 0 else 1) + signChanges (b :: rest)
  | _ => 0

/-- The number of changes of sign along a chain at a point, zeros left out. -/
def signChangesAt (seq : List Poly) (a : Rat) : Nat :=
  signChanges ((seq.map (·.eval a)).filter (· != 0))

/-- The number of roots greater than `a` and at most `b`. -/
def rootCount (seq : List Poly) (a b : Rat) : Nat := signChangesAt seq a - signChangesAt seq b

/-! ## Halving intervals -/

/-- The point in the middle of an interval. -/
def midpoint (a b : Rat) : Rat := (a + b) / 2

/-- All roots lie strictly between this number and its negation. -/
def rootBound (p : Poly) : Rat :=
  p.terms.foldl (fun m t => if m < (t.2 / p.leading).abs then (t.2 / p.leading).abs else m) 0 + 1

/-- A bound on how often an interval that holds all roots has to be halved until every part holds at
most one.  For degree `n` and integer coefficients of `h` bits, the derivative at a root is bounded
from below because its product over all roots, the resultant with the derivative, is a nonzero
integer up to a power of the leading coefficient.  So two roots are further apart than
`2 ^ -(2 * (n + 1) ^ 2 * (h + 2))`, and the bound leaves room for the width of the interval. -/
def isolationDepth (p : Poly) : Nat :=
  let height := p.contentAndPrimitive.2.foldl (fun m c => max m c.natAbs) 0
  4 * ((p.size + 1) * (p.size + 1)) * (height.log2 + 3)

/-- The number of binary places to which a root is narrowed down. -/
def precisionBits : Nat := 56

/-- The largest number of halvings when a root is narrowed down. -/
def narrowingLimit : Nat := 512

/-- A rational close to the only root in an interval, or that root itself. -/
def narrowFrom (p : Poly) (seq : List Poly) : Nat → Rat → Rat → Rat
  | 0, a, b => midpoint a b
  | steps + 1, a, b =>
    let mid := midpoint a b
    if p.eval mid = 0 then mid
    else if b - a ≤ mkRat 1 (1 <<< precisionBits) * (1 + mid.abs) then mid
    else if rootCount seq a mid = 1 then narrowFrom p seq steps a mid
    else narrowFrom p seq steps mid b

/-- A rational close to the only root that is greater than `a` and at most `b`. -/
def narrow (p : Poly) (seq : List Poly) (a b : Rat) : Rat :=
  if p.eval b = 0 then b else narrowFrom p seq narrowingLimit a b

/-- A rational for every root that is greater than `a` and at most `b`, from left to right. -/
def isolate (p : Poly) (seq : List Poly) : Nat → Rat → Rat → List Rat
  | depth, a, b =>
    match rootCount seq a b, depth with
    | 0, _ => []
    | 1, _ => [narrow p seq a b]
    | _, 0 => []
    | _, depth + 1 =>
      let mid := midpoint a b
      isolate p seq depth a mid ++ isolate p seq depth mid b

/-- A rational for every real root of a square-free polynomial, in ascending order. -/
def isolated (p : Poly) : List Rat :=
  let bound := rootBound p
  (isolate p (sturmChain p) (isolationDepth p) (-bound) bound).mergeSort (· ≤ ·)

end MarketAlgebra.Roots
