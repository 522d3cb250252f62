import MarketAlgebra.Expr.Basic

/-!
# The order of expressions

Sums and products are rebuilt in a fixed order, so expressions are linearly ordered: variables come
first, then constants, sums, differences, products, quotients, powers, negations and function
values, and expressions of one kind are compared part by part, the left part first.  Names are
ordered by code points and constants by value.
-/

namespace MarketAlgebra

/-- The order of texts by the code points of their characters; a text comes before its
extensions. -/
def compareChars : List Char → List Char → Ordering
  | [], [] => .eq
  | [], _ :: _ => .lt
  | _ :: _, [] => .gt
  | c :: cs, d :: ds => (compare c.toNat d.toNat).then (compareChars cs ds)

/-- The order of names. -/
def compareNames (x y : String) : Ordering := compareChars x.toList y.toList

/-- The order of rationals. -/
def compareRats (x y : Rat) : Ordering :=
  if x < y then .lt else if x = y then .eq else .gt

namespace Fn

/-- The place of a function among the functions. -/
def place : Fn → Nat
  | .sin => 0
  | .cos => 1
  | .tan => 2
  | .exp => 3
  | .log => 4

end Fn

namespace Expr

/-- The place of the outermost kind among the kinds of expression. -/
def place : Expr → Nat
  | .var _ => 0
  | .const _ => 1
  | .add _ _ => 2
  | .sub _ _ => 3
  | .mul _ _ => 4
  | .div _ _ => 5
  | .pow _ _ => 6
  | .neg _ => 7
  | .call _ _ => 8

/-- The order of expressions. -/
protected def compare : Expr → Expr → Ordering
  | .var x, .var y => compareNames x y
  | .const c, .const d => compareRats c d
  | .add a b, .add c d => (a.compare c).then (b.compare d)
  | .sub a b, .sub c d => (a.compare c).then (b.compare d)
  | .mul a b, .mul c d => (a.compare c).then (b.compare d)
  | .div a b, .div c d => (a.compare c).then (b.compare d)
  | .pow a b, .pow c d => (a.compare c).then (b.compare d)
  | .neg a, .neg c => a.compare c
  | .call f a, .call g c => (compare f.place g.place).then (a.compare c)
  | x, y => compare x.place y.place

/-- Whether an expression comes before another one or equals it. -/
def notAfter (x y : Expr) : Bool := (x.compare y).isLE

/-- The expressions of a list in ascending order. -/
def sort (xs : List Expr) : List Expr := xs.mergeSort notAfter

theorem sort_perm (xs : List Expr) : (sort xs).Perm xs := List.mergeSort_perm xs notAfter

/-- The order of lists of expressions; a list comes before its extensions. -/
def compareLists : List Expr → List Expr → Ordering
  | [], [] => .eq
  | [], _ :: _ => .lt
  | _ :: _, [] => .gt
  | x :: xs, y :: ys => (x.compare y).then (compareLists xs ys)

/-- The distinct variables of an expression, in ascending order. -/
def freeVariables (e : Expr) : List String :=
  (e.occurrences.mergeSort fun x y => (compareNames x y).isLE).eraseReps

end Expr

end MarketAlgebra
