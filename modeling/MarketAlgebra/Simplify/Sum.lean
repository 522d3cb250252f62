import MarketAlgebra.Simplify.Product

/-!
# Sums in normal form

`Simplify.add` flattens both operands into signed terms, adds up the coefficients of like terms and
builds the sum anew.  Two terms are alike when they have the same sorted list of factors.  The
terms stand in the order of those lists, and the constant term comes last.  So the result depends
neither on the order of the terms nor on the order in which the table of coefficients holds them.
-/

namespace MarketAlgebra.Simplify

open MarketAlgebra.Expr

/-- The signed terms of a sum from left to right. -/
def terms : Expr → List Expr
  | .add a b => terms a ++ terms b
  | .sub a b => terms a ++ (terms b).map neg
  | .neg a => (terms a).map neg
  | e => [e]

/-- Lists of factors with the coefficients of their terms, each list once. -/
abbrev Coefficients := List (List Expr × Rat)

/-- The table with a coefficient added to that of a list of factors. -/
def addCoefficient (key : List Expr) (c : Rat) : Coefficients → Coefficients
  | [] => [(key, c)]
  | (k, d) :: table =>
    if k = key then (k, d + c) :: table else (k, d) :: addCoefficient key c table

/-- The table with one term added.  A term with coefficient zero is dropped. -/
def addTerm (table : Coefficients) (term : Expr) : Coefficients :=
  let (c, base) := split term
  if c = 0 then table else addCoefficient (Expr.sort (factors (collectPowers base))) c table

/-- The coefficients of all terms. -/
def coefficients (ts : List Expr) : Coefficients := ts.foldl addTerm []

/-- The sum of some terms from left to right. -/
def sum : List Expr → Expr
  | [] => zero
  | t :: ts => ts.foldl .add t

/-- The sum that a table of coefficients stands for. -/
def ofCoefficients (table : Coefficients) : Expr :=
  let constant := (table.lookup []).getD 0
  let rows := (table.filter fun r => !r.1.isEmpty && r.2 != 0).mergeSort
    fun r s => (Expr.compareLists r.1 s.1).isLE
  let ts := rows.map fun r => scaled r.2 (product r.1)
  sum (if constant = 0 then ts else ts ++ [.const constant])

/-- The sum of two expressions. -/
def add (x y : Expr) : Expr := ofCoefficients (coefficients (terms x ++ terms y))

/-- The difference of two expressions. -/
def sub (x y : Expr) : Expr := add x (neg y)

end MarketAlgebra.Simplify
