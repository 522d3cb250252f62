/-!
# Expressions

An expression is a tree of variables, rational constants, the five arithmetic operations, negation
and the five named functions.  A tree stands as it was built: nothing is simplified, a constant may
be negative, and a variable may have any name.  A square root is the power with exponent `1/2`
(`Expr.sqrt`).
-/

namespace MarketAlgebra

/-- The functions that are written with their name and an argument in parentheses. -/
inductive Fn where
  | sin
  | cos
  | tan
  | exp
  | log
deriving DecidableEq, Hashable, Repr

/-- An expression with exact rational constants. -/
inductive Expr where
  /-- A variable. -/
  | var (name : String)
  /-- A rational constant. -/
  | const (value : Rat)
  /-- A sum. -/
  | add (left right : Expr)
  /-- A difference. -/
  | sub (left right : Expr)
  /-- A product. -/
  | mul (left right : Expr)
  /-- A quotient. -/
  | div (numer denom : Expr)
  /-- A power. -/
  | pow (base exponent : Expr)
  /-- A negation. -/
  | neg (arg : Expr)
  /-- The value of a named function. -/
  | call (fn : Fn) (arg : Expr)
deriving DecidableEq, Hashable, Repr

namespace Expr

/-! ## Constants -/

/-- The constant `0`. -/
def zero : Expr := .const 0

/-- The constant `1`. -/
def one : Expr := .const 1

/-- An integer constant. -/
def int (n : Int) : Expr := .const n

/-- The square root of an expression, as the power with exponent `1/2`. -/
def sqrt (arg : Expr) : Expr := .pow arg (.const (1 / 2))

/-- The value of a constant; other expressions have none, even when no variable occurs in them. -/
def constant? : Expr → Option Rat
  | .const c => some c
  | _ => none

/-- Whether the expression is the constant `0`. -/
def isZero (e : Expr) : Bool := e.constant? == some 0

/-- Whether the expression is the constant `1`. -/
def isOne (e : Expr) : Bool := e.constant? == some 1

@[simp] theorem isZero_iff {e : Expr} : e.isZero = true ↔ e = .const 0 := by
  cases e <;> simp [isZero, constant?]

@[simp] theorem isOne_iff {e : Expr} : e.isOne = true ↔ e = .const 1 := by
  cases e <;> simp [isOne, constant?]

/-! ## Variables -/

/-- Whether a variable occurs in the expression. -/
def mentions (x : String) : Expr → Bool
  | .var name => name == x
  | .const _ => false
  | .add a b | .sub a b | .mul a b | .div a b | .pow a b => a.mentions x || b.mentions x
  | .neg a | .call _ a => a.mentions x

/-- The variables of an expression from left to right, each as often as it occurs. -/
def occurrences : Expr → List String
  | .var name => [name]
  | .const _ => []
  | .add a b | .sub a b | .mul a b | .div a b | .pow a b => a.occurrences ++ b.occurrences
  | .neg a | .call _ a => a.occurrences

/-- An expression mentions exactly the variables that are listed for it. -/
theorem mentions_iff_mem_occurrences {x : String} {e : Expr} :
    e.mentions x = true ↔ x ∈ e.occurrences := by
  induction e with
  | var name =>
    simp only [mentions, occurrences, beq_iff_eq, List.mem_singleton]
    exact eq_comm
  | const c => simp [mentions, occurrences]
  | add a b iha ihb | sub a b iha ihb | mul a b iha ihb | div a b iha ihb | pow a b iha ihb =>
    simp [mentions, occurrences, iha, ihb]
  | neg a ih | call f a ih => simp [mentions, occurrences, ih]

/-- The expression with every occurrence of a variable replaced. -/
def substitute (e : Expr) (x : String) (replacement : Expr) : Expr :=
  match e with
  | .var name => if name = x then replacement else .var name
  | .const c => .const c
  | .add a b => .add (a.substitute x replacement) (b.substitute x replacement)
  | .sub a b => .sub (a.substitute x replacement) (b.substitute x replacement)
  | .mul a b => .mul (a.substitute x replacement) (b.substitute x replacement)
  | .div a b => .div (a.substitute x replacement) (b.substitute x replacement)
  | .pow a b => .pow (a.substitute x replacement) (b.substitute x replacement)
  | .neg a => .neg (a.substitute x replacement)
  | .call f a => .call f (a.substitute x replacement)

/-- Replacing a variable that does not occur changes nothing. -/
theorem substitute_of_not_mentions {x : String} {r e : Expr} (h : e.mentions x = false) :
    e.substitute x r = e := by
  induction e with
  | var name => simp_all [mentions, substitute]
  | const c => rfl
  | add a b iha ihb | sub a b iha ihb | mul a b iha ihb | div a b iha ihb | pow a b iha ihb =>
    simp_all [mentions, substitute]
  | neg a ih | call f a ih => simp_all [mentions, substitute]

/-! ## Size -/

/-- The number of nodes of the tree. -/
def size : Expr → Nat
  | .var _ | .const _ => 1
  | .add a b | .sub a b | .mul a b | .div a b | .pow a b => a.size + b.size + 1
  | .neg a | .call _ a => a.size + 1

end Expr

end MarketAlgebra
