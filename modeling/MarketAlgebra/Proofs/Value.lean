import Mathlib.Analysis.SpecialFunctions.Pow.Real
import Mathlib.Analysis.SpecialFunctions.Trigonometric.Basic
import MarketAlgebra.Expr.Basic

/-!
# The exact value of an expression

An expression has an exact real value where the variables have real values, or it has none.
`Expr.real` follows the operations of the reals, which are total, and `Expr.Defined` says where
its result counts: no divisor is zero, no logarithm is taken of a number that is not positive, no
tangent at a pole, and every power is one of the reals (`PowDefined`).  An undefined part makes the
whole undefined.

`Expr.HasValue` joins the two, and `Expr.Keeps` compares two expressions: wherever the first one
has a value, the second one has the same.  It is reflexive, transitive and compatible with every
constructor, so a law about one operation is a single step between two trees.
-/

namespace MarketAlgebra

/-! ## Powers of reals -/

/-- Where a power of reals is defined.  Zero has no negative powers and a negative number none but
those with an integer exponent.  The power with exponent zero is `1`, also of zero. -/
def PowDefined (x y : ℝ) : Prop :=
  0 < x ∨ (x = 0 ∧ 0 ≤ y) ∨ (x < 0 ∧ ∃ n : ℤ, y = n)

theorem PowDefined.of_pos {x : ℝ} (hx : 0 < x) (y : ℝ) : PowDefined x y := .inl hx

/-- A power with an integer exponent is defined unless it is a negative power of zero. -/
theorem powDefined_int_iff {x : ℝ} {n : ℤ} : PowDefined x n ↔ (n < 0 → x ≠ 0) := by
  constructor
  · rintro (hx | ⟨-, hn⟩ | ⟨hx, -⟩) hneg
    · exact hx.ne'
    · exact absurd (Int.cast_nonneg_iff.1 hn) (not_le.2 hneg)
    · exact hx.ne
  · intro h
    rcases lt_trichotomy x 0 with hx | hx | hx
    · exact .inr (.inr ⟨hx, n, rfl⟩)
    · exact .inr (.inl ⟨hx, Int.cast_nonneg_iff.2 (not_lt.1 fun hn => h hn hx)⟩)
    · exact .inl hx

/-! ## Values -/

/-- The real function that a name stands for. -/
noncomputable def Fn.real : Fn → ℝ → ℝ
  | .sin => Real.sin
  | .cos => Real.cos
  | .tan => Real.tan
  | .exp => Real.exp
  | .log => Real.log

/-- Where a function has a value. -/
def Fn.DefinedAt : Fn → ℝ → Prop
  | .tan, x => Real.cos x ≠ 0
  | .log, x => 0 < x
  | _, _ => True

namespace Expr

/-- The value of an expression under the total operations of the reals. -/
noncomputable def real (s : String → ℝ) : Expr → ℝ
  | .var x => s x
  | .const c => c
  | .add a b => a.real s + b.real s
  | .sub a b => a.real s - b.real s
  | .mul a b => a.real s * b.real s
  | .div a b => a.real s / b.real s
  | .pow a b => a.real s ^ b.real s
  | .neg a => -a.real s
  | .call f a => f.real (a.real s)

/-- Whether every operation in the expression is applied where it is defined. -/
def Defined (s : String → ℝ) : Expr → Prop
  | .var _ | .const _ => True
  | .add a b | .sub a b | .mul a b => a.Defined s ∧ b.Defined s
  | .div a b => a.Defined s ∧ b.Defined s ∧ b.real s ≠ 0
  | .pow a b => a.Defined s ∧ b.Defined s ∧ PowDefined (a.real s) (b.real s)
  | .neg a => a.Defined s
  | .call f a => a.Defined s ∧ f.DefinedAt (a.real s)

/-- The expression has the value `v` where the variables have the values `s`. -/
def HasValue (s : String → ℝ) (e : Expr) (v : ℝ) : Prop := e.Defined s ∧ e.real s = v

/-- Wherever the first expression has a value, the second one has the same. -/
def Keeps (s : String → ℝ) (e d : Expr) : Prop := e.Defined s → d.HasValue s (e.real s)

section

variable {s : String → ℝ} {a b c d e : Expr}

theorem Defined.hasValue (h : e.Defined s) : e.HasValue s (e.real s) := ⟨h, rfl⟩

/-- An expression has one value at most. -/
theorem HasValue.unique {v w : ℝ} (hv : e.HasValue s v) (hw : e.HasValue s w) : v = w :=
  hv.2.symm.trans hw.2

theorem Keeps.hasValue {v : ℝ} (h : Keeps s e d) (hv : e.HasValue s v) : d.HasValue s v := by
  obtain ⟨he, rfl⟩ := hv
  exact h he

/-- Two expressions keep the value of each other exactly when they have the same values. -/
theorem keeps_and_keeps_iff :
    Keeps s e d ∧ Keeps s d e ↔ ∀ v, e.HasValue s v ↔ d.HasValue s v := by
  constructor
  · rintro ⟨hed, hde⟩ v
    exact ⟨hed.hasValue, hde.hasValue⟩
  · intro h
    exact ⟨fun he => (h _).1 he.hasValue, fun hd => (h _).2 hd.hasValue⟩

/-! ## One step and many -/

theorem Keeps.refl (s : String → ℝ) (e : Expr) : Keeps s e e := Defined.hasValue

theorem Keeps.trans (h : Keeps s e d) (h' : Keeps s d c) : Keeps s e c :=
  fun he => h'.hasValue (h he)

/-- Expressions with the same value keep the value of each other. -/
theorem Keeps.of_real_eq (hd : e.Defined s → d.Defined s) (hr : d.real s = e.real s) :
    Keeps s e d :=
  fun he => ⟨hd he, hr⟩

/-! ## Every constructor keeps what its parts keep -/

theorem Keeps.add (ha : Keeps s a c) (hb : Keeps s b d) : Keeps s (.add a b) (.add c d) := by
  rintro ⟨da, db⟩
  obtain ⟨dc, hc⟩ := ha da
  obtain ⟨dd, hd⟩ := hb db
  exact ⟨⟨dc, dd⟩, congrArg₂ (· + ·) hc hd⟩

theorem Keeps.sub (ha : Keeps s a c) (hb : Keeps s b d) : Keeps s (.sub a b) (.sub c d) := by
  rintro ⟨da, db⟩
  obtain ⟨dc, hc⟩ := ha da
  obtain ⟨dd, hd⟩ := hb db
  exact ⟨⟨dc, dd⟩, congrArg₂ (· - ·) hc hd⟩

theorem Keeps.mul (ha : Keeps s a c) (hb : Keeps s b d) : Keeps s (.mul a b) (.mul c d) := by
  rintro ⟨da, db⟩
  obtain ⟨dc, hc⟩ := ha da
  obtain ⟨dd, hd⟩ := hb db
  exact ⟨⟨dc, dd⟩, congrArg₂ (· * ·) hc hd⟩

theorem Keeps.div (ha : Keeps s a c) (hb : Keeps s b d) : Keeps s (.div a b) (.div c d) := by
  rintro ⟨da, db, hne⟩
  obtain ⟨dc, hc⟩ := ha da
  obtain ⟨dd, hd⟩ := hb db
  exact ⟨⟨dc, dd, hd ▸ hne⟩, congrArg₂ (· / ·) hc hd⟩

theorem Keeps.pow (ha : Keeps s a c) (hb : Keeps s b d) : Keeps s (.pow a b) (.pow c d) := by
  rintro ⟨da, db, hp⟩
  obtain ⟨dc, hc⟩ := ha da
  obtain ⟨dd, hd⟩ := hb db
  exact ⟨⟨dc, dd, by rwa [hc, hd]⟩, congrArg₂ (· ^ ·) hc hd⟩

theorem Keeps.neg (ha : Keeps s a c) : Keeps s (.neg a) (.neg c) := by
  intro da
  obtain ⟨dc, hc⟩ := ha da
  exact ⟨dc, congrArg (- ·) hc⟩

theorem Keeps.call (f : Fn) (ha : Keeps s a c) : Keeps s (.call f a) (.call f c) := by
  rintro ⟨da, hf⟩
  obtain ⟨dc, hc⟩ := ha da
  exact ⟨⟨dc, hc ▸ hf⟩, congrArg f.real hc⟩

/-! ## Constants -/

@[simp] theorem real_const (q : Rat) : (Expr.const q).real s = q := rfl

@[simp] theorem defined_const (q : Rat) : (Expr.const q).Defined s := trivial

@[simp] theorem real_zero : Expr.zero.real s = 0 := by simp [zero]

@[simp] theorem real_one : Expr.one.real s = 1 := by simp [one]

@[simp] theorem defined_zero : Expr.zero.Defined s := trivial

@[simp] theorem defined_one : Expr.one.Defined s := trivial

theorem real_of_isZero (h : e.isZero = true) : e.real s = 0 := by
  rw [isZero_iff.1 h]
  simp

theorem real_of_isOne (h : e.isOne = true) : e.real s = 1 := by
  rw [isOne_iff.1 h]
  simp

theorem eq_const_of_constant? {q : Rat} (h : e.constant? = some q) : e = .const q := by
  cases e with
  | const c => simpa [constant?] using h
  | _ => simp [constant?] at h

/-! ## Integer powers -/

/-- The value of a power whose exponent is an integer constant. -/
theorem real_pow_const_int (n : ℤ) :
    (Expr.pow e (.const (n : Rat))).real s = e.real s ^ n := by
  simp only [real, Rat.cast_intCast]
  exact Real.rpow_intCast _ _

theorem defined_pow_const_int_iff {n : ℤ} :
    (Expr.pow e (.const (n : Rat))).Defined s ↔ e.Defined s ∧ (n < 0 → e.real s ≠ 0) := by
  simp only [Defined, real, Rat.cast_intCast, true_and, powDefined_int_iff]

end

/-! ## Expressions with the same values -/

/-- The two expressions have the same values, whatever the values of the variables are. -/
def Same (e d : Expr) : Prop := ∀ s v, e.HasValue s v ↔ d.HasValue s v

section

variable {a b c d e : Expr}

theorem same_iff_keeps : Same e d ↔ ∀ s, Keeps s e d ∧ Keeps s d e := by
  simp only [Same, keeps_and_keeps_iff]

/-- Expressions that are defined together and have equal values there. -/
theorem Same.of_real_eq (hd : ∀ s, e.Defined s ↔ d.Defined s)
    (hr : ∀ s, e.real s = d.real s) : Same e d :=
  fun s _ => and_congr (hd s) (by rw [hr s])

theorem Same.refl (e : Expr) : Same e e := fun _ _ => Iff.rfl

theorem Same.symm (h : Same e d) : Same d e := fun s v => (h s v).symm

theorem Same.trans (h : Same e d) (h' : Same d c) : Same e c :=
  fun s v => (h s v).trans (h' s v)

theorem Same.add (ha : Same a c) (hb : Same b d) : Same (.add a b) (.add c d) := by
  rw [same_iff_keeps] at ha hb ⊢
  exact fun s => ⟨(ha s).1.add (hb s).1, (ha s).2.add (hb s).2⟩

theorem Same.sub (ha : Same a c) (hb : Same b d) : Same (.sub a b) (.sub c d) := by
  rw [same_iff_keeps] at ha hb ⊢
  exact fun s => ⟨(ha s).1.sub (hb s).1, (ha s).2.sub (hb s).2⟩

theorem Same.mul (ha : Same a c) (hb : Same b d) : Same (.mul a b) (.mul c d) := by
  rw [same_iff_keeps] at ha hb ⊢
  exact fun s => ⟨(ha s).1.mul (hb s).1, (ha s).2.mul (hb s).2⟩

theorem Same.div (ha : Same a c) (hb : Same b d) : Same (.div a b) (.div c d) := by
  rw [same_iff_keeps] at ha hb ⊢
  exact fun s => ⟨(ha s).1.div (hb s).1, (ha s).2.div (hb s).2⟩

theorem Same.pow (ha : Same a c) (hb : Same b d) : Same (.pow a b) (.pow c d) := by
  rw [same_iff_keeps] at ha hb ⊢
  exact fun s => ⟨(ha s).1.pow (hb s).1, (ha s).2.pow (hb s).2⟩

theorem Same.neg (ha : Same a c) : Same (.neg a) (.neg c) := by
  rw [same_iff_keeps] at ha ⊢
  exact fun s => ⟨(ha s).1.neg, (ha s).2.neg⟩

theorem Same.call (f : Fn) (ha : Same a c) : Same (.call f a) (.call f c) := by
  rw [same_iff_keeps] at ha ⊢
  exact fun s => ⟨(ha s).1.call f, (ha s).2.call f⟩

end

end Expr

end MarketAlgebra
