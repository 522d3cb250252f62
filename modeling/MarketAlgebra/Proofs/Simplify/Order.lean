import Mathlib.Algebra.Order.Ring.Rat
import Mathlib.Order.Compare
import MarketAlgebra.Expr.Order

/-!
# The order of expressions is linear

Comparing expressions is lawful: only equal expressions compare as equal, exchanging two expressions
reverses the result, and the order is transitive.  So sorting a list gives one result for all of its
permutations (`sort_eq_of_perm`), and the order of lists is linear as well.
-/

namespace MarketAlgebra

open Std

/-! ## Names and rationals -/

theorem compareChars_eq (cs ds : List Char) :
    compareChars cs ds = List.compareLex (compareOn Char.toNat) cs ds := by
  induction cs generalizing ds with
  | nil => cases ds <;> rfl
  | cons c cs ih =>
    cases ds with
    | nil => rfl
    | cons d ds =>
      rw [compareChars, ih, List.compareLex_cons_cons]
      rfl

instance lawfulEqCmp_toNat : LawfulEqCmp (compareOn Char.toNat) where
  eq_of_compare h := Char.toNat_inj.1 (LawfulEqCmp.eq_of_compare h)

theorem compareNames_eq (x y : String) :
    compareNames x y = List.compareLex (compareOn Char.toNat) x.toList y.toList :=
  compareChars_eq _ _

instance : TransCmp compareNames where
  eq_swap := by
    intro x y
    rw [compareNames_eq, compareNames_eq]
    exact OrientedCmp.eq_swap
  isLE_trans := by
    intro x y z hxy hyz
    rw [compareNames_eq] at *
    exact TransCmp.isLE_trans hxy hyz

instance : LawfulEqCmp compareNames where
  compare_self := by
    intro x
    rw [compareNames_eq]
    exact ReflCmp.compare_self
  eq_of_compare := by
    intro x y h
    rw [compareNames_eq] at h
    exact String.toList_injective (LawfulEqCmp.eq_of_compare h)

theorem compareRats_eq : compareRats = (compare : ℚ → ℚ → Ordering) := by
  funext c d
  rw [LinearOrder.compare_eq_compareOfLessAndEq]
  rfl

instance : TransCmp compareRats := compareRats_eq ▸ inferInstance

instance : LawfulEqCmp compareRats := compareRats_eq ▸ inferInstance

theorem Fn.place_injective : Function.Injective Fn.place := by
  intro f g h
  cases f <;> cases g <;> first | rfl | cases h

/-- Pairs are compared transitively where their parts are. -/
theorem then_isLE_trans {α : Type*} (cmp : α → α → Ordering) [OrientedCmp cmp] [LawfulEqCmp cmp]
    {a b c : α} {o₁ o₂ o₃ : Ordering}
    (hfirst : (cmp a b).isLE → (cmp b c).isLE → (cmp a c).isLE)
    (hsecond : o₁.isLE → o₂.isLE → o₃.isLE) (hab : ((cmp a b).then o₁).isLE)
    (hbc : ((cmp b c).then o₂).isLE) : ((cmp a c).then o₃).isLE := by
  rw [Ordering.isLE_then_iff_or] at *
  rcases hab with hab | ⟨hab, h₁⟩ <;> rcases hbc with hbc | ⟨hbc, h₂⟩
  · have hac := hfirst (Ordering.isLE_of_eq_lt hab) (Ordering.isLE_of_eq_lt hbc)
    refine (Ordering.isLE_iff_eq_lt_or_eq_eq.1 hac).imp_right fun heq => ?_
    obtain rfl := LawfulEqCmp.eq_of_compare heq
    rw [@OrientedCmp.eq_swap _ cmp, hbc] at hab
    cases hab
  · obtain rfl := LawfulEqCmp.eq_of_compare hbc
    exact .inl hab
  · obtain rfl := LawfulEqCmp.eq_of_compare hab
    exact .inl hbc
  · obtain rfl := LawfulEqCmp.eq_of_compare hab
    exact .inr ⟨hbc, hsecond h₁ h₂⟩

namespace Expr

variable {a b c : Expr} {es ds : List Expr}

/-! ## Comparing expressions -/

theorem compare_swap (a b : Expr) : a.compare b = (b.compare a).swap := by
  induction a generalizing b with
  | var x =>
    cases b with
    | var y => exact @OrientedCmp.eq_swap _ compareNames _ _ _
    | _ => rfl
  | const p =>
    cases b with
    | const q => exact @OrientedCmp.eq_swap _ compareRats _ _ _
    | _ => rfl
  | add a₁ a₂ ih₁ ih₂ | sub a₁ a₂ ih₁ ih₂ | mul a₁ a₂ ih₁ ih₂ | div a₁ a₂ ih₁ ih₂
  | pow a₁ a₂ ih₁ ih₂ =>
    cases b <;> first
      | exact (congrArg₂ Ordering.then (ih₁ _) (ih₂ _)).trans (Ordering.swap_then _ _).symm
      | rfl
  | neg a ih => cases b <;> first | exact ih _ | rfl
  | call f a ih =>
    cases b with
    | call g b =>
      rw [Expr.compare, Expr.compare, Ordering.swap_then, ih b]
      exact congrArg (Ordering.then · _) OrientedCmp.eq_swap
    | _ => rfl

theorem eq_of_compare_eq {a b : Expr} (h : a.compare b = .eq) : a = b := by
  induction a generalizing b with
  | var x =>
    cases b with
    | var y => exact congrArg _ (@LawfulEqCmp.eq_of_compare _ compareNames _ _ _ h)
    | _ => cases h
  | const p =>
    cases b with
    | const q => exact congrArg _ (@LawfulEqCmp.eq_of_compare _ compareRats _ _ _ h)
    | _ => cases h
  | add a₁ a₂ ih₁ ih₂ | sub a₁ a₂ ih₁ ih₂ | mul a₁ a₂ ih₁ ih₂ | div a₁ a₂ ih₁ ih₂
  | pow a₁ a₂ ih₁ ih₂ =>
    cases b <;> first
      | exact congrArg₂ _ (ih₁ (Ordering.then_eq_eq.1 h).1) (ih₂ (Ordering.then_eq_eq.1 h).2)
      | cases h
  | neg a ih => cases b <;> first | exact congrArg _ (ih h) | cases h
  | call f a ih =>
    cases b with
    | call g b =>
      obtain ⟨hplace, harg⟩ := Ordering.then_eq_eq.1 h
      exact congrArg₂ _ (Fn.place_injective (LawfulEqCmp.eq_of_compare hplace)) (ih harg)
    | _ => cases h

instance : OrientedCmp Expr.compare where
  eq_swap := compare_swap _ _

instance : LawfulEqCmp Expr.compare where
  eq_of_compare := eq_of_compare_eq

/-- Expressions of different kinds are compared by their kinds. -/
theorem compare_of_place_ne (h : a.place ≠ b.place) : a.compare b = compare a.place b.place := by
  cases a <;> cases b <;> first | rfl | exact absurd rfl h

theorem place_le_of_isLE (h : (a.compare b).isLE) : a.place ≤ b.place := by
  by_cases hplace : a.place = b.place
  · exact hplace.le
  · rw [compare_of_place_ne hplace] at h
    exact Nat.isLE_compare.1 h

/-- The order is transitive where two kinds occur. -/
theorem isLE_trans_of_place (h : ¬(a.place = b.place ∧ b.place = c.place))
    (hab : (a.compare b).isLE) (hbc : (b.compare c).isLE) : (a.compare c).isLE := by
  have hab' := place_le_of_isLE hab
  have hbc' := place_le_of_isLE hbc
  have hne : a.place ≠ c.place := fun hac => h (by omega)
  rw [compare_of_place_ne hne]
  exact Nat.isLE_compare.2 (hab'.trans hbc')

theorem compare_isLE_trans (hab : (a.compare b).isLE) (hbc : (b.compare c).isLE) :
    (a.compare c).isLE := by
  induction a generalizing b c with
  | var x =>
    by_cases hplace : (var x).place = b.place ∧ b.place = c.place
    · cases b with
      | var y =>
        cases c with
        | var z => exact @TransCmp.isLE_trans _ compareNames _ _ _ _ hab hbc
        | _ => cases hplace.2
      | _ => cases hplace.1
    · exact isLE_trans_of_place hplace hab hbc
  | const p =>
    by_cases hplace : (const p).place = b.place ∧ b.place = c.place
    · cases b with
      | const q =>
        cases c with
        | const r => exact @TransCmp.isLE_trans _ compareRats _ _ _ _ hab hbc
        | _ => cases hplace.2
      | _ => cases hplace.1
    · exact isLE_trans_of_place hplace hab hbc
  | add a₁ a₂ ih₁ ih₂ | sub a₁ a₂ ih₁ ih₂ | mul a₁ a₂ ih₁ ih₂ | div a₁ a₂ ih₁ ih₂
  | pow a₁ a₂ ih₁ ih₂ =>
    refine (em _).elim (fun hplace => ?_) fun hplace => isLE_trans_of_place hplace hab hbc
    cases b <;> first
      | cases hplace.1; done
      | cases c <;> first
        | cases hplace.2; done
        | exact then_isLE_trans Expr.compare ih₁ ih₂ hab hbc
  | neg a ih =>
    by_cases hplace : a.neg.place = b.place ∧ b.place = c.place
    · cases b with
      | neg b =>
        cases c with
        | neg c => exact ih hab hbc
        | _ => cases hplace.2
      | _ => cases hplace.1
    · exact isLE_trans_of_place hplace hab hbc
  | call f a ih =>
    by_cases hplace : (call f a).place = b.place ∧ b.place = c.place
    · cases b with
      | call g b =>
        cases c with
        | call h c =>
          exact then_isLE_trans compare TransCmp.isLE_trans ih hab hbc
        | _ => cases hplace.2
      | _ => cases hplace.1
    · exact isLE_trans_of_place hplace hab hbc

instance : TransCmp Expr.compare where
  isLE_trans := compare_isLE_trans

/-! ## Sorting -/

theorem notAfter_trans (hab : a.notAfter b = true) (hbc : b.notAfter c = true) :
    a.notAfter c = true :=
  compare_isLE_trans hab hbc

theorem notAfter_total (a b : Expr) : (a.notAfter b || b.notAfter a) = true := by
  rw [notAfter, notAfter, compare_swap b a, Ordering.isLE_swap]
  cases a.compare b <;> rfl

theorem notAfter_antisymm (hab : a.notAfter b = true) (hba : b.notAfter a = true) : a = b :=
  LawfulEqCmp.eq_of_compare (OrientedCmp.isLE_antisymm hab hba)

theorem pairwise_sort (es : List Expr) : (sort es).Pairwise fun a b => a.notAfter b = true :=
  @List.pairwise_mergeSort _ notAfter (fun _ _ _ => notAfter_trans) notAfter_total es

/-- A sorted list is the only one among its permutations. -/
theorem sort_eq_of_perm (h : es.Perm ds) : sort es = sort ds :=
  (((sort_perm es).trans h).trans (sort_perm ds).symm).eq_of_pairwise
    (fun _ _ _ _ => notAfter_antisymm) (pairwise_sort es) (pairwise_sort ds)

/-! ## Lists of expressions -/

theorem compareLists_eq : compareLists = List.compareLex Expr.compare := by
  funext es ds
  induction es generalizing ds with
  | nil => cases ds <;> rfl
  | cons e es ih =>
    cases ds with
    | nil => rfl
    | cons d ds => rw [compareLists, ih, List.compareLex_cons_cons]

instance : TransCmp compareLists := compareLists_eq ▸ inferInstance

instance : LawfulEqCmp compareLists := compareLists_eq ▸ inferInstance

end Expr

end MarketAlgebra
