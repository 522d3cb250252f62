import MarketAlgebra.Equation
import MarketAlgebra.Proofs.RationalFunction
import MarketAlgebra.Proofs.Roots.Real

/-!
# The solutions of an equation

The list of solutions has one entry for every real root of the reduced numerator, as long as its
approximations are `Faithful`: none of them is one of the exact roots, and none is a zero of the
denominator.  Otherwise an entry is lost, because an approximation is compared and is tried in the
denominator as if it were the root itself.
-/

namespace MarketAlgebra

open Polynomial

variable {f : RationalFunction} {left right : Expr} {x : String} {roots : List Expr}

/-- Whether an entry passes the denominator. -/
def Allowed (f : RationalFunction) (e : Expr) : Bool :=
  (e.constant?.map fun c => f.denom.eval c != 0).getD true

/-- No approximation of a root is an exact root or a zero of the denominator. -/
def Faithful (f : RationalFunction) : Prop :=
  ∀ a ∈ Roots.approximations f.numer,
    .const a ∉ Roots.exactRoots f.numer ∧ f.denom.eval a ≠ 0

instance (f : RationalFunction) : Decidable (Faithful f) :=
  inferInstanceAs (Decidable (∀ a ∈ Roots.approximations f.numer,
    .const a ∉ Roots.exactRoots f.numer ∧ f.denom.eval a ≠ 0))

theorem allowed_const_iff (a : Rat) : Allowed f (.const a) = true ↔ f.denom.eval a ≠ 0 := by
  simp [Allowed, Expr.constant?]

/-- An exact root is never a zero of the denominator. -/
theorem allowed_of_mem_exactRoots
    (hcoprime : IsCoprime f.numer.toPolynomial f.denom.toPolynomial)
    (hne : f.numer.toPolynomial ≠ 0) {e : Expr} (he : e ∈ Roots.exactRoots f.numer) :
    Allowed f e = true := by
  have hroot := (Roots.exact_exactRoots hne).isRoot e he
  rw [Allowed]
  cases hc : e.constant? with
  | none => rfl
  | some c =>
    obtain rfl := Expr.eq_const_of_constant? hc
    rw [Expr.value_const] at hroot
    have hdenom := RationalFunction.eval_denom_ne_zero hcoprime hroot
    rw [Poly.eval_real_ratCast, Rat.cast_ne_zero] at hdenom
    simpa using hdenom

/-- The approximations are faithful when the entries are distinct and all of them pass. -/
theorem faithful_iff (hcoprime : IsCoprime f.numer.toPolynomial f.denom.toPolynomial)
    (hne : f.numer.toPolynomial ≠ 0) :
    Faithful f ↔ (Roots.listed f.numer).Nodup ∧
      ∀ e ∈ Roots.listed f.numer, Allowed f e = true := by
  rw [Roots.nodup_listed_iff hne]
  constructor
  · intro h
    refine ⟨fun a ha => (h a ha).1, fun e he => ?_⟩
    rcases List.mem_append.1 he with he | he
    · exact allowed_of_mem_exactRoots hcoprime hne he
    · obtain ⟨a, ha, rfl⟩ := List.mem_map.1 he
      exact (allowed_const_iff a).2 (h a ha).2
  · rintro ⟨hexact, hallowed⟩ a ha
    refine ⟨hexact a ha, (allowed_const_iff a).1 (hallowed _ ?_)⟩
    exact List.mem_append_right _ (List.mem_map_of_mem ha)

/-! ## What is returned -/

theorem mapError_eq_ok_iff {α ε ε' : Type} {f : ε → ε'} {x : Except ε α} {a : α} :
    x.mapError f = .ok a ↔ x = .ok a := by
  cases x with
  | error e => exact iff_of_false nofun nofun
  | ok b => exact ⟨fun h => congrArg _ (Except.ok.inj h), fun h => congrArg _ (Except.ok.inj h)⟩

/-- Evaluating the entries of a list keeps them and gives each one its value. -/
theorem of_mapM {α β ε : Type} {g : α → Except ε β} {as : List α} {bs : List (α × β)}
    (h : (as.mapM fun a => do let b ← g a; return (a, b)) = .ok bs) :
    bs.map (·.1) = as ∧ ∀ p ∈ bs, g p.1 = .ok p.2 := by
  induction as generalizing bs with
  | nil =>
    rw [List.mapM_nil] at h
    obtain rfl := Except.ok.inj h
    exact ⟨rfl, nofun⟩
  | cons a as ih =>
    rw [List.mapM_cons, bind_eq_ok_iff] at h
    obtain ⟨pair, hpair, h⟩ := h
    obtain ⟨b, hvalue, hb⟩ := bind_eq_ok_iff.1 hpair
    obtain ⟨rest, hrest, h⟩ := bind_eq_ok_iff.1 h
    obtain rfl := Except.ok.inj hb
    obtain rfl := Except.ok.inj h
    obtain ⟨hmap, hvalues⟩ := ih hrest
    exact ⟨by rw [List.map_cons, hmap], List.forall_mem_cons.2 ⟨hvalue, hvalues⟩⟩

/-- A list is evaluated when each of its entries is. -/
theorem mapM_map_eq_ok {α β γ ε : Type} {g : α → Except ε β} {entry : γ → α} {value : γ → β}
    {ks : List γ} (h : ∀ k ∈ ks, g (entry k) = .ok (value k)) :
    ((ks.map entry).mapM fun a => do let b ← g a; return (a, b)) =
      .ok (ks.map fun k => (entry k, value k)) := by
  induction ks with
  | nil => rfl
  | cons k ks ih =>
    obtain ⟨hk, hks⟩ := List.forall_mem_cons.1 h
    rw [List.map_cons, List.mapM_cons, ih hks, hk]
    rfl

section

variable (hsolve : solve left right x = .ok roots)
  (hf : RationalFunction.ofExpr? x (simplify (.sub left right)) = some f)
  (hne : f.numer.toPolynomial ≠ 0)

include hsolve hf hne

/-- The entries that pass the denominator, sorted by value and without repetitions. -/
theorem solve_eq : ∃ valued : List (Expr × Float),
      valued.map (·.1) = (Roots.realRoots f.numer).filter (Allowed f) ∧
      (∀ p ∈ valued, p.1.evaluate = .ok p.2) ∧
      roots = ((valued.mergeSort fun r s => Binary64.notAfter r.2 s.2).map (·.1)).eraseReps := by
  have hzero : ¬f.numer.isZero = true := mt Poly.isZero_iff.1 hne
  have hread := toOption_eq_some_iff.1 hf
  simp only [solve, hread, if_neg hzero] at hsolve
  obtain ⟨valued, hvalued, hroots⟩ := bind_eq_ok_iff.1 hsolve
  obtain ⟨hmap, hvalues⟩ := of_mapM hvalued
  exact ⟨valued, hmap, fun p hp => mapError_eq_ok_iff.1 (hvalues p hp),
    (Except.ok.inj hroots).symm⟩

/-- The solutions are the entries that pass the denominator. -/
theorem mem_solve_iff {e : Expr} : e ∈ roots ↔ e ∈ Roots.listed f.numer ∧ Allowed f e = true := by
  obtain ⟨valued, hvalued, -, rfl⟩ := solve_eq hsolve hf hne
  rw [mem_eraseReps_mergeSort, hvalued, List.mem_filter, Roots.mem_realRoots hne]

/-- Distinct entries that all pass are put into another order. -/
theorem perm_solve (hnodup : (Roots.listed f.numer).Nodup)
    (hallowed : ∀ e ∈ Roots.listed f.numer, Allowed f e = true) :
    roots.Perm (Roots.listed f.numer) := by
  obtain ⟨valued, hvalued, -, rfl⟩ := solve_eq hsolve hf hne
  have hperm := Roots.perm_realRoots hne hnodup
  have hall : (Roots.realRoots f.numer).filter (Allowed f) = Roots.realRoots f.numer :=
    List.filter_eq_self.2 fun e he => hallowed e (hperm.mem_iff.1 he)
  rw [hall] at hvalued
  rw [← hvalued] at hperm
  exact (perm_eraseReps_mergeSort (hperm.nodup_iff.2 hnodup)).trans hperm

/-- The solutions come in the order of their approximations. -/
theorem pairwise_solve : roots.Pairwise fun d e => ∀ u v, d.evaluate = .ok u →
    e.evaluate = .ok v → Binary64.notAfter u v = true := by
  obtain ⟨valued, -, hvalues, rfl⟩ := solve_eq hsolve hf hne
  have hsorted : (valued.mergeSort fun r s => Binary64.notAfter r.2 s.2).Pairwise
      fun r s => Binary64.notAfter r.2 s.2 = true := by
    refine List.pairwise_mergeSort (fun p q r hpq hqr => ?_) (fun p q => ?_) valued
    · exact decide_eq_true ((of_decide_eq_true hpq).trans (of_decide_eq_true hqr))
    · rw [Bool.or_eq_true, Binary64.notAfter, Binary64.notAfter, decide_eq_true_iff,
        decide_eq_true_iff]
      exact le_total _ _
  refine (List.pairwise_map.2 (hsorted.imp_of_mem fun {p q} hp hq hle => ?_)).sublist
    (eraseReps_sublist _)
  intro u v hu hv
  obtain rfl := Except.ok.inj ((hvalues p (List.mem_mergeSort.1 hp)).symm.trans hu)
  obtain rfl := Except.ok.inj ((hvalues q (List.mem_mergeSort.1 hq)).symm.trans hv)
  exact hle

theorem length_solve_le : roots.length ≤ f.numer.realRoots.card := by
  obtain ⟨valued, hvalued, -, rfl⟩ := solve_eq hsolve hf hne
  refine length_eraseReps_mergeSort_le.trans ?_
  rw [← List.length_map (f := (·.1)), hvalued]
  exact (List.length_filter_le _ _).trans (Roots.length_realRoots_le hne)

end

/-- The solver gives every real root of the numerator its entry, exactly when the approximations are
faithful.  In any case the list is not too long, and it holds nothing but exact roots and
approximations. -/
theorem solve_roots_iff_faithful (hsolve : solve left right x = .ok roots)
    (hf : RationalFunction.ofExpr? x (simplify (.sub left right)) = some f)
    (hzero : f.numer.isZero = false) :
    (roots.Nodup ∧ roots.length = f.numer.realRoots.card ↔ Faithful f) ∧
      roots.length ≤ f.numer.realRoots.card ∧
      ∀ e ∈ roots, (∃ a ∈ f.numer.realRoots, ∀ s, e.HasValue s a) ∨
        ∃ a ∈ Roots.approximations f.numer, e = .const a := by
  have hne : f.numer.toPolynomial ≠ 0 := by
    rw [Ne, ← Poly.isZero_iff, hzero]
    exact Bool.false_ne_true
  have hcoprime := (RationalFunction.lowest_ofExpr? hf).isCoprime
  refine ⟨?_, length_solve_le hsolve hf hne, fun e he => ?_⟩
  · rw [faithful_iff hcoprime hne, ← Roots.length_listed hne]
    constructor
    · rintro ⟨hnodup, hlength⟩
      have hsub : roots ⊆ Roots.listed f.numer := fun e he => ((mem_solve_iff hsolve hf hne).1 he).1
      have hperm := (hnodup.subperm hsub).perm_of_length_le hlength.ge
      refine ⟨hperm.nodup hnodup, fun e he => ?_⟩
      exact ((mem_solve_iff hsolve hf hne).1 (hperm.mem_iff.2 he)).2
    · rintro ⟨hnodup, hallowed⟩
      have hperm := perm_solve hsolve hf hne hnodup hallowed
      exact ⟨hperm.nodup_iff.2 hnodup, hperm.length_eq⟩
  · rcases List.mem_append.1 ((mem_solve_iff hsolve hf hne).1 he).1 with he | he
    · have hexact := Roots.exact_exactRoots hne
      exact .inl ⟨e.value, (Poly.mem_realRoots hne).2 (hexact.isRoot e he), hexact.hasValue e he⟩
    · obtain ⟨a, ha, rfl⟩ := List.mem_map.1 he
      exact .inr ⟨a, ha, rfl⟩

/-! ## A hidden root -/

/-- A rational that narrowing gives for the cube root of two. -/
def nearCubeRoot : Rat := 363147518132658873 / 288230376151711744

/-- The quotient `(Q ^ 3 - 2) / (Q - nearCubeRoot)`. -/
def cubicQuotient : Expr :=
  .div (.sub (.pow (.var "Q") (.const 3)) (.const 2)) (.sub (.var "Q") (.const nearCubeRoot))

/-- The quotient in lowest terms. -/
def cubicFunction : RationalFunction := ⟨Poly.x.pow 3 - .const 2, .x - .const nearCubeRoot⟩

theorem ofExpr?_cubicQuotient :
    RationalFunction.ofExpr? "Q" (simplify (.sub cubicQuotient .zero)) = some cubicFunction := by
  have hsimple : simplify (.sub cubicQuotient .zero) =
      .div (.add (.pow (.var "Q") (.const 3)) (.const (-2)))
        (.add (.var "Q") (.const (-nearCubeRoot))) :=
    simplify_eq_of_step (by with_unfolding_all rfl) (by with_unfolding_all rfl)
  rw [hsimple]
  with_unfolding_all rfl

theorem isZero_cubicFunction : cubicFunction.numer.isZero = false := by with_unfolding_all rfl

/-- The approximation of the only root is a zero of the denominator, so no entry passes. -/
theorem solve_cubicQuotient : solve cubicQuotient .zero "Q" = .ok [] := by
  have hfilter : (Roots.realRoots cubicFunction.numer).filter (fun e =>
      (e.constant?.map fun c => cubicFunction.denom.eval c != 0).getD true) = [] := by
    with_unfolding_all rfl
  have hzero : ¬cubicFunction.numer.isZero = true := by
    rw [isZero_cubicFunction]
    exact Bool.false_ne_true
  have hread := toOption_eq_some_iff.1 ofExpr?_cubicQuotient
  simp only [solve, hread, if_neg hzero, hfilter]
  rw [List.mapM_nil, pure_bind, List.mergeSort_nil, List.map_nil, eraseReps_nil]
  rfl

/-- At the quotient, where the list is empty. -/
theorem solve_roots_iff_faithful_cubicQuotient :
    solve cubicQuotient .zero "Q" = .ok [] ∧
      RationalFunction.ofExpr? "Q" (simplify (.sub cubicQuotient .zero)) = some cubicFunction ∧
      cubicFunction.numer.isZero = false ∧ ¬Faithful cubicFunction ∧
      (([] : List Expr).Nodup ∧ ([] : List Expr).length = cubicFunction.numer.realRoots.card ↔
        Faithful cubicFunction) :=
  ⟨solve_cubicQuotient, ofExpr?_cubicQuotient, isZero_cubicFunction, by with_unfolding_all decide,
    (solve_roots_iff_faithful solve_cubicQuotient ofExpr?_cubicQuotient isZero_cubicFunction).1⟩

/-- The list is empty although the equation has a real solution. -/
theorem cubic_root_is_lost :
    solve cubicQuotient .zero "Q" = .ok [] ∧
      RationalFunction.ofExpr? "Q" (simplify (.sub cubicQuotient .zero)) = some cubicFunction ∧
      cubicFunction.numer.isZero = false ∧ cubicFunction.numer.realRoots.card = 1 := by
  refine ⟨solve_cubicQuotient, ofExpr?_cubicQuotient, isZero_cubicFunction, ?_⟩
  have hne : cubicFunction.numer.toPolynomial ≠ 0 := by
    rw [Ne, ← Poly.isZero_iff, isZero_cubicFunction]
    exact Bool.false_ne_true
  rw [← Roots.length_listed hne]
  with_unfolding_all rfl

end MarketAlgebra
