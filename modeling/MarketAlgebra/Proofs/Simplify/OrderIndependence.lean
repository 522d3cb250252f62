import MarketAlgebra.Proofs.Simplify.Collection

/-!
# Sums do not depend on any order

A sum is collected in a table of coefficients, and the factors of each of its terms in a table of
exponents.  Both tables are filled with entries: a product has one for each of its factors
(`exponentEntries`), and a term has one unless its coefficient is zero (`coefficientEntries`).  What
is read off a table only depends on what its entries amount to.

So a product may have its factors in any order and grouped in any way (`SameFactors`,
`SameTerm.coefficientEntries`), the terms of a sum may be in any order (`Rearranged`), and so may
the rows of the table of coefficients when the sum is built from it (`add_is_order_independent`).
-/

namespace MarketAlgebra.Simplify

open MarketAlgebra.Expr

variable {e f a b c d t u v : Expr} {es ts us : List Expr} {sign : Rat}

/-! ## The factors of a product -/

/-- The bases of a product with their exponents, one entry for each factor. -/
def exponentEntries (sign : Rat) : Expr → Exponents
  | .mul a b => exponentEntries sign a ++ exponentEntries sign b
  | .div a b => exponentEntries sign a ++ exponentEntries (-sign) b
  | .pow base (.const e) =>
    if e.isInt then [(base, e * sign)] else [(.pow base (.const e), sign)]
  | e => if e.isOne then [] else [(e, sign)]

theorem addFactors_eq_addEntries (sign : Rat) (e : Expr) (table : Exponents) :
    addFactors sign e table = addEntries (exponentEntries sign e) table := by
  induction e generalizing sign table with
  | mul a b iha ihb | div a b iha ihb =>
    rw [addFactors, exponentEntries, addEntries_append, iha, ihb]
  | pow base e _ _ =>
    cases e with
    | const c =>
      rw [addFactors, exponentEntries]
      split <;> exact addExponent_eq_addEntry _ _ _
    | _ => exact addExponent_eq_addEntry _ _ _
  | const c =>
    simp only [addFactors, exponentEntries]
    split
    · rfl
    · exact addExponent_eq_addEntry _ _ _
  | _ => exact addExponent_eq_addEntry _ _ _

theorem exponentEntries_of_isOne (h : e.isOne = true) : exponentEntries sign e = [] := by
  rw [isOne_iff] at h
  rw [h]
  rfl

theorem flatMap_exponentEntries_factors (sign : Rat) (e : Expr) :
    (factors e).flatMap (exponentEntries sign) = exponentEntries sign e := by
  induction e with
  | mul a b iha ihb => rw [factors, List.flatMap_append, iha, ihb, exponentEntries]
  | const c =>
    simp only [factors]
    split
    case isTrue h => rw [exponentEntries_of_isOne h, List.flatMap_nil]
    case isFalse => rw [List.flatMap_singleton]
  | _ => exact List.flatMap_singleton _ _

theorem exponentEntries_foldl_mul (sign : Rat) (f : Expr) (fs : List Expr) :
    exponentEntries sign (fs.foldl .mul f) =
      exponentEntries sign f ++ fs.flatMap (exponentEntries sign) := by
  induction fs generalizing f with
  | nil => rw [List.foldl_nil, List.flatMap_nil, List.append_nil]
  | cons g fs ih => rw [List.foldl_cons, ih, exponentEntries, List.flatMap_cons, List.append_assoc]

theorem flatMap_exponentEntries_filter (sign : Rat) (es : List Expr) :
    (es.filter fun e => !e.isOne).flatMap (exponentEntries sign) =
      es.flatMap (exponentEntries sign) := by
  induction es with
  | nil => rfl
  | cons e es ih =>
    cases h : e.isOne with
    | true =>
      rw [List.filter_cons_of_neg (by simp [h]), ih, List.flatMap_cons, exponentEntries_of_isOne h,
        List.nil_append]
    | false => rw [List.filter_cons_of_pos (by simp [h]), List.flatMap_cons, ih, List.flatMap_cons]

/-- Building a product only reorders the entries of its factors. -/
theorem exponentEntries_product (sign : Rat) (es : List Expr) :
    (exponentEntries sign (product es)).Perm (es.flatMap (exponentEntries sign)) := by
  have hsorted : exponentEntries sign (product es) =
      (sort (es.filter fun e => !e.isOne)).flatMap (exponentEntries sign) := by
    rw [product]
    split
    next h => rw [h]; rfl
    next h => rw [h, exponentEntries_foldl_mul, List.flatMap_cons]
  rw [hsorted, ← flatMap_exponentEntries_filter sign es]
  exact (sort_perm _).flatMap_right _

theorem exponentEntries_split_mul (sign : Rat) (a b : Expr) :
    (exponentEntries sign (split (.mul a b)).2).Perm
      (exponentEntries sign (split a).2 ++ exponentEntries sign (split b).2) := by
  rw [← flatMap_exponentEntries_factors sign (split a).2,
    ← flatMap_exponentEntries_factors sign (split b).2, ← List.flatMap_append]
  exact exponentEntries_product sign _

/-- Collecting the powers of a product does not depend on the order of its entries. -/
theorem collectPowers_eq_of_perm (h : (exponentEntries 1 e).Perm (exponentEntries 1 f)) :
    collectPowers e = collectPowers f := by
  have he := Records.of_entries (exponentEntries 1 e)
  have hf := Records.of_entries (exponentEntries 1 f)
  rw [← addFactors_eq_addEntries] at he hf
  rw [← amount_eq_of_perm h] at hf
  have hnumerators : (numerators (addFactors 1 e [])).Perm (numerators (addFactors 1 f [])) :=
    (he.filter_perm_filter hf fun _ h => (of_decide_eq_true h).ne').map _
  have hdenominators : (denominators (addFactors 1 e [])).Perm (denominators (addFactors 1 f [])) :=
    (he.filter_perm_filter hf fun _ h => (of_decide_eq_true h).ne).map _
  rw [collectPowers_eq, collectPowers_eq, product_eq_of_perm hnumerators,
    product_eq_of_perm hdenominators, hdenominators.isEmpty_eq]

/-! ## Rearranged factors -/

/-- Two products that differ in the order and the grouping of their factors, also of those above and
below a fraction bar. -/
inductive SameFactors : Expr → Expr → Prop
  | refl (e : Expr) : SameFactors e e
  | symm {e f : Expr} : SameFactors e f → SameFactors f e
  | trans {e f g : Expr} : SameFactors e f → SameFactors f g → SameFactors e g
  | comm (a b : Expr) : SameFactors (.mul a b) (.mul b a)
  | assoc (a b c : Expr) : SameFactors (.mul (.mul a b) c) (.mul a (.mul b c))
  | mul {a b c d : Expr} : SameFactors a c → SameFactors b d → SameFactors (.mul a b) (.mul c d)
  | div {a b c d : Expr} : SameFactors a c → SameFactors b d → SameFactors (.div a b) (.div c d)

/-- Two terms that differ in the order and the grouping of their factors, which may have signs.  The
sign of a factor counts towards the coefficient, unless it is in a quotient: `split` does not open
one, so there a negation is a factor like any other. -/
inductive SameTerm : Expr → Expr → Prop
  | factors {t u : Expr} : SameFactors t u → SameTerm t u
  | trans {t u v : Expr} : SameTerm t u → SameTerm u v → SameTerm t v
  | mul {a b c d : Expr} : SameTerm a c → SameTerm b d → SameTerm (.mul a b) (.mul c d)
  | neg {t u : Expr} : SameTerm t u → SameTerm (.neg t) (.neg u)

/-- Two sums whose terms are the same up to their order and that of their factors. -/
def Rearranged (ts us : List Expr) : Prop :=
  ∃ vs, ts.Perm vs ∧ List.Forall₂ SameTerm vs us

theorem SameFactors.exponentEntries (h : SameFactors e f) (sign : Rat) :
    (exponentEntries sign e).Perm (exponentEntries sign f) := by
  induction h generalizing sign with
  | refl => exact .refl _
  | symm _ ih => exact (ih sign).symm
  | trans _ _ ihl ihr => exact (ihl sign).trans (ihr sign)
  | comm a b => exact List.perm_append_comm
  | assoc a b c =>
    simp only [Simplify.exponentEntries, List.append_assoc]
    exact .refl _
  | mul _ _ iha ihb => exact (iha sign).append (ihb sign)
  | div _ _ iha ihb => exact (iha sign).append (ihb (-sign))

/-- Two terms with the same coefficient whose other factors have the same entries. -/
structure SameSplit (t u : Expr) : Prop where
  coefficient : (split t).1 = (split u).1
  entries : ∀ sign,
    (exponentEntries sign (split t).2).Perm (exponentEntries sign (split u).2)

namespace SameSplit

theorem refl (t : Expr) : SameSplit t t := ⟨rfl, fun _ => .refl _⟩

theorem symm (h : SameSplit t u) : SameSplit u t :=
  ⟨h.coefficient.symm, fun sign => (h.entries sign).symm⟩

theorem trans (h : SameSplit t u) (h' : SameSplit u v) : SameSplit t v :=
  ⟨h.coefficient.trans h'.coefficient, fun sign => (h.entries sign).trans (h'.entries sign)⟩

theorem comm (a b : Expr) : SameSplit (.mul a b) (.mul b a) where
  coefficient := mul_comm _ _
  entries sign := (exponentEntries_split_mul sign a b).trans
    (List.perm_append_comm.trans (exponentEntries_split_mul sign b a).symm)

theorem mul (ha : SameSplit a c) (hb : SameSplit b d) : SameSplit (.mul a b) (.mul c d) where
  coefficient := congrArg₂ (· * ·) ha.coefficient hb.coefficient
  entries sign := (exponentEntries_split_mul sign a b).trans
    (((ha.entries sign).append (hb.entries sign)).trans (exponentEntries_split_mul sign c d).symm)

theorem assoc (a b c : Expr) : SameSplit (.mul (.mul a b) c) (.mul a (.mul b c)) where
  coefficient := mul_assoc _ _ _
  entries sign := by
    have hleft := (exponentEntries_split_mul sign (.mul a b) c).trans
      ((exponentEntries_split_mul sign a b).append_right _)
    have hright := (exponentEntries_split_mul sign a (.mul b c)).trans
      ((exponentEntries_split_mul sign b c).append_left _)
    rw [List.append_assoc] at hleft
    exact hleft.trans hright.symm

theorem neg (h : SameSplit t u) : SameSplit (.neg t) (.neg u) :=
  ⟨congrArg (- ·) h.coefficient, h.entries⟩

end SameSplit

theorem SameFactors.sameSplit (h : SameFactors e f) : SameSplit e f := by
  induction h with
  | refl e => exact .refl e
  | symm _ ih => exact ih.symm
  | trans _ _ ihl ihr => exact ihl.trans ihr
  | comm a b => exact .comm a b
  | assoc a b c => exact .assoc a b c
  | mul _ _ iha ihb => exact iha.mul ihb
  | div ha hb => exact ⟨rfl, (SameFactors.div ha hb).exponentEntries⟩

theorem SameTerm.sameSplit (h : SameTerm t u) : SameSplit t u := by
  induction h with
  | factors h => exact h.sameSplit
  | trans _ _ ihl ihr => exact ihl.trans ihr
  | mul _ _ iha ihb => exact iha.mul ihb
  | neg _ ih => exact ih.neg

/-! ## The terms of a sum -/

/-- The entry of a term in the table of coefficients, if it has one. -/
def coefficientEntries (t : Expr) : Coefficients :=
  if (split t).1 = 0 then []
  else [(sort (factors (collectPowers (split t).2)), (split t).1)]

theorem addTerm_eq_addEntries (table : Coefficients) (t : Expr) :
    addTerm table t = addEntries (coefficientEntries t) table := by
  simp only [addTerm, coefficientEntries]
  split
  · rfl
  · exact addCoefficient_eq_addEntry _ _ _

theorem coefficients_eq_addEntries (ts : List Expr) :
    coefficients ts = addEntries (ts.flatMap coefficientEntries) [] := by
  rw [coefficients, addEntries, List.foldl_flatMap]
  congr 1
  funext table t
  exact addTerm_eq_addEntries table t

theorem records_coefficients (ts : List Expr) :
    Records id (coefficients ts) (amount (ts.flatMap coefficientEntries)) := by
  rw [coefficients_eq_addEntries]
  exact .of_entries _

theorem SameTerm.coefficientEntries (h : SameTerm t u) :
    coefficientEntries t = coefficientEntries u := by
  rw [Simplify.coefficientEntries, Simplify.coefficientEntries, h.sameSplit.coefficient,
    collectPowers_eq_of_perm (h.sameSplit.entries 1)]

theorem flatMap_coefficientEntries_eq (h : List.Forall₂ SameTerm ts us) :
    ts.flatMap coefficientEntries = us.flatMap coefficientEntries := by
  induction h with
  | nil => rfl
  | cons ht _ ih => rw [List.flatMap_cons, List.flatMap_cons, ht.coefficientEntries, ih]

theorem Rearranged.flatMap_coefficientEntries (h : Rearranged ts us) :
    (ts.flatMap coefficientEntries).Perm (us.flatMap coefficientEntries) := by
  obtain ⟨vs, hperm, hsame⟩ := h
  rw [← flatMap_coefficientEntries_eq hsame]
  exact hperm.flatMap_right _

/-! ## The table of coefficients -/

/-- Rows with distinct keys are brought into one order. -/
theorem mergeSort_rows_eq_of_perm {rows rows' : Coefficients} (hnodup : (rows.map (·.1)).Nodup)
    (h : rows.Perm rows') : rows.mergeSort rowNotAfter = rows'.mergeSort rowNotAfter := by
  refine (((List.mergeSort_perm _ _).trans h).trans
    (List.mergeSort_perm _ _).symm).eq_of_pairwise ?_ (pairwise_mergeSort_rows _)
      (pairwise_mergeSort_rows _)
  intro r s hr hs hrs hsr
  have hkey : r.1 = s.1 := Std.LawfulEqCmp.eq_of_compare (Std.OrientedCmp.isLE_antisymm hrs hsr)
  exact List.inj_on_of_nodup_map hnodup (List.mem_mergeSort.1 hr)
    (h.mem_iff.2 (List.mem_mergeSort.1 hs)) hkey

/-- The sum that is built from a table only depends on what the table records. -/
theorem ofCoefficients_eq_of_records {table table' : Coefficients} {g : List Expr → Rat}
    (h : Records id table g) (h' : Records id table' g) :
    ofCoefficients table = ofCoefficients table' := by
  have hconstant : constantTerm table = constantTerm table' :=
    (h.total []).trans (h'.total []).symm
  have hrows : (properRows table).Perm (properRows table') :=
    h.filter_perm_filter h' fun row hrow => bne_iff_ne.1 (Bool.and_eq_true_iff.1 hrow).2
  have hnodup : ((properRows table).map (·.1)).Nodup :=
    h.nodup.sublist (List.filter_sublist.map _)
  have heq : ∀ table, ofCoefficients table = sum (if constantTerm table = 0
      then ((properRows table).mergeSort rowNotAfter).map rowTerm
      else ((properRows table).mergeSort rowNotAfter).map rowTerm ++
        [.const (constantTerm table)]) := fun _ => rfl
  rw [heq, heq, hconstant, mergeSort_rows_eq_of_perm hnodup hrows]

/-- Tables of rearranged terms give one sum, in whatever order they hold their rows. -/
theorem Rearranged.ofCoefficients_eq (h : Rearranged ts us) {table table' : Coefficients}
    (htable : table.Perm (coefficients ts)) (htable' : table'.Perm (coefficients us)) :
    ofCoefficients table = ofCoefficients table' := by
  have hus := records_coefficients us
  rw [← amount_eq_of_perm h.flatMap_coefficientEntries] at hus
  exact ofCoefficients_eq_of_records ((records_coefficients ts).of_perm htable)
    (hus.of_perm htable')

theorem Rearranged.of_perm (h : ts.Perm us) : Rearranged ts us :=
  ⟨us, h, List.forall₂_same.2 fun t _ => .factors (.refl t)⟩

/-- Two sums with the same signed terms, up to the order of the terms and that of their factors, are
the same expression, and so is what is built from their tables with the rows in any order.  In
particular adding is commutative. -/
theorem add_is_order_independent :
    (∀ x₁ y₁ x₂ y₂, Rearranged (terms x₁ ++ terms y₁) (terms x₂ ++ terms y₂) →
      add x₁ y₁ = add x₂ y₂ ∧
      ∀ table₁ table₂, table₁.Perm (coefficients (terms x₁ ++ terms y₁)) →
        table₂.Perm (coefficients (terms x₂ ++ terms y₂)) →
        ofCoefficients table₁ = ofCoefficients table₂) ∧
    ∀ x y, add x y = add y x := by
  refine ⟨fun x₁ y₁ x₂ y₂ h => ⟨?_, fun _ _ => h.ofCoefficients_eq⟩, fun x y => ?_⟩
  · exact h.ofCoefficients_eq (.refl _) (.refl _)
  · exact (Rearranged.of_perm List.perm_append_comm).ofCoefficients_eq (.refl _) (.refl _)

/-- Three terms backwards, one of them a rearranged quotient and one a rearranged product. -/
theorem add_is_order_independent_of_reversed :
    let p : Expr := .var "P"
    let q : Expr := .var "Q"
    let r : Expr := .var "R"
    let x₁ : Expr := .sub (.mul (.mul (.const 2) p) q) (.div (.mul p q) r)
    let y₁ : Expr := .const 3
    let x₂ : Expr := .const 3
    let y₂ : Expr := .add (.neg (.div (.mul q p) r)) (.mul q (.mul (.const 2) p))
    let table₁ := coefficients (terms x₁ ++ terms y₁)
    let table₂ := coefficients (terms x₂ ++ terms y₂)
    Rearranged (terms x₁ ++ terms y₁) (terms x₂ ++ terms y₂) ∧ add x₁ y₁ = add x₂ y₂ ∧
      ofCoefficients table₁.reverse = ofCoefficients table₂ := by
  intro p q r x₁ y₁ x₂ y₂ table₁ table₂
  have h : Rearranged (terms x₁ ++ terms y₁) (terms x₂ ++ terms y₂) :=
    ⟨(terms x₁ ++ terms y₁).reverse, (List.reverse_perm _).symm,
      .cons (.factors (.refl _)) (.cons (.neg (.factors (.div (.comm p q) (.refl r))))
        (.cons (.factors (.comm _ q)) .nil))⟩
  obtain ⟨hadd, htables⟩ := add_is_order_independent.1 x₁ y₁ x₂ y₂ h
  exact ⟨h, hadd, htables _ _ (List.reverse_perm _) (.refl _)⟩

end MarketAlgebra.Simplify
