import Mathlib.Algebra.BigOperators.Group.List.Basic
import MarketAlgebra.Proofs.Simplify.Product
import MarketAlgebra.Proofs.Simplify.Table

/-!
# Sums in normal form keep their value

A list of terms stands for the sum of its values (`sumReal`), and a table of coefficients for the
sum of its rows, each a coefficient times a product of factors (`Coefficients.real`).  The table is
built so that every list of factors has one row (`Coefficients.Valid`), and so the row without
factors is the whole constant term, which `ofCoefficients` takes out of the table before it sorts
the rest.
-/

namespace MarketAlgebra.Simplify

open MarketAlgebra.Expr

variable {s : String → ℝ}

/-! ## Lists of terms -/

/-- The sum of the values of a list. -/
noncomputable def sumReal (s : String → ℝ) (es : List Expr) : ℝ := (es.map (real s)).sum

@[simp] theorem sumReal_nil : sumReal s [] = 0 := rfl

@[simp] theorem sumReal_cons (e : Expr) (es : List Expr) :
    sumReal s (e :: es) = e.real s + sumReal s es := by
  simp [sumReal]

@[simp] theorem sumReal_append (es ds : List Expr) :
    sumReal s (es ++ ds) = sumReal s es + sumReal s ds := by
  simp [sumReal]

/-- Negating every term negates the sum. -/
theorem map_neg_spec {es : List Expr} (h : AllDefined s es) :
    AllDefined s (es.map neg) ∧ sumReal s (es.map neg) = -sumReal s es := by
  induction es with
  | nil => exact ⟨allDefined_nil, by simp⟩
  | cons e es ih =>
    obtain ⟨he, hes⟩ := allDefined_cons.1 h
    obtain ⟨hd, hr⟩ := ih hes
    obtain ⟨dn, rn⟩ := keeps_neg s e he
    refine ⟨allDefined_cons.2 ⟨dn, hd⟩, ?_⟩
    rw [List.map_cons, sumReal_cons, sumReal_cons, hr, rn, real]
    ring

/-- The terms of an expression have its value as their sum. -/
theorem terms_spec {e : Expr} (h : e.Defined s) :
    AllDefined s (terms e) ∧ sumReal s (terms e) = e.real s := by
  induction e with
  | add a b iha ihb =>
    obtain ⟨da, ha⟩ := iha h.1
    obtain ⟨db, hb⟩ := ihb h.2
    exact ⟨da.append db, by rw [terms, sumReal_append, ha, hb, real]⟩
  | sub a b iha ihb =>
    obtain ⟨da, ha⟩ := iha h.1
    obtain ⟨db, hb⟩ := ihb h.2
    obtain ⟨dn, hn⟩ := map_neg_spec db
    exact ⟨da.append dn, by rw [terms, sumReal_append, ha, hn, hb, real, sub_eq_add_neg]⟩
  | neg a ih =>
    obtain ⟨da, ha⟩ := ih h
    obtain ⟨dn, hn⟩ := map_neg_spec da
    exact ⟨dn, by rw [terms, hn, ha, real]⟩
  | _ => exact ⟨allDefined_cons.2 ⟨h, allDefined_nil⟩, by simp [terms]⟩

/-- Adding from the left adds the values. -/
theorem foldl_add_spec {t : Expr} {ts : List Expr} (ht : t.Defined s) (hts : AllDefined s ts) :
    (ts.foldl .add t).HasValue s (t.real s + sumReal s ts) := by
  induction ts generalizing t with
  | nil => exact ⟨ht, by simp⟩
  | cons u us ih =>
    obtain ⟨hu, hus⟩ := allDefined_cons.1 hts
    obtain ⟨hd, hr⟩ := ih (t := .add t u) ⟨ht, hu⟩ hus
    exact ⟨hd, by rw [List.foldl_cons, hr, real, sumReal_cons, add_assoc]⟩

theorem sum_spec {ts : List Expr} (h : AllDefined s ts) : (sum ts).HasValue s (sumReal s ts) := by
  cases ts with
  | nil => exact ⟨defined_zero, real_zero⟩
  | cons t ts =>
    obtain ⟨ht, hts⟩ := allDefined_cons.1 h
    rw [sumReal_cons]
    exact foldl_add_spec ht hts

/-! ## Tables of coefficients -/

/-- The value of one row. -/
noncomputable def rowReal (s : String → ℝ) (row : List Expr × Rat) : ℝ :=
  row.2 * productReal s row.1

/-- The sum of the rows of a table. -/
noncomputable def Coefficients.real (s : String → ℝ) (table : Coefficients) : ℝ :=
  (table.map (rowReal s)).sum

/-- No list of factors has two rows, and all factors have values. -/
def Coefficients.Valid (s : String → ℝ) (table : Coefficients) : Prop :=
  (table.map (·.1)).Nodup ∧ ∀ row ∈ table, AllDefined s row.1

@[simp] theorem Coefficients.real_nil : Coefficients.real s [] = 0 := rfl

@[simp] theorem Coefficients.real_cons (row : List Expr × Rat) (table : Coefficients) :
    Coefficients.real s (row :: table) = rowReal s row + Coefficients.real s table := by
  simp [Coefficients.real]

theorem Coefficients.valid_nil : Coefficients.Valid s [] := by simp [Coefficients.Valid]

theorem Coefficients.valid_cons {row : List Expr × Rat} {table : Coefficients} :
    Coefficients.Valid s (row :: table) ↔
      row.1 ∉ table.map (·.1) ∧ AllDefined s row.1 ∧ Coefficients.Valid s table := by
  simp only [Coefficients.Valid, List.map_cons, List.nodup_cons, List.forall_mem_cons]
  tauto

/-- Adding to a table brings in no list of factors but the one added. -/
theorem mem_keys_addCoefficient {key k : List Expr} {c : Rat} {table : Coefficients} :
    k ∈ (addCoefficient key c table).map (·.1) ↔ k = key ∨ k ∈ table.map (·.1) := by
  rw [addCoefficient_eq_addEntry]
  exact mem_keys_addEntry

/-- Adding a coefficient adds the row. -/
theorem addCoefficient_spec {key : List Expr} (c : Rat) {table : Coefficients}
    (hkey : AllDefined s key) (h : Coefficients.Valid s table) :
    Coefficients.Valid s (addCoefficient key c table) ∧
      Coefficients.real s (addCoefficient key c table) =
        c * productReal s key + Coefficients.real s table := by
  induction table with
  | nil =>
    have hv : Coefficients.Valid s [(key, c)] :=
      Coefficients.valid_cons.2 ⟨by simp, hkey, Coefficients.valid_nil⟩
    exact ⟨hv, by simp [addCoefficient, rowReal]⟩
  | cons row table ih =>
    obtain ⟨k, d⟩ := row
    obtain ⟨hnot, hk, htable⟩ := Coefficients.valid_cons.1 h
    simp only [addCoefficient]
    split
    next heq =>
      subst heq
      refine ⟨Coefficients.valid_cons.2 ⟨hnot, hk, htable⟩, ?_⟩
      simp only [Coefficients.real_cons, rowReal, Rat.cast_add]
      ring
    next hne =>
      obtain ⟨hv, hr⟩ := ih htable
      have hnot' : k ∉ (addCoefficient key c table).map (·.1) := by
        rw [mem_keys_addCoefficient]
        exact fun hor => hor.elim hne hnot
      refine ⟨Coefficients.valid_cons.2 ⟨hnot', hk, hv⟩, ?_⟩
      rw [Coefficients.real_cons, hr, Coefficients.real_cons]
      ring

/-- Adding a term adds its value. -/
theorem addTerm_spec {term : Expr} {table : Coefficients} (ht : term.Defined s)
    (h : Coefficients.Valid s table) :
    Coefficients.Valid s (addTerm table term) ∧
      Coefficients.real s (addTerm table term) = term.real s + Coefficients.real s table := by
  obtain ⟨db, hb⟩ := split_spec ht
  simp only [addTerm]
  split
  next hc => exact ⟨h, by rw [hb, hc]; simp⟩
  next =>
    obtain ⟨dc, hc⟩ := keeps_collectPowers s _ db
    obtain ⟨df, hf⟩ := factors_spec dc
    obtain ⟨hv, hr⟩ := addCoefficient_spec (split term).1 df.sort h
    exact ⟨hv, by rw [hr, productReal_sort, hf, hc, hb]⟩

theorem foldl_addTerm_spec {ts : List Expr} {table : Coefficients} (hts : AllDefined s ts)
    (h : Coefficients.Valid s table) :
    Coefficients.Valid s (ts.foldl addTerm table) ∧
      Coefficients.real s (ts.foldl addTerm table) = sumReal s ts + Coefficients.real s table := by
  induction ts generalizing table with
  | nil => exact ⟨h, by simp⟩
  | cons t ts ih =>
    obtain ⟨ht, hts⟩ := allDefined_cons.1 hts
    obtain ⟨hv, hr⟩ := addTerm_spec ht h
    obtain ⟨hv', hr'⟩ := ih hts hv
    refine ⟨hv', ?_⟩
    rw [List.foldl_cons, hr', hr, sumReal_cons]
    ring

/-- The coefficients of all terms have the sum of the terms as their value. -/
theorem coefficients_spec {ts : List Expr} (h : AllDefined s ts) :
    Coefficients.Valid s (coefficients ts) ∧
      Coefficients.real s (coefficients ts) = sumReal s ts := by
  obtain ⟨hv, hr⟩ := foldl_addTerm_spec h Coefficients.valid_nil
  exact ⟨hv, by rw [coefficients, hr, Coefficients.real_nil, add_zero]⟩

/-! ## The sum of a table -/

/-- The rows that become terms with factors. -/
def properRows (table : Coefficients) : Coefficients :=
  table.filter fun row => !row.1.isEmpty && row.2 != 0

/-- The constant term of a table. -/
def constantTerm (table : Coefficients) : Rat := (table.lookup []).getD 0

/-- The term that a row becomes. -/
def rowTerm (row : List Expr × Rat) : Expr := scaled row.2 (product row.1)

theorem lookup_eq_none_of_not_mem {key : List Expr} {table : Coefficients}
    (h : key ∉ table.map (·.1)) : table.lookup key = none := by
  rw [List.lookup_eq_none_iff]
  intro row hrow
  rw [bne_iff_ne]
  rintro rfl
  exact h (List.mem_map_of_mem hrow)

/-- A table is its proper rows and its constant term. -/
theorem Coefficients.Valid.real_eq {table : Coefficients} (h : Coefficients.Valid s table) :
    Coefficients.real s table =
      Coefficients.real s (properRows table) + (constantTerm table : Rat) := by
  induction table with
  | nil => simp [properRows, constantTerm]
  | cons row table ih =>
    obtain ⟨key, c⟩ := row
    obtain ⟨hnot, -, htable⟩ := Coefficients.valid_cons.1 h
    rw [Coefficients.real_cons, ih htable]
    cases key with
    | nil =>
      have hlookup : constantTerm table = 0 := by
        rw [constantTerm, lookup_eq_none_of_not_mem hnot, Option.getD_none]
      have hrows : properRows (([], c) :: table) = properRows table := by simp [properRows]
      have hconst : constantTerm (([], c) :: table) = c := by simp [constantTerm]
      rw [hrows, hconst, hlookup, rowReal, productReal_nil]
      push_cast
      ring
    | cons f fs =>
      have hconst : constantTerm ((f :: fs, c) :: table) = constantTerm table := by
        simp [constantTerm, List.lookup_cons]
      rw [hconst]
      by_cases hc : c = 0
      · have hrows : properRows ((f :: fs, c) :: table) = properRows table := by
          simp [properRows, hc]
        rw [hrows, rowReal, hc]
        simp
      · have hrows : properRows ((f :: fs, c) :: table) = (f :: fs, c) :: properRows table := by
          simp [properRows, hc]
        rw [hrows, Coefficients.real_cons]
        ring

/-- The terms of rows add up to the rows. -/
theorem map_rowTerm_spec {rows : Coefficients} (h : ∀ row ∈ rows, AllDefined s row.1) :
    AllDefined s (rows.map rowTerm) ∧ sumReal s (rows.map rowTerm) = Coefficients.real s rows := by
  induction rows with
  | nil => exact ⟨allDefined_nil, rfl⟩
  | cons row rows ih =>
    obtain ⟨hrow, hrows⟩ := List.forall_mem_cons.1 h
    obtain ⟨hd, hr⟩ := ih hrows
    obtain ⟨dp, rp⟩ := product_spec hrow
    obtain ⟨dt, rt⟩ := scaled_spec row.2 dp
    refine ⟨allDefined_cons.2 ⟨dt, hd⟩, ?_⟩
    rw [List.map_cons, sumReal_cons, Coefficients.real_cons, hr, rowTerm, rt, rp, rowReal]

/-- The sum of a table has its value. -/
theorem ofCoefficients_spec {table : Coefficients} (h : Coefficients.Valid s table) :
    (ofCoefficients table).HasValue s (Coefficients.real s table) := by
  let rows := (properRows table).mergeSort fun r t => (compareLists r.1 t.1).isLE
  have hperm : rows.Perm (properRows table) := List.mergeSort_perm _ _
  have hrows : ∀ row ∈ rows, AllDefined s row.1 := fun row hrow =>
    h.2 row (List.mem_of_mem_filter (hperm.mem_iff.1 hrow))
  have hreal : Coefficients.real s rows = Coefficients.real s (properRows table) :=
    (hperm.map _).sum_eq
  obtain ⟨hd, hr⟩ := map_rowTerm_spec hrows
  have heq : ofCoefficients table = sum (if constantTerm table = 0 then rows.map rowTerm
      else rows.map rowTerm ++ [.const (constantTerm table)]) := rfl
  rw [heq, h.real_eq, ← hreal, ← hr]
  split
  next hc =>
    rw [hc, Rat.cast_zero, add_zero]
    exact sum_spec hd
  next =>
    have hd' : AllDefined s (rows.map rowTerm ++ [.const (constantTerm table)]) :=
      hd.append (by simp)
    have hs := sum_spec hd'
    rwa [sumReal_append, sumReal_cons, sumReal_nil, add_zero, real_const] at hs

/-! ## Sums and differences -/

/-- Adding in normal form keeps the value. -/
theorem keeps_add (s : String → ℝ) (a b : Expr) : Keeps s (.add a b) (add a b) := by
  rintro ⟨da, db⟩
  obtain ⟨ta, ha⟩ := terms_spec da
  obtain ⟨tb, hb⟩ := terms_spec db
  obtain ⟨hv, hr⟩ := coefficients_spec (ta.append tb)
  have hs := ofCoefficients_spec hv
  rwa [hr, sumReal_append, ha, hb] at hs

/-- A difference is the sum with the negation. -/
theorem keeps_sub (s : String → ℝ) (a b : Expr) : Keeps s (.sub a b) (sub a b) := by
  have hneg : Keeps s (.sub a b) (.add a (.neg b)) :=
    .of_real_eq id (by rw [real, real, real, sub_eq_add_neg])
  exact (hneg.trans (.add (.refl s a) (keeps_neg s b))).trans (keeps_add s a _)

end MarketAlgebra.Simplify
