import MarketAlgebra.Proofs.Repetitions
import MarketAlgebra.Proofs.Roots.Correspondence
import MarketAlgebra.Proofs.Roots.Quadratic
import MarketAlgebra.Proofs.Roots.RationalRoot

/-!
# The listed roots of a polynomial

Before the list of roots is sorted, it holds one entry for every real root: an expression that
denotes the root (`exactRoots`), or a rational that approximates it (`approximations`).  Exact
entries are distinct, and so are approximations (`exact_exactRoots` and `nodup_approximations`), and
together they are as many as the roots (`length_listed`).  But nothing keeps an approximation from
being equal to an exact entry.
-/

namespace MarketAlgebra.Roots

open Polynomial

variable {p : Poly}

/-- The square-free part without the rational roots that the search lists. -/
def remaining (p : Poly) : Poly := (rationalRoots p.squareFreePart).foldl divideOut p.squareFreePart

/-- The roots that are listed as expressions with their exact values. -/
def exactRoots (p : Poly) : List Expr :=
  (rationalRoots p.squareFreePart).map .const ++
    if (remaining p).size ≤ 3 then (remainingRoots (remaining p)).map (·.1) else []

/-- The rationals that stand for the other roots. -/
def approximations (p : Poly) : List Rat :=
  if (remaining p).size ≤ 3 then [] else isolated (remaining p)

/-- All entries of the list before it is sorted. -/
def listed (p : Poly) : List Expr := exactRoots p ++ (approximations p).map .const

/-! ## The parts of the list -/

/-- The square-free part is separable, also when it is a constant. -/
theorem separable_squareFreePart (hp : p.toPolynomial ≠ 0) :
    p.squareFreePart.toPolynomial.Separable := by
  by_cases h : 1 < p.size
  · exact Poly.separable_squareFreePart h
  · have hsize := Poly.size_eq hp
    have hconst := eq_C_of_natDegree_eq_zero (show p.toPolynomial.natDegree = 0 by omega)
    rw [Poly.squareFreePart, if_pos (by omega)]
    rw [hconst] at hp ⊢
    exact (separable_C _).2 (isUnit_iff_ne_zero.2 fun hz => hp (by rw [hz, map_zero]))

theorem realRoots_squareFreePart (p : Poly) : p.squareFreePart.realRoots = p.realRoots := by
  by_cases h : 1 < p.size
  · exact Poly.realRoots_squareFreePart h
  · rw [Poly.squareFreePart, if_pos (by omega)]

/-- What is left has the roots that the search does not list. -/
theorem remains_remaining (hp : p.toPolynomial ≠ 0) :
    Remains p.squareFreePart (rationalRoots p.squareFreePart) (remaining p) :=
  remains_foldl_divideOut (separable_squareFreePart hp) (areRoots_rationalRoots _)

/-- What is left of low degree has exact roots. -/
theorem denotes_remainingRoots {q : Poly} (hq : q.toPolynomial ≠ 0) (h : q.size ≤ 3) :
    Denotes q ((remainingRoots q).map (·.1)) := by
  have hpos := Poly.size_eq hq
  obtain h1 | h2 | h3 : q.size = 1 ∨ q.size = 2 ∨ q.size = 3 := by omega
  · rw [remainingRoots, h1]
    exact denotes_nil h1
  · rw [remainingRoots, h2]
    exact denotes_linearRoot h2
  · rw [remainingRoots, h3]
    exact denotes_quadraticRoots h3

/-- What is left of a higher degree is approximated. -/
theorem remainingRoots_eq {q : Poly} (h : 3 < q.size) :
    (remainingRoots q).map (·.1) = (isolated q).map .const := by
  rw [remainingRoots]
  split
  case h_5 => rw [List.map_map]; rfl
  all_goals omega

/-- The entries of the list, in the order in which they are found. -/
theorem map_found (p : Poly) : ((rationalRoots p.squareFreePart).map approximated ++
    remainingRoots (remaining p)).map (·.1) = listed p := by
  have hrational : ((rationalRoots p.squareFreePart).map approximated).map (·.1) =
      (rationalRoots p.squareFreePart).map .const := by
    rw [List.map_map]
    rfl
  rw [List.map_append, hrational, listed, exactRoots, approximations]
  split
  case isTrue => rw [List.map_nil, List.append_nil]
  case isFalse h => rw [remainingRoots_eq (not_le.1 h), List.append_nil]

/-! ## Exact entries -/

/-- The expressions denote real roots of a polynomial, no two of them the same one. -/
structure Exact (p : Poly) (es : List Expr) : Prop where
  hasValue : ∀ e ∈ es, ∀ s, e.HasValue s e.value
  nodup : (es.map Expr.value).Nodup
  isRoot : ∀ e ∈ es, p.real.eval e.value = 0

theorem Exact.nil (p : Poly) : Exact p [] := ⟨by simp, List.nodup_nil, by simp⟩

theorem Denotes.exact {es : List Expr} (h : Denotes p es) : Exact p es :=
  ⟨h.hasValue, h.nodup, fun _ he => (h.mem_iff _).1 (List.mem_map_of_mem he)⟩

/-- Rational roots are joined with exact roots of what is left without them. -/
theorem Exact.append {q : Poly} {rs : List Rat} {es : List Expr} (hrs : rs.Nodup)
    (h : Remains p rs q) (he : Exact q es) : Exact p (rs.map .const ++ es) := by
  have hvalues : (rs.map Expr.const).map Expr.value = rs.map fun r : Rat => (r : ℝ) := by
    rw [List.map_map]
    rfl
  constructor
  · intro e hmem s
    rcases List.mem_append.1 hmem with hmem | hmem
    · obtain ⟨r, -, rfl⟩ := List.mem_map.1 hmem
      exact hasValue_const r s
    · exact he.hasValue e hmem s
  · rw [List.map_append, hvalues, List.nodup_append]
    refine ⟨hrs.map Rat.cast_injective, he.nodup, fun a ha b hb => ?_⟩
    obtain ⟨r, hr, rfl⟩ := List.mem_map.1 ha
    obtain ⟨e, hmem, rfl⟩ := List.mem_map.1 hb
    intro heq
    exact h.disjoint r hr (heq ▸ he.isRoot e hmem)
  · intro e hmem
    rw [h.mem_iff]
    rcases List.mem_append.1 hmem with hmem | hmem
    · obtain ⟨r, hr, rfl⟩ := List.mem_map.1 hmem
      exact .inl ⟨r, hr, rfl⟩
    · exact .inr (he.isRoot e hmem)

/-- Exact entries denote different roots. -/
theorem exact_exactRoots (hp : p.toPolynomial ≠ 0) : Exact p (exactRoots p) := by
  have hremains := remains_remaining hp
  have hpart : Exact (remaining p)
      (if (remaining p).size ≤ 3 then (remainingRoots (remaining p)).map (·.1) else []) := by
    split
    case isTrue h => exact (denotes_remainingRoots hremains.separable.ne_zero h).exact
    case isFalse => exact .nil _
  have hexact := hpart.append (areRoots_rationalRoots p.squareFreePart).nodup hremains
  refine ⟨hexact.hasValue, hexact.nodup, fun e he => ?_⟩
  rw [← Poly.mem_realRoots hp, ← realRoots_squareFreePart,
    Poly.mem_realRoots (separable_squareFreePart hp).ne_zero]
  exact hexact.isRoot e he

theorem nodup_exactRoots (hp : p.toPolynomial ≠ 0) : (exactRoots p).Nodup :=
  .of_map _ (exact_exactRoots hp).nodup

/-! ## The whole list -/

theorem nodup_approximations (p : Poly) : (approximations p).Nodup := by
  rw [approximations]
  split
  · exact List.nodup_nil
  · exact nodup_isolated _

/-- There is one entry for every real root. -/
theorem length_listed (hp : p.toPolynomial ≠ 0) : (listed p).length = p.realRoots.card := by
  have hremains := remains_remaining hp
  rw [← realRoots_squareFreePart, hremains.card, listed, exactRoots, approximations,
    List.length_append, List.length_append, List.length_map, List.length_map, Nat.add_assoc]
  congr 1
  split
  case isTrue h =>
    rw [(denotes_remainingRoots hremains.separable.ne_zero h).length_eq hremains.separable.ne_zero,
      List.length_nil, Nat.add_zero]
  case isFalse => rw [List.length_nil, Nat.zero_add, length_isolated hremains.separable]

/-- No two entries are equal exactly when no approximation is an exact entry. -/
theorem nodup_listed_iff (hp : p.toPolynomial ≠ 0) :
    (listed p).Nodup ↔ ∀ a ∈ approximations p, .const a ∉ exactRoots p := by
  have hconst : Function.Injective Expr.const := fun a b h => by injection h
  rw [listed, List.nodup_append]
  constructor
  · rintro ⟨-, -, hne⟩ a ha hmem
    exact hne _ hmem _ (List.mem_map_of_mem ha) rfl
  · intro h
    refine ⟨nodup_exactRoots hp, (nodup_approximations p).map hconst, ?_⟩
    rintro e he _ hd rfl
    obtain ⟨a, ha, rfl⟩ := List.mem_map.1 hd
    exact h a ha he

/-! ## The sorted list -/

/-- A polynomial without a variable has no entries. -/
theorem listed_eq_nil (hp : p.toPolynomial ≠ 0) (h : p.squareFreePart.size ≤ 1) :
    listed p = [] := by
  have hsep := separable_squareFreePart hp
  have hsize := Poly.size_eq hsep.ne_zero
  have hcard := (denotes_nil (p := p.squareFreePart) (by omega)).length_eq hsep.ne_zero
  rw [← List.length_eq_zero_iff, length_listed hp, ← realRoots_squareFreePart, ← hcard,
    List.length_nil]

/-- Sorting keeps the entries. -/
theorem mem_realRoots (hp : p.toPolynomial ≠ 0) {e : Expr} : e ∈ realRoots p ↔ e ∈ listed p := by
  rw [realRoots]
  split
  case isTrue h => rw [listed_eq_nil hp h]
  case isFalse => rw [← map_found p]; exact mem_eraseReps_mergeSort

theorem perm_realRoots (hp : p.toPolynomial ≠ 0) (h : (listed p).Nodup) :
    (realRoots p).Perm (listed p) := by
  rw [realRoots]
  split
  case isTrue hsize => rw [listed_eq_nil hp hsize]
  case isFalse =>
    rw [← map_found p] at h ⊢
    exact perm_eraseReps_mergeSort h

theorem length_realRoots_le (hp : p.toPolynomial ≠ 0) :
    (realRoots p).length ≤ p.realRoots.card := by
  rw [realRoots]
  split
  case isTrue => exact Nat.zero_le _
  case isFalse =>
    refine length_eraseReps_mergeSort_le.trans ?_
    rw [← List.length_map (f := (·.1)), ← length_listed hp]
    exact (congrArg List.length (map_found p)).le

end MarketAlgebra.Roots
