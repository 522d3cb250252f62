import Mathlib.Algebra.Group.Basic
import Mathlib.Data.List.Nodup
import Mathlib.Data.Rat.Defs
import MarketAlgebra.Simplify.Sum

/-!
# Tables of rationals

The coefficients of a sum and the exponents of a product are kept in tables with one row for every
key, and both are filled by adding to the row of a key (`addEntry`).  A table is read by its totals,
which are zero for a key without a row: adding to a key changes no other total (`total_addEntry`).

A table `Records` a function when its keys stand for arguments and its totals are the values there.
The rows that are used in the end are then those of some arguments, each of them once
(`Records.filter_perm`).

A table that is filled entry by entry (`addEntries`) records what the entries amount to, whatever
their order is, and the order of its own rows does not matter either (`Records.of_perm`).
-/

namespace MarketAlgebra.Simplify

variable {α : Type*} [DecidableEq α] {key k : α} {c : Rat} {table : List (α × Rat)}

/-- The table with a number added to that of a key. -/
def addEntry (key : α) (c : Rat) : List (α × Rat) → List (α × Rat)
  | [] => [(key, c)]
  | (k, d) :: table => if k = key then (k, d + c) :: table else (k, d) :: addEntry key c table

theorem addCoefficient_eq_addEntry (key : List Expr) (c : Rat) (table : Coefficients) :
    addCoefficient key c table = addEntry key c table := by
  induction table with
  | nil => rfl
  | cons row table ih => rw [addCoefficient, addEntry, ih]

theorem addExponent_eq_addEntry (base : Expr) (e : Rat) (table : Exponents) :
    addExponent base e table = addEntry base e table := by
  induction table with
  | nil => rfl
  | cons row table ih => rw [addExponent, addEntry, ih]

/-! ## Keys -/

/-- Adding brings in no key but the one added to. -/
theorem mem_keys_addEntry :
    k ∈ (addEntry key c table).map (·.1) ↔ k = key ∨ k ∈ table.map (·.1) := by
  induction table with
  | nil => simp [addEntry]
  | cons row table ih =>
    obtain ⟨r, d⟩ := row
    rw [addEntry]
    split
    next heq =>
      subst heq
      simp
    next =>
      simp only [List.map_cons, List.mem_cons, ih]
      tauto

theorem nodup_addEntry (key : α) (c : Rat) (h : (table.map (·.1)).Nodup) :
    ((addEntry key c table).map (·.1)).Nodup := by
  induction table with
  | nil => simp [addEntry]
  | cons row table ih =>
    obtain ⟨hnew, hrest⟩ := List.nodup_cons.1 h
    rw [addEntry]
    split
    next => exact h
    next hne =>
      refine List.nodup_cons.2 ⟨fun hmem => ?_, ih hrest⟩
      exact (mem_keys_addEntry.1 hmem).elim (fun heq => hne heq) hnew

/-! ## Totals -/

variable [BEq α] [LawfulBEq α]

/-- The number that a table holds for a key. -/
def total (table : List (α × Rat)) (key : α) : Rat := (table.lookup key).getD 0

theorem total_cons (key k : α) (c : Rat) (table : List (α × Rat)) :
    total ((key, c) :: table) k = if k = key then c else total table k := by
  rw [total, List.lookup_cons]
  by_cases h : k = key
  · rw [if_pos h, beq_iff_eq.2 h]
    rfl
  · rw [if_neg h, beq_eq_false_iff_ne.2 h]
    rfl

/-- Adding to a key changes no other total. -/
theorem total_addEntry (key k : α) (c : Rat) (table : List (α × Rat)) :
    total (addEntry key c table) k = total table k + if k = key then c else 0 := by
  induction table with
  | nil =>
    rw [addEntry, total_cons, total, List.lookup_nil, Option.getD_none, zero_add]
  | cons row table ih =>
    obtain ⟨r, d⟩ := row
    rw [addEntry]
    split
    next heq =>
      subst heq
      rw [total_cons, total_cons]
      split
      · rfl
      · rw [add_zero]
    next hne =>
      rw [total_cons, total_cons, ih]
      split
      next hr => rw [if_neg (hr ▸ hne), add_zero]
      next => rfl

/-- The rows of a table with distinct keys are found by their totals, those with zero apart. -/
theorem mem_iff_total (h : (table.map (·.1)).Nodup) (hc : c ≠ 0) :
    (key, c) ∈ table ↔ total table key = c := by
  induction table with
  | nil => exact iff_of_false List.not_mem_nil hc.symm
  | cons row table ih =>
    obtain ⟨k, d⟩ := row
    obtain ⟨hnew, hrest⟩ := List.nodup_cons.1 h
    rw [List.mem_cons, total_cons, Prod.mk.injEq]
    split
    next heq =>
      subst heq
      have hnot : (key, c) ∉ table := fun hmem => hnew (List.mem_map.2 ⟨_, hmem, rfl⟩)
      rw [or_iff_left hnot, eq_self, true_and, eq_comm]
    next hne => rw [or_iff_right (fun heq => hne heq.1), ih hrest]

/-- The order of the rows does not matter for the totals. -/
theorem total_eq_of_perm {table' : List (α × Rat)} (h : (table.map (·.1)).Nodup)
    (hperm : table.Perm table') (k : α) : total table k = total table' k := by
  have h' : (table'.map (·.1)).Nodup := (hperm.map _).nodup_iff.1 h
  have hiff : ∀ c ≠ 0, total table k = c ↔ total table' k = c := fun c hc => by
    rw [← mem_iff_total h hc, hperm.mem_iff, mem_iff_total h' hc]
  rcases eq_or_ne (total table' k) 0 with hzero | hne
  · by_contra hdiffer
    exact hdiffer ((hiff _ fun heq => hdiffer (heq.trans hzero.symm)).1 rfl).symm
  · exact (hiff _ hne).2 rfl

/-! ## Entries -/

/-- What the entries for a key amount to. -/
def amount : List (α × Rat) → α → Rat
  | [], _ => 0
  | (k, c) :: entries, key => (if key = k then c else 0) + amount entries key

omit [BEq α] [LawfulBEq α] in
theorem amount_eq_of_perm {es ds : List (α × Rat)} (h : es.Perm ds) : amount es = amount ds := by
  funext key
  induction h with
  | nil => rfl
  | cons e _ ih => rw [amount, amount, ih]
  | swap => exact add_left_comm _ _ _
  | trans _ _ ih ih' => rw [ih, ih']

/-- The table with some entries added one after the other. -/
def addEntries (entries table : List (α × Rat)) : List (α × Rat) :=
  entries.foldl (fun table entry => addEntry entry.1 entry.2 table) table

omit [BEq α] [LawfulBEq α] in
theorem addEntries_append (es ds table : List (α × Rat)) :
    addEntries (es ++ ds) table = addEntries ds (addEntries es table) :=
  List.foldl_append

/-! ## Recorded functions -/

/-- The table has the values of a function as totals, for keys that stand for the arguments. -/
structure Records {ι : Type*} (name : ι → α) (table : List (α × Rat)) (g : ι → Rat) : Prop where
  nodup : (table.map (·.1)).Nodup
  named : ∀ k ∈ table.map (·.1), ∃ i, k = name i
  total : ∀ i, total table (name i) = g i

namespace Records

variable {ι : Type*} {name : ι → α} {g : ι → Rat}

omit [DecidableEq α] [LawfulBEq α] in
theorem nil (name : ι → α) : Records name [] fun _ => 0 := ⟨.nil, nofun, fun _ => rfl⟩

theorem addEntry [DecidableEq ι] (hname : Function.Injective name) (h : Records name table g)
    (i : ι) (c : Rat) :
    Records name (addEntry (name i) c table) fun j => g j + if j = i then c else 0 where
  nodup := nodup_addEntry _ _ h.nodup
  named := fun k hk => (mem_keys_addEntry.1 hk).elim (fun heq => ⟨i, heq⟩) (h.named k)
  total := fun j => by simp only [total_addEntry, h.total, hname.eq_iff]

/-- Entries are recorded under their own keys. -/
theorem addEntries {g : α → Rat} (h : Records id table g) (entries : List (α × Rat)) :
    Records id (addEntries entries table) fun k => g k + amount entries k := by
  induction entries generalizing table g with
  | nil =>
    simp only [amount, add_zero]
    exact h
  | cons entry entries ih =>
    simp only [amount, ← add_assoc]
    exact ih (h.addEntry Function.injective_id entry.1 entry.2)

/-- An empty table comes to record the entries that are added to it. -/
theorem of_entries (entries : List (α × Rat)) :
    Records id (Simplify.addEntries entries []) (amount entries) := by
  have h := (Records.nil (id : α → α)).addEntries entries
  simpa only [zero_add] using h

/-- The order of the rows does not matter for what they record. -/
theorem of_perm {table' : List (α × Rat)} (h : Records name table g)
    (hperm : table'.Perm table) : Records name table' g where
  nodup := (hperm.map _).nodup_iff.2 h.nodup
  named := fun k hk => h.named k ((hperm.map _).mem_iff.1 hk)
  total := fun i => by rw [← h.total, total_eq_of_perm h.nodup hperm.symm]

/-- A row with a number that is not zero is that of an argument. -/
theorem mem_iff (h : Records name table g) {row : α × Rat} (hne : row.2 ≠ 0) :
    row ∈ table ↔ ∃ i, (name i, g i) = row := by
  constructor
  · intro hrow
    obtain ⟨i, hi⟩ := h.named row.1 (List.mem_map.2 ⟨row, hrow, rfl⟩)
    refine ⟨i, Prod.ext hi.symm ?_⟩
    rw [← h.total, ← hi]
    exact (mem_iff_total h.nodup hne).1 hrow
  · rintro ⟨i, rfl⟩
    exact (mem_iff_total h.nodup hne).2 (h.total i)

/-- The rows with a property, as those of a list of arguments. -/
theorem filter_perm (hname : Function.Injective name) (h : Records name table g)
    {q : α × Rat → Bool} (hq : ∀ row, q row = true → row.2 ≠ 0) {is : List ι} (hnodup : is.Nodup)
    (his : ∀ i, i ∈ is ↔ q (name i, g i) = true) :
    (table.filter q).Perm (is.map fun i => (name i, g i)) := by
  refine (List.perm_ext_iff_of_nodup ((List.Nodup.of_map _ h.nodup).filter _)
    (hnodup.map fun i j hij => hname (congrArg Prod.fst hij))).2 fun row => ?_
  rw [List.mem_filter, List.mem_map]
  constructor
  · rintro ⟨hrow, hqrow⟩
    obtain ⟨i, rfl⟩ := (h.mem_iff (hq row hqrow)).1 hrow
    exact ⟨i, (his i).2 hqrow, rfl⟩
  · rintro ⟨i, hi, rfl⟩
    exact ⟨(h.mem_iff (hq _ ((his i).1 hi))).2 ⟨i, rfl⟩, (his i).1 hi⟩

/-- Two tables of one function have the same rows with a property, in whatever order. -/
theorem filter_perm_filter {table' : List (α × Rat)} (h : Records name table g)
    (h' : Records name table' g) {q : α × Rat → Bool} (hq : ∀ row, q row = true → row.2 ≠ 0) :
    (table.filter q).Perm (table'.filter q) := by
  refine (List.perm_ext_iff_of_nodup ((List.Nodup.of_map _ h.nodup).filter _)
    ((List.Nodup.of_map _ h'.nodup).filter _)).2 fun row => ?_
  rw [List.mem_filter, List.mem_filter, and_congr_left_iff]
  intro hrow
  rw [h.mem_iff (hq row hrow), h'.mem_iff (hq row hrow)]

end Records

end MarketAlgebra.Simplify
