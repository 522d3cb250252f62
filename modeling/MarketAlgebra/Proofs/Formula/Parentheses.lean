import Mathlib.Data.List.Chain
import MarketAlgebra.Proofs.Formula.Grammar

/-!
# Parentheses around single tokens

In a formula no operand follows another without an operator between them, except that the name of a
function stands in front of a parenthesis (`Derives.follows`).  All other names are variables of
the expression (`Derives.namesIn`).

A number, or a name that denotes no function, may be put into parentheses without changing what is
derived (`Parens`, `Derives.parens`).  `wrap` puts the two sides of a quotient of single tokens into
them.  This keeps a formula unless the right side is the name of a function (`dividesByCall`), which
the parenthesis behind it then parts from its argument.
-/

namespace MarketAlgebra.Formula

/-! ## Which token follows which -/

/-- A number or a name. -/
def Token.isOperand : Token → Bool
  | .number _ | .name _ => true
  | _ => false

/-- Whether an operand can end with the token. -/
def Token.closes : Token → Bool
  | .number _ | .name _ | .rparen => true
  | _ => false

/-- Whether an operand can start with the token. -/
def Token.opens : Token → Bool
  | .number _ | .name _ | .lparen => true
  | _ => false

/-- The name of a function. -/
def Token.isFunction : Token → Bool
  | .name x => (function? x).isSome
  | _ => false

/-- One operand follows another only as the argument of a function. -/
def Follows (t u : Token) : Prop :=
  t.closes = true → u.opens = true → t.isFunction = true ∧ u = .lparen

theorem follows_of_not_closes {t : Token} (h : t.closes = false) (u : Token) : Follows t u :=
  fun ht => absurd ht (by simp [h])

theorem follows_of_not_opens {u : Token} (h : u.opens = false) (t : Token) : Follows t u :=
  fun _ hu => absurd hu (by simp [h])

/-- Two formulas may be joined by what neither opens nor closes an operand. -/
theorem isChain_follows_join {ts us : List Token} {op : Token} (ht : ts.IsChain Follows)
    (hu : us.IsChain Follows) (hc : op.closes = false) (ho : op.opens = false) :
    (ts ++ op :: us).IsChain Follows := by
  refine ht.append (List.isChain_cons.2 ⟨fun u _ => follows_of_not_closes hc u, hu⟩) ?_
  intro t _ u hmem
  obtain rfl : op = u := by simpa using hmem
  exact follows_of_not_opens ho t

theorem isChain_follows_enclose {ts : List Token} (ht : ts.IsChain Follows) :
    List.IsChain Follows (.lparen :: ts ++ [.rparen]) := by
  refine List.isChain_cons.2 ⟨fun u _ => follows_of_not_closes rfl u, ?_⟩
  refine ht.append (by simp) ?_
  intro t _ u hmem
  obtain rfl : Token.rparen = u := by simpa using hmem
  exact follows_of_not_opens rfl t

/-- In a formula no operand follows another one. -/
theorem Derives.follows {l : Level} {ts : List Token} {e : Expr} (h : Derives l ts e) :
    ts.IsChain Follows := by
  induction h with
  | ofProduct _ ih | ofSigned _ ih | ofPower _ ih | ofPrimary _ ih => exact ih
  | plus _ _ iha ihb | minus _ _ iha ihb | times _ _ iha ihb | divided _ _ iha ihb
  | raise _ _ iha ihb => exact isChain_follows_join iha ihb rfl rfl
  | negative _ ih | positive _ ih =>
    exact List.isChain_cons.2 ⟨fun u _ => follows_of_not_closes rfl u, ih⟩
  | number c => simp
  | name x => simp
  | enclose _ ih => exact isChain_follows_enclose ih
  | call hf _ ih =>
    refine List.isChain_cons.2 ⟨?_, isChain_follows_enclose ih⟩
    intro u hu
    obtain rfl : Token.lparen = u := by simpa using hu
    exact fun _ _ => ⟨by simp [Token.isFunction, hf], rfl⟩

/-! ## The names of a formula -/

/-- Every name is the variable, or the name of a function in front of a parenthesis. -/
def NamesIn (x : String) : List Token → Prop
  | [] => True
  | .name y :: ts =>
    (y = x ∨ (function? y).isSome = true ∧ ts.head? = some .lparen) ∧ NamesIn x ts
  | _ :: ts => NamesIn x ts

theorem NamesIn.tail {x : String} {t : Token} {ts : List Token} (h : NamesIn x (t :: ts)) :
    NamesIn x ts := by
  cases t with
  | name y => exact h.2
  | _ => exact h

theorem NamesIn.append {x : String} {ts us : List Token} (ht : NamesIn x ts)
    (hu : NamesIn x us) : NamesIn x (ts ++ us) := by
  induction ts with
  | nil => exact hu
  | cons t ts ih =>
    cases t with
    | name y =>
      obtain ⟨hy, hts⟩ := ht
      refine ⟨hy.imp_right fun ⟨hf, hhead⟩ => ⟨hf, ?_⟩, ih hts⟩
      obtain ⟨vs, rfl⟩ := List.head?_eq_some_iff.1 hhead
      rfl
    | _ => exact ih ht

/-- A function in a formula has no variables of its own. -/
theorem occurrences_of_function? {x : String} {f : Expr → Expr} (h : function? x = some f)
    (e : Expr) : (f e).occurrences = e.occurrences := by
  have hmem := function?_eq_some_iff_mem.1 h
  simp only [functions, List.mem_cons, Prod.mk.injEq, List.not_mem_nil, or_false] at hmem
  rcases hmem with ⟨-, rfl⟩ | ⟨-, rfl⟩ | ⟨-, rfl⟩ | ⟨-, rfl⟩ | ⟨-, rfl⟩ | ⟨-, rfl⟩ | ⟨-, rfl⟩ <;>
    simp [Expr.sqrt, Expr.occurrences]

/-- The names of a formula are its variables and its functions. -/
theorem Derives.namesIn {l : Level} {ts : List Token} {e : Expr} (h : Derives l ts e) {x : String}
    (hx : ∀ y ∈ e.occurrences, y = x) : NamesIn x ts := by
  induction h with
  | ofProduct _ ih | ofSigned _ ih | ofPower _ ih | ofPrimary _ ih => exact ih hx
  | plus _ _ iha ihb | minus _ _ iha ihb | times _ _ iha ihb | divided _ _ iha ihb
  | raise _ _ iha ihb =>
    have ha := iha fun y hy => hx y (List.mem_append_left _ hy)
    have hb := ihb fun y hy => hx y (List.mem_append_right _ hy)
    exact ha.append hb
  | negative _ ih | positive _ ih => exact ih hx
  | number c => trivial
  | name y => exact ⟨.inl (hx y (by simp [Expr.occurrences])), trivial⟩
  | enclose _ ih => exact NamesIn.append (ih hx) trivial
  | call hf _ ih =>
    rw [occurrences_of_function? hf] at hx
    exact ⟨.inr ⟨by simp [hf], rfl⟩, NamesIn.append (ih hx) trivial⟩

/-! ## Parentheses that change nothing -/

/-- The second list has some operands of the first one in parentheses, none of them the name of a
function. -/
inductive Parens : List Token → List Token → Prop
| nil :
  Parens [] []
| keep {ts us : List Token} (t : Token) :
  Parens ts us →
  Parens (t :: ts) (t :: us)
| enclose {ts us : List Token} {t : Token} :
  t.isOperand = true →
  t.isFunction = false →
  Parens ts us →
  Parens (t :: ts) (.lparen :: t :: .rparen :: us)

/-- Parentheses are set in each part of a list. -/
theorem Parens.split {ts us vs : List Token} (h : Parens (ts ++ us) vs) :
    ∃ ts' us', vs = ts' ++ us' ∧ Parens ts ts' ∧ Parens us us' := by
  induction ts generalizing vs with
  | nil => exact ⟨[], vs, rfl, .nil, h⟩
  | cons t ts ih =>
    cases h with
    | keep _ h =>
      obtain ⟨ts', us', rfl, ht, hu⟩ := ih h
      exact ⟨t :: ts', us', rfl, .keep t ht, hu⟩
    | enclose ho hf h =>
      obtain ⟨ts', us', rfl, ht, hu⟩ := ih h
      exact ⟨_, us', rfl, .enclose ho hf ht, hu⟩

/-- Only operands are put into parentheses. -/
theorem Parens.cons_of_not_enclosed {t : Token} {ts vs : List Token} (h : Parens (t :: ts) vs)
    (ht : t.isOperand = true → t.isFunction = true) : ∃ us, vs = t :: us ∧ Parens ts us := by
  cases h with
  | keep _ h => exact ⟨_, rfl, h⟩
  | enclose ho hf _ => simp [ht ho] at hf

theorem Parens.join {ts us vs : List Token} {op : Token} (hop : op.isOperand = false)
    (h : Parens (ts ++ op :: us) vs) :
    ∃ ts' us', vs = ts' ++ op :: us' ∧ Parens ts ts' ∧ Parens us us' := by
  obtain ⟨ts', ws, rfl, ht, hw⟩ := h.split
  obtain ⟨us', rfl, hu⟩ := hw.cons_of_not_enclosed (by simp [hop])
  exact ⟨ts', us', rfl, ht, hu⟩

theorem Parens.enclosed {ts vs : List Token} (h : Parens (.lparen :: ts ++ [.rparen]) vs) :
    ∃ us, vs = .lparen :: us ++ [.rparen] ∧ Parens ts us := by
  obtain ⟨ws, rfl, hw⟩ := h.cons_of_not_enclosed (by simp [Token.isOperand])
  obtain ⟨us, ws, rfl, hu, hend⟩ := hw.split
  obtain ⟨vs, rfl, hnil⟩ := hend.cons_of_not_enclosed (by simp [Token.isOperand])
  cases hnil
  exact ⟨us, rfl, hu⟩

/-- A primary part in parentheses. -/
theorem Derives.inParentheses {ts : List Token} {e : Expr} (h : Derives .primary ts e) :
    Derives .primary (.lparen :: ts ++ [.rparen]) e :=
  .enclose (.ofProduct (.ofSigned h.primary_signed))

/-- Parentheses around operands do not change what is derived. -/
theorem Derives.parens {l : Level} {ts us : List Token} {e : Expr} (h : Derives l ts e)
    (hp : Parens ts us) : Derives l us e := by
  induction h generalizing us with
  | ofProduct _ ih => exact .ofProduct (ih hp)
  | ofSigned _ ih => exact .ofSigned (ih hp)
  | ofPower _ ih => exact .ofPower (ih hp)
  | ofPrimary _ ih => exact .ofPrimary (ih hp)
  | plus _ _ iha ihb =>
    obtain ⟨ts', us', rfl, ht, hu⟩ := hp.join rfl
    exact .plus (iha ht) (ihb hu)
  | minus _ _ iha ihb =>
    obtain ⟨ts', us', rfl, ht, hu⟩ := hp.join rfl
    exact .minus (iha ht) (ihb hu)
  | times _ _ iha ihb =>
    obtain ⟨ts', us', rfl, ht, hu⟩ := hp.join rfl
    exact .times (iha ht) (ihb hu)
  | divided _ _ iha ihb =>
    obtain ⟨ts', us', rfl, ht, hu⟩ := hp.join rfl
    exact .divided (iha ht) (ihb hu)
  | raise _ _ iha ihb =>
    obtain ⟨ts', us', rfl, ht, hu⟩ := hp.join rfl
    exact .raise (iha ht) (ihb hu)
  | negative _ ih =>
    obtain ⟨us', rfl, hu⟩ := hp.cons_of_not_enclosed (by simp [Token.isOperand])
    exact .negative (ih hu)
  | positive _ ih =>
    obtain ⟨us', rfl, hu⟩ := hp.cons_of_not_enclosed (by simp [Token.isOperand])
    exact .positive (ih hu)
  | number c =>
    cases hp with
    | keep _ hnil =>
      cases hnil
      exact .number c
    | enclose _ _ hnil =>
      cases hnil
      exact (Derives.number c).inParentheses
  | name x =>
    cases hp with
    | keep _ hnil =>
      cases hnil
      exact .name x
    | enclose _ _ hnil =>
      cases hnil
      exact (Derives.name x).inParentheses
  | enclose _ ih =>
    obtain ⟨us', rfl, hu⟩ := hp.enclosed
    exact .enclose (ih hu)
  | call hf _ ih =>
    obtain ⟨vs, rfl, hv⟩ := hp.cons_of_not_enclosed (fun _ => by simp [Token.isFunction, hf])
    obtain ⟨us', rfl, hu⟩ := hv.enclosed
    exact .call hf (ih hu)

/-! ## Quotients of single tokens -/

/-- The list with both sides of every quotient of operands in parentheses, from left to right.  A
right side is not the left side of another quotient. -/
def wrap : List Token → List Token
  | t :: .over :: u :: ts =>
    if t.isOperand && u.isOperand then
      .lparen :: t :: .rparen :: .over :: .lparen :: u :: .rparen :: wrap ts
    else t :: wrap (.over :: u :: ts)
  | t :: ts => t :: wrap ts
  | [] => []

/-- Whether `wrap` puts the name of a function into parentheses as the right side of a quotient. -/
def dividesByCall : List Token → Bool
  | t :: .over :: u :: ts =>
    if t.isOperand && u.isOperand then u.isFunction || dividesByCall ts
    else dividesByCall (.over :: u :: ts)
  | _ :: ts => dividesByCall ts
  | [] => false

theorem wrap_quotient {t u : Token} (ht : t.isOperand = true) (hu : u.isOperand = true)
    (ts : List Token) : wrap (t :: .over :: u :: ts) =
      .lparen :: t :: .rparen :: .over :: .lparen :: u :: .rparen :: wrap ts := by
  rw [wrap, if_pos (by simp [ht, hu])]

/-- A token that is not divided by an operand stays as it is. -/
theorem wrap_cons {t : Token} {ts : List Token}
    (h : ∀ u us, ts = .over :: u :: us → t.isOperand = true → u.isOperand = false) :
    wrap (t :: ts) = t :: wrap ts := by
  rw [wrap.eq_def]
  split
  next heq =>
    cases heq
    exact if_neg (by simpa using h _ _ rfl)
  next heq =>
    cases heq
    rfl
  next heq => cases heq

section

variable {x : String} (hx : function? x = none)
include hx

/-- The left side of a quotient is not the name of a function. -/
theorem isFunction_of_over {t : Token} {ts : List Token} (h : NamesIn x (t :: .over :: ts)) :
    t.isFunction = false := by
  cases t with
  | name y =>
    obtain ⟨rfl | ⟨-, hhead⟩, -⟩ := h
    · simp [Token.isFunction, hx]
    · cases hhead
  | _ => rfl

/-- Without a function as a right side, the parentheses of `wrap` change nothing. -/
theorem parens_wrap {ts : List Token} (h : NamesIn x ts) (hcall : dividesByCall ts = false) :
    Parens ts (wrap ts) := by
  induction ts using wrap.induct with
  | case1 t u ts hop ih =>
    rw [dividesByCall, if_pos hop, Bool.or_eq_false_iff] at hcall
    obtain ⟨ht, hu⟩ := Bool.and_eq_true_iff.1 hop
    rw [wrap_quotient ht hu]
    exact .enclose ht (isFunction_of_over hx h)
      (.keep .over (.enclose hu hcall.1 (ih h.tail.tail.tail hcall.2)))
  | case2 t u ts hop ih =>
    rw [dividesByCall, if_neg hop] at hcall
    rw [wrap, if_neg hop]
    exact .keep t (ih h.tail hcall)
  | case3 t ts hne ih =>
    rw [dividesByCall.eq_def] at hcall
    rw [wrap.eq_def]
    split at hcall
    next heq =>
      cases heq
      exact absurd rfl (hne _ _)
    next heq =>
      cases heq
      exact .keep t (ih h.tail hcall)
    next heq => cases heq
  | case4 => exact .nil

/-- The name of a function in parentheses is followed by the parenthesis of its argument. -/
theorem not_isChain_wrap {ts : List Token} (h : NamesIn x ts) (hcall : dividesByCall ts = true) :
    ¬ (wrap ts).IsChain Follows := by
  induction ts using wrap.induct with
  | case1 t u ts hop ih =>
    rw [dividesByCall, if_pos hop, Bool.or_eq_true] at hcall
    obtain ⟨ht, hu⟩ := Bool.and_eq_true_iff.1 hop
    rw [wrap_quotient ht hu]
    intro hchain
    have hrest : List.IsChain Follows (.rparen :: wrap ts) := hchain.tail.tail.tail.tail.tail.tail
    rcases hcall with hfun | hcall
    · have hhead : ts.head? = some .lparen := by
        cases u with
        | name y =>
          obtain ⟨rfl | ⟨-, hhead⟩, -⟩ := h.tail.tail
          · simp [Token.isFunction, hx] at hfun
          · exact hhead
        | _ => cases hfun
      obtain ⟨us, rfl⟩ := List.head?_eq_some_iff.1 hhead
      rw [wrap_cons (by simp [Token.isOperand])] at hrest
      cases ((List.isChain_cons.1 hrest).1 .lparen rfl rfl rfl).1
    · exact ih h.tail.tail.tail hcall hrest.tail
  | case2 t u ts hop ih =>
    rw [dividesByCall, if_neg hop] at hcall
    rw [wrap, if_neg hop]
    exact fun hchain => ih h.tail hcall hchain.tail
  | case3 t ts hne ih =>
    rw [dividesByCall.eq_def] at hcall
    rw [wrap.eq_def]
    split at hcall
    next heq =>
      cases heq
      exact absurd rfl (hne _ _)
    next heq =>
      cases heq
      exact fun hchain => ih h.tail hcall hchain.tail
    next heq => cases heq
  | case4 => cases hcall

end

end MarketAlgebra.Formula
