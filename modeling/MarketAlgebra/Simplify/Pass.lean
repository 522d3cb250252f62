import Std.Data.HashMap
import MarketAlgebra.Simplify.Operation

/-!
# Simplification passes

A pass simplifies an expression from the leaves up (`Simplify.step`).  Passes are repeated until
the expression stays as it is, or until a limit is reached (`simplifyUpTo`).

What is run is `Simplify.cached`, which looks every subexpression up in a cache before it simplifies
it.  All passes share one cache.  A cache is sound when each entry is what a pass gives
(`Cache.Sound`), and `yields_cached` says that a sound cache never changes a result and stays sound.
-/

namespace MarketAlgebra

namespace Simplify

/-- One pass over an expression, from the leaves up. -/
def step : Expr → Expr
  | .var x => .var x
  | .const c => .const c
  | .add a b => add (step a) (step b)
  | .sub a b => sub (step a) (step b)
  | .mul a b => mul (step a) (step b)
  | .div a b => div (step a) (step b)
  | .pow a b => pow (step a) (step b)
  | .neg a => neg (step a)
  | .call f a => call f (step a)

/-! ## The cache -/

/-- Expressions and what a pass made of them. -/
abbrev Cache := Std.HashMap Expr Expr

/-- A cache in which every entry is what a pass gives. -/
def Cache.Sound (cache : Cache) : Prop :=
  ∀ e r, cache[e]? = some r → r = step e

theorem Cache.sound_empty : Cache.Sound ∅ := by
  intro e r h
  simp at h

theorem Cache.Sound.insert {cache : Cache} (h : cache.Sound) (e : Expr) :
    Cache.Sound (cache.insert e (step e)) := by
  intro d r hr
  rw [Std.HashMap.getElem?_insert] at hr
  split at hr
  next heq =>
    rw [← eq_of_beq heq]
    exact (Option.some.inj hr).symm
  next => exact h d r hr

/-- What the cache holds for an expression, or else the result of a computation, which is then
stored. -/
def memoized (e : Expr) (compute : Cache → Expr × Cache) (cache : Cache) : Expr × Cache :=
  match cache[e]? with
  | some r => (r, cache)
  | none =>
    let (r, cache) := compute cache
    (r, cache.insert e r)

/-- One computation on the results of two that run one after the other. -/
def both (op : Expr → Expr → Expr) (left right : Cache → Expr × Cache) (cache : Cache) :
    Expr × Cache :=
  let (x, cache) := left cache
  let (y, cache) := right cache
  (op x y, cache)

/-- One computation on the result of another one. -/
def after (op : Expr → Expr) (arg : Cache → Expr × Cache) (cache : Cache) : Expr × Cache :=
  let (x, cache) := arg cache
  (op x, cache)

/-- One pass over an expression that reads and fills a cache. -/
def cached : Expr → Cache → Expr × Cache
  | .var x => memoized (.var x) fun cache => (.var x, cache)
  | .const c => memoized (.const c) fun cache => (.const c, cache)
  | .add a b => memoized (.add a b) (both add (cached a) (cached b))
  | .sub a b => memoized (.sub a b) (both sub (cached a) (cached b))
  | .mul a b => memoized (.mul a b) (both mul (cached a) (cached b))
  | .div a b => memoized (.div a b) (both div (cached a) (cached b))
  | .pow a b => memoized (.pow a b) (both pow (cached a) (cached b))
  | .neg a => memoized (.neg a) (after neg (cached a))
  | .call f a => memoized (.call f a) (after (call f) (cached a))

/-- A computation that gives an expression and keeps every sound cache sound. -/
def Yields (compute : Cache → Expr × Cache) (r : Expr) : Prop :=
  ∀ cache, cache.Sound → (compute cache).1 = r ∧ (compute cache).2.Sound

theorem Yields.memoized {compute : Cache → Expr × Cache} {e : Expr} (h : Yields compute (step e)) :
    Yields (memoized e compute) (step e) := by
  intro cache hc
  unfold Simplify.memoized
  split
  next r hr => exact ⟨hc e r hr, hc⟩
  next =>
    obtain ⟨hr, hs⟩ := h cache hc
    exact ⟨hr, by simpa only [hr] using hs.insert e⟩

theorem Yields.both {left right : Cache → Expr × Cache} {x y : Expr} (op : Expr → Expr → Expr)
    (hl : Yields left x) (hr : Yields right y) : Yields (both op left right) (op x y) := by
  intro cache hc
  obtain ⟨hx, hs⟩ := hl cache hc
  obtain ⟨hy, ht⟩ := hr _ hs
  exact ⟨by simp [Simplify.both, hx, hy], ht⟩

theorem Yields.after {arg : Cache → Expr × Cache} {x : Expr} (op : Expr → Expr)
    (h : Yields arg x) : Yields (after op arg) (op x) := by
  intro cache hc
  obtain ⟨hx, hs⟩ := h cache hc
  exact ⟨by simp [Simplify.after, hx], hs⟩

/-- With a sound cache a cached pass gives what a pass gives, and the cache stays sound. -/
theorem yields_cached (e : Expr) : Yields (cached e) (step e) := by
  induction e with
  | var x | const c => exact .memoized fun _ hc => ⟨rfl, hc⟩
  | add a b iha ihb | sub a b iha ihb | mul a b iha ihb | div a b iha ihb | pow a b iha ihb =>
    exact .memoized (.both _ iha ihb)
  | neg a ih | call f a ih => exact .memoized (.after _ ih)

end Simplify

/-! ## Passes until nothing changes -/

/-- The largest number of passes in a full simplification. -/
def passLimit : Nat := 64

/-- One pass over an expression. -/
def simplifyOnce (e : Expr) : Expr := (Simplify.cached e ∅).1

namespace Simplify

/-- Passes over an expression until it stays as it is, but no more than `n` of them. -/
def passes : Nat → Expr → Cache → Expr
  | 0, e, _ => e
  | n + 1, e, cache =>
    let (next, cache) := cached e cache
    if next = e then e else passes n next cache

end Simplify

/-- Passes over an expression until it stays as it is, but no more than `limit` of them. -/
def simplifyUpTo (limit : Nat) (e : Expr) : Expr := Simplify.passes limit e ∅

/-- Passes over an expression until it stays as it is, but no more than `passLimit` of them. -/
def simplify (e : Expr) : Expr := simplifyUpTo passLimit e

end MarketAlgebra
