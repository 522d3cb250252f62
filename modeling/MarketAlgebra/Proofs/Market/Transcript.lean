import Mathlib.Data.List.Basic
import MarketAlgebra.Market.Equilibrium

/-!
# Transcripts of computations on top of an engine

Nothing is assumed about the engine here.  It keeps a state of any kind, so it may answer a call
with any result or any failure, and the same call differently the next time.  `Engine.observed`
writes down every call with the answer to it, and changes nothing else.  `Runs` says of a
computation and of its observation that they end with the same result, after the exchanges of a
transcript.

When a failure of the engine ends a computation and is its result, the failed call is the last one
of the transcript (`Surfaced`).  `Surfaces` says so of a computation from every state, together with
what holds of the result and the transcript when no call fails.  It is kept when two computations
are put together (`Surfaces.bind`), so a statement about a whole computation is put together from
statements about its steps.
-/

namespace MarketAlgebra

/-- One call of an engine with the answer to it. -/
inductive Exchange where
  | parse (text x : String) (answer : Except AlgebraError Expr)
  | differentiate (e : Expr) (x : String) (answer : Except AlgebraError Expr)
  | solve (left right : Expr) (x : String) (answer : Except AlgebraError (List Expr))
  | substitute (e : Expr) (x : String) (value : Expr) (answer : Except AlgebraError Scalar)
  | integrate (e : Expr) (x : String) (lower upper : Expr) (answer : Except AlgebraError Scalar)

/-- The failure in an answer. -/
def failureOf {α : Type} : Except AlgebraError α → Option AlgebraError
  | .ok _ => none
  | .error cause => some cause

namespace Exchange

/-- The call. -/
def call : Exchange → Call
  | .parse text x _ => .parse text x
  | .differentiate e x _ => .differentiate e x
  | .solve left right x _ => .solve left right x
  | .substitute e x value _ => .substitute e x value
  | .integrate e x lower upper _ => .integrate e x lower upper

/-- The failure with which the call was answered. -/
def failure? : Exchange → Option AlgebraError
  | .parse _ _ answer => failureOf answer
  | .differentiate _ _ answer => failureOf answer
  | .solve _ _ _ answer => failureOf answer
  | .substitute _ _ _ answer => failureOf answer
  | .integrate _ _ _ _ answer => failureOf answer

/-- The call asks to read a text. -/
def reads : Exchange → Bool
  | .parse .. => true
  | _ => false

/-- The answers to calls of one kind, none of which asks to read a text. -/
structure Computes {α : Type} (exchange : Except AlgebraError α → Exchange) : Prop where
  failure?_eq : ∀ answer, (exchange answer).failure? = failureOf answer
  reads_eq : ∀ answer, (exchange answer).reads = false

theorem computes_differentiate (e : Expr) (x : String) : Computes (differentiate e x) :=
  ⟨fun _ => rfl, fun _ => rfl⟩

theorem computes_solve (left right : Expr) (x : String) : Computes (solve left right x) :=
  ⟨fun _ => rfl, fun _ => rfl⟩

theorem computes_substitute (e : Expr) (x : String) (value : Expr) :
    Computes (substitute e x value) :=
  ⟨fun _ => rfl, fun _ => rfl⟩

theorem computes_integrate (e : Expr) (x : String) (lower upper : Expr) :
    Computes (integrate e x lower upper) :=
  ⟨fun _ => rfl, fun _ => rfl⟩

end Exchange

/-- A transcript in which no call fails, and none asks to read a text. -/
def Undisturbed (log : List Exchange) : Prop :=
  ∀ p ∈ log, p.failure? = none ∧ p.reads = false

theorem Undisturbed.nil : Undisturbed [] :=
  List.forall_mem_nil _

theorem Undisturbed.append {l₁ l₂ : List Exchange} (h₁ : Undisturbed l₁) (h₂ : Undisturbed l₂) :
    Undisturbed (l₁ ++ l₂) :=
  List.forall_mem_append.2 ⟨h₁, h₂⟩

namespace Engine

variable {σ : Type}

/-- An answer that is written down with its call. -/
def observe {α : Type} (exchange : Except AlgebraError α → Exchange)
    (answer : StateM σ (Except AlgebraError α)) :
    StateT (List Exchange) (StateM σ) (Except AlgebraError α) := do
  let a ← answer
  modify (· ++ [exchange a])
  return a

/-- The engine that writes down every call with the answer to it. -/
def observed (engine : Engine (StateM σ)) : Engine (StateT (List Exchange) (StateM σ)) where
  parse text x := observe (.parse text x) (engine.parse text x)
  differentiate e x := observe (.differentiate e x) (engine.differentiate e x)
  solve left right x := observe (.solve left right x) (engine.solve left right x)
  substitute e x value := observe (.substitute e x value) (engine.substitute e x value)
  integrate e x lower upper :=
    observe (.integrate e x lower upper) (engine.integrate e x lower upper)

end Engine

namespace Market

variable {σ α β : Type}

/-! ## Runs -/

/-- A computation, and its observation, end with a result after the exchanges of a transcript. -/
structure Runs (c : ExceptT Error (StateM σ) α)
    (o : ExceptT Error (StateT (List Exchange) (StateM σ)) α) (s : σ) (r : Except Error α)
    (log : List Exchange) (s' : σ) : Prop where
  plain : c.run.run s = (r, s')
  observed : ∀ before, (o.run.run before).run s = ((r, before ++ log), s')

section

variable {c : ExceptT Error (StateM σ) α}
  {o : ExceptT Error (StateT (List Exchange) (StateM σ)) α}
  {g : α → ExceptT Error (StateM σ) β}
  {g' : α → ExceptT Error (StateT (List Exchange) (StateM σ)) β}
  {s s' s'' : σ} {log log' : List Exchange}

theorem Runs.pure (a : α) (s : σ) :
    Runs (Pure.pure a : ExceptT Error (StateM σ) α) (Pure.pure a) s (.ok a) [] s :=
  ⟨rfl, fun before => by rw [List.append_nil]; rfl⟩

theorem Runs.throw (e : Error) (s : σ) :
    Runs (MonadExcept.throw e : ExceptT Error (StateM σ) α) (MonadExcept.throw e) s (.error e) []
      s :=
  ⟨rfl, fun before => by rw [List.append_nil]; rfl⟩

theorem Runs.bind_error {e : Error} (h : Runs c o s (.error e) log s') :
    Runs (c >>= g) (o >>= g') s (.error e) log s' := by
  constructor
  · change (ExceptT.bindCont g (c.run.run s).1).run (c.run.run s).2 = _
    rw [h.plain]
    rfl
  · intro before
    change ((ExceptT.bindCont g' ((o.run.run before).run s).1.1).run
      ((o.run.run before).run s).1.2).run ((o.run.run before).run s).2 = _
    rw [h.observed]
    rfl

theorem Runs.bind_ok {a : α} {r : Except Error β} (h : Runs c o s (.ok a) log s')
    (hg : Runs (g a) (g' a) s' r log' s'') :
    Runs (c >>= g) (o >>= g') s r (log ++ log') s'' := by
  constructor
  · change (ExceptT.bindCont g (c.run.run s).1).run (c.run.run s).2 = _
    rw [h.plain]
    exact hg.plain
  · intro before
    change ((ExceptT.bindCont g' ((o.run.run before).run s).1.1).run
      ((o.run.run before).run s).1.2).run ((o.run.run before).run s).2 = _
    rw [h.observed, ← List.append_assoc]
    exact hg.observed _

/-! ## Endings -/

/-- What holds of a result and of the transcript that led to it. -/
abbrev Ending (α : Type) :=
  Except Error α → List Exchange → Prop

/-- From every state the computation comes to such an ending. -/
def Ends (c : ExceptT Error (StateM σ) α)
    (o : ExceptT Error (StateT (List Exchange) (StateM σ)) α) (P : Ending α) : Prop :=
  ∀ s, ∃ r log s', Runs c o s r log s' ∧ P r log

/-- The ending of a computation in two steps. -/
inductive Sequel (P : Ending α) (Q : α → Ending β) : Ending β
  | stopped {e : Error} {log : List Exchange} : P (.error e) log → Sequel P Q (.error e) log
  | continued {a : α} {r : Except Error β} {log log' : List Exchange} :
      P (.ok a) log → Q a r log' → Sequel P Q r (log ++ log')

/-- The ending of a computation that has a result. -/
def Returns (R : α → List Exchange → Prop) : Ending α :=
  fun r log => ∃ a, r = .ok a ∧ R a log

variable {P P' : Ending α} {Q : α → Ending β} {R : α → List Exchange → Prop}

/-- A second step always follows a first one that has a result. -/
theorem Sequel.of_returns {r : Except Error β} (h : Sequel (Returns R) Q r log) :
    ∃ a l l', log = l ++ l' ∧ R a l ∧ Q a r l' := by
  cases h with
  | stopped h =>
    obtain ⟨a, hr, -⟩ := h
    cases hr
  | continued h h' =>
    obtain ⟨a, hr, h⟩ := h
    obtain rfl := Except.ok.inj hr
    exact ⟨_, _, _, rfl, h, h'⟩

theorem Ends.mono (h : Ends c o P) (hP : ∀ {r log}, P r log → P' r log) : Ends c o P' := by
  intro s
  obtain ⟨r, log, s', hrun, hr⟩ := h s
  exact ⟨r, log, s', hrun, hP hr⟩

theorem Ends.pure_of {a : α} (h : P (.ok a) []) :
    Ends (Pure.pure a : ExceptT Error (StateM σ) α) (Pure.pure a) P :=
  fun s => ⟨.ok a, [], s, .pure a s, h⟩

theorem Ends.throw_of {e : Error} (h : P (.error e) []) :
    Ends (MonadExcept.throw e : ExceptT Error (StateM σ) α) (MonadExcept.throw e) P :=
  fun s => ⟨.error e, [], s, .throw e s, h⟩

theorem Ends.bind (h : Ends c o P) (hg : ∀ a, Ends (g a) (g' a) (Q a)) :
    Ends (c >>= g) (o >>= g') (Sequel P Q) := by
  intro s
  obtain ⟨r, log, s', hrun, hr⟩ := h s
  cases r with
  | error e => exact ⟨.error e, log, s', hrun.bind_error, .stopped hr⟩
  | ok a =>
    obtain ⟨r, log', s'', hrun', hr'⟩ := hg a s'
    exact ⟨r, log ++ log', s'', hrun.bind_ok hrun', .continued hr hr'⟩

theorem Ends.bind_ok (h : Ends c o (Returns R)) (hg : ∀ a, Ends (g a) (g' a) (Q a)) :
    Ends (c >>= g) (o >>= g') fun r log => ∃ a l l', log = l ++ l' ∧ R a l ∧ Q a r l' :=
  (h.bind hg).mono Sequel.of_returns

/-! ## Failures -/

/-- No call asks to read a text, a failed call is the last one and its failure the result, and the
ending is of the given kind when no call fails. -/
inductive Surfaced (P : Ending α) : Ending α
  | failed {before : List Exchange} {last : Exchange} {cause : AlgebraError} :
      Undisturbed before → last.failure? = some cause → last.reads = false →
      Surfaced P (.error (.symbolic cause)) (before ++ [last])
  | completed {r : Except Error α} {log : List Exchange} :
      Undisturbed log → P r log → Surfaced P r log

namespace Surfaced

variable {r : Except Error α}

/-- A failed call is the last one of the transcript, and its failure is the result. -/
theorem of_getElem? (h : Surfaced P r log) {n : ℕ} {p : Exchange} {cause : AlgebraError}
    (hp : log[n]? = some p) (hcause : p.failure? = some cause) :
    n + 1 = log.length ∧ r = .error (.symbolic cause) := by
  cases h with
  | completed hlog hr =>
    rw [(hlog p (List.mem_of_getElem? hp)).1] at hcause
    cases hcause
  | @failed before last cause' hbefore hlast hreads =>
    rcases Nat.lt_or_ge n before.length with hn | hn
    · rw [List.getElem?_append_left hn] at hp
      rw [(hbefore p (List.mem_of_getElem? hp)).1] at hcause
      cases hcause
    · rw [List.getElem?_append_right hn, List.getElem?_singleton] at hp
      split at hp
      case isFalse => cases hp
      case isTrue hn' =>
        obtain rfl := Option.some.inj hp
        obtain rfl := Option.some.inj (hlast.symm.trans hcause)
        exact ⟨by rw [List.length_append, List.length_singleton]; omega, rfl⟩

/-- No call asks to read a text. -/
theorem reads_eq (h : Surfaced P r log) : ∀ p ∈ log, p.reads = false := by
  cases h with
  | completed hlog hr => exact fun p hp => (hlog p hp).2
  | failed hbefore hlast hreads =>
    exact List.forall_mem_append.2
      ⟨fun p hp => (hbefore p hp).2, List.forall_mem_singleton.2 hreads⟩

/-- The ending is of the given kind when no call fails. -/
theorem of_failure? (h : Surfaced P r log) (hlog : ∀ p ∈ log, p.failure? = none) : P r log := by
  cases h with
  | completed _ hr => exact hr
  | failed hbefore hlast hreads =>
    rw [hlog _ (List.mem_append_right _ List.mem_cons_self)] at hlast
    cases hlast

theorem mono (h : Surfaced P r log) (hP : ∀ {r log}, P r log → P' r log) :
    Surfaced P' r log := by
  cases h with
  | failed hbefore hcause hreads => exact .failed hbefore hcause hreads
  | completed hlog hr => exact .completed hlog (hP hr)

/-- A failure in either of two steps ends both. -/
theorem of_sequel {r : Except Error β}
    (h : Sequel (Surfaced P) (fun a => Surfaced (Q a)) r log) : Surfaced (Sequel P Q) r log := by
  cases h with
  | stopped h =>
    cases h with
    | failed hbefore hcause hreads => exact .failed hbefore hcause hreads
    | completed hlog h => exact .completed hlog (.stopped h)
  | continued h h' =>
    cases h with
    | completed hlog h =>
      cases h' with
      | failed hbefore hcause hreads =>
        rw [← List.append_assoc]
        exact .failed (hlog.append hbefore) hcause hreads
      | completed hlog' h' => exact .completed (hlog.append hlog') (.continued h h')

end Surfaced

/-- Failures of the engine end the computation and are its result. -/
def Surfaces (c : ExceptT Error (StateM σ) α)
    (o : ExceptT Error (StateT (List Exchange) (StateM σ)) α) (P : Ending α) : Prop :=
  Ends c o (Surfaced P)

namespace Surfaces

theorem mono (h : Surfaces c o P) (hP : ∀ {r log}, P r log → P' r log) : Surfaces c o P' :=
  Ends.mono h fun hr => hr.mono hP

theorem bind (h : Surfaces c o P) (hg : ∀ a, Surfaces (g a) (g' a) (Q a)) :
    Surfaces (c >>= g) (o >>= g') (Sequel P Q) :=
  (Ends.bind h hg).mono Surfaced.of_sequel

theorem pure_of {a : α} (h : P (.ok a) []) :
    Surfaces (Pure.pure a : ExceptT Error (StateM σ) α) (Pure.pure a) P :=
  Ends.pure_of (.completed .nil h)

theorem throw_of {e : Error} (h : P (.error e) []) :
    Surfaces (MonadExcept.throw e : ExceptT Error (StateM σ) α) (MonadExcept.throw e) P :=
  Ends.throw_of (.completed .nil h)

/-- A computation that only has a result. -/
theorem pure (a : α) :
    Surfaces (Pure.pure a : ExceptT Error (StateM σ) α) (Pure.pure a)
      (Returns fun b log => b = a ∧ log = []) :=
  pure_of ⟨a, rfl, rfl, rfl⟩

theorem bind_ok (h : Surfaces c o (Returns R)) (hg : ∀ a, Surfaces (g a) (g' a) (Q a)) :
    Surfaces (c >>= g) (o >>= g') fun r log => ∃ a l l', log = l ++ l' ∧ R a l ∧ Q a r l' :=
  (h.bind hg).mono Sequel.of_returns

/-- A value that may be undefined involves no call, and the computation goes on with it. -/
theorem defined_bind {value : Except UndefinedValue α}
    (hg : ∀ a, Surfaces (g a) (g' a) (Q a)) :
    Surfaces (defined value >>= g) (Market.defined value >>= g') fun r log =>
      (∃ why, value = .error why ∧ r = .error (.symbolic (.undefined why)) ∧ log = []) ∨
        ∃ a, value = .ok a ∧ Q a r log := by
  cases value with
  | error why => exact throw_of (.inl ⟨why, rfl, rfl, rfl⟩)
  | ok a => exact (hg a).mono fun h => .inr ⟨a, rfl, h⟩

/-- A call of the engine. -/
theorem ask {exchange : Except AlgebraError α → Exchange} (hexchange : Exchange.Computes exchange)
    (answer : StateM σ (Except AlgebraError α)) :
    Surfaces (ask answer) (Market.ask (Engine.observe exchange answer))
      (Returns fun a log => log = [exchange (.ok a)]) := by
  intro s
  refine ⟨(answer.run s).1.mapError .symbolic, [exchange (answer.run s).1], (answer.run s).2,
    ⟨rfl, fun _ => rfl⟩, ?_⟩
  cases (answer.run s).1 with
  | error cause =>
    exact .failed .nil (hexchange.failure?_eq (.error cause)) (hexchange.reads_eq _)
  | ok a =>
    refine .completed ?_ ⟨a, rfl, rfl⟩
    exact List.forall_mem_singleton.2 ⟨hexchange.failure?_eq (.ok a), hexchange.reads_eq _⟩

/-- A call of the engine, after which the computation goes on with the answer. -/
theorem ask_bind {exchange : Except AlgebraError α → Exchange}
    (hexchange : Exchange.Computes exchange) {answer : StateM σ (Except AlgebraError α)}
    (hg : ∀ a, Surfaces (g a) (g' a) (Q a)) :
    Surfaces (Market.ask answer >>= g) (Market.ask (Engine.observe exchange answer) >>= g')
      fun r log => ∃ a rest, log = exchange (.ok a) :: rest ∧ Q a r rest := by
  refine ((ask hexchange answer).bind_ok hg).mono ?_
  rintro r _ ⟨a, _, rest, rfl, rfl, h⟩
  exact ⟨a, rest, rfl, h⟩

end Surfaces

end

end Market

end MarketAlgebra
