import Mathlib.Data.List.Basic

set_option autoImplicit false

/-! # Computations that record what they touch

A computation on a state that may be refused at a guard and that lists, in order, every access it makes.
`Accepts` and `All` take a computation apart at its binds, so that for straight-line code with guards
"which runs get through" and "where is it that they read and write" are read off by rewriting. -/

/-- `width` bytes from `addr` on. -/
structure Span where
  addr : Nat
  width : Nat
deriving DecidableEq, Repr

/-- The span lies in one of the half-open ranges. -/
def Span.Within (ranges : List (Nat × Nat)) (s : Span) : Prop :=
  ∃ r ∈ ranges, r.1 ≤ s.addr ∧ s.addr + s.width ≤ r.2

instance (ranges : List (Nat × Nat)) (s : Span) : Decidable (s.Within ranges) :=
  inferInstanceAs (Decidable (∃ r ∈ ranges, _))

/-- The value, unless a guard refused; the state; the accesses made so far. -/
def Recorded (σ ε α : Type) := σ → Option α × σ × List ε

namespace Recorded

variable {σ ε α β : Type}

def result (c : Recorded σ ε α) (s : σ) : Option α := (c s).1

def final (c : Recorded σ ε α) (s : σ) : σ := (c s).2.1

def events (c : Recorded σ ε α) (s : σ) : List ε := (c s).2.2

protected def pure (a : α) : Recorded σ ε α := fun s => (some a, s, [])

protected def bind (c : Recorded σ ε α) (f : α → Recorded σ ε β) : Recorded σ ε β := fun s =>
  match c.result s with
  | none => (none, c.final s, c.events s)
  | some a => ((f a).result (c.final s), (f a).final (c.final s), c.events s ++ (f a).events (c.final s))

instance : Monad (Recorded σ ε) where
  pure := Recorded.pure
  bind := Recorded.bind

/-- Read off the state, with one access. -/
def load (e : ε) (f : σ → α) : Recorded σ ε α := fun s => (some (f s), s, [e])

/-- Change the state, with one access. -/
def store (e : ε) (f : σ → σ) : Recorded σ ε Unit := fun s => (some (), f s, [e])

/-- Refuse unless `b`. -/
def require (b : Bool) : Recorded σ ε Unit := fun s => (if b then some () else none, s, [])

/-- No guard refuses. -/
def Accepts (c : Recorded σ ε α) (s : σ) : Prop := (c.result s).isSome

/-- Every access satisfies `P`, also those before a guard refuses. -/
def All (P : ε → Prop) (c : Recorded σ ε α) (s : σ) : Prop := ∀ e ∈ c.events s, P e

instance (c : Recorded σ ε α) (s : σ) : Decidable (c.Accepts s) :=
  inferInstanceAs (Decidable (_ = true))

instance (P : ε → Prop) [DecidablePred P] (c : Recorded σ ε α) (s : σ) : Decidable (c.All P s) :=
  inferInstanceAs (Decidable (∀ e ∈ c.events s, P e))

variable {P : ε → Prop} {s : σ}

@[simp] theorem accepts_pure (a : α) : (pure a : Recorded σ ε α).Accepts s ↔ True := by
  simp [Accepts, result, pure, Recorded.pure]

@[simp] theorem all_pure (a : α) : (pure a : Recorded σ ε α).All P s ↔ True := by
  simp [All, events, pure, Recorded.pure]

@[simp] theorem accepts_load (e : ε) (f : σ → α) : (load e f).Accepts s ↔ True := by
  simp [Accepts, result, load]

@[simp] theorem all_load (e : ε) (f : σ → α) : (load e f).All P s ↔ P e := by
  simp [All, events, load]

@[simp] theorem accepts_store (e : ε) (f : σ → σ) : (store e f).Accepts s ↔ True := by
  simp [Accepts, result, store]

@[simp] theorem all_store (e : ε) (f : σ → σ) : (store e f).All P s ↔ P e := by
  simp [All, events, store]

theorem bind_none {c : Recorded σ ε α} (f : α → Recorded σ ε β) (h : c.result s = none) :
    (c >>= f) s = (none, c.final s, c.events s) := by
  simp only [Bind.bind, Recorded.bind, h]

theorem bind_some {c : Recorded σ ε α} (f : α → Recorded σ ε β) {a : α} (h : c.result s = some a) :
    (c >>= f) s = ((f a).result (c.final s), (f a).final (c.final s),
      c.events s ++ (f a).events (c.final s)) := by
  simp only [Bind.bind, Recorded.bind, h]

@[simp] theorem accepts_require (b : Bool) : (require b : Recorded σ ε Unit).Accepts s ↔ b = true := by
  cases b <;> simp [Accepts, result, require]

@[simp] theorem all_require (b : Bool) : (require b : Recorded σ ε Unit).All P s ↔ True := by
  simp [All, events, require]

/-- After a read the rest runs on the same state. -/
@[simp] theorem accepts_load_bind (e : ε) (g : σ → α) (f : α → Recorded σ ε β) :
    (load e g >>= f).Accepts s ↔ (f (g s)).Accepts s := by
  rw [Accepts, result, bind_some f rfl]
  rfl

@[simp] theorem all_load_bind (e : ε) (g : σ → α) (f : α → Recorded σ ε β) :
    (load e g >>= f).All P s ↔ P e ∧ (f (g s)).All P s := by
  rw [All, events, bind_some f rfl]
  exact List.forall_mem_cons

@[simp] theorem accepts_require_bind (b : Bool) (f : Unit → Recorded σ ε β) :
    (require b >>= f).Accepts s ↔ b = true ∧ (f ()).Accepts s := by
  cases b with
  | false =>
    rw [Accepts, result, bind_none f rfl]
    simp
  | true =>
    rw [Accepts, result, bind_some f rfl]
    simp [Accepts, final, require]

/-- A guard makes no access. -/
@[simp] theorem all_require_bind (b : Bool) (f : Unit → Recorded σ ε β) :
    (require b >>= f).All P s ↔ (b = true → (f ()).All P s) := by
  cases b with
  | false =>
    rw [All, events, bind_none f rfl]
    simp [events, require]
  | true =>
    rw [All, events, bind_some f rfl]
    simp [All, events, final, require]

@[simp] theorem accepts_store_bind (e : ε) (g : σ → σ) (f : Unit → Recorded σ ε β) :
    (store e g >>= f).Accepts s ↔ (f ()).Accepts (g s) := by
  rw [Accepts, result, bind_some f rfl]
  rfl

@[simp] theorem all_store_bind (e : ε) (g : σ → σ) (f : Unit → Recorded σ ε β) :
    (store e g >>= f).All P s ↔ P e ∧ (f ()).All P (g s) := by
  rw [All, events, bind_some f rfl]
  exact List.forall_mem_cons

/-- The laws let a shared part be taken out of a computation. -/
instance : LawfulMonad (Recorded σ ε) := LawfulMonad.mk' _
  (fun c => by
    funext s
    show Recorded.bind c (fun a => Recorded.pure a) s = c s
    rcases hc : c s with ⟨_ | a, s', t⟩ <;>
      simp [Recorded.bind, Recorded.pure, Recorded.result, Recorded.final, Recorded.events, hc])
  (fun a f => by
    funext s
    show Recorded.bind (Recorded.pure a) f s = f a s
    simp [Recorded.bind, Recorded.pure, Recorded.result, Recorded.final, Recorded.events])
  (fun c f g => by
    funext s
    show Recorded.bind (Recorded.bind c f) g s = Recorded.bind c (fun a => Recorded.bind (f a) g) s
    rcases hc : c s with ⟨_ | a, s', t⟩
    · simp [Recorded.bind, Recorded.result, Recorded.final, Recorded.events, hc]
    · rcases hf : f a s' with ⟨_ | b, s'', t'⟩ <;>
        simp [Recorded.bind, Recorded.result, Recorded.final, Recorded.events, hc, hf])

@[simp] theorem accepts_map (c : Recorded σ ε α) (f : α → β) : (f <$> c).Accepts s ↔ c.Accepts s := by
  rw [← bind_pure_comp, Accepts, Accepts]
  cases hc : c.result s with
  | none =>
    rw [result, bind_none _ hc]
    rfl
  | some a =>
    rw [result, bind_some _ hc]
    simp [result, pure, Recorded.pure]

@[simp] theorem all_map (c : Recorded σ ε α) (f : α → β) : (f <$> c).All P s ↔ c.All P s := by
  rw [← bind_pure_comp, All, All, events]
  cases hc : c.result s with
  | none => rw [bind_none _ hc]
  | some a =>
    rw [bind_some _ hc]
    simp [events, pure, Recorded.pure]

end Recorded
