import Mathlib.Logic.Basic

set_option autoImplicit false

/-! # Fallible computations on a state

A computation that may fail and keeps its state when it does. `Ignores` says of one that it neither looks
at nor changes a part of the state, so that its runs on states that differ in that part differ in nothing
else; `Preserves` says that it keeps what holds of the state. Both are closed under the ways in which
computations are put together. -/

theorem Except.bind_eq_ok {ε α β : Type} {x : Except ε α} {f : α → Except ε β} {b : β} :
    x >>= f = .ok b ↔ ∃ a, x = .ok a ∧ f a = .ok b := by
  cases x with
  | error e => simp [Bind.bind, Except.bind]
  | ok a => simp [Bind.bind, Except.bind]

abbrev Fallible (σ ε α : Type) := ExceptT ε (StateM σ) α

namespace Fallible

variable {σ ε α β κ : Type}

def exec (c : Fallible σ ε α) (s : σ) : Except ε α × σ := c s

/-- A computation given by its runs. -/
def make (f : σ → Except ε α × σ) : Fallible σ ε α := f

/-- Read a part of the state. -/
def look (f : σ → α) : Fallible σ ε α := make fun s => (.ok (f s), s)

def change (f : σ → σ) : Fallible σ ε Unit := make fun s => (.ok (), f s)

@[simp] theorem exec_make (f : σ → Except ε α × σ) (s : σ) : (make f).exec s = f s := rfl

@[simp] theorem exec_pure (a : α) (s : σ) : (pure a : Fallible σ ε α).exec s = (.ok a, s) := rfl

@[simp] theorem exec_throw (e : ε) (s : σ) : (throw e : Fallible σ ε α).exec s = (.error e, s) := rfl

theorem exec_bind (c : Fallible σ ε α) (f : α → Fallible σ ε β) (s : σ) :
    (c >>= f).exec s = match c.exec s with
      | (.ok a, t) => (f a).exec t
      | (.error e, t) => (.error e, t) := by
  show (ExceptT.bindCont f (c s).1) (c s).2 = _
  unfold exec
  rcases c s with ⟨_ | _, _⟩ <;> rfl

theorem exec_bind_ok {c : Fallible σ ε α} {s t : σ} {a : α} (f : α → Fallible σ ε β)
    (h : c.exec s = (.ok a, t)) : (c >>= f).exec s = (f a).exec t := by
  rw [exec_bind, h]

theorem exec_bind_error {c : Fallible σ ε α} {s t : σ} {e : ε} (f : α → Fallible σ ε β)
    (h : c.exec s = (.error e, t)) : (c >>= f).exec s = (.error e, t) := by
  rw [exec_bind, h]

/-- `c` neither looks at nor changes what `set` replaces. -/
def Ignores (set : κ → σ → σ) (c : Fallible σ ε α) : Prop :=
  ∀ k s, c.exec (set k s) = ((c.exec s).1, set k (c.exec s).2)

variable {set : κ → σ → σ}

theorem Ignores.pure (a : α) : Ignores set (pure a : Fallible σ ε α) := fun _ _ => rfl

theorem Ignores.throw (e : ε) : Ignores set (throw e : Fallible σ ε α) := fun _ _ => rfl

theorem Ignores.look {f : σ → α} (h : ∀ k s, f (set k s) = f s) :
    Ignores set (look f : Fallible σ ε α) := by
  intro k s
  show (Except.ok (f (set k s)), set k s) = _
  rw [h]
  rfl

/-- A step that fails or not, changes the state or not, without looking at the part. -/
theorem Ignores.make {f : σ → Except ε α × σ} (h : ∀ k s, f (set k s) = ((f s).1, set k (f s).2)) :
    Ignores set (make f) := h

theorem Ignores.bind {c : Fallible σ ε α} {f : α → Fallible σ ε β} (hc : Ignores set c)
    (hf : ∀ a, Ignores set (f a)) : Ignores set (c >>= f) := by
  intro k s
  have hrun := hc k s
  cases hs : c.exec s with
  | mk r t =>
    rw [hs] at hrun
    cases r with
    | ok a => rw [exec_bind_ok f hrun, exec_bind_ok f hs, hf a k t]
    | error e => rw [exec_bind_error f hrun, exec_bind_error f hs]

theorem Ignores.map {c : Fallible σ ε α} (f : α → β) (hc : Ignores set c) : Ignores set (f <$> c) := by
  rw [← bind_pure_comp]
  exact hc.bind (fun a => Ignores.pure (f a))

theorem Ignores.ite {p : Prop} [Decidable p] {c d : Fallible σ ε α} (hc : Ignores set c)
    (hd : Ignores set d) : Ignores set (if p then c else d) := by
  split
  · exact hc
  · exact hd

/-- A run on a changed state, from the run on the state. -/
theorem Ignores.exec_set {c : Fallible σ ε α} (hc : Ignores set c) {s t : σ} {r : Except ε α}
    (h : c.exec s = (r, t)) (k : κ) : c.exec (set k s) = (r, set k t) := by
  rw [hc k s, h]

/-- What holds before `c` holds after it, also when it fails. -/
def Preserves (P : σ → Prop) (c : Fallible σ ε α) : Prop := ∀ s, P s → P (c.exec s).2

variable {P : σ → Prop}

theorem Preserves.pure (a : α) : Preserves P (pure a : Fallible σ ε α) := fun _ h => h

theorem Preserves.throw (e : ε) : Preserves P (throw e : Fallible σ ε α) := fun _ h => h

theorem Preserves.look (f : σ → α) : Preserves P (look f : Fallible σ ε α) := fun _ h => h

theorem Preserves.make {f : σ → Except ε α × σ} (h : ∀ s, P s → P (f s).2) : Preserves P (make f) := h

/-- A part of the state that is known from what holds. -/
theorem Preserves.look_bind {f : σ → α} {a : α} {g : α → Fallible σ ε β} (ha : ∀ s, P s → f s = a)
    (hg : Preserves P (g a)) : Preserves P (Fallible.look f >>= g) := by
  intro s hs
  show P ((g (f s)).exec s).2
  rw [ha s hs]
  exact hg s hs

theorem Preserves.bind {c : Fallible σ ε α} {f : α → Fallible σ ε β} (hc : Preserves P c)
    (hf : ∀ a, Preserves P (f a)) : Preserves P (c >>= f) := by
  intro s hs
  have hrun := hc s hs
  rw [exec_bind]
  split
  · rename_i a t hexec
    rw [hexec] at hrun
    exact hf a t hrun
  · rename_i e t hexec
    rw [hexec] at hrun
    exact hrun

theorem Preserves.ite {p : Prop} [Decidable p] {c d : Fallible σ ε α} (hc : Preserves P c)
    (hd : Preserves P d) : Preserves P (if p then c else d) := by
  split
  · exact hc
  · exact hd

end Fallible
