import Mathlib.Logic.Basic

set_option autoImplicit false

/-! # Steps up to an outcome

A step gives the next state and, once there is nothing left to do, an outcome. `upTo` takes at most a given
number of steps and stops at the first outcome. -/

variable {σ ρ : Type}

/-- How many steps were taken, what they ended with, and where. -/
def upTo (step : σ → Option ρ × σ) : Nat → σ → Nat × Option ρ × σ
  | 0, s => (0, none, s)
  | n + 1, s =>
    match step s with
    | (none, t) => ((upTo step n t).1 + 1, (upTo step n t).2)
    | (some r, t) => (1, some r, t)

variable {step : σ → Option ρ × σ} {s t : σ} {r : ρ} {n m : Nat}

theorem upTo_succ_of_none (h : step s = (none, t)) :
    upTo step (n + 1) s = ((upTo step n t).1 + 1, (upTo step n t).2) := by
  rw [upTo, h]

theorem upTo_succ_of_some (h : step s = (some r, t)) : upTo step (n + 1) s = (1, some r, t) := by
  rw [upTo, h]

/-- What goes on after `n` steps goes on from where they led. -/
theorem upTo_add (h : upTo step n s = (n, none, t)) (m : Nat) :
    upTo step (n + m) s = (n + (upTo step m t).1, (upTo step m t).2) := by
  induction n generalizing s with
  | zero =>
    obtain rfl : s = t := congrArg (fun x => x.2.2) h
    rw [Nat.zero_add, Nat.zero_add]
  | succ n ih =>
    rcases hs : step s with ⟨_ | r, u⟩
    · rw [upTo_succ_of_none hs] at h
      have hcount : (upTo step n u).1 + 1 = n + 1 := congrArg Prod.fst h
      have hrest : (upTo step n u).2 = (none, t) := congrArg Prod.snd h
      have hu : upTo step n u = (n, none, t) := Prod.ext (Nat.succ.inj hcount) hrest
      rw [Nat.succ_add, upTo_succ_of_none hs, ih hu]
      exact Prod.ext (by dsimp only; omega) rfl
    · rw [upTo_succ_of_some hs] at h
      cases congrArg (fun x => x.2.1) h

/-- An outcome stays the outcome when more steps are allowed. -/
theorem upTo_of_outcome {k : Nat} (h : upTo step n s = (k, some r, t)) (m : Nat) :
    upTo step (n + m) s = (k, some r, t) := by
  induction n generalizing s k with
  | zero => cases congrArg (fun x => x.2.1) h
  | succ n ih =>
    rw [Nat.succ_add]
    rcases hs : step s with ⟨_ | r', u⟩
    · rw [upTo_succ_of_none hs] at h ⊢
      have hcount : (upTo step n u).1 + 1 = k := congrArg Prod.fst h
      have hrest : (upTo step n u).2 = (some r, t) := congrArg Prod.snd h
      rw [ih (Prod.ext rfl hrest), hcount]
    · rw [upTo_succ_of_some hs] at h ⊢
      exact h
