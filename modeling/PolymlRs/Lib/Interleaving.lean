import Mathlib.Logic.Function.Basic

set_option autoImplicit false

/-! # Interleavings

A machine is a set of operations, each enabled in some states. A run takes one enabled operation
after the other, in any order; a *guarded* run takes only operations that satisfy a condition in the
state they are taken in. What holds at the start and is preserved by every guarded operation holds
at the end (`Run.invariant`). Concrete runs are given by the list of their operations (`Trace`). -/

/-- The operations of a machine: when they are enabled, and what they do. -/
structure Machine (State Op : Type) where
  Enabled : State → Op → Prop
  exec : State → Op → State

namespace Machine

variable {State Op : Type}

/-- A run from `s` whose steps all satisfy `P` in the state before them. -/
inductive Run (M : Machine State Op) (P : State → Op → Prop) : State → State → Prop
  | refl (s : State) : Run M P s s
  | step {s s' : State} (op : Op) (hrun : Run M P s s') (he : M.Enabled s' op) (hP : P s' op) :
      Run M P s (M.exec s' op)

/-- The states that some interleaving leads to. -/
def Reachable (M : Machine State Op) (s s' : State) : Prop := M.Run (fun _ _ => True) s s'

variable {M : Machine State Op} {P Q : State → Op → Prop} {s s' : State}

theorem Run.invariant {I : State → Prop} (hrun : M.Run P s s') (hs : I s)
    (hstep : ∀ s op, I s → M.Enabled s op → P s op → I (M.exec s op)) : I s' := by
  induction hrun with
  | refl => exact hs
  | step op _ he hP ih => exact hstep _ op ih he hP

theorem Run.mono (hrun : M.Run P s s') (h : ∀ s op, P s op → Q s op) : M.Run Q s s' := by
  induction hrun with
  | refl => exact .refl _
  | step op _ he hP ih => exact .step op ih he (h _ op hP)

theorem Run.reachable (hrun : M.Run P s s') : M.Reachable s s' := hrun.mono (fun _ _ _ => trivial)

theorem Reachable.invariant {I : State → Prop} (hrun : M.Reachable s s') (hs : I s)
    (hstep : ∀ s op, I s → M.Enabled s op → I (M.exec s op)) : I s' :=
  Run.invariant hrun hs (fun s op hI he _ => hstep s op hI he)

/-- The operations of a list are enabled one after the other, and satisfy `P`. -/
def Trace (M : Machine State Op) (P : State → Op → Prop) : State → List Op → Prop
  | _, [] => True
  | s, op :: ops => M.Enabled s op ∧ P s op ∧ Trace M P (M.exec s op) ops

theorem Trace.run_from {s₀ : State} (hrun : M.Run P s₀ s) {ops : List Op} (h : M.Trace P s ops) :
    M.Run P s₀ (ops.foldl M.exec s) := by
  induction ops generalizing s with
  | nil => exact hrun
  | cons op ops ih => exact ih (hrun.step op h.1 h.2.1) h.2.2

theorem Trace.run {ops : List Op} (h : M.Trace P s ops) : M.Run P s (ops.foldl M.exec s) :=
  h.run_from (.refl s)

instance Trace.decidable [∀ s op, Decidable (M.Enabled s op)] [∀ s op, Decidable (P s op)] :
    ∀ (s : State) (ops : List Op), Decidable (M.Trace P s ops)
  | _, [] => inferInstanceAs (Decidable True)
  | s, op :: ops =>
    have : Decidable (M.Trace P (M.exec s op) ops) := Trace.decidable (M.exec s op) ops
    inferInstanceAs (Decidable (_ ∧ _ ∧ _))

end Machine
