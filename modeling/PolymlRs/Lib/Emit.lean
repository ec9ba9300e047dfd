import Mathlib.Data.List.GetD

set_option autoImplicit false

/-! # Translators that emit code

A translator emits the instructions of a block one after the other, ends the block with a terminator that
hands values to the next blocks, and goes on with another block. The value that an instruction gives is
only there when the code runs: the translator has a name for it and cannot look at it. So a translation is
a tree that goes on, below an instruction, for whatever value comes out, and what holds at the end of
every branch holds of the translator however the code runs. The same tree is run by a machine that has the
values. -/

/-- A block that control goes to, with the values for its parameters. -/
structure Edge (V : Type) where
  label : Nat
  args : List V

/-- The end of a block. -/
inductive Terminator (V : Type)
  | ret (v : V)
  | jump (e : Edge V)
  /-- To the first edge if `cond` is not zero. -/
  | brif (cond : V) (thenEdge elseEdge : Edge V)
  /-- To `default` if `cond` is not zero, else to the case with the number `index`. -/
  | brTable (cond index : V) (default : Edge V) (cases : List (Edge V))

def Terminator.edges {V : Type} : Terminator V → List (Edge V)
  | .ret _ => []
  | .jump e => [e]
  | .brif _ t e => [t, e]
  | .brTable _ _ d cases => d :: cases

/-- A translation over values `V`, with instructions `ι` that give a value and `κ` that do not. -/
inductive Emit (ι κ : Type → Type) (ε V α : Type)
  | done (a : α)
  | fail (e : ε)
  | panic
  | ins (i : ι V) (k : V → Emit ι κ ε V α)
  | eff (i : κ V) (k : Emit ι κ ε V α)
  | leave (t : Terminator V) (k : Emit ι κ ε V α)
  /-- Switch to a block with `n` parameters. -/
  | params (n : Nat) (k : List V → Emit ι κ ε V α)

namespace Emit

variable {ι κ : Type → Type} {ε V α β : Type}

def bind : Emit ι κ ε V α → (α → Emit ι κ ε V β) → Emit ι κ ε V β
  | done a, f => f a
  | fail e, _ => fail e
  | panic, _ => panic
  | ins i k, f => ins i (fun v => (k v).bind f)
  | eff i k, f => eff i (k.bind f)
  | leave t k, f => leave t (k.bind f)
  | params n k, f => params n (fun vs => (k vs).bind f)

instance : Monad (Emit ι κ ε V) where
  pure := done
  bind := bind

@[simp] theorem pure_eq (a : α) : (pure a : Emit ι κ ε V α) = done a := rfl
@[simp] theorem done_bind (a : α) (f : α → Emit ι κ ε V β) : done a >>= f = f a := rfl
@[simp] theorem fail_bind (e : ε) (f : α → Emit ι κ ε V β) :
    (fail e : Emit ι κ ε V α) >>= f = fail e := rfl
@[simp] theorem panic_bind (f : α → Emit ι κ ε V β) : (panic : Emit ι κ ε V α) >>= f = panic := rfl
@[simp] theorem ins_bind (i : ι V) (k : V → Emit ι κ ε V α) (f : α → Emit ι κ ε V β) :
    ins i k >>= f = ins i (fun v => k v >>= f) := rfl
@[simp] theorem eff_bind (i : κ V) (k : Emit ι κ ε V α) (f : α → Emit ι κ ε V β) :
    eff i k >>= f = eff i (k >>= f) := rfl
@[simp] theorem leave_bind (t : Terminator V) (k : Emit ι κ ε V α) (f : α → Emit ι κ ε V β) :
    leave t k >>= f = leave t (k >>= f) := rfl

theorem bind_done (e : Emit ι κ ε V α) : e.bind done = e := by
  induction e with
  | done _ | fail _ | panic => rfl
  | ins i k ih => exact congrArg (ins i) (funext ih)
  | eff i k ih => exact congrArg (eff i) ih
  | leave t k ih => exact congrArg (leave t) ih
  | params n k ih => exact congrArg (params n) (funext ih)

theorem bind_assoc {γ : Type} (e : Emit ι κ ε V α) (f : α → Emit ι κ ε V β) (g : β → Emit ι κ ε V γ) :
    (e.bind f).bind g = e.bind (fun a => (f a).bind g) := by
  induction e with
  | done _ | fail _ | panic => rfl
  | ins i k ih => exact congrArg (ins i) (funext ih)
  | eff i k ih => exact congrArg (eff i) ih
  | leave t k ih => exact congrArg (leave t) ih
  | params n k ih => exact congrArg (params n) (funext ih)

instance : LawfulMonad (Emit ι κ ε V) := LawfulMonad.mk' _ bind_done (fun _ _ => rfl) bind_assoc

/-- A list whose elements are all at hand. -/
theorem mapM_done {l : List α} {f : α → Emit ι κ ε V β} {g : α → β} (h : ∀ a ∈ l, f a = done (g a)) :
    l.mapM f = done (l.map g) := by
  induction l with
  | nil => rfl
  | cons a l ih =>
    rw [List.mapM_cons, h a List.mem_cons_self, done_bind, ih (fun b hb => h b (List.mem_cons_of_mem a hb))]
    rfl

/-! ## Where a translation ends -/

/-- However the code runs, no step panics, every edge satisfies `E` and every end satisfies `P`. -/
def Ends (E : Edge V → Prop) (P : α → Prop) : Emit ι κ ε V α → Prop
  | done a => P a
  | fail _ => True
  | panic => False
  | ins _ k => ∀ v, (k v).Ends E P
  | eff _ k => k.Ends E P
  | leave t k => (∀ e ∈ t.edges, E e) ∧ k.Ends E P
  | params n k => ∀ vs, vs.length = n → (k vs).Ends E P

/-- The translator comes to the end `a`. -/
def Reaches : Emit ι κ ε V α → α → Prop
  | done b, a => a = b
  | fail _, _ => False
  | panic, _ => False
  | ins _ k, a => ∃ v, (k v).Reaches a
  | eff _ k, a => k.Reaches a
  | leave _ k, a => k.Reaches a
  | params n k, a => ∃ vs, vs.length = n ∧ (k vs).Reaches a

/-- The translator gives up. -/
def Refuses : Emit ι κ ε V α → Prop
  | done _ => False
  | fail _ => True
  | panic => False
  | ins _ k => ∃ v, (k v).Refuses
  | eff _ k => k.Refuses
  | leave _ k => k.Refuses
  | params n k => ∃ vs, vs.length = n ∧ (k vs).Refuses

variable {E : Edge V → Prop} {P Q : α → Prop}

@[simp] theorem ends_done (a : α) : (done a : Emit ι κ ε V α).Ends E P ↔ P a := Iff.rfl
@[simp] theorem ends_fail (e : ε) : (fail e : Emit ι κ ε V α).Ends E P ↔ True := Iff.rfl
@[simp] theorem ends_panic : (panic : Emit ι κ ε V α).Ends E P ↔ False := Iff.rfl
@[simp] theorem ends_ins (i : ι V) (k : V → Emit ι κ ε V α) :
    (ins i k).Ends E P ↔ ∀ v, (k v).Ends E P := Iff.rfl
@[simp] theorem ends_eff (i : κ V) (k : Emit ι κ ε V α) : (eff i k).Ends E P ↔ k.Ends E P := Iff.rfl
@[simp] theorem ends_leave (t : Terminator V) (k : Emit ι κ ε V α) :
    (leave t k).Ends E P ↔ (∀ e ∈ t.edges, E e) ∧ k.Ends E P := Iff.rfl
@[simp] theorem ends_params (n : Nat) (k : List V → Emit ι κ ε V α) :
    (params n k).Ends E P ↔ ∀ vs, vs.length = n → (k vs).Ends E P := Iff.rfl

theorem Ends.of_reaches {e : Emit ι κ ε V α} (h : e.Ends E P) {a : α} (ha : e.Reaches a) : P a := by
  induction e with
  | done b => exact ha ▸ h
  | fail _ => exact ha.elim
  | panic => exact ha.elim
  | ins _ k ih =>
    obtain ⟨v, hv⟩ := ha
    exact ih v (h v) hv
  | eff _ k ih => exact ih h ha
  | leave _ k ih => exact ih h.2 ha
  | params n k ih =>
    obtain ⟨vs, hlen, hvs⟩ := ha
    exact ih vs (h vs hlen) hvs

theorem Ends.mono {E' : Edge V → Prop} {e : Emit ι κ ε V α} (h : e.Ends E P)
    (hE : ∀ d, E d → E' d) (hP : ∀ a, P a → Q a) : e.Ends E' Q := by
  induction e with
  | done a => exact hP a h
  | fail _ => trivial
  | panic => exact h
  | ins _ k ih => exact fun v => ih v (h v)
  | eff _ k ih => exact ih h
  | leave _ k ih => exact ⟨fun d hd => hE d (h.1 d hd), ih h.2⟩
  | params n k ih => exact fun vs hlen => ih vs (h vs hlen)

/-- A translation that goes on with another one. -/
theorem Ends.bind {Q : β → Prop} {e : Emit ι κ ε V α} {f : α → Emit ι κ ε V β} (h : e.Ends E P)
    (hf : ∀ a, P a → (f a).Ends E Q) : (e >>= f).Ends E Q := by
  induction e with
  | done a => exact hf a h
  | fail _ => trivial
  | panic => exact h
  | ins _ k ih => exact fun v => ih v (h v)
  | eff _ k ih => exact ih h
  | leave _ k ih => exact ⟨h.1, ih h.2⟩
  | params n k ih => exact fun vs hlen => ih vs (h vs hlen)

/-- A translation gives up where a part of it does. -/
theorem Refuses.bind {e : Emit ι κ ε V α} {f : α → Emit ι κ ε V β} (h : e.Refuses) : (e >>= f).Refuses := by
  induction e with
  | done _ => exact h.elim
  | fail _ => trivial
  | panic => exact h.elim
  | ins _ k ih =>
    obtain ⟨v, hv⟩ := h
    exact ⟨v, ih v hv⟩
  | eff _ k ih => exact ih h
  | leave _ k ih => exact ih h
  | params n k ih =>
    obtain ⟨vs, hlen, hvs⟩ := h
    exact ⟨vs, hlen, ih vs hvs⟩

theorem Refuses.of_reaches {e : Emit ι κ ε V α} {f : α → Emit ι κ ε V β} {a : α} (ha : e.Reaches a)
    (h : (f a).Refuses) : (e >>= f).Refuses := by
  induction e with
  | done b => exact ha ▸ h
  | fail _ => exact ha.elim
  | panic => exact ha.elim
  | ins _ k ih =>
    obtain ⟨v, hv⟩ := ha
    exact ⟨v, ih v hv⟩
  | eff _ k ih => exact ih ha
  | leave _ k ih => exact ih ha
  | params n k ih =>
    obtain ⟨vs, hlen, hvs⟩ := ha
    exact ⟨vs, hlen, ih vs hvs⟩

/-! ## Running the code -/

/-- What the instructions do in a machine with states `σ`; nothing where the machine traps. -/
structure Machine (ι κ : Type → Type) (V σ : Type) where
  ins : ι V → σ → Option (V × σ)
  eff : κ V → σ → Option σ
  isZero : V → Bool
  index : V → Nat

/-- How a run of the code of one translation ends. -/
inductive Outcome (V σ α : Type)
  /-- At the place where the translator is done. -/
  | goesOn (a : α) (s : σ)
  | jumps (e : Edge V) (s : σ)
  | returns (v : V) (s : σ)

variable {σ : Type} (m : Machine ι κ V σ)

def Terminator.take (s : σ) : Terminator V → Outcome V σ α
  | .ret v => .returns v s
  | .jump e => .jumps e s
  | .brif c t e => .jumps (if m.isZero c then e else t) s
  | .brTable c i d cases => .jumps (if m.isZero c then cases.getD (m.index i) d else d) s

/-- Run the code until it leaves the block, or comes to its end. -/
def exec : Emit ι κ ε V α → σ → Option (Outcome V σ α)
  | done a, s => some (.goesOn a s)
  | fail _, _ => none
  | panic, _ => none
  | ins i k, s =>
    match m.ins i s with
    | none => none
    | some (v, s') => (k v).exec s'
  | eff i k, s =>
    match m.eff i s with
    | none => none
    | some s' => k.exec s'
  | leave t _, s => some (Terminator.take m s t)
  | params _ _, _ => none

variable {m}

@[simp] theorem exec_done (a : α) (s : σ) :
    (done a : Emit ι κ ε V α).exec m s = some (.goesOn a s) := rfl

@[simp] theorem exec_leave (t : Terminator V) (k : Emit ι κ ε V α) (s : σ) :
    (leave t k).exec m s = some (Terminator.take m s t) := rfl

theorem exec_ins {i : ι V} {k : V → Emit ι κ ε V α} {s s' : σ} {v : V} (hi : m.ins i s = some (v, s')) :
    (ins i k).exec m s = (k v).exec m s' := by
  simp only [exec, hi]

theorem exec_eff {i : κ V} {k : Emit ι κ ε V α} {s s' : σ} (hi : m.eff i s = some s') :
    (eff i k).exec m s = k.exec m s' := by
  simp only [exec, hi]

/-- A run that goes on with another translation. -/
theorem exec_bind {e : Emit ι κ ε V α} {f : α → Emit ι κ ε V β} {s s' : σ} {a : α}
    (h : e.exec m s = some (.goesOn a s')) : (e >>= f).exec m s = (f a).exec m s' := by
  induction e generalizing s with
  | done b =>
    cases h
    rfl
  | fail _ => cases h
  | panic => cases h
  | ins i k ih =>
    cases hi : m.ins i s with
    | none => simp [exec, hi] at h
    | some r =>
      rw [exec_ins hi] at h
      rw [ins_bind, exec_ins hi, ih r.1 h]
  | eff i k ih =>
    cases hi : m.eff i s with
    | none => simp [exec, hi] at h
    | some r =>
      rw [exec_eff hi] at h
      rw [eff_bind, exec_eff hi, ih h]
  | leave t k _ => cases t <;> cases h
  | params n k _ => cases h

/-- A run comes to an end of the translator. -/
theorem reaches_of_exec {e : Emit ι κ ε V α} {s s' : σ} {a : α}
    (h : e.exec m s = some (.goesOn a s')) : e.Reaches a := by
  induction e generalizing s with
  | done b =>
    cases h
    rfl
  | fail _ => cases h
  | panic => cases h
  | ins i k ih =>
    unfold exec at h
    cases hi : m.ins i s with
    | none => simp [hi] at h
    | some r =>
      rw [hi] at h
      exact ⟨r.1, ih r.1 h⟩
  | eff i k ih =>
    unfold exec at h
    cases hi : m.eff i s with
    | none => simp [hi] at h
    | some r =>
      rw [hi] at h
      exact ih h
  | leave t k _ =>
    unfold exec at h
    cases t <;> cases h
  | params n k _ => cases h

/-- Where a run leaves the block is an edge of the translation. -/
theorem Ends.of_exec_jump {e : Emit ι κ ε V α} {s s' : σ} {d : Edge V} (h : e.Ends E P)
    (hexec : e.exec m s = some (.jumps d s')) : E d := by
  induction e generalizing s with
  | done b => cases hexec
  | fail _ => cases hexec
  | panic => cases hexec
  | ins i k ih =>
    unfold exec at hexec
    cases hi : m.ins i s with
    | none => simp [hi] at hexec
    | some r =>
      rw [hi] at hexec
      exact ih r.1 (h r.1) hexec
  | eff i k ih =>
    unfold exec at hexec
    cases hi : m.eff i s with
    | none => simp [hi] at hexec
    | some r =>
      rw [hi] at hexec
      exact ih h hexec
  | leave t k _ =>
    refine h.1 d ?_
    unfold exec at hexec
    cases t with
    | ret v => cases hexec
    | jump e =>
      cases hexec
      exact List.mem_singleton.2 rfl
    | brif c t e =>
      cases hexec
      by_cases hc : m.isZero c = true <;> simp [Terminator.edges, hc]
    | brTable c i d cases =>
      cases hexec
      by_cases hc : m.isZero c = true
      · simp only [hc, if_true, Terminator.edges, List.mem_cons]
        by_cases hi : m.index i < cases.length
        · rw [List.getD_eq_getElem _ _ hi]
          exact Or.inr (List.getElem_mem hi)
        · rw [List.getD_eq_default _ _ (Nat.not_lt.1 hi)]
          exact Or.inl rfl
      · simp [Terminator.edges, hc]
  | params n k _ => cases hexec

end Emit
