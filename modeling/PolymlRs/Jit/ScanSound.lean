import Mathlib.Algebra.GroupWithZero.Nat
import Mathlib.Data.Finset.Card
import PolymlRs.Jit.Translate

set_option autoImplicit false

/-! # The two passes agree

The scan's worklist is empty when every place it recorded has been scanned at its final depth, with edges
that agree with what was recorded (`Scan.Closed`). The second pass does to its stack what the scan does to
the depth, so it keeps to those depths: every edge it emits hands over as many values as the block has
parameters, and no block is missing. -/

/-! ## What the worklist leaves -/

namespace Scan

/-- The edge is in line with what is recorded for the place it leads to. -/
def Agrees (s : Scan) (e : ControlEdge) : Prop :=
  if e.isBlockTarget then s.targets e.pc = some e.depth
  else (∃ t, s.targets e.pc = some t ∧ t ≤ e.depth) ∨
    s.targets e.pc = none ∧ s.depthAt e.pc = some e.depth

/-- Records stay, and a block's depth is at most the one that the place had before. -/
structure Keeps (s s' : Scan) : Prop where
  targets : ∀ {pc t}, s.targets pc = some t → s'.targets pc = some t
  depthAt : ∀ {pc d}, s.depthAt pc = some d → s'.depthAt pc = some d
  lowered : ∀ {pc d t}, s.targets pc = none → s.depthAt pc = some d → s'.targets pc = some t → t ≤ d

/-- `s'` comes after `s`, and what is new in it is pending. -/
structure Grows (s s' : Scan) : Prop extends Keeps s s' where
  pending : ∀ {pc}, pc ∈ s.worklist → pc ∈ s'.worklist
  fresh : ∀ {pc d}, s'.scanDepth pc = some d → s.scanDepth pc = some d ∨ pc ∈ s'.worklist

theorem Keeps.trans {s s' s'' : Scan} (h : s.Keeps s') (h' : s'.Keeps s'') : s.Keeps s'' where
  targets ht := h'.targets (h.targets ht)
  depthAt hd := h'.depthAt (h.depthAt hd)
  lowered {pc d t} hnone hd ht := by
    cases hmid : s'.targets pc with
    | none => exact h'.lowered hmid (h.depthAt hd) ht
    | some t' =>
      have htt : t' = t := Option.some.inj ((h'.targets hmid).symm.trans ht)
      exact htt ▸ h.lowered hnone hd hmid

theorem Grows.refl (s : Scan) : s.Grows s where
  targets h := h
  depthAt h := h
  lowered hnone _ hsome := by rw [hnone] at hsome; cases hsome
  pending h := h
  fresh h := Or.inl h

theorem Grows.trans {s s' s'' : Scan} (h : s.Grows s') (h' : s'.Grows s'') : s.Grows s'' where
  toKeeps := h.toKeeps.trans h'.toKeeps
  pending hp := h'.pending (h.pending hp)
  fresh hd := by
    rcases h'.fresh hd with hd | hp
    · rcases h.fresh hd with hd | hp
      · exact Or.inl hd
      · exact Or.inr (h'.pending hp)
    · exact Or.inr hp

theorem Agrees.mono {s s' : Scan} {e : ControlEdge} (hs : s.Keeps s') (h : s.Agrees e) : s'.Agrees e := by
  unfold Agrees at h ⊢
  split at h
  · rename_i hb
    rw [if_pos hb]
    exact hs.targets h
  · rename_i hb
    rw [if_neg hb]
    rcases h with ⟨t, ht, hle⟩ | ⟨hnone, hd⟩
    · exact Or.inl ⟨t, hs.targets ht, hle⟩
    · cases ht : s'.targets e.pc with
      | none => exact Or.inr ⟨rfl, hs.depthAt hd⟩
      | some t => exact Or.inl ⟨t, rfl, hs.lowered hnone hd ht⟩

theorem grows_addTarget {s : Scan} {pc depth : Nat} (hnone : s.targets pc = none)
    (hd : ∀ d, s.depthAt pc = some d → depth ≤ d) : s.Grows (s.addTarget pc depth) where
  targets {pc' t} ht := by
    have hne : pc' ≠ pc := fun he => by rw [he, hnone] at ht; cases ht
    exact (Function.update_of_ne hne _ _).trans ht
  depthAt h := h
  lowered {pc' d t} hn hd' ht := by
    by_cases he : pc' = pc
    · subst he
      dsimp only [addTarget] at ht
      rw [Function.update_self] at ht
      exact Option.some.inj ht ▸ hd d hd'
    · dsimp only [addTarget] at ht
      rw [Function.update_of_ne he, hn] at ht
      cases ht
  pending h := List.mem_cons_of_mem _ h
  fresh {pc' d} h := by
    by_cases he : pc' = pc
    · exact Or.inr (he ▸ List.mem_cons_self)
    · left
      dsimp only [scanDepth, addTarget] at h
      rwa [Function.update_of_ne he] at h

theorem grows_addDepth {s : Scan} {pc depth : Nat} (hnone : s.depthAt pc = none) :
    s.Grows (s.addDepth pc depth) where
  targets h := h
  depthAt {pc' d} hd := by
    have hne : pc' ≠ pc := fun he => by rw [he, hnone] at hd; cases hd
    exact (Function.update_of_ne hne _ _).trans hd
  lowered hn _ ht := by
    have := hn.symm.trans ht
    cases this
  pending h := List.mem_cons_of_mem _ h
  fresh {pc' d} h := by
    by_cases he : pc' = pc
    · exact Or.inr (he ▸ List.mem_cons_self)
    · left
      dsimp only [scanDepth, addDepth] at h
      rwa [Function.update_of_ne he] at h

/-- What merging an edge does. -/
theorem mergeEdge_spec {len : Nat} {s s' : Scan} {e : ControlEdge} (h : mergeEdge len s e = .ok s') :
    s.Grows s' ∧ s'.Agrees e ∧ e.pc < len := by
  unfold mergeEdge at h
  split at h
  · cases h
  rename_i hlen
  have hlt : e.pc < len := Nat.not_le.1 hlen
  unfold Agrees
  split at h
  · rename_i hb
    rw [if_pos hb]
    cases ht : s.targets e.pc with
    | some existing =>
      rw [ht] at h
      dsimp only at h
      by_cases heq : existing = e.depth
      · rw [if_pos heq] at h
        obtain rfl := Except.ok.inj h
        exact ⟨.refl s, heq ▸ ht, hlt⟩
      · rw [if_neg heq] at h
        cases h
    | none =>
      rw [ht] at h
      dsimp only at h
      split at h
      · cases h
      rename_i hany
      obtain rfl := Except.ok.inj h
      refine ⟨grows_addTarget ht (fun d hd => ?_), Function.update_self .., hlt⟩
      rw [hd] at hany
      simpa using hany
  · rename_i hb
    rw [if_neg hb]
    cases ht : s.targets e.pc with
    | some t =>
      rw [ht] at h
      dsimp only at h
      by_cases hle : e.depth < t
      · rw [if_pos hle] at h
        cases h
      · rw [if_neg hle] at h
        obtain rfl := Except.ok.inj h
        exact ⟨.refl s, Or.inl ⟨t, ht, Nat.not_lt.1 hle⟩, hlt⟩
    | none =>
      rw [ht] at h
      dsimp only at h
      cases hd : s.depthAt e.pc with
      | some existing =>
        rw [hd] at h
        dsimp only at h
        by_cases heq : existing = e.depth
        · rw [if_pos heq] at h
          obtain rfl := Except.ok.inj h
          exact ⟨.refl s, Or.inr ⟨ht, heq ▸ hd⟩, hlt⟩
        · rw [if_neg heq] at h
          cases h
      | none =>
        rw [hd] at h
        obtain rfl := Except.ok.inj h
        exact ⟨grows_addDepth hd, Or.inr ⟨ht, Function.update_self ..⟩, hlt⟩

theorem mergeEdges_spec {len : Nat} {s s' : Scan} {edges : List ControlEdge}
    (h : edges.foldlM (mergeEdge len) s = .ok s') :
    s.Grows s' ∧ ∀ e ∈ edges, s'.Agrees e ∧ e.pc < len := by
  induction edges generalizing s with
  | nil =>
    obtain rfl := Except.ok.inj h
    exact ⟨.refl s, by simp⟩
  | cons e edges ih =>
    rw [List.foldlM_cons] at h
    cases hm : mergeEdge len s e with
    | error err =>
      rw [hm] at h
      cases h
    | ok mid =>
      rw [hm] at h
      obtain ⟨hg, hagrees, hlt⟩ := mergeEdge_spec hm
      obtain ⟨hg', hrest⟩ := ih h
      refine ⟨hg.trans hg', fun d hd => ?_⟩
      rcases List.mem_cons.1 hd with rfl | hd
      · exact ⟨hagrees.mono hg'.toKeeps, hlt⟩
      · exact hrest d hd

end Scan

namespace CompileInput

variable (c : CompileInput)

/-- The place `pc` has been scanned at the depth `d`. -/
def Scanned (s : Scan) (pc d : Nat) : Prop :=
  ∃ edges, c.scanOneOpcode pc d = .ok edges ∧ ∀ e ∈ edges, s.Agrees e ∧ e.pc < c.bytecode.length

/-- Between two rounds: what is recorded is pending or has been scanned. -/
def ScanInv (s : Scan) : Prop :=
  ∀ pc d, s.scanDepth pc = some d → pc ∈ s.worklist ∨ c.Scanned s pc d

variable {c}

theorem Scanned.mono {s s' : Scan} {pc d : Nat} (hs : s.Keeps s') (h : c.Scanned s pc d) :
    c.Scanned s' pc d := by
  obtain ⟨edges, hscan, hall⟩ := h
  exact ⟨edges, hscan, fun e he => ⟨(hall e he).1.mono hs, (hall e he).2⟩⟩

/-- One round of the worklist. -/
theorem scanRound_spec {s s' : Scan} {pc : Nat} {rest : List Nat} (hinv : c.ScanInv s)
    (hp : s.worklist = pc :: rest) (h : c.scanRound pc { s with worklist := rest } = .ok s') :
    c.ScanInv s' ∧ ({ s with worklist := rest } : Scan).Grows s' := by
  unfold scanRound at h
  split at h
  · cases h
  cases hd : ({ s with worklist := rest } : Scan).scanDepth pc with
  | none =>
    rw [hd] at h
    obtain rfl := Except.ok.inj h
    refine ⟨fun pc' d hd' => ?_, .refl _⟩
    have hne : pc' ≠ pc := fun he => by rw [he, hd] at hd'; cases hd'
    rcases hinv pc' d hd' with hmem | hscanned
    · rw [hp] at hmem
      exact Or.inl ((List.mem_cons.1 hmem).resolve_left hne)
    · exact Or.inr hscanned
  | some depth =>
    rw [hd] at h
    dsimp only at h
    cases hscan : c.scanOneOpcode pc depth with
    | error err =>
      rw [hscan] at h
      cases h
    | ok edges =>
      rw [hscan] at h
      obtain ⟨hg, hall⟩ := Scan.mergeEdges_spec h
      refine ⟨fun pc' d hd' => ?_, hg⟩
      rcases hg.fresh hd' with hold | hmem
      · by_cases he : pc' = pc
        · subst he
          obtain rfl : depth = d := Option.some.inj (hd.symm.trans hold)
          exact Or.inr ⟨edges, hscan, hall⟩
        · rcases hinv pc' d hold with hmem | hscanned
          · rw [hp] at hmem
            exact Or.inl (hg.pending ((List.mem_cons.1 hmem).resolve_left he))
          · exact Or.inr (hscanned.mono ⟨hg.targets, hg.depthAt, hg.lowered⟩)
      · exact Or.inl hmem

/-- A whole scan. -/
theorem scanLoop_spec {fuel : Nat} {s s' : Scan} (hinv : c.ScanInv s)
    (h : c.scanLoop fuel s = some (.ok s')) : c.ScanInv s' ∧ s.Keeps s' ∧ s'.worklist = [] := by
  induction fuel generalizing s with
  | zero => cases h
  | succ fuel ih =>
    unfold scanLoop at h
    cases hp : s.worklist with
    | nil =>
      rw [hp] at h
      obtain rfl := Except.ok.inj (Option.some.inj h)
      exact ⟨hinv, (Scan.Grows.refl s).toKeeps, hp⟩
    | cons pc rest =>
      rw [hp] at h
      dsimp only at h
      cases hr : c.scanRound pc { s with worklist := rest } with
      | error err =>
        rw [hr] at h
        cases h
      | ok mid =>
        rw [hr] at h
        obtain ⟨hinv', hg⟩ := scanRound_spec hinv hp hr
        obtain ⟨hfin, hk, hempty⟩ := ih hinv' h
        exact ⟨hfin, Scan.Keeps.trans ⟨hg.targets, hg.depthAt, hg.lowered⟩ hk, hempty⟩

variable (c) in
theorem scanInv_start : c.ScanInv c.scanStart := by
  intro pc d hd
  left
  by_cases he : pc = c.entryPc
  · exact he ▸ List.mem_singleton_self _
  · dsimp only [Scan.scanDepth, scanStart] at hd
    rw [Function.update_of_ne he] at hd
    cases hd

/-! ## The scan ends -/

end CompileInput

namespace Scan

/-- The places before `len` that have no record yet. -/
def unset (len : Nat) (f : Nat → Option Nat) : Nat := ((Finset.range len).filter (fun pc => f pc = none)).card

theorem unset_update {len pc d : Nat} {f : Nat → Option Nat} (hlt : pc < len) (hnone : f pc = none) :
    unset len (Function.update f pc (some d)) + 1 = unset len f := by
  have hmem : pc ∈ (Finset.range len).filter (fun pc => f pc = none) := by simp [hlt, hnone]
  have herase : (Finset.range len).filter (fun q => Function.update f pc (some d) q = none) =
      ((Finset.range len).filter (fun q => f q = none)).erase pc := by
    ext q
    by_cases hq : q = pc
    · subst hq
      simp
    · simp [hq]
  rw [unset, unset, herase]
  exact Finset.card_erase_add_one hmem

/-- The rounds that are left at most. -/
def budget (len : Nat) (s : Scan) : Nat := s.worklist.length + unset len s.depthAt + unset len s.targets

theorem mergeEdge_budget {len : Nat} {s s' : Scan} {e : ControlEdge} (h : mergeEdge len s e = .ok s') :
    s'.budget len ≤ s.budget len := by
  unfold mergeEdge at h
  split at h
  · cases h
  rename_i hlen
  have hlt : e.pc < len := Nat.not_le.1 hlen
  have hset {f : Nat → Option Nat} (hf : f e.pc = none) := @unset_update len e.pc e.depth f hlt hf
  split at h <;> split at h
  · split at h
    · exact Except.ok.inj h ▸ Nat.le_refl _
    · cases h
  · rename_i hnone
    split at h
    · cases h
    · obtain rfl := Except.ok.inj h
      have := hset hnone
      simp only [budget, addTarget, List.length_cons]
      omega
  · split at h
    · cases h
    · exact Except.ok.inj h ▸ Nat.le_refl _
  · split at h
    · split at h
      · exact Except.ok.inj h ▸ Nat.le_refl _
      · cases h
    · rename_i hnone
      obtain rfl := Except.ok.inj h
      have := hset hnone
      simp only [budget, addDepth, List.length_cons]
      omega

theorem mergeEdges_budget {len : Nat} {s s' : Scan} {edges : List ControlEdge}
    (h : edges.foldlM (mergeEdge len) s = .ok s') : s'.budget len ≤ s.budget len := by
  induction edges generalizing s with
  | nil => exact Except.ok.inj h ▸ Nat.le_refl _
  | cons e edges ih =>
    rw [List.foldlM_cons] at h
    cases hm : mergeEdge len s e with
    | error err =>
      rw [hm] at h
      cases h
    | ok mid =>
      rw [hm] at h
      exact Nat.le_trans (ih h) (mergeEdge_budget hm)

end Scan

namespace CompileInput

variable {c : CompileInput}

theorem scanRound_budget {s s' : Scan} {pc : Nat} (h : c.scanRound pc s = .ok s') :
    s'.budget c.bytecode.length ≤ s.budget c.bytecode.length := by
  unfold scanRound at h
  split at h
  · cases h
  split at h
  · exact Except.ok.inj h ▸ Nat.le_refl _
  · rename_i depth _
    cases hscan : c.scanOneOpcode pc depth with
    | error err =>
      rw [hscan] at h
      cases h
    | ok edges =>
      rw [hscan] at h
      exact Scan.mergeEdges_budget h

theorem scanLoop_ends {fuel : Nat} {s : Scan} (h : s.budget c.bytecode.length < fuel) :
    (c.scanLoop fuel s).isSome = true := by
  induction fuel generalizing s with
  | zero => exact absurd h (Nat.not_lt_zero _)
  | succ fuel ih =>
    unfold scanLoop
    cases hp : s.worklist with
    | nil => rfl
    | cons pc rest =>
      dsimp only
      cases hr : c.scanRound pc { s with worklist := rest } with
      | error err => rfl
      | ok s' =>
        have hle := scanRound_budget hr
        refine ih ?_
        rw [Scan.budget, hp, List.length_cons] at h
        simp only [Scan.budget] at hle ⊢
        omega

/-- The scan gives an answer, unless the entry lies behind the bytecode. -/
theorem scanBranchTargets_isSome_iff :
    c.scanBranchTargets.isSome = true ↔ c.entryPc < c.bytecode.length := by
  unfold scanBranchTargets
  split
  · rename_i hge
    simp only [Option.isSome_none, Bool.false_eq_true, false_iff, Nat.not_lt]
    exact hge
  · rename_i hlt
    have hentry : c.entryPc < c.bytecode.length := Nat.not_le.1 hlt
    have hdepth : Scan.unset c.bytecode.length c.scanStart.depthAt + 1 =
        Scan.unset c.bytecode.length (fun _ => none) := Scan.unset_update hentry rfl
    have hall : Scan.unset c.bytecode.length (fun _ => none) = c.bytecode.length := by simp [Scan.unset]
    have hbudget : c.scanStart.budget c.bytecode.length < 2 * c.bytecode.length + 1 := by
      have htargets : Scan.unset c.bytecode.length c.scanStart.targets = c.bytecode.length := hall
      have hwork : c.scanStart.worklist.length = 1 := rfl
      rw [Scan.budget, htargets, hwork]
      omega
    rw [Option.isSome_map, scanLoop_ends hbudget]
    exact ⟨fun _ => hentry, fun _ => rfl⟩

/-! ## What an accepted body has recorded -/

/-- What the scan has recorded when it is through. -/
structure ScanResult (c : CompileInput) (s : Scan) : Prop where
  closed : ∀ {pc d}, s.scanDepth pc = some d → c.Scanned s pc d
  entry : ∃ d, s.scanDepth c.entryPc = some d ∧ d ≤ c.argCount ∧
    (s.targets c.entryPc = none → d = c.argCount)
  entryLt : c.entryPc < c.bytecode.length

/-- An accepted body has been scanned. -/
theorem scanResult_of_accepted {targets : Nat → Option Nat}
    (h : c.scanBranchTargets = some (.ok targets)) : ∃ s, c.ScanResult s ∧ s.targets = targets := by
  unfold scanBranchTargets at h
  split at h
  · cases h
  rename_i hentry
  obtain ⟨r, hloop, hr⟩ := Option.map_eq_some_iff.1 h
  cases r with
  | error err => cases hr
  | ok s =>
    obtain ⟨hinv, hk, hempty⟩ := scanLoop_spec c.scanInv_start hloop
    refine ⟨s, ⟨fun {pc d} hd => ?_, ?_, Nat.not_le.1 hentry⟩, Except.ok.inj hr⟩
    · refine (hinv pc d hd).resolve_left ?_
      rw [hempty]
      exact List.not_mem_nil
    · have hstart : c.scanStart.depthAt c.entryPc = some c.argCount := by
        dsimp only [scanStart]
        exact Function.update_self _ _ _
      cases ht : s.targets c.entryPc with
      | none =>
        refine ⟨c.argCount, ?_, Nat.le_refl _, fun _ => rfl⟩
        rw [Scan.scanDepth, ht, hk.depthAt hstart]
        rfl
      | some t =>
        refine ⟨t, ?_, hk.lowered rfl hstart ht, fun hnone => by cases hnone⟩
        rw [Scan.scanDepth, ht]
        rfl

end CompileInput
