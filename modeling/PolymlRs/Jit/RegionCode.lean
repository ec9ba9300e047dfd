import Mathlib.Data.List.Sort
import Mathlib.Data.List.TakeWhile
import Mathlib.Tactic.Tauto
import PolymlRs.Jit.RegionRuns
import PolymlRs.Lib.Fallible

set_option autoImplicit false

/-! # Native code leads to native code

Every function of a registered region has been lowered. There is code at its entry, wherever its jumps go
and wherever an instruction is followed by the next, and what it calls by constant is a function of the
same region. So native code never runs off its end. -/

namespace Region

/-! ## The places with code -/

namespace ResolvedCode

variable {m : Mem} {rc : ResolvedCode} {blocks starts places : List Nat} {pc q fuel : Nat}
  {terminated : Bool}

theorem lt_after (hpc : pc < rc.bytecode.length) : pc < rc.after pc := by
  simp only [after, Disasm.decode, List.getElem?_eq_getElem hpc]
  split
  · split <;> (dsimp only; omega)
  · split <;> (dsimp only; omega)

theorem emitAllBlocks_cons
    (h : rc.emitAllBlocks m blocks (pc :: starts) terminated = .ok places) :
    pc ≠ 0 ∧ pc ∉ blocks ∧ terminated = true ∧ rc.emitAllBlocks m blocks starts true = .ok places ∨
    ∃ ends more, rc.emitOne m pc blocks = .ok ends ∧
      rc.emitAllBlocks m blocks starts ends = .ok more ∧ places = pc :: more := by
  rw [emitAllBlocks] at h
  split at h
  next hskip => exact .inl ⟨hskip.1, hskip.2.1, hskip.2.2, h⟩
  next =>
    obtain ⟨ends, hends, h⟩ := Except.bind_eq_ok.1 h
    obtain ⟨more, hmore, h⟩ := Except.bind_eq_ok.1 h
    exact .inr ⟨ends, more, hends, hmore, (Except.ok.inj h).symm⟩

/-- Code stands where an instruction starts, and each instruction is lowered. -/
theorem emitOne_of_mem (h : rc.emitAllBlocks m blocks starts terminated = .ok places) (hq : q ∈ places) :
    q ∈ starts ∧ ∃ ends, rc.emitOne m q blocks = .ok ends := by
  induction starts generalizing terminated places with
  | nil =>
    rw [emitAllBlocks] at h
    split at h
    · obtain rfl := Except.ok.inj h
      cases hq
    · cases h
  | cons pc starts ih =>
    rcases emitAllBlocks_cons h with ⟨-, -, -, hrest⟩ | ⟨ends, more, hends, hmore, rfl⟩
    · obtain ⟨hmem, hone⟩ := ih hrest hq
      exact ⟨List.mem_cons_of_mem pc hmem, hone⟩
    · rcases List.mem_cons.1 hq with rfl | hq
      · exact ⟨List.mem_cons_self, ends, hends⟩
      · obtain ⟨hmem, hone⟩ := ih hmore hq
        exact ⟨List.mem_cons_of_mem pc hmem, hone⟩

/-- The entry and the blocks have code. -/
theorem block_has_code (h : rc.emitAllBlocks m blocks starts terminated = .ok places) (hq : q ∈ starts)
    (hblock : q = 0 ∨ q ∈ blocks) : q ∈ places := by
  induction starts generalizing terminated places with
  | nil => cases hq
  | cons pc starts ih =>
    rcases emitAllBlocks_cons h with ⟨hpc, hnot, -, hrest⟩ | ⟨ends, more, -, hmore, rfl⟩
    · have hne : q ≠ pc := by
        rintro rfl
        exact hblock.elim hpc hnot
      exact ih hrest ((List.mem_cons.1 hq).resolve_left hne)
    · rcases List.mem_cons.1 hq with rfl | hq
      · exact List.mem_cons_self
      · exact List.mem_cons_of_mem pc (ih hmore hq)

/-- The walk does not come back. -/
theorem le_of_mem_boundaries (hq : q ∈ rc.boundaries fuel pc) : pc ≤ q := by
  induction fuel generalizing pc with
  | zero => cases hq
  | succ fuel ih =>
    rw [boundaries] at hq
    split at hq
    next hpc =>
      rcases List.mem_cons.1 hq with rfl | hq
      · exact Nat.le_refl q
      · exact (lt_after hpc).le.trans (ih hq)
    next => cases hq

/-- Behind an instruction that does not end its block there is code: the function would not end
otherwise. -/
theorem after_has_code (hfuel : rc.bytecode.length ≤ pc + fuel)
    (h : rc.emitAllBlocks m blocks (rc.boundaries fuel pc) terminated = .ok places) (hq : q ∈ places)
    (hends : rc.emitOne m q blocks = .ok false) : rc.after q ∈ places := by
  have hmem := (emitOne_of_mem h hq).1
  induction fuel generalizing pc terminated places with
  | zero => cases hmem
  | succ fuel ih =>
    have hle := le_of_mem_boundaries hmem
    rw [boundaries] at h hmem
    split at hmem
    next hpc =>
      have hafter := lt_after hpc
      rw [if_pos hpc] at h
      rcases emitAllBlocks_cons h with ⟨-, -, -, hrest⟩ | ⟨ends, more, hone, hmore, rfl⟩
      · exact ih (by omega) hrest hq (emitOne_of_mem hrest hq).1
      · refine List.mem_cons_of_mem pc ?_
        rcases List.mem_cons.1 hq with rfl | hq
        · -- the next instruction stands at the head of the rest
          obtain rfl : false = ends := Except.ok.inj (hends.symm.trans hone)
          cases hrest : rc.boundaries fuel (rc.after q) with
          | nil =>
            rw [hrest] at hmore
            cases hmore
          | cons next rest =>
            obtain rfl : rc.after q = next := by
              cases fuel with
              | zero => cases hrest
              | succ fuel =>
                rw [boundaries] at hrest
                split at hrest
                · exact (List.cons.inj hrest).1
                · cases hrest
            rw [hrest] at hmore
            rcases emitAllBlocks_cons hmore with ⟨-, -, hterm, -⟩ | ⟨_, more', -, -, rfl⟩
            · cases hterm
            · exact List.mem_cons_self
        · exact ih (by omega) hmore hq (emitOne_of_mem hmore hq).1
    next => cases hmem

/-- A block starts where an instruction starts, or at the end. -/
theorem mem_of_targets {ps : List Nat} (h : rc.targets m starts ps = .ok blocks) (hq : q ∈ blocks) :
    q ∈ starts ∨ q = rc.bytecode.length := by
  induction ps generalizing blocks with
  | nil =>
    obtain rfl := Except.ok.inj h
    cases hq
  | cons pc ps ih =>
    rw [targets] at h
    split at h
    · exact ih h hq
    next t ht =>
      split at h
      next hin =>
        obtain ⟨more, hmore, h⟩ := Except.bind_eq_ok.1 h
        obtain rfl := Except.ok.inj h
        rcases List.mem_cons.1 hq with rfl | hq
        · exact hin
        split at hq
        next hnext =>
          rcases List.mem_cons.1 hq with rfl | hq
          · exact .inl hnext
          · exact ih hmore hq
        next => exact ih hmore hq
      next => cases h

/-! ## A function that has been lowered -/

/-- Where an instruction goes there is code. -/
def Leads (places : List Nat) (after : Nat) : Flow → Prop
  | .next | .call _ | .callDynamic _ => after ∈ places
  | .goto target => target ∈ places
  | .ret | .raise | .stop _ => True

theorem zero_mem (h : rc.defineFunction m = .ok places) : 0 ∈ places := by
  obtain ⟨blocks, -, h⟩ := Except.bind_eq_ok.1 h
  by_cases hlen : 0 < rc.bytecode.length
  · refine block_has_code h ?_ (.inl rfl)
    obtain ⟨n, hn⟩ : ∃ n, rc.bytecode.length = n + 1 := ⟨rc.bytecode.length - 1, by omega⟩
    rw [starts, hn, boundaries, if_pos hlen]
    exact List.mem_cons_self
  · obtain hzero : rc.bytecode.length = 0 := by omega
    rw [starts, hzero] at h
    cases h

/-- A lowered instruction is one of the subset, starts where an instruction does, and leads to code. -/
theorem defineFunction_leads (h : rc.defineFunction m = .ok places) (hq : q ∈ places) :
    q ∈ rc.starts ∧ rc.opcode m q ≠ .unsupported ∧
      ∀ (d : Data) (sp : Int), Leads places (rc.after q) ((rc.opcode m q).emit d sp).2.2 := by
  obtain ⟨blocks, hblocks, h⟩ := Except.bind_eq_ok.1 h
  obtain ⟨hstart, ends, hone⟩ := emitOne_of_mem h hq
  have hnext : ends = false → rc.after q ∈ places := by
    rintro rfl
    exact after_has_code (by omega) h hq hone
  have htarget : ∀ t u, rc.blockAt blocks t = .ok u → t ∈ places := by
    intro t u ht
    rw [blockAt] at ht
    split at ht
    next hin =>
      have hne : t ≠ rc.bytecode.length := by omega
      exact block_has_code h ((mem_of_targets hblocks hin.1).resolve_right hne) (.inr hin.1)
    next => cases ht
  refine ⟨hstart, ?_, fun d sp => ?_⟩
  · intro hop
    rw [emitOne, hop] at hone
    dsimp only at hone
    split at hone <;> cases hone
  · rw [emitOne] at hone
    cases hop : rc.opcode m q <;> rw [hop] at hone <;> dsimp only at hone
    case jump t =>
      split at hone
      · obtain ⟨u, hu, -⟩ := Except.bind_eq_ok.1 hone
        exact htarget t u hu
      · cases hone
    case condJump t | localJump t =>
      split at hone
      next =>
        obtain ⟨u, hu, hone⟩ := Except.bind_eq_ok.1 hone
        obtain ⟨v, hv, -⟩ := Except.bind_eq_ok.1 hone
        simp only [Opcode.emit]
        split
        · exact htarget _ u hu
        · exact htarget _ v hv
      next => cases hone
    case ret => trivial
    case callConstAddr callee =>
      cases callee with
      | none => cases hone
      | some callee => exact hnext (Except.ok.inj hone).symm
    case pushConst =>
      split at hone
      · cases hone
      · exact hnext (Except.ok.inj hone).symm
    case unsupported => trivial
    all_goals
      have hafter := hnext (Except.ok.inj hone).symm
      simp only [Opcode.emit]
      try split
      all_goals first | exact hafter | trivial

end ResolvedCode

/-! ## Calls by constant -/

theorem mem_opcodeArms {get : Nat → UInt8} {pc : Nat} {callee : Nat → Option Nat} {op : Opcode}
    (h : opcodeAt get pc callee = op) (hne : op ≠ .unsupported) :
    ∃ ops, (ops, op) ∈ opcodeArms get pc callee ∧ get pc ∈ ops := by
  unfold opcodeAt at h
  split at h
  next ops op' hfind =>
    subst h
    exact ⟨ops, List.mem_of_find?_eq_some hfind, by simpa using List.find?_some hfind⟩
  next => exact absurd h.symm hne

theorem opcodeAt_call {get : Nat → UInt8} {pc : Nat} {callee : Nat → Option Nat} {c : Option Nat}
    (h : opcodeAt get pc callee = .callConstAddr c) :
    isCallConstAddr (get pc) = true ∧ callee (constReadAt get pc) = c := by
  obtain ⟨ops, hmem, hop⟩ := mem_opcodeArms h (by simp)
  have back : ∀ off : Nat, (if off ≤ pc then Opcode.jump (pc - off) else .unsupported) ≠
      .callConstAddr c := by
    intro off
    split <;> simp
  simp only [opcodeArms, List.mem_cons, List.not_mem_nil, Prod.mk.injEq, reduceCtorEq, and_false,
    or_false, false_or, Opcode.callConstAddr.injEq, Ne.symm (back _)] at hmem
  obtain ⟨rfl, rfl⟩ := hmem
  simpa [isCallConstAddr, or_assoc] using hop

/-- A call by constant leads to code. -/
theorem ResolvedCode.preflight_callee {m : Mem} {rc : ResolvedCode} {ps callees : List Nat} {q : Nat}
    (h : rc.preflight m ps = .ok callees) (hq : q ∈ ps) (hop : isCallConstAddr (rc.byte q) = true) :
    ∃ callee ∈ callees, rc.ccaTargetCodeAddr m q (constReadAt rc.byte q) = some callee := by
  induction ps generalizing callees with
  | nil => cases hq
  | cons pc ps ih =>
    rw [preflight] at h
    split at h
    next => cases h
    split at h
    next =>
      split at h
      next => cases h
      next callee hcallee =>
        obtain ⟨more, hmore, h⟩ := Except.bind_eq_ok.1 h
        obtain rfl := Except.ok.inj h
        rcases List.mem_cons.1 hq with rfl | hq
        · exact ⟨callee, List.mem_cons_self, hcallee⟩
        · obtain ⟨c, hc, htarget⟩ := ih hmore hq
          exact ⟨c, List.mem_cons_of_mem callee hc, htarget⟩
    next hnot =>
      rcases List.mem_cons.1 hq with rfl | hq
      · exact absurd hop hnot
      · exact ih h hq

theorem ResolvedCode.call_mem_preflight {m : Mem} {rc : ResolvedCode} {ps callees : List Nat} {q c : Nat}
    (h : rc.preflight m ps = .ok callees) (hq : q ∈ ps)
    (hop : rc.opcode m q = .callConstAddr (some c)) : c ∈ callees := by
  obtain ⟨hbyte, htarget⟩ := opcodeAt_call hop
  obtain ⟨callee, hcallee, htarget'⟩ := preflight_callee h hq hbyte
  obtain rfl := Option.some.inj (htarget'.symm.trans htarget)
  exact hcallee

/-! ## What is in a region -/

/-- The code of `a` passes the check, and what it calls is known. -/
def Resolved (m : Mem) (known : Nat → Prop) (a : Nat) : Prop :=
  ∃ rc callees, resolveCode m a = some rc ∧ rc.preflight m rc.starts = .ok callees ∧
    ∀ callee ∈ callees, known callee

section Discover

variable {m : Mem}

theorem Resolved.mono {known known' : Nat → Prop} {a : Nat} (hk : ∀ b, known b → known' b) :
    Resolved m known a → Resolved m known' a := by
  rintro ⟨rc, callees, hrc, hpre, hcallees⟩
  exact ⟨rc, callees, hrc, hpre, fun b hb => hk b (hcallees b hb)⟩

theorem mem_dropWhile_or {p : Nat → Bool} {l : List Nat} {a : Nat} (ha : a ∈ l) :
    p a = true ∨ a ∈ l.dropWhile p := by
  rw [← List.takeWhile_append_dropWhile (p := p) (l := l), List.mem_append] at ha
  rcases ha with ha | ha
  · exact .inl (List.mem_takeWhile_imp ha)
  · exact .inr ha

/-- When all of the worklist is resolved, the functions are complete. -/
theorem Resolved.closed {worklist resolved : List Nat}
    (hd : worklist.dropWhile (fun addr => decide (addr ∈ resolved)) = [])
    (hr : ∀ a ∈ resolved, Resolved m (fun b => b ∈ resolved ∨ b ∈ worklist) a) :
    (∀ a ∈ worklist, a ∈ resolved) ∧ ∀ a ∈ resolved, Resolved m (· ∈ resolved) a := by
  have hw : ∀ a ∈ worklist, a ∈ resolved := fun a ha => by
    simpa [hd] using mem_dropWhile_or (p := fun b => decide (b ∈ resolved)) ha
  exact ⟨hw, fun a ha => (hr a ha).mono (fun b hb => hb.elim id (hw b))⟩

/-- What is found contains what it started from and what was to be looked at, and all it calls. -/
theorem discover_spec {remaining : Nat} {worklist resolved : List Nat} {edges : List (Nat × Nat)}
    {funcs : List Nat} {calls : List (Nat × Nat)}
    (h : discover m remaining worklist resolved edges = .ok (funcs, calls))
    (hr : ∀ a ∈ resolved, Resolved m (fun b => b ∈ resolved ∨ b ∈ worklist) a) :
    (∀ a ∈ resolved, a ∈ funcs) ∧ (∀ a ∈ worklist, a ∈ funcs) ∧
      ∀ a ∈ funcs, Resolved m (· ∈ funcs) a := by
  induction remaining generalizing worklist resolved edges with
  | zero =>
    rw [discover] at h
    split at h
    next hd =>
      obtain ⟨rfl, -⟩ : resolved = funcs ∧ edges = calls := by simpa using h
      exact ⟨fun a ha => ha, Resolved.closed hd hr⟩
    next => cases h
  | succ remaining ih =>
    rw [discover] at h
    split at h
    next hd =>
      obtain ⟨rfl, -⟩ : resolved = funcs ∧ edges = calls := by simpa using h
      exact ⟨fun a ha => ha, Resolved.closed hd hr⟩
    next addr rest hd =>
      dsimp only at h
      split at h
      next => cases h
      next rc hrc =>
        obtain ⟨callees, hpre, h⟩ := Except.bind_eq_ok.1 h
        -- of the worklist, what is dropped is resolved, and the next is resolved now
        have known : ∀ b, b ∈ resolved ∨ b ∈ worklist →
            b ∈ addr :: resolved ∨ b ∈ callees.reverse ++ rest := by
          rintro b (hb | hb)
          · exact .inl (by simp [hb])
          · have := mem_dropWhile_or (p := fun b => decide (b ∈ resolved)) hb
            simp only [hd, decide_eq_true_eq, List.mem_cons] at this
            simp only [List.mem_cons, List.mem_append]
            tauto
        obtain ⟨hresolved, hworklist, hfuncs⟩ := ih h (fun a ha => by
          rcases List.mem_cons.mp ha with rfl | ha
          · exact ⟨rc, callees, hrc, hpre, fun b hb => .inr (by simp [hb])⟩
          · exact (hr a ha).mono known)
        refine ⟨fun a ha => hresolved a (by simp [ha]), fun a ha => ?_, hfuncs⟩
        rcases known a (.inr ha) with hb | hb
        · exact hresolved a hb
        · exact hworklist a hb

end Discover

/-! ## What is registered -/

section Build

variable {m : Mem} {compiles : Nat → Bool}

theorem defineAll_ok {addrs defined defined' : List Nat} {a : Nat}
    (h : defineAll m compiles addrs defined = (.ok (), defined')) (ha : a ∈ addrs) :
    ∃ rc places, resolveCode m a = some rc ∧ rc.defineFunction m = .ok places := by
  induction addrs generalizing defined with
  | nil => cases ha
  | cons addr addrs ih =>
    rw [defineAll] at h
    split at h
    next => cases h
    next rc hrc =>
      split at h
      next => cases h
      next places hplaces =>
        split at h
        next =>
          rcases List.mem_cons.1 ha with rfl | ha
          · exact ⟨rc, places, hrc, hplaces⟩
          · exact ih h ha
        next => cases h

/-- A region has its root and all that its functions call, and all of them are lowered. -/
structure CompiledMemRegion.Sound (m : Mem) (region : CompiledMemRegion) : Prop where
  root : region.root ∈ region.funcs
  resolved : ∀ a ∈ region.funcs, Resolved m (· ∈ region.funcs) a
  lowered : ∀ a ∈ region.funcs, ∃ rc places, resolveCode m a = some rc ∧ rc.defineFunction m = .ok places

theorem buildRegion_sound {root : Nat} {defined defined' : List Nat} {region : CompiledMemRegion}
    (h : buildRegion m compiles root defined = (.ok region, defined')) : region.Sound m := by
  unfold buildRegion at h
  split at h
  next => cases h
  next funcs edges hd =>
    split at h
    next => cases h
    next defined'' hdefine =>
      obtain ⟨rfl, -⟩ : _ = region ∧ defined'' = defined' := by simpa using h
      obtain ⟨-, hroot, hfuncs⟩ := discover_spec hd (by simp)
      exact ⟨hroot root (by simp), hfuncs, fun a ha =>
        defineAll_ok hdefine ((List.mem_insertionSort _).2 ha)⟩

theorem buildAll_sound {roots defined : List Nat} {region : CompiledMemRegion}
    (h : region ∈ buildAll m compiles roots defined) : region.Sound m := by
  induction roots generalizing defined with
  | nil => cases h
  | cons root roots ih =>
    rw [buildAll] at h
    split at h
    next => exact ih h
    next region' defined' hbuild =>
      split at h
      · exact ih h
      · rcases List.mem_cons.1 h with rfl | h
        · exact buildRegion_sound hbuild
        · exact ih h

end Build

theorem Opcode.emit_call {d : Data} {sp : Int} {op : Opcode} {callee : Nat}
    (h : (op.emit d sp).2.2 = .call callee) : op = .callConstAddr (some callee) := by
  cases op <;> simp only [Opcode.emit] at h <;> grind

namespace World

variable {w : World} {a pc after : Nat} {op : Opcode}

theorem regions_sound {region : CompiledMemRegion} (h : region ∈ w.regions) : region.Sound w.mem := by
  unfold regions installWholeRegion at h
  split at h
  · exact buildAll_sound h
  · cases h

/-- The code object is a function of some registered region. -/
def Covered (w : World) (a : Nat) : Prop := ∃ region ∈ w.regions, a ∈ region.funcs

theorem covered_of_registered (h : a ∈ w.registered) : w.Covered a := by
  obtain ⟨region, hr, rfl⟩ := List.mem_map.mp h
  exact ⟨region, hr, (regions_sound hr).root⟩

/-- There is native code at `pc` of the function `a`. -/
def Placed (w : World) (a pc : Nat) : Prop := w.Covered a ∧ (w.compiled a pc).isSome = true

/-- Where an instruction goes there is native code, and so at the entry of what it calls. -/
def LeadsOn (w : World) (a after : Nat) : Flow → Prop
  | .next | .callDynamic _ => w.Placed a after
  | .call callee => w.Placed a after ∧ w.Covered callee
  | .goto target => w.Placed a target
  | .ret | .raise | .stop _ => True

theorem Covered.entry (h : w.Covered a) : w.Placed a 0 := by
  obtain ⟨region, hr, ha⟩ := h
  obtain ⟨rc, places, hrc, hplaces⟩ := (regions_sound hr).lowered a ha
  refine ⟨⟨region, hr, ha⟩, ?_⟩
  simp only [compiled, hrc, hplaces, if_pos (ResolvedCode.zero_mem hplaces), Option.isSome_some]

/-- Native code of a region leads to native code of the region. -/
theorem Placed.leadsOn (h : w.Placed a pc) (hop : w.compiled a pc = some (op, after)) :
    op ≠ .unsupported ∧ ∀ (d : Data) (sp : Int), w.LeadsOn a after (op.emit d sp).2.2 := by
  obtain ⟨⟨region, hr, ha⟩, -⟩ := h
  have hsound := regions_sound hr
  obtain ⟨rc, places, hrc, hplaces⟩ := hsound.lowered a ha
  have placed : ∀ q ∈ places, w.Placed a q := by
    intro q hq
    refine ⟨⟨region, hr, ha⟩, ?_⟩
    simp only [compiled, hrc, hplaces, if_pos hq, Option.isSome_some]
  simp only [compiled, hrc, hplaces] at hop
  split at hop
  next hpc =>
    obtain ⟨rfl, rfl⟩ : rc.opcode w.mem pc = op ∧ rc.after pc = after := by simpa using hop
    obtain ⟨hstart, hne, hleads⟩ := ResolvedCode.defineFunction_leads hplaces hpc
    refine ⟨hne, fun d sp => ?_⟩
    have hlead := hleads d sp
    cases hflow : ((rc.opcode w.mem pc).emit d sp).2.2 with
    | next | goto | callDynamic =>
      rw [hflow] at hlead
      exact placed _ hlead
    | ret | raise | stop => trivial
    | call callee =>
      rw [hflow] at hlead
      refine ⟨placed _ hlead, ?_⟩
      obtain ⟨rc', callees, hrc', hpre, hcallees⟩ := hsound.resolved a ha
      obtain rfl := Option.some.inj (hrc.symm.trans hrc')
      exact ⟨region, hr, hcallees callee
        (ResolvedCode.call_mem_preflight hpre hstart (Opcode.emit_call hflow))⟩
  next => cases hop

end World

/-! ## The instructions that are read -/

section Decode

variable {get get' : Nat → UInt8} {pc : Nat} {callee callee' : Nat → Option Nat}

/-- The first entry with a key is the same in tables that have the same values there. -/
theorem find?_of_forall₂ {α β : Type} [DecidableEq α] {l l' : List (List α × β)} {a : α}
    (h : List.Forall₂ (fun x y => x.1 = y.1 ∧ (a ∈ x.1 → x.2 = y.2)) l l') :
    (l.find? (fun x => decide (a ∈ x.1))).map Prod.snd =
      (l'.find? (fun x => decide (a ∈ x.1))).map Prod.snd := by
  induction h with
  | nil => rfl
  | @cons x y l l' hxy _ ih =>
    obtain ⟨hkey, hval⟩ := hxy
    rw [List.find?_cons, List.find?_cons, ← hkey]
    by_cases ha : a ∈ x.1
    · simp only [ha, decide_true, Option.map_some, hval ha]
    · simpa only [ha, decide_false] using ih

theorem opcodeAt_eq_find : opcodeAt get pc callee =
    (((opcodeArms get pc callee).find? (fun arm => decide (get pc ∈ arm.1))).map Prod.snd).getD
      .unsupported := by
  unfold opcodeAt
  cases (opcodeArms get pc callee).find? (fun arm => decide (get pc ∈ arm.1)) <;> rfl

theorem afterOp_congr (hop : get' pc = get pc) : afterOp get' pc = afterOp get pc := by
  rw [afterOp, afterOp, hop]

/-- A byte that all of `ops` have. -/
theorem operand_congr {ops : List UInt8}
    (himm : ∀ i ≤ Disasm.immBytes (get pc), get' (pc + i) = get (pc + i)) (i : Nat)
    (hops : ops.all (fun op => decide (i ≤ Disasm.immBytes op)) = true) (h : get pc ∈ ops) :
    get' (pc + i) = get (pc + i) :=
  himm i (of_decide_eq_true (List.all_eq_true.1 hops _ h))

/-- The operands that say where a constant lies. -/
theorem constReadAt_congr (himm : ∀ i ≤ Disasm.immBytes (get pc), get' (pc + i) = get (pc + i))
    (hcall : isCallConstAddr (get pc) = true) : constReadAt get' pc = constReadAt get pc := by
  have hop : get' pc = get pc := himm 0 (Nat.zero_le _)
  have hafter := afterOp_congr hop
  unfold constReadAt immWide
  dsimp only
  rw [hafter, hop]
  split
  next h => rw [operand_congr himm 1 rfl h]
  split
  next h => rw [operand_congr himm 1 rfl h]
  split
  next h => rw [operand_congr himm 1 rfl h, operand_congr himm 2 rfl h]
  next =>
    have h : get pc ∈ [instrCallConstAddr16_8] := by
      simp only [isCallConstAddr, Bool.or_eq_true, beq_iff_eq] at hcall
      simp_all
    rw [operand_congr himm 1 rfl h, operand_congr himm 2 rfl h, operand_congr himm 3 rfl h]

/-- An instruction is made of its own bytes. -/
theorem opcodeAt_congr (himm : ∀ i ≤ Disasm.immBytes (get pc), get' (pc + i) = get (pc + i))
    (hcallee : isCallConstAddr (get pc) = true →
      callee' (constReadAt get' pc) = callee (constReadAt get pc)) :
    opcodeAt get' pc callee' = opcodeAt get pc callee := by
  have hop : get' pc = get pc := himm 0 (Nat.zero_le _)
  have hafter := afterOp_congr hop
  rw [opcodeAt_eq_find, opcodeAt_eq_find, hop]
  refine congrArg (fun o => Option.getD o Opcode.unsupported) (find?_of_forall₂ ?_)
  unfold opcodeArms immWide
  dsimp only
  rw [hafter, hop]
  repeat' apply List.Forall₂.cons
  all_goals try exact ⟨rfl, fun _ => rfl⟩
  all_goals try exact List.Forall₂.nil
  all_goals
    refine ⟨rfl, fun h => ?_⟩
    dsimp only at h ⊢
    try rw [operand_congr himm 1 rfl h]
    try rw [operand_congr himm 2 rfl h]
    try rw [operand_congr himm 3 rfl h]
  -- the calls by constant
  rw [hcallee (by simpa [isCallConstAddr, or_assoc] using h)]

end Decode

theorem resolveCode_eq {m : Mem} {a : Nat} {rc : ResolvedCode} (h : resolveCode m a = some rc) :
    a % 8 = 0 ∧ 2 ≤ m.objLen a ∧ rc.fullBody = m.readBytes a (m.objLen a * 8) ∧
      ∃ n ≤ m.objLen a * 8, rc.bytecode = m.readBytes a n := by
  unfold resolveCode at h
  split at h
  next => cases h
  next hok =>
    obtain ⟨bytecode, hbytecode, h⟩ := Option.bind_eq_some_iff.1 h
    obtain ⟨arity, -, h⟩ := Option.bind_eq_some_iff.1 h
    obtain rfl := Option.some.inj h
    unfold bytecodeOf at hbytecode
    dsimp only at hbytecode
    split at hbytecode
    · cases hbytecode
    · obtain rfl := Option.some.inj hbytecode
      exact ⟨by omega, by omega, rfl, _, Nat.min_le_right _ _, rfl⟩

namespace ResolvedCode

variable {m : Mem} {rc : ResolvedCode} {pc q fuel : Nat}

theorem lt_of_mem_boundaries (hq : q ∈ rc.boundaries fuel pc) : q < rc.bytecode.length := by
  induction fuel generalizing pc with
  | zero => cases hq
  | succ fuel ih =>
    rw [boundaries] at hq
    split at hq
    · rcases List.mem_cons.1 hq with rfl | hq
      · assumption
      · exact ih hq
    · cases hq

/-- The interpreter goes on where the decoder does. -/
theorem after_eq_afterOp (hpc : pc < rc.bytecode.length) (hop : rc.opcode m pc ≠ .unsupported) :
    rc.after pc = afterOp rc.byte pc := by
  have hbyte : rc.byte pc = rc.bytecode[pc] := by
    rw [byte, List.getD_eq_getElem?_getD, List.getElem?_eq_getElem hpc, Option.getD_some]
  have hcase : rc.byte pc ≠ instrCase16 := by
    intro h
    refine hop ?_
    rw [opcode, opcodeAt_eq_find, h]
    rfl
  have hescape : rc.byte pc ≠ instrEscape := by
    intro h
    refine hop ?_
    rw [opcode, opcodeAt_eq_find, h]
    rfl
  rw [after, afterOp, Disasm.decode, List.getElem?_eq_getElem hpc]
  dsimp only
  rw [← hbyte, if_neg hcase, if_neg hescape]
  dsimp only
  omega

theorem ccaTargetCodeAddr_eq_some {readAt callee : Nat} (h : rc.ccaTargetCodeAddr m pc readAt = some callee) :
    ∃ closure, rc.constWord pc readAt = some closure ∧ isAligned closure = true ∧
      callee = (m closure.toNat).toNat := by
  obtain ⟨closure, hclosure, h⟩ := Option.bind_eq_some_iff.1 h
  dsimp only at h
  split at h
  next haligned =>
    split at h
    · exact ⟨closure, hclosure, haligned, (Option.some.inj h).symm⟩
    · cases h
  next => cases h

end ResolvedCode

/-- The code object `a` is in memory as it was when it was compiled, with its instructions and constants in
their places, and the closures that it calls lead to the same code. -/
structure World.Unchanged (w : World) (a : Nat) (rc : ResolvedCode) (m : Mem) : Prop where
  words : ∀ x, a - wordBytes ≤ x → x + wordBytes ≤ a + w.mem.objLen a * 8 → m x = w.mem x
  whole : ∀ pc ∈ rc.starts, rc.whole pc = true
  constants : a + rc.bytecode.length ≤ (constSegmentForCode w.mem a).1
  closures : ∀ pc ∈ rc.starts, isCallConstAddr (rc.byte pc) = true →
    ∀ closure ∈ rc.constWord pc (constReadAt rc.byte pc),
      m closure.toNat = w.mem closure.toNat ∧ w.mem closure.toNat ≠ closure

/-- So is all code of regions. -/
def World.Intact (w : World) (m : Mem) : Prop :=
  ∀ a, w.Covered a → ∀ rc ∈ resolveCode w.mem a, w.Unchanged a rc m

namespace World.Unchanged

variable {w : World} {a pc : Nat} {rc : ResolvedCode} {m : Mem}

theorem byteAt_eq (hm : w.Unchanged a rc m) (hrc : resolveCode w.mem a = some rc) {i : Nat}
    (hi : i < w.mem.objLen a * 8) : m.byteAt (a + i) = w.mem.byteAt (a + i) := by
  obtain ⟨haligned, -, -, -⟩ := resolveCode_eq hrc
  refine Mem.byteAt_congr (hm.words _ ?_ ?_) <;> (dsimp only [wordBytes]; omega)

theorem byte_eq (hm : w.Unchanged a rc m) (hrc : resolveCode w.mem a = some rc) {i : Nat}
    (hi : i < rc.bytecode.length) : m.byteAt (a + i) = rc.byte i := by
  obtain ⟨-, -, -, n, hn, hbytecode⟩ := resolveCode_eq hrc
  have hlen : rc.bytecode.length = n := by rw [hbytecode, Mem.length_readBytes]
  rw [hm.byteAt_eq hrc (by omega), ResolvedCode.byte, hbytecode, List.getD_eq_getElem?_getD,
    List.getElem?_eq_getElem (by rw [Mem.length_readBytes]; omega), Option.getD_some]
  simp [Mem.readBytes]

theorem constSegment_eq (hm : w.Unchanged a rc m) (hrc : resolveCode w.mem a = some rc) :
    (constSegmentForCode m a).1 = (constSegmentForCode w.mem a).1 := by
  obtain ⟨haligned, hlen, -, -⟩ := resolveCode_eq hrc
  have hheader : m (a - wordBytes) = w.mem (a - wordBytes) :=
    hm.words _ (Nat.le_refl _) (by dsimp only [wordBytes]; omega)
  have hlast : m (a + wordBytes * (w.mem.objLen a - 1)) = w.mem (a + wordBytes * (w.mem.objLen a - 1)) :=
    hm.words _ (by dsimp only [wordBytes]; omega) (by dsimp only [wordBytes]; omega)
  unfold constSegmentForCode
  dsimp only
  rw [hheader]
  rw [Mem.objLen] at hlast
  rw [hlast]

/-- A constant, read in memory. -/
theorem readUnaligned_eq (hm : w.Unchanged a rc m) (hrc : resolveCode w.mem a = some rc) {readAt : Nat}
    {word : PolyWord} (h : rc.constWord pc readAt = some word) : m.readUnaligned (a + readAt) = word := by
  obtain ⟨-, -, hbody, -⟩ := resolveCode_eq hrc
  have hbodyLen : rc.fullBody.length = w.mem.objLen a * 8 := by rw [hbody, Mem.length_readBytes]
  unfold ResolvedCode.constWord at h
  split at h
  · rename_i hin
    obtain rfl := Option.some.inj h
    refine PolyWord.ofBytes_congr (fun i hi => ?_)
    rw [Nat.add_assoc, hm.byteAt_eq hrc (by omega), hbody, List.getD_eq_getElem?_getD,
      List.getElem?_eq_getElem (by rw [Mem.length_readBytes]; omega), Option.getD_some]
    simp [Mem.readBytes]
  · cases h

end World.Unchanged

/-- The interpreter reads the instruction that was compiled. -/
theorem World.Placed.interpInstr_eq {w : World} {a pc : Nat} {m : Mem} (h : w.Placed a pc)
    (hm : w.Intact m) : interpInstr m a pc = w.compiled a pc := by
  obtain ⟨⟨region, hr, ha⟩, hplaced⟩ := h
  obtain ⟨rc, callees, hrc, hpre, -⟩ := (World.regions_sound hr).resolved a ha
  obtain ⟨rc', places, hrc', hplaces⟩ := (World.regions_sound hr).lowered a ha
  obtain rfl := Option.some.inj (hrc.symm.trans hrc')
  replace hm := hm a ⟨region, hr, ha⟩ rc hrc
  simp only [World.compiled, hrc, hplaces] at hplaced ⊢
  split at hplaced
  next hpc =>
    obtain ⟨hstart, hop, -⟩ := ResolvedCode.defineFunction_leads hplaces hpc
    have hafter := ResolvedCode.after_eq_afterOp (ResolvedCode.lt_of_mem_boundaries hstart) hop
    have hin : afterOp rc.byte pc ≤ rc.bytecode.length := by
      rw [← hafter]
      simpa [ResolvedCode.whole] using hm.whole pc hstart
    have himm : ∀ i ≤ Disasm.immBytes (rc.byte pc), m.byteAt (a + (pc + i)) = rc.byte (pc + i) := by
      intro i hi
      refine hm.byte_eq hrc ?_
      unfold afterOp at hin
      omega
    have hread : opcodeAt (fun i => m.byteAt (a + i)) pc
        (fun readAt => doCallTarget m (m.readUnaligned (a + readAt))) = rc.opcode w.mem pc := by
      refine opcodeAt_congr himm (fun hcall => ?_)
      have hplace : constReadAt (fun i => m.byteAt (a + i)) pc = constReadAt rc.byte pc :=
        constReadAt_congr himm hcall
      obtain ⟨callee, -, htarget⟩ := ResolvedCode.preflight_callee hpre hstart hcall
      obtain ⟨closure, hclosure, haligned, rfl⟩ := ResolvedCode.ccaTargetCodeAddr_eq_some htarget
      obtain ⟨hword, hself⟩ := hm.closures pc hstart hcall closure hclosure
      rw [hplace, htarget, hm.readUnaligned_eq hrc hclosure, doCallTarget, hword,
        if_pos ⟨haligned, hself⟩]
    have hafter' : afterOp (fun i => m.byteAt (a + i)) pc = afterOp rc.byte pc :=
      afterOp_congr (himm 0 (Nat.zero_le _))
    have hfetched : a + afterOp rc.byte pc ≤ (constSegmentForCode m a).1 := by
      rw [hm.constSegment_eq hrc]
      exact Nat.le_trans (Nat.add_le_add_left hin a) hm.constants
    rw [interpInstr, hread, hafter', if_neg hop, if_pos hfetched, if_pos hpc, hafter]
  next => cases hplaced

end Region
