import PolymlRs.Jit.ScanSound

set_option autoImplicit false

/-! # Depths in the second pass

The second pass has as many values on its stack as the scan recorded, wherever it stands, and hands as many
to a block as the block takes. -/

namespace Ir

variable {V α : Type} {E : Edge V → Prop} {P : α → Prop}

@[simp] theorem value_bind (i : Ins V) (f : V → Ir V α) : value i >>= f = .ins i f := rfl

@[simp] theorem effect_bind (i : Eff V) (f : Unit → Ir V α) : effect i >>= f = .eff i (f ()) := rfl

/-- Code within one block. -/
def Straight (e : Ir V α) : Prop := ∀ E : Edge V → Prop, e.Ends E (fun _ => True)

theorem straight_value (i : Ins V) : (value i).Straight := fun _ _ => trivial

theorem straight_pure (a : α) : (pure a : Ir V α).Straight := fun _ => trivial

theorem straight_lowBit (v : V) : (lowBit v).Straight := by
  intro E
  simp [lowBit, value]

theorem straight_binary (op : BinaryOp) (x y : V) : (Ir.binary op x y).Straight := by
  intro E
  cases op <;> simp [Ir.binary, retagAdd, retagOr, guardedDivide, shiftBy, Ir.compare, value]

theorem straight_loadIndexed (kind : LoadKind) (indexTag base : V) :
    (loadIndexed kind indexTag base).Straight := by
  intro E
  cases kind <;> simp [loadIndexed, indexWord, retagAdd, retagOr, value]

theorem straight_storeIndexed (kind : StoreKind) (toStore indexTag base : V) :
    (storeIndexed kind toStore indexTag base).Straight := by
  intro E
  cases kind <;> simp [storeIndexed, indexWord, value, effect]

theorem straight_clearMutableBit (ptr : V) : (clearMutableBit ptr).Straight := by
  intro E
  simp [clearMutableBit, effect]

theorem straight_blockCall (op : BlockKind) (p1 off1 p2 off2 length : V) :
    (blockCall op p1 off1 p2 off2 length).Straight := by
  intro E
  cases op <;> simp [blockCall, value]

end Ir

namespace CompileInput

variable {V : Type} {c : CompileInput} {blockAt : Nat → Option Nat} {opPc pc : Nat} {stack : List V}
  {edges : List ControlEdge}

/-- The second pass goes on at a place that the scan goes on to, with as many values. -/
def Lands (edges : List ControlEdge) (pc : Nat) (w : Walk V) : Prop :=
  pc ≤ w.pc ∧ (w.returned = false → (⟨w.pc, w.stack.length, false⟩ : ControlEdge) ∈ edges)

/-- The block of an edge takes as many values as the edge has. -/
def FitsBlock (blockAt : Nat → Option Nat) (e : Edge V) : Prop := blockAt e.label = some e.args.length

theorem lands_leave {pc' : Nat} {rest : List V} (h : pc ≤ pc') : Lands edges pc (⟨pc', rest, true⟩ : Walk V) :=
  ⟨h, fun hr => by cases hr⟩

theorem lands_go {depth : Nat} {rest : List V} (h : rest.length = depth) :
    Lands [⟨pc, depth, false⟩] pc (⟨pc, rest, false⟩ : Walk V) :=
  ⟨Nat.le_refl pc, fun _ => by rw [h]; exact List.mem_singleton_self _⟩

theorem shape_ok {need pop push depth err : Nat}
    (h : (if depth < need then .error (.underflow err) else .ok [⟨pc, depth - pop + push, false⟩] :
      Except TranslateError (List ControlEdge)) = .ok edges) :
    need ≤ depth ∧ edges = [⟨pc, depth - pop + push, false⟩] := by
  split at h
  · cases h
  · rename_i hn
    exact ⟨Nat.not_lt.1 hn, (Except.ok.inj h).symm⟩

theorem toBlock_eq {t depth : Nat} {args : List V} (h : blockAt t = some depth) :
    (toBlock blockAt t args : Ir V (Edge V)) = .done ⟨t, args⟩ := by
  rw [toBlock, h]

/-- An arm that pushes a value made from a slot. -/
theorem push_ends {d : Nat} {f : V → Ir V V} (hf : ∀ v, (f v).Straight) :
    (match stack[d]? with
      | none => (.fail (.underflow opPc) : Ir V (Walk V))
      | some v => do
        let r ← f v
        .done ⟨pc, r :: stack, false⟩).Ends (FitsBlock blockAt)
      (Lands [⟨pc, stack.length - 0 + 1, false⟩] pc) := by
  cases stack[d]? with
  | none => trivial
  | some v => exact (hf v _).bind (fun r _ => lands_go rfl)

/-- An arm that puts a value in the place of the top. -/
theorem replace_ends {f : V → Ir V V} (hf : ∀ v, (f v).Straight) (hd : 1 ≤ stack.length) :
    (match stack with
      | [] => (.fail (.underflow opPc) : Ir V (Walk V))
      | v :: rest => do
        let r ← f v
        .done ⟨pc, r :: rest, false⟩).Ends (FitsBlock blockAt)
      (Lands [⟨pc, stack.length - 1 + 1, false⟩] pc) := by
  cases stack with
  | nil => trivial
  | cons v rest => exact (hf v _).bind (fun r _ => lands_go rfl)

theorem branch_ok {need off depth err next : Nat}
    (h : (if depth < need then .error (.underflow err)
      else .ok [⟨pc + off, next, true⟩, ⟨pc, next, true⟩] : Except TranslateError (List ControlEdge)) =
        .ok edges)
    (hblocks : ∀ e ∈ edges, e.isBlockTarget = true → blockAt e.pc = some e.depth) :
    need ≤ depth ∧ blockAt (pc + off) = some next ∧ blockAt pc = some next := by
  split at h
  · cases h
  · rename_i hn
    obtain rfl := Except.ok.inj h
    exact ⟨Nat.not_lt.1 hn, hblocks ⟨pc + off, next, true⟩ (by simp) rfl,
      hblocks ⟨pc, next, true⟩ (by simp) rfl⟩

/-- What `mapM` gave for each element. -/
theorem mapM_ok {α β ε : Type} {l : List α} {f : α → Except ε β} {bs : List β} (h : l.mapM f = .ok bs)
    {a : α} (ha : a ∈ l) : ∃ b ∈ bs, f a = .ok b := by
  induction l generalizing bs with
  | nil => cases ha
  | cons x l ih =>
    rw [List.mapM_cons] at h
    cases hx : f x with
    | error e =>
      rw [hx] at h
      cases h
    | ok b =>
      rw [hx] at h
      cases hl : l.mapM f with
      | error e =>
        rw [hl] at h
        cases h
      | ok bs' =>
        rw [hl] at h
        obtain rfl := Except.ok.inj h
        rcases List.mem_cons.1 ha with rfl | ha
        · exact ⟨b, List.mem_cons_self, hx⟩
        · obtain ⟨b', hb', hfb⟩ := ih hl ha
          exact ⟨b', List.mem_cons_of_mem _ hb', hfb⟩

/-- The table of a `CASE16` that the scan accepts. -/
theorem case16_ok {arg1 depth err : Nat}
    (h : (if depth = 0 then .error (.underflow err)
      else do
        let cases ← (List.range arg1).mapM (fun i =>
          if pc + i * 2 + 1 ≥ c.bytecode.length then .error (.truncated (pc + i * 2))
          else .ok (⟨pc + readU16Le c.bytecode (pc + i * 2), depth - 1, true⟩ : ControlEdge))
        .ok (⟨pc + arg1 * 2, depth - 1, true⟩ :: cases) : Except TranslateError (List ControlEdge)) =
      .ok edges)
    (hblocks : ∀ e ∈ edges, e.isBlockTarget = true → blockAt e.pc = some e.depth) :
    blockAt (pc + arg1 * 2) = some (depth - 1) ∧ ∀ i < arg1, ¬pc + i * 2 + 1 ≥ c.bytecode.length ∧
      blockAt (pc + readU16Le c.bytecode (pc + i * 2)) = some (depth - 1) := by
  split at h
  · cases h
  generalize hf : (fun i => if pc + i * 2 + 1 ≥ c.bytecode.length then
      (.error (.truncated (pc + i * 2)) : Except TranslateError ControlEdge)
    else .ok ⟨pc + readU16Le c.bytecode (pc + i * 2), depth - 1, true⟩) = f at h
  cases hm : (List.range arg1).mapM f with
  | error e =>
    rw [hm] at h
    cases h
  | ok cases =>
    rw [hm] at h
    obtain rfl := Except.ok.inj h
    refine ⟨hblocks _ List.mem_cons_self rfl, fun i hi => ?_⟩
    obtain ⟨e, he, hfe⟩ := mapM_ok hm (List.mem_range.2 hi)
    rw [← hf] at hfe
    dsimp only at hfe
    split at hfe
    · cases hfe
    · rename_i hlen
      obtain rfl := Except.ok.inj hfe
      exact ⟨hlen, hblocks _ (List.mem_cons_of_mem _ he) rfl⟩

theorem case16Edges_eq {arg1 depth : Nat} {args : List V}
    (h : ∀ i < arg1, ¬pc + i * 2 + 1 ≥ c.bytecode.length ∧
      blockAt (pc + readU16Le c.bytecode (pc + i * 2)) = some depth) :
    (List.range arg1).mapM (c.case16Edge blockAt pc args) =
      .done ((List.range arg1).map (fun i => ⟨pc + readU16Le c.bytecode (pc + i * 2), args⟩)) :=
  Emit.mapM_done (fun i hi => by
    obtain ⟨hlen, hblock⟩ := h i (List.mem_range.1 hi)
    simp only [case16Edge, if_neg hlen, toBlock_eq hblock])

theorem translateInstr_ends {i : Instruction} (hscan : c.scanInstr i opPc pc stack.length = .ok edges)
    (hblocks : ∀ e ∈ edges, e.isBlockTarget = true → blockAt e.pc = some e.depth) :
    (c.translateInstr blockAt i opPc pc stack).Ends (FitsBlock blockAt) (Lands edges pc) := by
  cases i
  all_goals simp only [scanInstr] at hscan
  all_goals simp only [translateInstr]
  case const n | ldexc | pushHandler | setHandler off | getThreadId =>
    obtain ⟨-, rfl⟩ := shape_ok hscan
    exact fun v => lands_go rfl
  case localAt d =>
    obtain ⟨-, rfl⟩ := shape_ok hscan
    exact push_ends (f := pure) Ir.straight_pure
  case indirectLocal d slot | indirectClosure d slot =>
    obtain ⟨-, rfl⟩ := shape_ok hscan
    exact push_ends (fun v => Ir.straight_value _)
  case isTaggedLocal d =>
    obtain ⟨-, rfl⟩ := shape_ok hscan
    exact push_ends Ir.straight_lowBit
  case indirect field | indirectContainer k =>
    obtain ⟨hd, rfl⟩ := shape_ok hscan
    exact replace_ends (fun v => Ir.straight_value _) hd
  case lock =>
    obtain ⟨hd, rfl⟩ := shape_ok hscan
    exact replace_ends (fun v E => (Ir.straight_clearMutableBit v E).bind (fun _ _ => trivial)) hd
  case clearMutable =>
    obtain ⟨hd, rfl⟩ := shape_ok hscan
    exact replace_ends (fun v E => (Ir.straight_clearMutableBit v E).bind (fun _ _ _ => trivial)) hd
  case cellLength | cellFlags | notBoolean | allocMutClosure n | allocRef =>
    obtain ⟨hd, rfl⟩ := shape_ok hscan
    exact replace_ends (fun v E => by simp [Ir.retagOr, Ir.value]) hd
  case isTagged =>
    obtain ⟨hd, rfl⟩ := shape_ok hscan
    exact replace_ends Ir.straight_lowBit hd
  case load kind =>
    obtain ⟨-, rfl⟩ := shape_ok hscan
    rcases stack with _ | ⟨x, _ | ⟨y, rest⟩⟩
    · trivial
    · trivial
    · exact (Ir.straight_loadIndexed kind x y _).bind (fun r _ => lands_go rfl)
  case binary op =>
    obtain ⟨-, rfl⟩ := shape_ok hscan
    rcases stack with _ | ⟨x, _ | ⟨y, rest⟩⟩
    · trivial
    · trivial
    · exact (Ir.straight_binary op x y _).bind (fun r _ => lands_go rfl)
  case allocByteMem =>
    obtain ⟨-, rfl⟩ := shape_ok hscan
    rcases stack with _ | ⟨x, _ | ⟨y, rest⟩⟩
    · trivial
    · trivial
    · exact fun _ _ r => lands_go rfl
  case moveToContainer k | moveToMutClosure slot =>
    obtain ⟨-, rfl⟩ := shape_ok hscan
    rcases stack with _ | ⟨x, _ | ⟨y, rest⟩⟩
    · trivial
    · trivial
    · exact lands_go rfl
  case store kind =>
    obtain ⟨-, rfl⟩ := shape_ok hscan
    rcases stack with _ | ⟨x, _ | ⟨y, _ | ⟨z, rest⟩⟩⟩
    · trivial
    · trivial
    · trivial
    · exact (Ir.straight_storeIndexed kind x y z _).bind (fun _ _ v => lands_go rfl)
  case allocWordMemory =>
    obtain ⟨-, rfl⟩ := shape_ok hscan
    rcases stack with _ | ⟨x, _ | ⟨y, _ | ⟨z, rest⟩⟩⟩
    · trivial
    · trivial
    · trivial
    · exact fun _ _ r => lands_go rfl
  case block op =>
    obtain ⟨-, rfl⟩ := shape_ok hscan
    rcases stack with _ | ⟨x, _ | ⟨y, _ | ⟨z, _ | ⟨u, _ | ⟨v, rest⟩⟩⟩⟩⟩
    · trivial
    · trivial
    · trivial
    · trivial
    · trivial
    · exact (Ir.straight_blockCall op v u z y x _).bind (fun r _ => lands_go rfl)
  case stackContainer n =>
    obtain ⟨-, rfl⟩ := shape_ok hscan
    refine fun t ptr => lands_go ?_
    rw [List.cons_append, List.length_cons, List.length_append, List.length_replicate]
    omega
  case noOp =>
    obtain ⟨-, rfl⟩ := shape_ok hscan
    exact lands_go rfl
  case reset n =>
    obtain ⟨hd, rfl⟩ := shape_ok hscan
    rw [if_neg (Nat.not_lt.2 hd)]
    exact lands_go List.length_drop
  case resetR n =>
    obtain ⟨hd, rfl⟩ := shape_ok hscan
    rw [if_neg (Nat.not_lt.2 hd)]
    refine lands_go ?_
    rw [List.length_append, List.length_take, List.length_drop]
    omega
  case tuple n =>
    obtain ⟨hd, rfl⟩ := shape_ok hscan
    rw [if_neg (Nat.not_lt.2 hd)]
    refine fun r => lands_go ?_
    rw [List.length_cons, List.length_drop]
  case callFastRts n =>
    obtain ⟨hd, rfl⟩ := shape_ok hscan
    cases stack with
    | nil => trivial
    | cons stub rest =>
      rw [List.length_cons] at hd
      dsimp only
      rw [if_neg (by omega)]
      refine fun r => lands_go ?_
      rw [List.length_cons, List.length_cons, List.length_drop]
      omega
  case callLocal n =>
    obtain ⟨hd, rfl⟩ := shape_ok hscan
    cases hdrop : stack.drop n with
    | nil => trivial
    | cons closure rest =>
      have hlen := congrArg List.length hdrop
      rw [List.length_drop, List.length_cons] at hlen
      refine fun r => lands_go ?_
      rw [List.length_cons, List.length_cons]
      omega
  case closure n =>
    obtain ⟨hd, rfl⟩ := shape_ok hscan
    cases hdrop : stack.drop n with
    | nil => trivial
    | cons src rest =>
      have hlen := congrArg List.length hdrop
      rw [List.length_drop, List.length_cons] at hlen
      refine fun r => lands_go ?_
      rw [List.length_cons]
      omega
  case callClosure =>
    split at hscan
    · cases hscan
    obtain rfl := Except.ok.inj hscan
    split
    · trivial
    cases stack with
    | nil => trivial
    | cons closure rest =>
      intro r
      split
      · exact ⟨by simp [Terminator.edges], lands_leave (Nat.le_add_right pc 3)⟩
      · exact lands_go rfl
  case constAddr op off idx =>
    obtain ⟨-, rfl⟩ := shape_ok hscan
    split
    · trivial
    · exact fun base v => lands_go rfl
  case callConstAddr op off idx =>
    split at hscan
    · cases hscan
    rename_i hrange
    rw [if_neg hrange]
    cases harity : closureArityFromAddr c.heap (c.constClosure (readAt pc off idx)) with
    | none =>
      rw [harity] at hscan
      cases hscan
    | some n =>
      rw [harity] at hscan
      obtain ⟨hd, rfl⟩ := shape_ok hscan
      dsimp only
      rw [if_neg (Nat.not_lt.2 hd)]
      refine fun base closure r => lands_go ?_
      rw [List.length_cons, List.length_drop]
  case setStackVal idx =>
    obtain ⟨hd, rfl⟩ := shape_ok hscan
    split
    · trivial
    cases stack with
    | nil => trivial
    | cons v rest =>
      dsimp only
      split
      · trivial
      · exact lands_go List.length_set
  case deleteHandler =>
    obtain ⟨-, rfl⟩ := shape_ok hscan
    cases stack with
    | nil => trivial
    | cons v rest => exact lands_go rfl
  case ret n =>
    cases stack with
    | nil => trivial
    | cons v rest => exact ⟨by simp [Terminator.edges], lands_leave (Nat.le_refl pc)⟩
  case raiseEx =>
    cases stack with
    | nil => trivial
    | cons v rest => exact fun zero => ⟨by simp [Terminator.edges], lands_leave (Nat.le_refl pc)⟩
  case tail tailCount skip =>
    split at hscan
    · cases hscan
    rename_i htc
    rw [if_neg htc]
    split
    · trivial
    rename_i hlen
    rcases stack with _ | ⟨placeholder, _ | ⟨closure, rest⟩⟩
    · rw [List.length_nil] at hlen
      omega
    · rw [List.length_singleton] at hlen
      omega
    · exact fun r => ⟨by simp [Terminator.edges], lands_leave (Nat.le_refl pc)⟩
  case jumpTaggedLocal d off =>
    obtain ⟨hd, htaken, hfall⟩ := branch_ok hscan hblocks
    cases stack[d]? with
    | none => trivial
    | some v =>
      intro one lsb
      rw [toBlock_eq htaken, toBlock_eq hfall]
      exact ⟨by simp [Terminator.edges, FitsBlock, htaken, hfall], lands_leave (Nat.le_refl pc)⟩
  case jumpNeqLocal ind d want off =>
    obtain ⟨hd, htaken, hfall⟩ := branch_ok hscan hblocks
    cases stack[d]? with
    | none => trivial
    | some localV =>
      have hbranch : ∀ v : V, Emit.Ends (FitsBlock blockAt) (Lands edges pc)
          (do
            let wantTagged ← Ir.iconst (Ir.tag want.toInt8.toInt)
            let eq ← Ir.icmp .equal v wantTagged
            let thenEdge ← toBlock blockAt pc stack
            let elseEdge ← toBlock blockAt (pc + off) stack
            .leave (.brif eq thenEdge elseEdge) (.done ⟨pc, stack, true⟩)) := by
        intro v wantTagged eq
        rw [toBlock_eq htaken, toBlock_eq hfall]
        exact ⟨by simp [Terminator.edges, FitsBlock, htaken, hfall], lands_leave (Nat.le_refl pc)⟩
      cases ind with
      | false => exact hbranch localV
      | true => exact fun v => hbranch v
  case jumpCond onFalse off =>
    cases stack with
    | nil => trivial
    | cons cond rest =>
      rw [if_neg (by simp)] at hscan
      obtain rfl := Except.ok.inj hscan
      have htaken : blockAt (pc + off) = some rest.length := hblocks ⟨_, _, true⟩ List.mem_cons_self rfl
      have hfall : blockAt pc = some rest.length := hblocks ⟨pc, rest.length, true⟩ (by simp) rfl
      intro zero isZero
      rw [toBlock_eq htaken, toBlock_eq hfall]
      cases onFalse <;>
        exact ⟨by simp [Terminator.edges, FitsBlock, htaken, hfall], lands_leave (Nat.le_refl pc)⟩
  case jump off =>
    obtain rfl := Except.ok.inj hscan
    have htarget : blockAt (pc + off) = some stack.length := hblocks ⟨_, _, true⟩ List.mem_cons_self rfl
    rw [toBlock_eq htarget]
    exact ⟨by simp [Terminator.edges, FitsBlock, htarget], lands_leave (Nat.le_refl pc)⟩
  case jumpBack op off immBytes =>
    split at hscan
    · cases hscan
    rename_i hback
    obtain rfl := Except.ok.inj hscan
    have hpc : pc - off - 1 - immBytes = pc - off - (1 + immBytes) := by omega
    have htarget : blockAt (pc - off - 1 - immBytes) = some stack.length := by
      rw [hpc]
      exact hblocks ⟨_, _, true⟩ List.mem_cons_self rfl
    rw [if_neg (by omega), toBlock_eq htarget]
    exact ⟨by simp [Terminator.edges, FitsBlock, htarget], lands_leave (Nat.le_refl pc)⟩
  case case16 arg1 =>
    cases stack with
    | nil => trivial
    | cons selector rest =>
      obtain ⟨hdefault, hcases⟩ := case16_ok hscan hblocks
      rw [List.length_cons, Nat.add_sub_cancel] at hdefault hcases
      simp only [toBlock_eq hdefault, case16Edges_eq hcases, Emit.done_bind]
      refine fun untagged arg1V oob => ⟨fun e he => ?_, lands_leave (Nat.le_add_right _ _)⟩
      rcases List.mem_cons.1 he with rfl | he
      · exact hdefault
      · obtain ⟨i, hi, rfl⟩ := List.mem_map.1 he
        exact (hcases i (List.mem_range.1 hi)).2

/-! ## The loop -/

variable {s : Scan}

/-- The scan's record for the place that the second pass stands at. -/
def InLine (s : Scan) (w : Walk V) : Prop :=
  w.returned = false → ∃ d, s.scanDepth w.pc = some d ∧ d ≤ w.stack.length ∧
    (s.targets w.pc = none → w.stack.length = d)

/-- A block is fallen into with enough values. -/
theorem InLine.le_length {w : Walk V} (h : InLine s w) (hr : w.returned = false) {expected : Nat}
    (ht : s.targets w.pc = some expected) : expected ≤ w.stack.length := by
  obtain ⟨d, hd, hle, -⟩ := h hr
  rw [Scan.scanDepth, ht] at hd
  obtain rfl : expected = d := Option.some.inj hd
  exact hle

/-- Where an instruction of the second pass ends. -/
theorem translateOne_ends (hres : c.ScanResult s) (hd : s.scanDepth opPc = some stack.length) :
    (c.translateOne s.targets opPc stack).Ends (FitsBlock s.targets)
      (fun w => opPc < w.pc ∧ InLine s w) := by
  obtain ⟨edges, hscan, hedges⟩ := hres.closed hd
  unfold translateOne
  unfold scanOneOpcode at hscan
  cases hfetch : fetchInstr c.bytecode opPc with
  | error err => trivial
  | ok r =>
    obtain ⟨i, pc⟩ := r
    rw [hfetch] at hscan
    replace hscan : c.scanInstr i opPc pc stack.length = .ok edges := hscan
    have hblocks : ∀ e ∈ edges, e.isBlockTarget = true → s.targets e.pc = some e.depth := by
      intro e he hb
      have hagrees := (hedges e he).1
      rwa [Scan.Agrees, if_pos hb] at hagrees
    have hends : (c.translateInstr s.targets i opPc pc stack).Ends (FitsBlock s.targets) (Lands edges pc) :=
      translateInstr_ends hscan hblocks
    refine hends.mono (fun _ h => h) (fun w hw => ?_)
    refine ⟨Nat.lt_of_lt_of_le (fetchInstr_lt hfetch) hw.1, fun hr => ?_⟩
    have hagrees := (hedges _ (hw.2 hr)).1
    rw [Scan.Agrees, if_neg (by simp)] at hagrees
    unfold Scan.scanDepth
    rcases hagrees with ⟨t, ht, hle⟩ | ⟨hnone, hdepth⟩
    · refine ⟨t, ?_, hle, fun hn => ?_⟩
      · dsimp only at ht
        rw [ht]
        rfl
      · dsimp only at ht
        rw [ht] at hn
        cases hn
    · dsimp only at hnone hdepth
      exact ⟨w.stack.length, by rw [hnone]; exact hdepth, Nat.le_refl _, fun _ => rfl⟩

theorem length_truncate {expected : Nat} (h : expected ≤ stack.length) :
    (truncate expected stack).length = expected := by
  rw [truncate, List.length_drop]
  omega

/-- The table of lengths has no empty instruction. -/
theorem opcodeTotalLen_pos {bytecode : List UInt8} {n : Nat} (h : opcodeTotalLen bytecode pc = .ok n) :
    0 < n := by
  have harms : ∀ arm ∈ totalLenArms, 0 < arm.1 := by decide
  unfold opcodeTotalLen at h
  split at h
  · cases h
  split at h
  · split at h
    · cases h
    · obtain rfl := Except.ok.inj h
      omega
  · split at h
    · rename_i hfind
      obtain rfl := Except.ok.inj h
      exact harms _ (List.mem_of_find?_eq_some hfind)
    · cases h

/-- One round of the loop. -/
theorem round_ends (hres : c.ScanResult s) {w : Walk V} (h : InLine s w) :
    (c.round s.targets w).Ends (FitsBlock s.targets) (fun w' => w.pc < w'.pc ∧ InLine s w') := by
  unfold round
  cases ht : s.targets w.pc with
  | some expected =>
    have hd : s.scanDepth w.pc = some expected := by
      rw [Scan.scanDepth, ht]
      rfl
    have hblock : ∀ stack : List V, stack.length = expected →
        (c.translateOne s.targets w.pc stack).Ends (FitsBlock s.targets)
          (fun w' => w.pc < w'.pc ∧ InLine s w') :=
      fun stack hlen => translateOne_ends hres (by rw [hlen]; exact hd)
    dsimp only
    cases hr : w.returned with
    | true => exact hblock
    | false =>
      have hlen := length_truncate (h.le_length hr ht)
      rw [if_neg (by simp), if_neg (by omega)]
      refine ⟨fun e he => ?_, hblock⟩
      obtain rfl := List.mem_singleton.1 he
      exact ht.trans (congrArg some hlen.symm)
  | none =>
    dsimp only
    cases hr : w.returned with
    | true =>
      rw [if_pos rfl]
      cases hlen : opcodeTotalLen c.bytecode w.pc with
      | error err => trivial
      | ok n => exact ⟨Nat.lt_add_of_pos_right (opcodeTotalLen_pos hlen), fun hf => by cases hf⟩
    | false =>
      obtain ⟨d, hd, -, hexact⟩ := h hr
      rw [if_neg (by simp)]
      exact translateOne_ends hres (by rw [hd, hexact ht])

/-- The loop gets by with its fuel. -/
theorem translateLoop_ends (hres : c.ScanResult s) {fuel : Nat} {w : Walk V} (h : InLine s w)
    (hfuel : c.bytecode.length - w.pc < fuel) :
    (c.translateLoop s.targets fuel w).Ends (FitsBlock s.targets) (fun _ => True) := by
  induction fuel generalizing w with
  | zero => exact absurd hfuel (Nat.not_lt_zero _)
  | succ fuel ih =>
    unfold translateLoop
    by_cases hpc : w.pc ≥ c.bytecode.length
    · rw [if_pos hpc]
      split <;> trivial
    · rw [if_neg hpc]
      refine (round_ends hres h).bind (fun w' hw' => ?_)
      have hlt := hw'.1
      exact ih hw'.2 (by omega)

/-- Where the loop starts. -/
theorem inLine_entry (hres : c.ScanResult s) {args : List V} (hargs : args.length = c.argCount) :
    InLine s (⟨c.entryPc, args, false⟩ : Walk V) := by
  obtain ⟨d, hd, hle, hexact⟩ := hres.entry
  exact fun _ => ⟨d, hd, hargs ▸ hle, fun hnone => hargs.trans (hexact hnone).symm⟩

/-- The second pass as a whole. -/
theorem translate_ends (hres : c.ScanResult s) :
    (c.translate s.targets : Ir V Unit).Ends (FitsBlock s.targets) (fun _ => True) :=
  fun _ hargs => translateLoop_ends hres (inLine_entry hres hargs)
    (Nat.lt_succ_of_le (Nat.sub_le c.bytecode.length c.entryPc))

/-- Wherever the loop comes to. -/
theorem Walks.inLine (hres : c.ScanResult s) {w : Walk V} (h : c.Walks s.targets w) : InLine s w := by
  induction h with
  | entry args hargs => exact inLine_entry hres hargs
  | round _ _ hr ih => exact ((round_ends hres ih).of_reaches hr).2

/-- What is left of the loop is a part of the whole pass. -/
theorem Walks.loop (hres : c.ScanResult s) {w : Walk V} (h : c.Walks s.targets w) :
    ∃ fuel, c.bytecode.length - w.pc < fuel ∧
      ((c.translateLoop s.targets fuel w).Refuses → (c.translate s.targets : Ir V Unit).Refuses) := by
  induction h with
  | entry args hargs =>
    exact ⟨c.bytecode.length + 1, Nat.lt_succ_of_le (Nat.sub_le c.bytecode.length c.entryPc),
      fun hrefuses => ⟨args, hargs, hrefuses⟩⟩
  | @round w w' hw hpc hr ih =>
    obtain ⟨fuel, hfuel, hwhole⟩ := ih
    have hlt : w.pc < w'.pc := ((round_ends hres (hw.inLine hres)).of_reaches hr).1
    cases fuel with
    | zero => exact absurd hfuel (Nat.not_lt_zero _)
    | succ fuel =>
      refine ⟨fuel, by omega, fun hrefuses => hwhole ?_⟩
      rw [translateLoop, if_neg (Nat.not_le.2 hpc)]
      exact .of_reaches hr hrefuses

/-- A pass that gets through does so in every round. -/
theorem Walks.not_refuses (hres : c.ScanResult s) {w : Walk V} (h : c.Walks s.targets w)
    (hpc : w.pc < c.bytecode.length) (hok : ¬ (c.translate s.targets : Ir V Unit).Refuses) :
    ¬ (c.round s.targets w).Refuses := by
  intro hrefuses
  obtain ⟨fuel, hfuel, hwhole⟩ := h.loop hres
  cases fuel with
  | zero => exact absurd hfuel (Nat.not_lt_zero _)
  | succ fuel =>
    refine hok (hwhole ?_)
    rw [translateLoop, if_neg (Nat.not_le.2 hpc)]
    exact hrefuses.bind

end CompileInput
