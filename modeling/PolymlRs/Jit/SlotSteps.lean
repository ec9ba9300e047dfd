import PolymlRs.Jit.SlotWords

set_option autoImplicit false

/-! # One instruction, slot by slot

An instruction that is run from the same words as the interpreter's leaves the same words. -/

namespace CompileInput

variable {c : CompileInput} {o : Surroundings} {blockAt : Nat → Option Nat} {base : Nat → PolyWord}
  {frame : NativeFrame} {pc : Nat} {s s' : Activation} {marks marks' : List Mark} {vals : List PolyWord}
  {edges : List ControlEdge}

/-- An address made from the word in a slot. -/
theorem mem_local {stack : List PolyWord} {d : Nat} {w : PolyWord} (f : PolyWord → PolyWord)
    (hw : stack[d]? = some w) : f w ∈ stack[d]?.toList.map f := by
  rw [hw]
  exact List.mem_cons_self

/-! ## Allocation -/

theorem follows_getThreadId (h : InStep c o blockAt base frame .getThreadId pc s s' marks marks' vals edges) :
    Follows o (c.translateInstr blockAt .getThreadId s.pc pc vals) ⟨s.heap, frame⟩ s' marks' := by
  obtain ⟨-, -, hstep, -, hn, -, hmark, -, -, -, -⟩ := h
  delta stepInstr CompileInput.mark at hstep hmark
  dsimp only at hstep hmark
  obtain ⟨-, rfl⟩ := shape_mark hmark
  cases hthread : s.heap.allocStubThreadObject o.rootThread with
  | none =>
    rw [hthread] at hstep
    cases hstep
  | some r =>
    rw [hthread] at hstep
    obtain rfl := room_ok hstep
    have hcall : (machine o).ins (.call .getThreadId) ⟨s.heap, frame⟩ = some (r.1, ⟨r.2, frame⟩) := by
      simp only [machine, Ins.run, Trampoline.run, hthread, Heap.orTagged0, Option.getD_some]
      rfl
    exact ⟨base, frame, _, hn.push, Or.inl (Emit.exec_ins hcall)⟩

theorem follows_allocMutClosure {n : Nat}
    (h : InStep c o blockAt base frame (.allocMutClosure n) pc s s' marks marks' vals edges) :
    Follows o (c.translateInstr blockAt (.allocMutClosure n) s.pc pc vals) ⟨s.heap, frame⟩ s' marks' := by
  obtain ⟨-, -, hstep, -, hn, halike, hmark, hscan, -, -, hsmall⟩ := h
  obtain ⟨spc, stack, heap, handlerSp, packet⟩ := s
  delta stepInstr CompileInput.mark scanInstr at hstep hmark hscan
  dsimp only at hstep hn hmark hscan
  obtain ⟨hd, -⟩ := shape_ok hscan
  obtain ⟨hclean, rfl⟩ := shape_mark hmark
  obtain ⟨src, vals, stack, rfl, rfl, hrest⟩ := hn.top1 hclean hd
  have hsource : heap.Source src := halike.2
  dsimp only at hstep
  cases halloc : heap.allocate (n + 1) (fClosureObj ||| fMutableBit) with
  | none =>
    rw [halloc] at hstep
    cases hstep
  | some r =>
    obtain ⟨p, heap'⟩ := r
    rw [halloc] at hstep
    obtain rfl := room_ok hstep
    have hread : (heap'.fillWords (p + 8#64) []).read src = heap.read src :=
      hsource.2.read_eq halloc (Nat.zero_le n)
    rw [Heap.fillWords] at hread
    have hcall : (machine o).ins (.call (.allocMutClosure (.ofNat 64 n) src)) ⟨heap, frame⟩ =
        some (p, ⟨heap'.fillWords p (heap'.read src :: List.replicate n (.tagged 0)), frame⟩) := by
      rw [hread]
      refine exec_closureAlloc ?_ hsource (by rw [List.length_replicate]; exact halloc)
      rw [Trampoline.run, clamp_ofNat hsmall]
    exact ⟨base, frame, _, hrest.push, Or.inl ((Emit.exec_ins rfl).trans (Emit.exec_ins hcall))⟩

theorem follows_tuple {n : Nat}
    (h : InStep c o blockAt base frame (.tuple n) pc s s' marks marks' vals edges) :
    Follows o (c.translateInstr blockAt (.tuple n) s.pc pc vals) ⟨s.heap, frame⟩ s' marks' := by
  obtain ⟨-, -, hstep, -, hn, -, hmark, hscan, -, -, -⟩ := h
  obtain ⟨spc, stack, heap, handlerSp, packet⟩ := s
  delta stepInstr CompileInput.mark scanInstr translateInstr at hstep hmark hscan ⊢
  dsimp only at hstep hn hmark hscan ⊢
  obtain ⟨hd, -⟩ := shape_ok hscan
  obtain ⟨hclean, rfl⟩ := shape_mark hmark
  rw [if_neg (Nat.not_lt.2 hd)]
  obtain ⟨ws, vals, stack, hlen, rfl, rfl, hrest⟩ := hn.top hclean hd
  rw [if_neg (by rw [List.length_append]; omega), List.take_left' hlen, List.drop_left' hlen] at hstep
  rw [List.take_left' hlen, List.drop_left' hlen]
  cases halloc : heap.allocObject 0#8 ws.reverse with
  | none =>
    rw [halloc] at hstep
    cases hstep
  | some r =>
    rw [halloc] at hstep
    obtain rfl := room_ok hstep
    have hcall : (machine o).ins (.call (.allocTuple ws.reverse)) ⟨heap, frame⟩ =
        some (r.1, ⟨r.2, frame⟩) := by
      simp only [machine, Ins.run, Trampoline.run, halloc, Heap.orTagged0, Option.getD_some]
      rfl
    exact ⟨base, frame, _, hrest.push, Or.inl (Emit.exec_ins hcall)⟩

theorem follows_closure {n : Nat}
    (h : InStep c o blockAt base frame (.closure n) pc s s' marks marks' vals edges) :
    Follows o (c.translateInstr blockAt (.closure n) s.pc pc vals) ⟨s.heap, frame⟩ s' marks' := by
  obtain ⟨-, -, hstep, -, hn, halike, hmark, hscan, -, -, -⟩ := h
  obtain ⟨spc, stack, heap, handlerSp, packet⟩ := s
  delta stepInstr CompileInput.mark scanInstr translateInstr at hstep hmark hscan ⊢
  dsimp only at hstep hn hmark hscan ⊢
  obtain ⟨hd, -⟩ := shape_ok hscan
  obtain ⟨hclean, rfl⟩ := shape_mark hmark
  obtain ⟨ws, src, vals, stack, hlen, rfl, rfl, hrest⟩ := hn.top_succ hclean hd
  have hsource : heap.Source src := halike.2 src (by rw [← hlen]; simp)
  rw [if_neg (by rw [List.length_append]; omega), List.take_left' hlen, List.drop_left' hlen] at hstep
  rw [List.take_left' hlen, List.drop_left' hlen]
  cases halloc : heap.allocate (n + 1) fClosureObj with
  | none =>
    rw [halloc] at hstep
    cases hstep
  | some r =>
    obtain ⟨p, heap'⟩ := r
    rw [halloc] at hstep
    obtain rfl := room_ok hstep
    have hwords : ws.reverse.length = n := by rw [List.length_reverse, hlen]
    have hread : (heap'.fillWords (p + 8#64) ws.reverse).read src = heap.read src :=
      hsource.2.read_eq halloc (Nat.le_of_eq hwords)
    have hcall : (machine o).ins (.call (.allocClosure ws.reverse src)) ⟨heap, frame⟩ =
        some (p, ⟨heap'.fillWords p ((heap'.fillWords (p + 8#64) ws.reverse).read src :: ws.reverse),
          frame⟩) := by
      rw [hread]
      exact exec_closureAlloc rfl hsource (by rw [hwords]; exact halloc)
    exact ⟨base, frame, _, hrest.push, Or.inl (Emit.exec_ins hcall)⟩

theorem follows_allocByteMem
    (h : InStep c o blockAt base frame .allocByteMem pc s s' marks marks' vals edges) :
    Follows o (c.translateInstr blockAt .allocByteMem s.pc pc vals) ⟨s.heap, frame⟩ s' marks' := by
  obtain ⟨-, -, hstep, -, hn, halike, hmark, hscan, -, -, -⟩ := h
  obtain ⟨spc, stack, heap, handlerSp, packet⟩ := s
  delta stepInstr CompileInput.mark scanInstr at hstep hmark hscan
  dsimp only at hstep hn hmark hscan
  obtain ⟨hd, -⟩ := shape_ok hscan
  obtain ⟨hclean, rfl⟩ := shape_mark hmark
  obtain ⟨flags, length, vals, stack, rfl, rfl, hrest⟩ := hn.top2 hclean hd
  have hlength : clamp length.untagBits = length.untagBits := clamp_eq halike.2
  dsimp only at hstep
  cases halloc : heap.allocate length.untagBits.toNat (flags.untagBits.setWidth 8) with
  | none =>
    rw [halloc] at hstep
    cases hstep
  | some r =>
    rw [halloc] at hstep
    obtain rfl := room_ok hstep
    have hcall : (machine o).ins (.call (.allocByteMem length.untagBits flags.untagBits)) ⟨heap, frame⟩ =
        some (r.1, ⟨r.2, frame⟩) := by
      simp only [machine, Ins.run, Trampoline.run, hlength, halloc, Heap.orTagged0, Option.getD_some]
      rfl
    exact ⟨base, frame, _, hrest.push,
      Or.inl ((Emit.exec_ins rfl).trans ((Emit.exec_ins rfl).trans (Emit.exec_ins hcall)))⟩

theorem follows_allocWordMemory
    (h : InStep c o blockAt base frame .allocWordMemory pc s s' marks marks' vals edges) :
    Follows o (c.translateInstr blockAt .allocWordMemory s.pc pc vals) ⟨s.heap, frame⟩ s' marks' := by
  obtain ⟨-, -, hstep, -, hn, halike, hmark, hscan, -, -, -⟩ := h
  obtain ⟨spc, stack, heap, handlerSp, packet⟩ := s
  delta stepInstr CompileInput.mark scanInstr at hstep hmark hscan
  dsimp only at hstep hn hmark hscan
  obtain ⟨hd, -⟩ := shape_ok hscan
  obtain ⟨hclean, rfl⟩ := shape_mark hmark
  obtain ⟨init, flags, length, vals, stack, rfl, rfl, hrest⟩ := hn.top3 hclean hd
  have hlength : clamp length.untagBits = length.untagBits := clamp_eq halike.2
  simp only [Heap.allocObject, List.length_replicate] at hstep
  cases halloc : heap.allocate length.untagBits.toNat (flags.untagBits.setWidth 8) with
  | none =>
    rw [halloc] at hstep
    cases hstep
  | some r =>
    rw [halloc] at hstep
    obtain rfl := room_ok hstep
    have hcall : (machine o).ins (.call (.allocByteMem length.untagBits flags.untagBits)) ⟨heap, frame⟩ =
        some (r.1, ⟨r.2, frame⟩) := by
      simp only [machine, Ins.run, Trampoline.run, hlength, halloc, Heap.orTagged0, Option.getD_some]
      rfl
    have hfill : (machine o).eff (.fill r.1 length.untagBits init) ⟨r.2, frame⟩ =
        some ⟨r.2.fillWords r.1 (List.replicate length.untagBits.toNat init), frame⟩ := by
      simp only [machine, Eff.run, hlength]
    exact ⟨base, frame, _, hrest.push, Or.inl ((Emit.exec_ins rfl).trans ((Emit.exec_ins rfl).trans
      ((Emit.exec_ins hcall).trans (Emit.exec_eff hfill))))⟩

/-! ## Blocks of memory -/

theorem follows_block {op : BlockKind}
    (h : InStep c o blockAt base frame (.block op) pc s s' marks marks' vals edges) :
    Follows o (c.translateInstr blockAt (.block op) s.pc pc vals) ⟨s.heap, frame⟩ s' marks' := by
  obtain ⟨-, -, hstep, -, hn, halike, hmark, hscan, -, -, -⟩ := h
  obtain ⟨spc, stack, heap, handlerSp, packet⟩ := s
  delta stepInstr CompileInput.mark scanInstr at hstep hmark hscan
  dsimp only at hstep hn hmark hscan
  obtain ⟨hd, -⟩ := shape_ok hscan
  obtain ⟨hclean, rfl⟩ := shape_mark hmark
  obtain ⟨ws, vals, stack, hlen, rfl, rfl, hrest⟩ := hn.top hclean hd
  obtain ⟨length, off2, p2, off1, p1, rfl⟩ : ∃ length off2 p2 off1 p1, ws = [length, off2, p2, off1, p1] := by
    match ws, hlen with
    | [length, off2, p2, off1, p1], _ => exact ⟨length, off2, p2, off1, p1, rfl⟩
  obtain ⟨h1, h2, hlength⟩ := halike.2
  obtain rfl := room_ok hstep
  exact ⟨base, frame, _, hrest.push, Or.inl (Emit.exec_bind (exec_blockCall h1 h2 hlength))⟩

/-! ## Stacks -/

theorem follows_setStackVal {idx : Nat}
    (h : InStep c o blockAt base frame (.setStackVal idx) pc s s' marks marks' vals edges) :
    Follows o (c.translateInstr blockAt (.setStackVal idx) s.pc pc vals) ⟨s.heap, frame⟩ s' marks' := by
  obtain ⟨-, -, hstep, -, hn, -, hmark, hscan, -, hok, -⟩ := h
  obtain ⟨spc, stack, heap, handlerSp, packet⟩ := s
  delta stepInstr CompileInput.mark scanInstr translateInstr at hstep hmark hscan hok ⊢
  dsimp only at hstep hn hmark hscan hok ⊢
  obtain ⟨hd, -⟩ := shape_ok hscan
  obtain rfl := Option.some.inj hmark
  split at hok
  · exact absurd trivial hok
  rename_i hidx
  rw [if_neg hidx]
  cases hn with
  | nil => exact absurd hd (Nat.not_succ_le_zero 0)
  | @cons b x y marks vals stack hxy hs =>
    dsimp only at hstep hok ⊢
    split at hok
    · exact absurd trivial hok
    rename_i hlen
    split at hstep
    · cases hstep
    obtain rfl := Option.some.inj hstep
    rw [if_neg hlen]
    exact ⟨base, frame, _, hs.set (Nat.not_le.1 hlen) (fun height => hxy.copied height), Or.inl rfl⟩

/-! ## Containers -/

theorem follows_stackContainer {n : Nat}
    (h : InStep c o blockAt base frame (.stackContainer n) pc s s' marks marks' vals edges) :
    Follows o (c.translateInstr blockAt (.stackContainer n) s.pc pc vals) ⟨s.heap, frame⟩ s' marks' := by
  obtain ⟨hpc, hfetch, hstep, hlaid, hn, -, hmark, -, -, -, -⟩ := h
  obtain ⟨spc, stack, heap, handlerSp, packet⟩ := s
  delta stepInstr CompileInput.mark at hstep hmark
  dsimp only at hstep hn hmark hfetch
  obtain rfl := Option.some.inj hmark
  have hroom := room_fits hstep
  obtain rfl := room_ok hstep
  have hlen : (List.replicate n (PolyWord.tagged 0) ++ stack).length = n + stack.length := by
    rw [List.length_append, List.length_replicate]
  rw [List.length_cons, hlen] at hroom
  have hmade : containerAt c.bytecode spc = some n := by rw [containerAt, hfetch]
  have hnew := hn.newContainer (w := .tagged 0) (Nat.le_of_succ_le hroom) (hlaid.containers spc hpc n hmade)
  rw [hlen]
  refine ⟨_, _, _, hnew, Or.inl ?_⟩
  rw [← Ir.tag_eq]
  rfl

/-- The interpreter sets a word of a container. -/
theorem moveToContainer_step {k spc handlerSp : Nat} {u ref : PolyWord} {stack : List PolyWord} {heap : Heap}
    {packet : Option PolyWord}
    (h : c.stepInstr o (.moveToContainer k) pc ⟨spc, u :: ref :: stack, heap, handlerSp, packet⟩ = some s') :
    stack.length + 1 ≤ o.stackLen ∧
      s' = ⟨pc, (o.poke (ref :: stack) heap (ref.wordAt (.ofNat 64 k)) u).1,
        (o.poke (ref :: stack) heap (ref.wordAt (.ofNat 64 k)) u).2, handlerSp, packet⟩ := by
  unfold stepInstr at h
  dsimp only at h
  unfold Surroundings.poke
  rw [List.length_cons]
  cases hslot : o.slotAt (stack.length + 1) (ref.wordAt (.ofNat 64 k)) with
  | none =>
    rw [hslot] at h
    exact ⟨room_fits h, room_ok h⟩
  | some j =>
    rw [hslot] at h
    have hroom := room_fits h
    rw [List.length_set] at hroom
    exact ⟨hroom, room_ok h⟩

/-- The interpreter reads a word of a container. -/
theorem indirectContainer_step {k spc handlerSp : Nat} {ref : PolyWord} {stack : List PolyWord} {heap : Heap}
    {packet : Option PolyWord}
    (h : c.stepInstr o (.indirectContainer k) pc ⟨spc, ref :: stack, heap, handlerSp, packet⟩ = some s') :
    stack.length + 1 ≤ o.stackLen ∧
      s' = ⟨pc, o.peek (ref :: stack) heap (ref.wordAt (.ofNat 64 k)) :: stack, heap, handlerSp, packet⟩ := by
  unfold stepInstr at h
  dsimp only at h
  unfold Surroundings.peek
  rw [List.length_cons]
  cases hslot : o.slotAt (stack.length + 1) (ref.wordAt (.ofNat 64 k)) with
  | none =>
    rw [hslot] at h
    exact ⟨room_fits h, room_ok h⟩
  | some j =>
    rw [hslot] at h
    exact ⟨room_fits h, room_ok h⟩

theorem follows_moveToContainer {k : Nat}
    (h : InStep c o blockAt base frame (.moveToContainer k) pc s s' marks marks' vals edges) :
    Follows o (c.translateInstr blockAt (.moveToContainer k) s.pc pc vals) ⟨s.heap, frame⟩ s' marks' := by
  obtain ⟨-, -, hstep, hlaid, hn, halike, hmark, -, -, -, -⟩ := h
  obtain ⟨spc, stack, heap, handlerSp, packet⟩ := s
  delta CompileInput.mark at hmark
  dsimp only at hstep hn hmark
  -- the word that is set, and the address of the container
  have hstore {ref : PolyWord} {n : NativeState} (u : PolyWord)
      (hwrite : (⟨heap, frame⟩ : NativeState).write o (ref.wordAt (.ofNat 64 k)) u = n) :
      (machine o).eff (.store u ref ((k : Int) * 8)) ⟨heap, frame⟩ = some n := by rw [store_at, hwrite]
  split at hmark
  · -- a container of another frame
    obtain rfl := Option.some.inj hmark
    cases hn with
    | @cons _ u u' _ _ _ hu hs =>
      obtain rfl : u = u' := hu
      cases hs with
      | @cons _ ref ref' _ vals stack href hs =>
        obtain rfl : ref = ref' := href
        obtain ⟨hroom, rfl⟩ := moveToContainer_step hstep
        obtain ⟨frame', hwrite, hholds⟩ := hs.push.write_foreign hroom halike.2
        exact ⟨base, frame', _, hholds, Or.inl (Emit.exec_eff (hstore u hwrite))⟩
  · -- one of the code's own
    split at hmark
    · rename_i id rest hmem
      obtain rfl := Option.some.inj hmark
      cases hn with
      | @cons _ u u' _ _ _ hu hs =>
        obtain rfl : u = u' := hu
        have hs' := hs
        cases hs with
        | @cons _ ref ref' _ vals stack href hs =>
          obtain ⟨rfl, rfl⟩ := href
          obtain ⟨hroom, rfl⟩ := moveToContainer_step hstep
          obtain ⟨frame', hwrite, hholds⟩ :=
            hs'.write_own hlaid.stack hroom (List.mem_cons_of_mem _ hmem)
          exact ⟨base, frame', _, hholds, Or.inl (Emit.exec_eff (hstore u hwrite))⟩
    · cases hmark
  · cases hmark

theorem follows_indirectContainer {k : Nat}
    (h : InStep c o blockAt base frame (.indirectContainer k) pc s s' marks marks' vals edges) :
    Follows o (c.translateInstr blockAt (.indirectContainer k) s.pc pc vals) ⟨s.heap, frame⟩ s' marks' := by
  obtain ⟨-, -, hstep, hlaid, hn, halike, hmark, -, -, -, -⟩ := h
  obtain ⟨spc, stack, heap, handlerSp, packet⟩ := s
  delta CompileInput.mark at hmark
  dsimp only at hstep hn hmark
  have hload {ref w : PolyWord}
      (hread : (⟨heap, frame⟩ : NativeState).read o (ref.wordAt (.ofNat 64 k)) = w) :
      (machine o).ins (.load ref ((k : Int) * 8)) ⟨heap, frame⟩ = some (w, ⟨heap, frame⟩) := by
    rw [load_at, hread]
  split at hmark
  · -- a container of another frame
    obtain rfl := Option.some.inj hmark
    have hn' := hn
    cases hn with
    | @cons _ ref ref' _ vals stack href hs =>
      obtain rfl : ref = ref' := href
      obtain ⟨hroom, rfl⟩ := indirectContainer_step hstep
      have hread := hn'.read_foreign heap hroom halike.2
      exact ⟨base, frame, _, hs.push, Or.inl (Emit.exec_ins (hload hread))⟩
  · -- one of the code's own
    split at hmark
    · rename_i id rest hmem
      obtain rfl := Option.some.inj hmark
      have hn' := hn
      cases hn with
      | @cons _ ref ref' _ vals stack href hs =>
        obtain ⟨rfl, rfl⟩ := href
        obtain ⟨hroom, rfl⟩ := indirectContainer_step hstep
        have hread := hn'.read_own heap hlaid.stack hroom (List.mem_cons_of_mem _ hmem)
        exact ⟨base, frame, _, hs.push, Or.inl (Emit.exec_ins (hload hread))⟩
    · cases hmark
  · cases hmark

/-! ## Calls -/

theorem follows_constAddr {op : UInt8} {off idx : Nat}
    (h : InStep c o blockAt base frame (.constAddr op off idx) pc s s' marks marks' vals edges) :
    Follows o (c.translateInstr blockAt (.constAddr op off idx) s.pc pc vals) ⟨s.heap, frame⟩ s' marks' := by
  obtain ⟨-, -, hstep, -, hn, halike, hmark, -, -, hok, -⟩ := h
  delta stepInstr CompileInput.mark translateInstr at hstep hmark hok ⊢
  dsimp only at hstep hmark hok ⊢
  obtain ⟨-, rfl⟩ := shape_mark hmark
  obtain rfl := room_ok hstep
  split at hok
  · exact absurd trivial hok
  rename_i hrange
  rw [if_neg hrange]
  have hapart : o.Apart (c.constAt pc off idx) := halike.1 _ (List.mem_singleton_self _)
  have hload := load_zero (s := ⟨s.heap, frame⟩) _ hapart
  exact ⟨base, frame, _, hn.push, Or.inl ((Emit.exec_ins rfl).trans (Emit.exec_ins hload))⟩

theorem follows_callFastRts {n : Nat}
    (h : InStep c o blockAt base frame (.callFastRts n) pc s s' marks marks' vals edges) :
    Follows o (c.translateInstr blockAt (.callFastRts n) s.pc pc vals) ⟨s.heap, frame⟩ s' marks' := by
  obtain ⟨-, -, hstep, -, hn, halike, hmark, hscan, -, -, -⟩ := h
  obtain ⟨spc, stack, heap, handlerSp, packet⟩ := s
  delta stepInstr CompileInput.mark scanInstr translateInstr at hstep hmark hscan ⊢
  dsimp only at hstep hn hmark hscan ⊢
  obtain ⟨hd, -⟩ := shape_ok hscan
  obtain ⟨hclean, rfl⟩ := shape_mark hmark
  obtain ⟨ws, vals, stack, hlen, rfl, rfl, hrest⟩ := hn.top hclean hd
  cases ws with
  | nil => cases hlen
  | cons stub args =>
    have hargs : args.length = n := Nat.succ.inj hlen
    have hsame : o.rtsTrampoline stub ((args ++ stack).take n).reverse heap =
        o.rts stub ((args ++ stack).take n).reverse heap := halike.2
    rw [List.take_left' hargs] at hsame
    rw [List.cons_append] at hstep ⊢
    dsimp only at hstep ⊢
    rw [if_neg (by rw [List.length_append]; omega), List.take_left' hargs, List.drop_left' hargs] at hstep
    rw [if_neg (by rw [List.length_append]; omega), List.take_left' hargs, List.drop_left' hargs]
    cases hrts : o.rts stub args.reverse heap with
    | none =>
      rw [hrts] at hstep
      cases hstep
    | some r =>
      rw [hrts] at hstep hsame
      obtain rfl := room_ok hstep
      have hcall : (machine o).ins (.call (.rts stub args)) ⟨heap, frame⟩ = some (r.1, ⟨r.2, frame⟩) := by
        simp only [machine, Ins.run, Trampoline.run, hsame, Option.map_some]
        rfl
      exact ⟨base, frame, _, hrest.push, Or.inl (Emit.exec_ins hcall)⟩

/-- The interpreter goes on where a call has returned. -/
theorem called {r : Option Returned} {f : Returned → Option Activation}
    (h : (match r with
      | none => none
      | some ret => f ret) = some s') : ∃ ret, r = some ret ∧ f ret = some s' := by
  cases r with
  | none => cases h
  | some ret => exact ⟨ret, rfl, h⟩

theorem follows_callLocal {n : Nat}
    (h : InStep c o blockAt base frame (.callLocal n) pc s s' marks marks' vals edges) :
    Follows o (c.translateInstr blockAt (.callLocal n) s.pc pc vals) ⟨s.heap, frame⟩ s' marks' := by
  obtain ⟨-, -, hstep, -, hn, halike, hmark, hscan, -, -, -⟩ := h
  obtain ⟨spc, stack, heap, handlerSp, packet⟩ := s
  delta stepInstr CompileInput.mark scanInstr translateInstr at hstep hmark hscan ⊢
  dsimp only at hstep hn hmark hscan ⊢
  obtain ⟨hd, -⟩ := shape_ok hscan
  obtain ⟨_, hslot, hmark⟩ := Option.bind_eq_some_iff.1 hmark
  obtain ⟨hclean, -⟩ := slot_mark hslot
  obtain rfl := call_mark hmark
  obtain ⟨closure, hw, hget⟩ := hn.slot_eq hclean hd
  rw [hget] at hstep
  obtain ⟨ret, hret, hstep⟩ := called hstep
  obtain rfl := room_ok hstep
  obtain ⟨frame', hnative, hkeeps⟩ := (halike.2 closure hget ret hret).trampoline base frame vals hn
  have hbelow := ((hn.drop (Nat.le_of_succ_le hd)).keeps hkeeps).1
  obtain ⟨hlt, hat⟩ := List.getElem?_eq_some_iff.1 hw
  have hdrop : vals.drop n = closure :: vals.drop (n + 1) := by rw [List.drop_eq_getElem_cons hlt, hat]
  have hcall : (machine o).ins (.call (.closureCall closure (vals.take n))) ⟨heap, frame⟩ =
      some (ret.result, ⟨ret.heap, frame'⟩) := hnative
  rw [hdrop] at hbelow ⊢
  exact ⟨base, frame', _, hbelow.push, Or.inl (Emit.exec_ins hcall)⟩

theorem follows_callConstAddr {op : UInt8} {off idx : Nat}
    (h : InStep c o blockAt base frame (.callConstAddr op off idx) pc s s' marks marks' vals edges) :
    Follows o (c.translateInstr blockAt (.callConstAddr op off idx) s.pc pc vals) ⟨s.heap, frame⟩ s'
      marks' := by
  obtain ⟨-, -, hstep, -, hn, halike, hmark, hscan, -, -, -⟩ := h
  obtain ⟨spc, stack, heap, handlerSp, packet⟩ := s
  delta stepInstr CompileInput.mark scanInstr translateInstr at hstep hmark hscan ⊢
  dsimp only at hstep hn hmark hscan ⊢
  split at hscan
  · cases hscan
  rename_i hrange
  rw [if_neg hrange]
  cases harity : closureArityFromAddr c.heap (c.constClosure (readAt pc off idx)) with
  | none =>
    rw [harity] at hscan
    cases hscan
  | some n =>
    rw [harity] at hscan hmark
    obtain ⟨hd, -⟩ := shape_ok hscan
    obtain rfl := call_mark hmark
    obtain ⟨ret, hret, hstep⟩ := called hstep
    obtain rfl := room_ok hstep
    obtain ⟨frame', hnative, hkeeps⟩ := (halike.2 n harity ret hret).trampoline base frame vals hn
    have hbelow := ((hn.drop hd).keeps hkeeps).1
    have hload := load_zero (s := ⟨heap, frame⟩) _ (halike.1 _ List.mem_cons_self)
    have hcall : (machine o).ins (.call (.closureCall (heap.read (c.constAt pc off idx)) (vals.take n)))
        ⟨heap, frame⟩ = some (ret.result, ⟨ret.heap, frame'⟩) := hnative
    dsimp only
    rw [if_neg (Nat.not_lt.2 hd)]
    exact ⟨base, frame', _, hbelow.push, Or.inl ((Emit.exec_ins rfl).trans
      ((Emit.exec_ins hload).trans (Emit.exec_ins hcall)))⟩

theorem follows_callClosure
    (h : InStep c o blockAt base frame .callClosure pc s s' marks marks' vals edges) :
    Follows o (c.translateInstr blockAt .callClosure s.pc pc vals) ⟨s.heap, frame⟩ s' marks' := by
  obtain ⟨-, -, hstep, -, hn, halike, hmark, hscan, -, hok, -⟩ := h
  obtain ⟨spc, stack, heap, handlerSp, packet⟩ := s
  delta stepInstr CompileInput.mark translateInstr at hstep hmark hok ⊢
  dsimp only at hstep hn hmark hok ⊢
  obtain rfl := Option.some.inj hmark
  split at hok
  · exact absurd trivial hok
  rename_i htail
  rw [if_neg htail]
  cases hn with
  | nil => cases hscan
  | @cons m closure closure' marks vals stack hxy hs =>
    obtain ⟨-, hcleanup, rfl, n, hn, harity, -, hsame⟩ := halike
    obtain rfl : closure = closure' := hxy
    have hd : n ≤ vals.length := by rwa [← hs.length_eq]
    obtain ⟨ret, hret, hstep⟩ := called hstep
    obtain rfl := room_ok hstep
    obtain ⟨frame', hnative, hkeeps⟩ := (hsame ret hret).trampoline base frame vals hs
    have hbelow := ((hs.drop hd).keeps hkeeps).1
    have hargs : jitDispatchDynamicCall heap.mem closure vals.reverse = .ok (vals.take n).reverse := by
      have hle : ¬ n > vals.reverse.length := by
        rw [List.length_reverse]
        exact Nat.not_lt.2 hd
      have hdrop : vals.reverse.drop (vals.reverse.length - n) = (vals.take n).reverse := by
        rw [List.drop_reverse, List.length_reverse, Nat.sub_sub_self hd]
      rw [jitDispatchDynamicCall, harity]
      dsimp only [bind, Except.bind]
      rw [if_neg hle, hdrop]
    have hcall : (machine o).ins (.call (.dynamicCall closure vals.reverse)) ⟨heap, frame⟩ =
        some (ret.result, ⟨ret.heap, frame'⟩) := by
      simp only [machine, Ins.run, Trampoline.run, hargs, hnative]
    refine ⟨base, frame', [ret.result], hbelow.bottom.push, Or.inl ?_⟩
    refine (Emit.exec_ins hcall).trans ?_
    rw [hcleanup]
    rfl

/-! ## Control flow -/

/-- The two blocks of a branch. -/
theorem exec_branch {cond : PolyWord} {thenPc elsePc : Nat} {args : List PolyWord} {h : NativeState}
    (hthen : blockAt thenPc = some args.length) (helse : blockAt elsePc = some args.length) :
    Emit.exec (machine o) (do
      let thenEdge ← toBlock blockAt thenPc args
      let elseEdge ← toBlock blockAt elsePc args
      .leave (.brif cond thenEdge elseEdge) (.done ⟨pc, args, true⟩) : Ir PolyWord (Walk PolyWord)) h =
    some (.jumps ⟨if cond == 0#64 then elsePc else thenPc, args⟩ h) := by
  rw [toBlock_eq hthen, toBlock_eq helse]
  simp only [Emit.done_bind, Emit.exec_leave, Emit.Terminator.take, machine]
  split <;> rfl

theorem follows_jump {off : Nat}
    (h : InStep c o blockAt base frame (.jump off) pc s s' marks marks' vals edges) :
    Follows o (c.translateInstr blockAt (.jump off) s.pc pc vals) ⟨s.heap, frame⟩ s' marks' := by
  obtain ⟨-, -, hstep, -, hn, -, hmark, hscan, hblocks, -, -⟩ := h
  delta stepInstr CompileInput.mark scanInstr translateInstr at hstep hmark hscan ⊢
  dsimp only at hstep hmark hscan ⊢
  obtain rfl := Option.some.inj hmark
  obtain rfl := Except.ok.inj hscan
  obtain rfl := room_ok hstep
  have htarget : blockAt (pc + off) = some vals.length :=
    hblocks ⟨pc + off, vals.length, true⟩ List.mem_cons_self rfl
  rw [toBlock_eq htarget]
  exact ⟨base, frame, vals, hn, Or.inr rfl⟩

theorem follows_jumpBack {op : UInt8} {off immBytes : Nat}
    (h : InStep c o blockAt base frame (.jumpBack op off immBytes) pc s s' marks marks' vals edges) :
    Follows o (c.translateInstr blockAt (.jumpBack op off immBytes) s.pc pc vals) ⟨s.heap, frame⟩ s'
      marks' := by
  obtain ⟨-, -, hstep, -, hn, -, hmark, hscan, hblocks, -, -⟩ := h
  delta stepInstr CompileInput.mark scanInstr translateInstr at hstep hmark hscan ⊢
  dsimp only at hstep hmark hscan ⊢
  obtain rfl := Option.some.inj hmark
  split at hstep
  · cases hstep
  rename_i hback
  obtain rfl := room_ok hstep
  split at hscan
  · cases hscan
  obtain rfl := Except.ok.inj hscan
  have htarget : blockAt (pc - off - (1 + immBytes)) = some vals.length :=
    hblocks ⟨pc - off - (1 + immBytes), vals.length, true⟩ List.mem_cons_self rfl
  have hpc : pc - off - (1 + immBytes) = pc - (off + 1 + immBytes) := by omega
  have hpc' : pc - off - 1 - immBytes = pc - (off + 1 + immBytes) := by omega
  rw [hpc] at htarget
  rw [if_neg hback, hpc', toBlock_eq htarget]
  exact ⟨base, frame, vals, hn, Or.inr rfl⟩

/-- Where the interpreter goes on behind a branch. -/
theorem branch_step {taken : Bool} {target handlerSp : Nat} {stack : List PolyWord} {heap : Heap}
    {packet : Option PolyWord}
    (h : (if taken = true then
        if target ≤ c.bytecode.length then some ⟨target, stack, heap, handlerSp, packet⟩ else none
      else some ⟨pc, stack, heap, handlerSp, packet⟩) = some s') :
    s' = ⟨if taken = true then target else pc, stack, heap, handlerSp, packet⟩ := by
  cases taken with
  | false => exact (Option.some.inj h).symm
  | true => exact room_ok h

/-- The same with the branch taken where the test fails. -/
theorem branchNeq_step {falls : Bool} {target handlerSp : Nat} {stack : List PolyWord} {heap : Heap}
    {packet : Option PolyWord}
    (h : (if falls = true then some ⟨pc, stack, heap, handlerSp, packet⟩
      else if target ≤ c.bytecode.length then some ⟨target, stack, heap, handlerSp, packet⟩ else none) =
        some s') :
    s' = ⟨if falls = true then pc else target, stack, heap, handlerSp, packet⟩ := by
  cases falls with
  | false => exact room_ok h
  | true => exact (Option.some.inj h).symm

theorem follows_jumpCond {onFalse : Bool} {off : Nat}
    (h : InStep c o blockAt base frame (.jumpCond onFalse off) pc s s' marks marks' vals edges) :
    Follows o (c.translateInstr blockAt (.jumpCond onFalse off) s.pc pc vals) ⟨s.heap, frame⟩ s' marks' := by
  obtain ⟨-, -, hstep, -, hn, -, hmark, hscan, hblocks, -, -⟩ := h
  obtain ⟨spc, stack, heap, handlerSp, packet⟩ := s
  delta stepInstr CompileInput.mark scanInstr translateInstr at hstep hmark hscan ⊢
  dsimp only at hstep hn hmark hscan ⊢
  simp only [← Nat.lt_one_iff] at hscan
  obtain ⟨hd, htaken, hfall⟩ := branch_ok hscan hblocks
  obtain ⟨hclean, rfl⟩ := shape_mark hmark
  obtain ⟨w, vals, stack, rfl, rfl, hrest⟩ := hn.top1 hclean hd
  rw [List.length_cons, Nat.add_sub_cancel] at htaken hfall
  dsimp only at hstep
  obtain rfl := branch_step hstep
  have hcmp : (machine o).ins (.icmp .equal w (Ir.tag 0)) ⟨heap, frame⟩ =
      some (if w == .tagged 0 then 1#64 else 0#64, ⟨heap, frame⟩) := by
    rw [Ir.tag_eq]
    rfl
  refine ⟨base, frame, vals, hrest, Or.inr ((Emit.exec_ins rfl).trans ((Emit.exec_ins hcmp).trans ?_))⟩
  cases onFalse with
  | false =>
    refine (exec_branch hfall htaken).trans ?_
    cases w == PolyWord.tagged 0 <;> rfl
  | true =>
    refine (exec_branch htaken hfall).trans ?_
    cases w == PolyWord.tagged 0 <;> rfl

theorem follows_jumpTaggedLocal {d off : Nat}
    (h : InStep c o blockAt base frame (.jumpTaggedLocal d off) pc s s' marks marks' vals edges) :
    Follows o (c.translateInstr blockAt (.jumpTaggedLocal d off) s.pc pc vals) ⟨s.heap, frame⟩ s' marks' := by
  obtain ⟨-, -, hstep, -, hn, -, hmark, hscan, hblocks, -, -⟩ := h
  obtain ⟨spc, stack, heap, handlerSp, packet⟩ := s
  delta stepInstr CompileInput.mark scanInstr translateInstr at hstep hmark hscan ⊢
  dsimp only at hstep hn hmark hscan ⊢
  obtain ⟨hd, htaken, hfall⟩ := branch_ok hscan hblocks
  obtain ⟨hclean, rfl⟩ := slot_mark hmark
  obtain ⟨w, hw, hw'⟩ := hn.slot_eq hclean hd
  rw [hw'] at hstep
  rw [hw]
  dsimp only at hstep
  obtain rfl := branch_step hstep
  refine ⟨base, frame, vals, hn, Or.inr ((Emit.exec_ins rfl).trans ((Emit.exec_ins rfl).trans ?_))⟩
  refine (exec_branch htaken hfall).trans ?_
  rw [and_one]
  cases w.isTagged <;> rfl

theorem toInt_toInt8 {n : UInt8} (hn : n < 128) : n.toInt8.toInt = n.toNat := by
  have hlt : 2 * n.toBitVec.toNat < 2 ^ 8 :=
    Nat.mul_lt_mul_of_pos_left (hn : n.toBitVec.toNat < 128) (by decide)
  exact BitVec.toInt_eq_toNat_of_lt hlt

/-- The test for a tagged constant. -/
theorem isTagged_and_untag {w : PolyWord} {n : UInt8} (hn : n < 128) :
    (w.isTagged && w.untag == (n.toNat : Int)) = (w == Ir.tag n.toInt8.toInt) := by
  have hlt : n.toNat < 128 := hn
  rw [Ir.tag_eq, toInt_toInt8 hn, Bool.eq_iff_iff, Bool.and_eq_true, beq_iff_eq, beq_iff_eq]
  constructor
  · rintro ⟨htag, huntag⟩
    rw [← huntag]
    exact (PolyWord.tagged_untag htag).2.2.symm
  · rintro rfl
    exact ⟨PolyWord.isTagged_tagged _, PolyWord.untag_tagged (by unfold PolyWord.minTagged; omega)
      (by unfold PolyWord.maxTagged; omega)⟩

/-- The branch on a word that is not the constant. -/
theorem exec_branchNeq {u : PolyWord} {want : UInt8} {target : Nat} {h : NativeState} (hwant : want < 128)
    (htarget : blockAt target = some vals.length) (hfall : blockAt pc = some vals.length) :
    Emit.exec (machine o) (do
      let wantTagged ← Ir.iconst (Ir.tag want.toInt8.toInt)
      let eq ← Ir.icmp .equal u wantTagged
      let thenEdge ← toBlock blockAt pc vals
      let elseEdge ← toBlock blockAt target vals
      .leave (.brif eq thenEdge elseEdge) (.done ⟨pc, vals, true⟩) : Ir PolyWord (Walk PolyWord)) h =
    some (.jumps ⟨if u.isTagged && u.untag == (want.toNat : Int) then pc else target, vals⟩ h) := by
  refine (Emit.exec_ins rfl).trans ((Emit.exec_ins rfl).trans ((exec_branch hfall htarget).trans ?_))
  rw [isTagged_and_untag hwant, IntCC.holds]
  cases u == Ir.tag want.toInt8.toInt <;> rfl

theorem follows_jumpNeqLocal {ind : Bool} {d off : Nat} {want : UInt8}
    (h : InStep c o blockAt base frame (.jumpNeqLocal ind d want off) pc s s' marks marks' vals edges) :
    Follows o (c.translateInstr blockAt (.jumpNeqLocal ind d want off) s.pc pc vals) ⟨s.heap, frame⟩ s'
      marks' := by
  obtain ⟨-, -, hstep, -, hn, halike, hmark, hscan, hblocks, -, -⟩ := h
  obtain ⟨spc, stack, heap, handlerSp, packet⟩ := s
  delta stepInstr CompileInput.mark scanInstr translateInstr at hstep hmark hscan ⊢
  dsimp only at hstep hn hmark hscan ⊢
  obtain ⟨hd, htaken, hfall⟩ := branch_ok hscan hblocks
  obtain ⟨hclean, rfl⟩ := slot_mark hmark
  obtain ⟨w, hw, hw'⟩ := hn.slot_eq hclean hd
  have hwant : want < 128 := halike.2
  rw [hw'] at hstep
  rw [hw]
  dsimp only at hstep ⊢
  obtain rfl := branchNeq_step hstep
  refine ⟨base, frame, vals, hn, Or.inr ?_⟩
  cases ind with
  | false => exact exec_branchNeq hwant htaken hfall
  | true =>
    have hmem : w ∈ stack[d]?.toList := by
      rw [hw']
      exact List.mem_singleton_self w
    have hload := load_zero (s := ⟨heap, frame⟩) w (halike.1 w hmem)
    exact (Emit.exec_ins hload).trans (exec_branchNeq hwant htaken hfall)

/-- The bound of a jump table, which is compared without a sign. -/
theorem ule_iff {n : Nat} (hn : n < 65536) (w : PolyWord) :
    (BitVec.ofNat 64 n).ule w = true ↔ w.toInt < 0 ∨ w.toInt ≥ n := by
  have hnat : (BitVec.ofNat 64 n).toNat = n := Nat.mod_eq_of_lt (by omega)
  have hw := w.isLt
  rw [BitVec.ule_eq_decide, decide_eq_true_iff, hnat, BitVec.toInt_eq_toNat_cond]
  split <;> omega

/-- A jump through a table. -/
theorem exec_brTable {n : Nat} {w : PolyWord} {default : Edge PolyWord} {f : Nat → Edge PolyWord}
    {k : Ir PolyWord (Walk PolyWord)} {h : NativeState} (hn : n < 65536) :
    (Emit.leave (.brTable (if IntCC.unsignedGreaterThanOrEqual.holds w (.ofNat 64 n) then 1#64 else 0#64) w
      default ((List.range n).map f)) k).exec (machine o) h =
    some (.jumps (if w.toInt < 0 ∨ w.toInt ≥ n then default else f w.toInt.toNat) h) := by
  have hule : (IntCC.unsignedGreaterThanOrEqual.holds w (.ofNat 64 n) = true) ↔ w.toInt < 0 ∨ w.toInt ≥ n :=
    ule_iff hn w
  by_cases hout : w.toInt < 0 ∨ w.toInt ≥ n
  · rw [if_pos hout, if_pos (hule.2 hout)]
    rfl
  · have hnat : w.toInt = w.toNat := by
      rw [BitVec.toInt_eq_toNat_cond] at hout ⊢
      split <;> rename_i hlt
      · rfl
      · rw [if_neg hlt] at hout
        have := w.isLt
        omega
    have hlt : w.toNat < n := by omega
    have hindex : w.toNat % 2 ^ 32 = w.toNat := Nat.mod_eq_of_lt (by omega)
    have hget : ((List.range n).map f).getD w.toNat default = f w.toNat := by
      rw [List.getD_eq_getElem _ _ (by rw [List.length_map, List.length_range]; exact hlt), List.getElem_map,
        List.getElem_range]
    rw [if_neg hout, if_neg (fun h => hout (hule.1 h)), hnat, Int.toNat_natCast, ← hget]
    conv => rhs; rw [← hindex]
    rfl

theorem follows_case16 {arg1 : Nat}
    (h : InStep c o blockAt base frame (.case16 arg1) pc s s' marks marks' vals edges) :
    Follows o (c.translateInstr blockAt (.case16 arg1) s.pc pc vals) ⟨s.heap, frame⟩ s' marks' := by
  obtain ⟨-, -, hstep, -, hn, -, hmark, hscan, hblocks, -, hsmall⟩ := h
  obtain ⟨spc, stack, heap, handlerSp, packet⟩ := s
  delta stepInstr CompileInput.mark scanInstr translateInstr at hstep hmark hscan ⊢
  dsimp only at hstep hn hmark hscan ⊢
  obtain ⟨hdefault, hcases⟩ := case16_ok hscan hblocks
  have hd : 1 ≤ vals.length := by
    split at hscan
    · cases hscan
    · exact Nat.pos_of_ne_zero ‹_›
  obtain ⟨hclean, rfl⟩ := shape_mark hmark
  obtain ⟨selector, vals, stack, rfl, rfl, hrest⟩ := hn.top1 hclean hd
  rw [List.length_cons, Nat.add_sub_cancel] at hdefault hcases
  dsimp only at hstep ⊢
  simp only [toBlock_eq hdefault, case16Edges_eq hcases, Emit.done_bind]
  have hjumps {e e' : Edge PolyWord} (he : e = e') :
      (some (.jumps e ⟨heap, frame⟩) : Option (Emit.Outcome PolyWord NativeState (Walk PolyWord))) =
        some (.jumps e' ⟨heap, frame⟩) := by rw [he]
  split at hstep
  · rename_i hout
    obtain rfl := room_ok hstep
    refine ⟨base, frame, vals, hrest, Or.inr ?_⟩
    refine (Emit.exec_ins rfl).trans ((Emit.exec_ins rfl).trans ((Emit.exec_ins rfl).trans ?_))
    exact (exec_brTable hsmall).trans (hjumps (if_pos hout))
  · rename_i hin
    obtain rfl := room_ok hstep
    refine ⟨base, frame, vals, hrest, Or.inr ?_⟩
    refine (Emit.exec_ins rfl).trans ((Emit.exec_ins rfl).trans ((Emit.exec_ins rfl).trans ?_))
    exact (exec_brTable hsmall).trans (hjumps (if_neg hin))

/-! ## All instructions -/

theorem follows {i : Instruction} (h : InStep c o blockAt base frame i pc s s' marks marks' vals edges) :
    Follows o (c.translateInstr blockAt i s.pc pc vals) ⟨s.heap, frame⟩ s' marks' := by
  cases i
  case constAddr op off idx => exact follows_constAddr h
  case getThreadId => exact follows_getThreadId h
  case allocMutClosure n => exact follows_allocMutClosure h
  case tuple n => exact follows_tuple h
  case closure n => exact follows_closure h
  case allocByteMem => exact follows_allocByteMem h
  case allocWordMemory => exact follows_allocWordMemory h
  case block op => exact follows_block h
  case stackContainer n => exact follows_stackContainer h
  case moveToContainer k => exact follows_moveToContainer h
  case indirectContainer k => exact follows_indirectContainer h
  case setStackVal idx => exact follows_setStackVal h
  case callFastRts n => exact follows_callFastRts h
  case callLocal n => exact follows_callLocal h
  case callClosure => exact follows_callClosure h
  case callConstAddr op off idx => exact follows_callConstAddr h
  case jump off => exact follows_jump h
  case jumpBack op off immBytes => exact follows_jumpBack h
  case jumpCond onFalse off => exact follows_jumpCond h
  case jumpTaggedLocal d off => exact follows_jumpTaggedLocal h
  case jumpNeqLocal ind d want off => exact follows_jumpNeqLocal h
  case case16 arg1 => exact follows_case16 h
  all_goals
    obtain ⟨-, -, hstep, -, hn, halike, hmark, hscan, -, hok, -⟩ := h
    obtain ⟨spc, stack, heap, handlerSp, packet⟩ := s
    delta stepInstr CompileInput.mark scanInstr translateInstr at hstep hmark hscan hok ⊢
    dsimp only at hstep hn hmark hscan hok ⊢
  case const n =>
    obtain ⟨-, rfl⟩ := shape_mark hmark
    obtain rfl := room_ok hstep
    refine ⟨base, frame, .tagged n :: vals, hn.push, Or.inl ?_⟩
    rw [Ir.tag_eq]
    rfl
  case localAt d =>
    obtain ⟨hd, -⟩ := shape_ok hscan
    obtain ⟨b, y, hb, hy, hxy⟩ := hn.slot (List.getElem?_eq_getElem hd)
    rw [hy] at hstep
    rw [hb] at hmark
    obtain rfl := room_ok hstep
    obtain rfl := Option.some.inj hmark
    rw [List.getElem?_eq_getElem hd]
    exact ⟨base, frame, _, .cons (hxy.copied _) hn, Or.inl rfl⟩
  case indirectLocal d slot =>
    obtain ⟨hd, -⟩ := shape_ok hscan
    obtain ⟨hclean, rfl⟩ := slot_mark hmark
    obtain ⟨w, hw, hw'⟩ := hn.slot_eq hclean hd
    rw [hw'] at hstep
    obtain rfl := room_ok hstep
    rw [hw]
    have hload := load_field (s := ⟨heap, frame⟩) w slot (halike.1 _ (mem_local _ hw'))
    exact ⟨base, frame, _, hn.push, Or.inl (Emit.exec_ins hload)⟩
  case indirectClosure d slot =>
    obtain ⟨hd, -⟩ := shape_ok hscan
    obtain ⟨hclean, rfl⟩ := slot_mark hmark
    obtain ⟨w, hw, hw'⟩ := hn.slot_eq hclean hd
    rw [hw'] at hstep
    obtain rfl := room_ok hstep
    rw [hw]
    have hload := load_field (s := ⟨heap, frame⟩) w (1 + slot) (halike.1 _ (mem_local _ hw'))
    exact ⟨base, frame, _, hn.push, Or.inl (Emit.exec_ins hload)⟩
  case isTaggedLocal d =>
    obtain ⟨hd, -⟩ := shape_ok hscan
    obtain ⟨hclean, rfl⟩ := slot_mark hmark
    obtain ⟨w, hw, hw'⟩ := hn.slot_eq hclean hd
    rw [hw'] at hstep
    obtain rfl := room_ok hstep
    rw [hw]
    exact ⟨base, frame, _, hn.push, Or.inl (Emit.exec_bind (exec_lowBit w))⟩
  case indirect field =>
    obtain ⟨hd, -⟩ := shape_ok hscan
    obtain ⟨hclean, rfl⟩ := shape_mark hmark
    obtain ⟨w, vals, stack, rfl, rfl, hrest⟩ := hn.top1 hclean hd
    obtain rfl := room_ok hstep
    have hload := load_field (s := ⟨heap, frame⟩) w field (halike.1 _ List.mem_cons_self)
    exact ⟨base, frame, _, hrest.push, Or.inl (Emit.exec_ins hload)⟩
  case lock | clearMutable =>
    obtain ⟨hd, -⟩ := shape_ok hscan
    obtain ⟨hclean, rfl⟩ := shape_mark hmark
    obtain ⟨w, vals, stack, rfl, rfl, hrest⟩ := hn.top1 hclean hd
    obtain rfl := room_ok hstep
    have hclear := exec_clearMutableBit (s := ⟨heap, frame⟩) w (halike.1 _ List.mem_cons_self)
    exact ⟨base, frame, _, hrest.push, Or.inl (Emit.exec_bind (Emit.exec_bind hclear))⟩
  case cellFlags =>
    obtain ⟨hd, -⟩ := shape_ok hscan
    obtain ⟨hclean, rfl⟩ := shape_mark hmark
    obtain ⟨w, vals, stack, rfl, rfl, hrest⟩ := hn.top1 hclean hd
    obtain rfl := room_ok hstep
    refine ⟨base, frame, _, hrest.push, Or.inl ?_⟩
    rw [cellFlags_eq]
    exact Emit.exec_ins (load_lengthWord w (halike.1 _ List.mem_cons_self))
  case cellLength =>
    obtain ⟨hd, -⟩ := shape_ok hscan
    obtain ⟨hclean, rfl⟩ := shape_mark hmark
    obtain ⟨w, vals, stack, rfl, rfl, hrest⟩ := hn.top1 hclean hd
    obtain rfl := room_ok hstep
    refine ⟨base, frame, _, hrest.push, Or.inl ?_⟩
    rw [cellLength_eq]
    exact Emit.exec_ins (load_lengthWord w (halike.1 _ List.mem_cons_self))
  case notBoolean =>
    obtain ⟨hd, -⟩ := shape_ok hscan
    obtain ⟨hclean, rfl⟩ := shape_mark hmark
    obtain ⟨w, vals, stack, rfl, rfl, hrest⟩ := hn.top1 hclean hd
    obtain rfl := room_ok hstep
    refine ⟨base, frame, _, hrest.push, Or.inl (Emit.exec_bind ?_)⟩
    rw [Ir.tag_eq, Ir.tag_eq]
    refine (Emit.exec_ins rfl).trans ?_
    refine (Emit.exec_ins rfl).trans ?_
    have hcmp : (machine o).ins (.icmp .equal w (.tagged 0)) ⟨heap, frame⟩ =
        some (if w == .tagged 0 then 1#64 else 0#64, ⟨heap, frame⟩) := rfl
    refine (Emit.exec_ins hcmp).trans ?_
    cases w == PolyWord.tagged 0 <;> rfl
  case isTagged =>
    obtain ⟨hd, -⟩ := shape_ok hscan
    obtain ⟨hclean, rfl⟩ := shape_mark hmark
    obtain ⟨w, vals, stack, rfl, rfl, hrest⟩ := hn.top1 hclean hd
    obtain rfl := room_ok hstep
    exact ⟨base, frame, _, hrest.push, Or.inl (Emit.exec_bind (exec_lowBit w))⟩
  case load kind =>
    obtain ⟨hd, -⟩ := shape_ok hscan
    obtain ⟨hclean, rfl⟩ := shape_mark hmark
    obtain ⟨index, ptr, vals, stack, rfl, rfl, hrest⟩ := hn.top2 hclean hd
    dsimp only at hstep
    cases hload : loadOp heap kind index ptr with
    | none =>
      rw [hload] at hstep
      cases hstep
    | some r =>
      rw [hload] at hstep
      obtain rfl := room_ok hstep
      have hapart (hkind : kind ≠ .mlByte) : o.Apart (ptr.wordAt index.untagBits) := by
        refine halike.1 _ ?_
        simp only [touched, if_neg hkind, List.mem_singleton]
      exact ⟨base, frame, _, hrest.push, Or.inl (Emit.exec_bind (exec_loadIndexed hapart hload))⟩
  case binary op =>
    obtain ⟨hd, -⟩ := shape_ok hscan
    obtain ⟨hclean, rfl⟩ := shape_mark hmark
    obtain ⟨x, y, vals, stack, rfl, rfl, hrest⟩ := hn.top2 hclean hd
    dsimp only at hstep
    cases hop : binOp op x y with
    | none =>
      rw [hop] at hstep
      cases hstep
    | some r =>
      rw [hop] at hstep
      obtain rfl := room_ok hstep
      exact ⟨base, frame, _, hrest.push, Or.inl (Emit.exec_bind (exec_binary hop halike.2))⟩
  case store kind =>
    obtain ⟨hd, -⟩ := shape_ok hscan
    obtain ⟨hclean, rfl⟩ := shape_mark hmark
    obtain ⟨toStore, index, ptr, vals, stack, rfl, rfl, hrest⟩ := hn.top3 hclean hd
    obtain rfl := room_ok hstep
    have hapart (hkind : kind ≠ .mlByte) : o.Apart (ptr.wordAt index.untagBits) := by
      refine halike.1 _ ?_
      simp only [touched, if_neg hkind, List.mem_singleton]
    exact ⟨base, frame, _, hrest.push,
      Or.inl (Emit.exec_bind (exec_storeIndexed kind toStore index ptr hapart))⟩
  case ldexc =>
    obtain rfl := Option.some.inj hmark
    obtain rfl := room_ok hstep
    refine ⟨base, frame, _, .cons ?_ hn, Or.inl rfl⟩
    cases packet with
    | none => exact Ir.tag_eq 0
    | some _ => trivial
  case pushHandler =>
    obtain rfl := Option.some.inj hmark
    obtain rfl := room_ok hstep
    exact ⟨base, frame, _, .cons trivial hn, Or.inl rfl⟩
  case setHandler off =>
    obtain rfl := Option.some.inj hmark
    obtain ⟨t, ht, rfl⟩ := Option.map_eq_some_iff.1 hstep
    obtain rfl := room_ok ht
    exact ⟨base, frame, _, .cons trivial hn, Or.inl rfl⟩
  case moveToMutClosure slot =>
    obtain ⟨hd, -⟩ := shape_ok hscan
    obtain ⟨hclean, rfl⟩ := shape_mark hmark
    obtain ⟨u, target, vals, stack, rfl, rfl, hrest⟩ := hn.top2 hclean hd
    obtain rfl := room_ok hstep
    have hstore := store_field (s := ⟨heap, frame⟩) u target (slot + 1) (halike.1 _ List.mem_cons_self)
    exact ⟨base, frame, _, hn.drop (Nat.le_add_left 1 _), Or.inl (Emit.exec_eff hstore)⟩
  case noOp =>
    obtain rfl := Option.some.inj hmark
    obtain rfl := Option.some.inj hstep
    exact ⟨base, frame, _, hn, Or.inl rfl⟩
  case reset n =>
    obtain ⟨hd, -⟩ := shape_ok hscan
    obtain rfl := Option.some.inj hmark
    rw [if_neg (Nat.not_lt.2 (Nat.le_trans hd (Nat.le_of_add_right_le hn.length_le)))] at hstep
    obtain rfl := Option.some.inj hstep
    rw [if_neg (Nat.not_lt.2 hd)]
    exact ⟨base, frame, _, hn.drop hd, Or.inl rfl⟩
  case resetR n =>
    obtain ⟨hd, -⟩ := shape_ok hscan
    obtain rfl := Option.some.inj hmark
    rw [if_neg (Nat.not_lt.2 (Nat.le_trans hd (Nat.le_of_add_right_le hn.length_le)))] at hstep
    obtain rfl := Option.some.inj hstep
    rw [if_neg (Nat.not_lt.2 hd)]
    cases hn with
    | nil => exact absurd hd (Nat.not_succ_le_zero n)
    | cons hxy hs =>
      exact ⟨base, frame, _, .cons (hxy.copied _) (hs.drop (Nat.le_of_succ_le_succ hd)), Or.inl rfl⟩
  case allocRef | deleteHandler => exact halike.2.elim
  case raiseEx | tail _ _ | ret _ => cases hstep

end CompileInput
