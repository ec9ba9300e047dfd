import PolymlRs.Interp.SideStacks

set_option autoImplicit false

/-! # Runs of well-formed code

A collection moves the code under the calls and the handlers; every place on the stacks moves with it
(`Tracks.collect`). With the instructions of `Interp.SideStacks` this gives the theorem about whole runs,
`Runs.sides_track`. -/

open CallStack
open Interpreter (interpreted)

/-! ## A collection -/

/-- What a collection does to the thread. -/
theorem ThreadIn.writeBack {g g' : GcState} {copied : List Nat} {φ : Nat → Nat} {t t' : ThreadContext}
    (hin : ThreadIn g g' t t') (hmoved : GcRelocated g g' copied φ) :
    ∃ r, Publishes t r ∧ (motion g.mem g.nurseries copied φ g'.mem g'.nurseries).Moves (r.words t.stack) ∧
      t' = r.writeBack (poolView g.mem g.nurseries) φ t := by
  obtain ⟨hown, hothers⟩ := hmoved.moves.append
  cases hin with
  | collects => exact ⟨_, publishes_capture g.self, hown, hmoved.self⟩
  | @parked i p p' t t' r r' hp hr hpub hp' hr' =>
    refine ⟨r, hpub, fun w hw => hothers.append.1 w (List.mem_flatMap.2 ⟨p, List.mem_of_getElem? hp, ?_⟩),
      ?_⟩
    · rw [Peer.words, hr]
      exact hw
    · rw [hmoved.peers, List.getElem?_map, hp, Option.map_some, Option.some.injEq] at hp'
      subst hp'
      obtain ⟨parked, cell, addr⟩ := p
      simp only at hr
      subst hr
      simp only [Peer.fixup, Peer.relocateAll, Peer.relocate, Peer.relocateCell, SendRoots.relocate,
        SendRoots.fixup, Option.map_some, Option.some.injEq, SendRoots.thread.injEq] at hr'
      exact hr'.1.symm

/-- Every code range of a thread starts in a root slot of it. -/
theorem Publishes.mem_words {t : ThreadContext} {r : ThreadRoots} (hpub : Publishes t r) {f : Nat × Nat}
    (hf : f ∈ t.codeRanges) (stack : List PolyWord) : (true, PolyWord.fromAddr f.1) ∈ r.words stack := by
  have hcode : r.codeStartSlot = PolyWord.fromAddr t.codeStart :=
    congrArg ThreadRoots.codeStartSlot hpub.1
  have hframes : r.frameStarts = t.frames.map (fun f => PolyWord.fromAddr f.1) :=
    congrArg ThreadRoots.frameStarts hpub.1
  have hhandlers : r.handlerStarts = t.handlerFramesDepth.map (fun f => PolyWord.fromAddr f.2.1) :=
    congrArg ThreadRoots.handlerStarts hpub.1
  rw [ThreadRoots.words, hcode, hframes, hhandlers]
  rcases List.mem_cons.1 hf with rfl | hf
  · simp
  · rcases List.mem_append.1 hf with hf | hf
    · exact List.mem_append_right _ (List.mem_cons_of_mem _ (List.mem_cons_of_mem _
        (List.mem_append_left _ (List.mem_map_of_mem (List.mem_map_of_mem hf)))))
    · obtain ⟨e, he, rfl⟩ := List.mem_map.1 hf
      exact List.mem_append_right _ (List.mem_cons_of_mem _ (List.mem_cons_of_mem _
        (List.mem_append_right _ (List.mem_append_left _
          (List.mem_map.2 ⟨_, List.mem_map_of_mem he, rfl⟩)))))

section Moved

variable {g g' : GcState} {copied : List Nat} {φ : Nat → Nat} {t : ThreadContext} {r : ThreadRoots}
variable {p : CodePoint}

/-- The code of an object goes where the object goes. -/
theorem codeMove_object (hpool : PoolOk g.mem g.nurseries) (hmoved : GcRelocated g g' copied φ) {b : Nat}
    (hb : b ∈ (poolView g.mem g.nurseries).objs) (hlt : b < 0x8000000000000000)
    (hfollows : (motion g.mem g.nurseries copied φ g'.mem g'.nurseries).Follows true (PolyWord.fromAddr b)
      ((poolView g.mem g.nurseries).relocate φ true (PolyWord.fromAddr b))) :
    g.codeMove φ b = φ b ∧ 8 ≤ φ b ∧ φ b + 8 * g.mem.objLen b < 0x8000000000000000 := by
  have hok := hmoved.heap.motionOk hpool
  obtain ⟨-, hal, hcont⟩ := hok.found b hb
  have haddr : (PolyWord.fromAddr b).addr = b := PolyWord.addr_fromAddr (by omega)
  have htag : (PolyWord.fromAddr b).isTagged = false := by
    rw [PolyWord.isTagged_fromAddr (by omega)]
    exact decide_eq_false (by omega)
  have htarget : (poolView g.mem g.nurseries).target true (PolyWord.fromAddr b) = some b := by
    rw [HeapView.target, htag, haddr]
    exact hcont
  obtain ⟨hsurvives, -, hat⟩ := hfollows.denotes b htarget
  rw [haddr, Nat.sub_self, Nat.add_zero] at hat
  exact ⟨hat, hok.placed b hsurvives⟩

/-- An address in no from-space stays. -/
theorem relocate_outside (hpool : PoolOk g.mem g.nurseries) {a : Nat} (ha : ¬ InSpaces g.nurseries a)
    (hlt : a < 0x8000000000000000) (tf : Bool) :
    (poolView g.mem g.nurseries).relocate φ tf (PolyWord.fromAddr a) = PolyWord.fromAddr a := by
  refine HeapView.relocate_of_target_none (hpool.target_none ?_)
  rwa [PolyWord.addr_fromAddr (by omega)]

/-- A place in code is moved with the code: its range, the program counter, and a slot with its
address. -/
theorem CodePoint.Valid.moved (hvalid : p.Valid) (hpool : PoolOk g.mem g.nurseries)
    (hmoved : GcRelocated g g' copied φ) (hpub : Publishes t r)
    (hm : (motion g.mem g.nurseries copied φ g'.mem g'.nurseries).Moves (r.words t.stack))
    (hp : p.range ∈ t.codeRanges)
    (hcode : CodeRange (InSpaces g.nurseries) (poolView g.mem g.nurseries) p.start p.stop) :
    (p.move (g.codeMove φ)).Valid ∧ relocateRange (poolView g.mem g.nurseries) φ p.range =
      (p.move (g.codeMove φ)).range ∧
    (relocateRange (poolView g.mem g.nurseries) φ (p.start, p.pc)).2 = (p.move (g.codeMove φ)).pc ∧
    (p.pc < p.stop → (poolView g.mem g.nurseries).relocate φ false (PolyWord.fromAddr p.pc) =
      PolyWord.fromAddr (p.move (g.codeMove φ)).pc) := by
  obtain ⟨hpos, hnonempty, hlo, hhi, haddr⟩ := hvalid
  have hok := hmoved.heap.motionOk hpool
  have hfollows := hm _ (hpub.mem_words hp t.stack)
  have hstop := (hok.pointer hcode hfollows (Nat.le_of_lt hnonempty) (Nat.le_refl _)).1
  have hpc := (hok.pointer hcode hfollows hlo hhi).1
  have hplace : (p.move (g.codeMove φ)).Valid ∧ (p.pc < p.stop →
      (poolView g.mem g.nurseries).relocate φ false (PolyWord.fromAddr p.pc) =
        PolyWord.fromAddr (p.move (g.codeMove φ)).pc) := by
    rcases hcode.place with ⟨hobj, hend⟩ | hout
    · have hlen : p.stop ≤ p.start + 8 * g.mem.objLen p.start := hend
      obtain ⟨hat, hlow, htop⟩ := codeMove_object hpool hmoved hobj (by omega) hfollows
      simp only [CodePoint.move, hat]
      refine ⟨⟨?_, ?_, ?_, ?_, ?_⟩, fun hlt => ?_⟩ <;> try (dsimp only; omega)
      have hpcAddr : (PolyWord.fromAddr p.pc).addr = p.pc := PolyWord.addr_fromAddr (by omega)
      have hcovers : g.mem.Covers p.start p.pc := ⟨hlo, by omega⟩
      have htarget : (poolView g.mem g.nurseries).target false (PolyWord.fromAddr p.pc) = some p.start := by
        rw [HeapView.target, hpcAddr]
        exact (HeapView.container_eq_some hpool.separate hpool.pos).2 ⟨hobj, hcovers⟩
      rw [HeapView.relocate_of_target htarget, hpcAddr]
    · have hat : g.codeMove φ p.start = p.start := by
        rw [GcState.codeMove, relocate_outside hpool (hout _ (Nat.le_refl _) hnonempty) (by omega),
          PolyWord.addr_fromAddr (by omega)]
      simp only [CodePoint.move, hat]
      refine ⟨⟨hpos, ?_, ?_, ?_, ?_⟩, fun hlt => ?_⟩ <;> try (dsimp only; omega)
      rw [relocate_outside hpool (hout _ hlo hlt) (by omega), Nat.add_sub_cancel' hlo]
  exact ⟨hplace.1, Prod.ext rfl hstop, hpc, hplace.2⟩

end Moved

@[simp] theorem handlerTop_move (f : Nat → Nat) (none : Nat) (marks : List StackMark) :
    handlerTop none (marks.map (StackMark.move f)) = handlerTop none marks := by
  induction marks with
  | nil => rfl
  | cons m below ih =>
    cases m with
    | handler slot entry => rfl
    | _ => exact ih

/-- The marks after every word above `sp` has become `g` of it. -/
theorem Laid.moved {stack stack' : List PolyWord} {sp : Nat} {marks : List StackMark} {f : Nat → Nat}
    {g : PolyWord → PolyWord} (h : Laid stack sp marks) (hlength : stack'.length = stack.length)
    (hwords : ∀ i, sp ≤ i → stack'[i]? = stack[i]?.map g)
    (hslots : ∀ n ≤ stack.length, g (PolyWord.fromAddr n) = PolyWord.fromAddr n)
    (hpoints : ∀ m ∈ marks, ∀ p, m.point = some p →
      g (PolyWord.fromAddr p.pc) = PolyWord.fromAddr (p.move f).pc) :
    Laid stack' sp (marks.map (StackMark.move f)) := by
  induction marks generalizing sp with
  | nil => exact Nat.le_trans h (Nat.le_of_eq hlength.symm)
  | cons m below ih =>
    obtain ⟨hlow, hholds, hbelow⟩ := h
    have hrest := ih hbelow
      (fun i hi => hwords i (Nat.le_trans hlow (Nat.le_trans m.low_le_above hi)))
      (fun m' hm' => hpoints m' (List.mem_cons_of_mem _ hm'))
    have hpoint := hpoints m List.mem_cons_self
    have hsaved : g (BitVec.ofNat 64 (handlerTop stack.length below)) =
        BitVec.ofNat 64 (handlerTop stack.length below) := hslots _ hbelow.handlerTop_le
    cases m with
    | frame slot args caller =>
      refine ⟨hlow, ?_, hrest⟩
      rw [StackMark.move, StackMark.Holds, hwords slot hlow, hholds, Option.map_some]
      cases caller with
      | none => exact congrArg some (hslots 0 (Nat.zero_le _))
      | some p => exact congrArg some (hpoint p rfl)
    | saved slot =>
      refine ⟨hlow, ?_, hrest⟩
      rw [StackMark.move, StackMark.Holds, hwords slot hlow, hholds, Option.map_some, hsaved, hlength,
        handlerTop_move]
    | handler slot entry =>
      refine ⟨hlow, ⟨?_, ?_⟩, hrest⟩
      · rw [hwords slot hlow, hholds.1, Option.map_some, hpoint entry rfl]
      · rw [hwords (slot + 1) (Nat.le_succ_of_le hlow), hholds.2, Option.map_some, hsaved, hlength,
          handlerTop_move]

/-- The ranges of the callers and of the handlers, after each has become `g` of it. -/
theorem frameRanges_move {marks : List StackMark} {f : Nat → Nat} {g : Nat × Nat → Nat × Nat}
    (h : ∀ m ∈ marks, ∀ p, m.point = some p → g p.range = (p.move f).range) :
    (frameRanges marks).map g = frameRanges (marks.map (StackMark.move f)) := by
  induction marks with
  | nil => rfl
  | cons m below ih =>
    have hrest := ih (fun m' hm' => h m' (List.mem_cons_of_mem _ hm'))
    have hpoint := h m List.mem_cons_self
    cases m with
    | frame slot args caller =>
      cases caller with
      | none => simpa [frameRanges, StackMark.move] using hrest
      | some p => simpa [frameRanges, StackMark.move, hpoint p rfl] using hrest
    | saved slot => exact hrest
    | handler slot entry => exact hrest

theorem handlerEntries_move {marks : List StackMark} {f : Nat → Nat} {g : Nat × Nat → Nat × Nat} (depth : Nat)
    (h : ∀ m ∈ marks, ∀ p, m.point = some p → g p.range = (p.move f).range) :
    (handlerEntries depth marks).map (fun e => (e.1, g e.2)) =
      handlerEntries depth (marks.map (StackMark.move f)) := by
  induction marks with
  | nil => rfl
  | cons m below ih =>
    have hbelow : ∀ m' ∈ below, ∀ p, m'.point = some p → g p.range = (p.move f).range :=
      fun m' hm' => h m' (List.mem_cons_of_mem _ hm')
    have hrest := ih hbelow
    cases m with
    | handler slot entry =>
      simp only [handlerEntries, StackMark.move, List.map_cons, List.map_append, List.map_nil, hrest,
        ← frameRanges_move hbelow, List.length_map, h _ List.mem_cons_self entry rfl]
    | _ => exact hrest

/-- Each place that is gone back to has its range on one of the side stacks. -/
theorem point_range_mem {marks : List StackMark} (depth : Nat) {m : StackMark} (hm : m ∈ marks)
    {p : CodePoint} (hp : m.point = some p) :
    p.range ∈ frameRanges marks ∨ p.range ∈ (handlerEntries depth marks).map Prod.snd := by
  induction marks with
  | nil => cases hm
  | cons m' below ih =>
    rcases List.mem_cons.1 hm with rfl | hm
    · cases m with
      | frame slot args caller =>
        obtain rfl : caller = some p := hp
        exact Or.inl (List.mem_append_right _ (by simp))
      | saved slot => cases hp
      | handler slot entry =>
        obtain rfl : entry = p := Option.some.inj hp
        exact Or.inr (by simp [handlerEntries])
    · have hrest := ih hm
      cases m' with
      | frame slot args caller => exact hrest.imp_left (List.mem_append_left _)
      | saved slot => exact hrest
      | handler slot entry =>
        refine hrest.imp_right (fun h => ?_)
        rw [handlerEntries, List.map_append]
        exact List.mem_append_left _ h

section Collect

variable {depth handlers : Nat} {s : Interpreter} {a a' : CallStack}

/-- The bounds of the running code and of all that is gone back to. -/
theorem Tracks.range_mem (ht : Tracks depth handlers s a) {p : CodePoint}
    (hp : p = a.now ∨ ∃ m ∈ a.marks, m.point = some p) : p.range ∈ s.codeRanges := by
  obtain ⟨outer, -, hframes⟩ := ht.frames
  obtain ⟨outer', -, hentries⟩ := ht.entries
  rcases hp with rfl | ⟨m, hm, hp⟩
  · rw [← ht.now]
    exact List.mem_cons_self
  · rw [ThreadContext.codeRanges, hframes, hentries, List.map_append]
    rcases point_range_mem depth hm hp with h | h
    · exact List.mem_cons_of_mem _ (List.mem_append_left _ (List.mem_append_right _ h))
    · exact List.mem_cons_of_mem _ (List.mem_append_right _ (List.mem_append_right _ h))

theorem Tracks.collect (ht : Tracks depth handlers s a) {g g' : GcState} {copied : List Nat}
    {φ : Nat → Nat} {t : ThreadContext} (hpool : PoolOk g.mem g.nurseries)
    (hslots : ∀ a ≤ s.stack.length, ¬ InSpaces g.nurseries a)
    (hcode : ∀ f ∈ s.codeRanges, CodeRange (InSpaces g.nurseries) (poolView g.mem g.nurseries) f.1 f.2)
    (hmoved : GcRelocated g g' copied φ) (hin : ThreadIn g g' s.toThreadContext t)
    (hstep : a.step (.collect (g.codeMove φ)) = some a') :
    Tracks depth handlers { s with toThreadContext := t } a' := by
  cases hstep
  obtain ⟨r, hpub, hm, rfl⟩ := hin.writeBack hmoved
  have hvalid := ht.valid
  have hstart : s.codeStart = a.now.start := congrArg CodePoint.start ht.now
  have hrunning : r.quiesced = false := by
    have hnull : decide (s.codeStart = 0) = false :=
      decide_eq_false (hstart ▸ Nat.ne_of_gt hvalid.pos)
    exact (congrArg ThreadRoots.quiesced hpub.1).trans hnull
  have hsp : s.sp ≤ s.stack.length := ht.sp ▸ ht.laid.le_length
  have hpoint : ∀ p, p.Valid → (p = a.now ∨ ∃ m ∈ a.marks, m.point = some p) → _ := fun p hp hmem =>
    hp.moved hpool hmoved hpub hm (ht.range_mem hmem) (hcode _ (ht.range_mem hmem))
  obtain ⟨hnowValid, hnowRange, hnowPc, -⟩ := hpoint a.now hvalid (Or.inl rfl)
  have hmarks : ∀ m ∈ a.marks, ∀ p, m.point = some p → _ := fun m hm p hp =>
    hpoint p (ht.points m hm p hp).1 (Or.inr ⟨m, hm, hp⟩)
  have hranges := fun m hm p hp => (hmarks m hm p hp).2.1
  rw [writeBack_eq hpub hrunning hsp]
  have hrange : (s.codeStart, s.codeEnd) = a.now.range := congrArg CodePoint.range ht.now
  have hpc : (s.codeStart, s.pc) = (a.now.start, a.now.pc) :=
    congrArg (fun p : CodePoint => (p.start, p.pc)) ht.now
  have htake : ((s.stack.take s.sp).map (fun _ => PolyWord.tagged 0)).length = s.sp := by
    rw [List.length_map, List.length_take_of_le hsp]
  have hlength : ((s.stack.take s.sp).map (fun _ => PolyWord.tagged 0) ++
      (s.stack.drop s.sp).map ((poolView g.mem g.nurseries).relocate φ false)).length =
      s.stack.length := by
    rw [List.length_append, htake, List.length_map, List.length_drop, Nat.add_sub_cancel' hsp]
  obtain ⟨outer, houter, hframes⟩ := ht.frames
  obtain ⟨outer', houter', hentries⟩ := ht.entries
  refine ⟨ht.sp, ?_, hnowValid, ?_, ?_,
    ⟨outer.map (relocateRange (poolView g.mem g.nurseries) φ), (List.length_map _).trans houter, ?_⟩,
    ⟨outer'.map (fun e => (e.1, relocateRange (poolView g.mem g.nurseries) φ e.2)),
      (List.length_map _).trans houter', ?_⟩, ?_, hlength ▸ ht.fits⟩
  · show CodePoint.mk (relocateRange _ φ (s.codeStart, s.codeEnd)).1
      (relocateRange _ φ (s.codeStart, s.codeEnd)).2 (relocateRange _ φ (s.codeStart, s.pc)).2 = _
    rw [hrange, hnowRange, hpc, hnowPc]
    rfl
  · refine ht.laid.moved (g := (poolView g.mem g.nurseries).relocate φ false) hlength (fun i hi => ?_)
      (fun n hn => ?_) (fun m hm p hp => ?_)
    · rw [List.getElem?_append_right (by rw [htake, ht.sp]; exact hi), htake, List.getElem?_map,
        List.getElem?_drop, Nat.add_sub_cancel' (by rw [ht.sp]; exact hi)]
    · exact relocate_outside hpool (hslots n hn) (Nat.lt_of_le_of_lt hn ht.fits) false
    · exact (hmarks m hm p hp).2.2.2 (ht.points m hm p hp).2
  · intro m' hm' p' hp'
    obtain ⟨m, hm, rfl⟩ := List.mem_map.1 hm'
    rw [StackMark.point_move, Option.map_eq_some_iff] at hp'
    obtain ⟨p, hp, rfl⟩ := hp'
    obtain ⟨hvalid, hlt⟩ := ht.points m hm p hp
    have hlo := hvalid.start_le
    refine ⟨(hmarks m hm p hp).1, ?_⟩
    simp only [CodePoint.move]
    omega
  · show s.frames.map _ = _
    rw [hframes, List.map_append, frameRanges_move hranges]
  · show s.handlerFramesDepth.map _ = _
    rw [hentries, List.map_append, handlerEntries_move depth hranges]
  · rw [hlength, handlerTop_move]
    exact ht.handlerSp

end Collect

/-! ## Runs -/

theorem Exec.tracks {native : Native} {depth handlers : Nat} {e : Event} {s s' : Interpreter}
    {a a' : CallStack} (he : Exec native e s s') (ht : Tracks depth handlers s a)
    (hstep : a.step e = some a') : Tracks depth handlers s' a' := by
  cases he with
  | other hpc hlength hwrites hcode hsides hhandler =>
    exact ht.other hpc hlength hwrites hcode hsides hhandler hstep
  | call args hregion hjit h => exact ht.call hregion hjit h hstep
  | dispatch h => exact ht.dispatch h hstep
  | ret h => exact ht.ret h hstep
  | tail hretPc h => exact ht.tail hretPc h hstep
  | pushHandler h => exact ht.pushHandler h hstep
  | setHandler h => exact ht.setHandler h hstep
  | deleteHandler h => exact ht.deleteHandler h hstep
  | raise h => exact ht.raise h hstep
  | collect hpool hslots hcode hgc hmoved hin => exact ht.collect hpool hslots hcode hmoved hin hstep

/-- Where a run starts: on a stack with arguments, a null return address and a closure. Either nothing
else has happened yet, or `region_interp_call` has entered the function, which leaves its caller's range
behind. -/
inductive Starts : Nat → Nat → Interpreter → CallStack → Prop
  | seeded {s : Interpreter} {args : Nat} (hframes : s.frames = []) (hentries : s.handlerFramesDepth = [])
      (hhandler : s.handlerSp = s.stack.length) (hnull : s.stack[s.sp + 1]? = some PolyWord.zero)
      (hargs : s.sp + 2 + args ≤ s.stack.length) (hfits : s.stack.length < 0x8000000000000000)
      (hpc : s.pc = s.codeStart) (hcode : CodePoint.IsCode s.codeStart s.codeEnd) :
      Starts 0 0 s { sp := s.sp, now := s.point, marks := [.frame (s.sp + 1) args none] }
  | nested {m : Mem} {s s' : Interpreter} {spAtTopArg args : Nat} {closure : PolyWord}
      (h : s.regionEnter m spAtTopArg closure = .inr s') (hargs : spAtTopArg + args ≤ s.stack.length)
      (hfits : s.stack.length < 0x8000000000000000) (hcode : CodePoint.IsCode s'.codeStart s'.codeEnd) :
      Starts (s.frames.length + 1) s.handlerFramesDepth.length s'
        { sp := s'.sp, now := s'.point, marks := [.frame (s'.sp + 1) args none] }

theorem Interpreter.regionEnter_ok {m : Mem} {s s' : Interpreter} {spAtTopArg : Nat} {closure : PolyWord}
    (h : s.regionEnter m spAtTopArg closure = .inr s') :
    2 ≤ spAtTopArg ∧ ∃ codeObj, s' = (pushFrame { s with
      handlerSp := s.stack.length, sp := spAtTopArg - 2
      stack := (s.stack.set (spAtTopArg - 1) PolyWord.zero).set (spAtTopArg - 2) closure }).enter m
        codeObj := by
  simp only [regionEnter] at h
  split at h
  · cases h
  · rename_i s₁ h₁
    split at h
    · cases h
    · rename_i s₂ h₂
      obtain ⟨hpos, rfl⟩ := push_ok h₁
      obtain ⟨hpos', rfl⟩ := push_ok h₂
      split at h
      · cases h
      · cases h
        simp only [sp_withStack] at hpos hpos'
        exact ⟨by omega, (m closure.addr).addr, rfl⟩

theorem Starts.tracks {depth handlers : Nat} {s : Interpreter} {a : CallStack}
    (h : Starts depth handlers s a) : Tracks depth handlers s a := by
  cases h with
  | seeded hframes hentries hhandler hnull hargs hfits hpc hcode =>
    refine ⟨rfl, rfl, ?_, ⟨Nat.le_succ _, hnull, ?_⟩, ?_, ⟨[], rfl, hframes⟩, ⟨[], rfl, hentries⟩, hhandler,
      hfits⟩
    · rw [show s.point = .entry s.codeStart s.codeEnd by rw [Interpreter.point, hpc]; rfl]
      exact hcode.valid
    · simp only [Laid, StackMark.above]
      omega
    · intro m hm p hp
      obtain rfl := List.mem_singleton.1 hm
      cases hp
  | @nested m s s' spAtTopArg args closure h hargs hfits hcode =>
    obtain ⟨hsp, codeObj, rfl⟩ := Interpreter.regionEnter_ok h
    have hlength : ((s.stack.set (spAtTopArg - 1) PolyWord.zero).set (spAtTopArg - 2) closure).length =
      s.stack.length := by rw [List.length_set, List.length_set]
    refine ⟨rfl, rfl, hcode.valid, ⟨Nat.le_succ _, ?_, ?_⟩, ?_, ⟨s.frames ++ [(s.codeStart, s.codeEnd)], ?_,
      (List.append_nil _).symm⟩, ⟨s.handlerFramesDepth, rfl, (List.append_nil _).symm⟩, hlength.symm,
      hlength ▸ hfits⟩
    · show ((s.stack.set (spAtTopArg - 1) PolyWord.zero).set (spAtTopArg - 2) closure)[spAtTopArg - 2 + 1]? =
        some PolyWord.zero
      rw [List.getElem?_set_ne (by omega), show spAtTopArg - 2 + 1 = spAtTopArg - 1 by omega,
        List.getElem?_set_self (by omega)]
    · show spAtTopArg - 2 + 1 + 1 + args ≤ _
      rw [show spAtTopArg - 2 + 1 + 1 + args = spAtTopArg + args by omega]
      exact Nat.le_trans hargs (Nat.le_of_eq hlength.symm)
    · intro m hm p hp
      obtain rfl := List.mem_singleton.1 hm
      cases hp
    · rw [List.length_append]
      rfl

/-- An instruction that moves the program counter. -/
theorem Exec.goOn {native : Native} {s : Interpreter} {pc : Nat}
    (hpc : PcRuns s.codeStart s.codeEnd s.pc pc) : Exec native (.other s.sp pc []) s { s with pc } :=
  @Exec.other native s { s with pc } [] hpc rfl (fun _ _ => rfl) ⟨rfl, rfl⟩ ⟨rfl, rfl⟩ rfl

/-- An instruction that pushes `w`. -/
theorem Exec.pushWord {native : Native} {s : Interpreter} {pc : Nat} (w : PolyWord)
    (hpc : PcRuns s.codeStart s.codeEnd s.pc pc) : Exec native (.other (s.sp - 1) pc [s.sp - 1]) s
      { s with stack := s.stack.set (s.sp - 1) w, sp := s.sp - 1, pc } :=
  @Exec.other native s { s with stack := s.stack.set (s.sp - 1) w, sp := s.sp - 1, pc } [s.sp - 1] hpc
    (List.length_set ..) (fun i hi => List.getElem?_set_ne (by simpa [eq_comm] using hi)) ⟨rfl, rfl⟩
    ⟨rfl, rfl⟩ rfl

def recursiveMem : Mem := fun a =>
  if a = 0x1000 then makeLengthWord 3 fCodeObj
  else if a = 0x1018 then BitVec.ofInt 64 (-8)
  else if a = 0x1020 then makeLengthWord 1 fClosureObj
  else if a = 0x1028 then PolyWord.fromAddr 0x1008
  else PolyWord.zero

def recursiveSpace : MemorySpace := { start := 0x1000, capacity := 8, used := 6, spare := none }

def recursiveState : Interpreter :=
  { stack := [0#64, 0#64, 0#64, 0#64, 0#64, 0#64, 0#64, 0x1028#64, 0#64, 7#64]
    sp := 7, pc := 0x1008, codeStart := 0x1008, codeEnd := 0x1018, frames := []
    handlerFramesDepth := [], exceptionPacket := none, threadObject := none
    bootstrapTailCall := PolyWord.zero, recentCallTargets := [0], handlerSp := 10
    recentCallIdx := 0, untrusted := false }

/-- In the inner call, with a handler set and the packet on the stack. -/
def recursiveRaising : Interpreter :=
  { recursiveState with
    stack := [0#64, 9#64, 0x100e#64, 10#64, 0x1028#64, 0x100a#64, 5#64, 0x1028#64, 0#64, 7#64]
    sp := 1, pc := 0x100c, frames := [(0x1008, 0x1018)], handlerFramesDepth := [(1, 0x1008, 0x1018)]
    recentCallTargets := [0x1008], handlerSp := 2 }

def recursiveMachine : GcState :=
  { mem := recursiveMem, nurseries := [recursiveSpace], self := recursiveRaising.toThreadContext
    threadObjAddr := 0, peers := [], imageMutableRoots := [] }

/-- The inner call after the collection. -/
def recursiveMoved : Interpreter :=
  { recursiveRaising with
    stack := [1#64, 9#64, 0x400e#64, 10#64, 0x4028#64, 0x400a#64, 5#64, 0x4028#64, 0#64, 7#64]
    pc := 0x400c, codeStart := 0x4008, codeEnd := 0x4018, frames := [(0x4008, 0x4018)]
    handlerFramesDepth := [(1, 0x4008, 0x4018)], recentCallTargets := [0] }

def recursiveStart : CallStack :=
  { sp := 7, now := .entry 0x1008 0x1018, marks := [.frame 8 1 none] }

theorem recursive_poolOk : PoolOk recursiveMem [recursiveSpace] := by
  have hobj : objectsOf recursiveMem recursiveSpace = [0x1008, 0x1028] := by decide
  refine ⟨List.pairwise_singleton _ _, fun s hs => ?_⟩
  obtain rfl := List.mem_singleton.1 hs
  refine ⟨by decide, by decide, by decide, ?_, ?_, ?_⟩
  · rw [hobj]
    exact .cons _ _ _ (.cons _ _ _ (.nil _))
  · rw [hobj]
    decide
  · rw [hobj]
    decide

theorem recursive_inSpaces {a : Nat} (h : InSpaces [recursiveSpace] a) : 0x1000 ≤ a ∧ a < 0x1040 := by
  obtain ⟨s, hs, hlo, hhi⟩ := h
  obtain rfl := List.mem_singleton.1 hs
  exact ⟨hlo, hhi⟩

/-- The inner call at its first instruction. -/
def recursiveCalled : Interpreter :=
  { recursiveState with
    stack := [0#64, 0#64, 0#64, 0#64, 0x1028#64, 0x100a#64, 5#64, 0x1028#64, 0#64, 7#64], sp := 4
    frames := [(0x1008, 0x1018)], recentCallTargets := [0x1008] }

/-- The handler register is saved. -/
def recursiveSaved : Interpreter :=
  { recursiveCalled with stack := recursiveCalled.stack.set 3 10#64, sp := 3, pc := 0x1009 }

/-- The handler is set. -/
def recursiveHandling : Interpreter :=
  { recursiveRaising with stack := recursiveRaising.stack.set 1 0#64, sp := 2, pc := 0x100b }

def recursiveCall : List Event := [.other 6 0x100a [6], .call 1 0x1008 0x1018]

def recursiveHandle : List Event :=
  recursiveCall ++ [.other 4 0x1009 [], .pushHandler, .other 3 0x100b [], .setHandler 0x100e]

def recursiveEvents : List Event := recursiveHandle ++ [.other 1 0x100c [1]]

theorem Runs.append {native : Native} {s s' s'' : Interpreter} {es es' : List Event}
    (h : Runs native s es s') (h' : Runs native s' es' s'') : Runs native s (es ++ es') s'' := by
  induction h with
  | stop s => exact h'
  | next he hr ih => exact .next he (ih h')

theorem recursive_called : Runs interpreted recursiveState recursiveCall recursiveCalled := by
  have hcall : Exec interpreted (.call 1 0x1008 0x1018)
      { recursiveState with stack := recursiveState.stack.set 6 5#64, sp := 6, pc := 0x100a }
      recursiveCalled := @Exec.call interpreted recursiveMem recursiveMem _ recursiveCalled 0x1028#64 1 rfl
        rfl rfl
  refine .next (Exec.pushWord (s := recursiveState) 5#64 ?_) (.next hcall (.stop _))
  exact .fetch (by decide) (.fetch (by decide) (.stay _))

theorem recursive_handling : Runs interpreted recursiveState recursiveHandle recursiveHandling := by
  have hsave : Exec interpreted .pushHandler { recursiveCalled with pc := 0x1009 } recursiveSaved :=
    .pushHandler rfl
  have hset : Exec interpreted (.setHandler 0x100e) { recursiveSaved with pc := 0x100b }
    recursiveHandling := .setHandler rfl
  refine recursive_called.append (.next (Exec.goOn (s := recursiveCalled) ?_) (.next hsave
    (.next (Exec.goOn (s := recursiveSaved) ?_) (.next hset (.stop _)))))
  · exact .fetch (by decide) (.stay _)
  · exact .fetch (by decide) (.fetch (by decide) (.stay _))

theorem recursive_raising : Runs interpreted recursiveState recursiveEvents recursiveRaising := by
  refine recursive_handling.append (.next (Exec.pushWord (s := recursiveHandling) 9#64 ?_) (.stop _))
  exact .fetch (by decide) (.stay _)

theorem recursive_ready : GcReady weakEnv recursiveMachine (fun b => b = 0x1008 ∨ b = 0x1028) := by
  have hcode : slotRange recursiveMem 0x1008 = (0x1018, 0) := by decide
  have hclosure : slotRange recursiveMem 0x1028 = (0x1028, 1) := by decide
  constructor
  · intro primary others hn
    obtain ⟨rfl, rfl⟩ := List.cons.inj hn
    have hscratch : (takeScratch weakEnv recursiveSpace (totalCapacity recursiveSpace [])
        recursiveMachine.mem).1 = 0x4000 ∧ (takeScratch weakEnv recursiveSpace
          (totalCapacity recursiveSpace []) recursiveMachine.mem).2.1 = 8 := by decide
    rw [hscratch.1, hscratch.2]
    refine ⟨recursive_poolOk, ?_, ?_, ?_, ?_, by simp [recursiveMachine], by simp [recursiveMachine],
      List.Pairwise.nil, by simp [recursiveMachine], ?_, by decide, by decide, ?_⟩
    · rintro b (rfl | rfl) <;> decide
    · rintro b (rfl | rfl) hb
      · exact ⟨by decide, by decide, by decide, by decide⟩
      · exact absurd hb (by decide)
    · rintro b a t (rfl | rfl) ⟨i, hi, rfl⟩ ht
      · rw [show slotRange recursiveMachine.mem 0x1008 = (0x1018, 0) from hcode] at hi
        exact absurd hi (Nat.not_lt_zero _)
      · rw [show slotRange recursiveMachine.mem 0x1028 = (0x1028, 1) from hclosure] at hi ht
        obtain rfl : i = 0 := Nat.lt_one_iff.1 hi
        have htarget : (poolView recursiveMachine.mem recursiveMachine.nurseries).target true
            (recursiveMachine.mem ((0x1028, 1).1 + 8 * 0)) = some 0x1008 := by decide
        exact Or.inl (Option.some.inj (ht.symm.trans htarget))
    · have hroots : recursiveMachine.rootWords.all (fun p => decide (
          (poolView recursiveMem [recursiveSpace]).target p.1 p.2 = none ∨
          (poolView recursiveMem [recursiveSpace]).target p.1 p.2 = some 0x1008 ∨
          (poolView recursiveMem [recursiveSpace]).target p.1 p.2 = some 0x1028)) = true := by decide
      intro p hp t ht
      rcases of_decide_eq_true (List.all_eq_true.1 hroots p hp) with h | h | h
      · exact absurd (h.symm.trans ht) (by simp)
      · exact Or.inl (Option.some.inj (ht.symm.trans h))
      · exact Or.inr (Option.some.inj (ht.symm.trans h))
    · intro a h1 h2 hin
      have := recursive_inSpaces hin
      omega
    · rintro p (hp | ⟨rfl | rfl, hp⟩)
      · exact absurd hp (by simp [recursiveMachine, weakAmong, regionObjects])
      · exact absurd hp (by decide)
      · exact absurd hp (by decide)
  · intro _
    have hrange : CodeRange (InSpaces recursiveMachine.nurseries)
        (poolView recursiveMachine.mem recursiveMachine.nurseries) 0x1008 0x1018 :=
      ⟨by decide, by decide, Or.inl (by decide)⟩
    refine ⟨by decide, hrange, by decide, fun f hf => ?_, fun f hf => ?_⟩
    · obtain rfl := List.mem_singleton.1 hf
      exact hrange
    · obtain rfl := List.mem_singleton.1 hf
      exact hrange
  · simp [recursiveMachine]

/-- The outer call after the inner one has returned. -/
def recursiveReturned : Interpreter :=
  { recursiveMoved with
    stack := [1#64, 9#64, 0x400e#64, 11#64, 0x4028#64, 0x400a#64, 11#64, 0x4028#64, 0#64, 7#64]
    sp := 6, pc := 0x400a, frames := [], handlerFramesDepth := [], exceptionPacket := some 9#64
    handlerSp := 10 }

theorem recursive_returned : Runs interpreted recursiveMoved [.raise, .other 3 0x400f [3], .ret 1]
    recursiveReturned := by
  have hraise : Exec interpreted .raise recursiveMoved { recursiveMoved with
      sp := 4, pc := 0x400e, handlerFramesDepth := [], exceptionPacket := some 9#64, handlerSp := 10 } :=
    .raise rfl
  have hret : Exec interpreted (.ret 1) { recursiveMoved with
      stack := recursiveMoved.stack.set 3 11#64, sp := 3, pc := 0x400f, handlerFramesDepth := []
      exceptionPacket := some 9#64, handlerSp := 10 } recursiveReturned := .ret rfl
  refine .next hraise (.next (Exec.pushWord (s := { recursiveMoved with
      sp := 4, pc := 0x400e, handlerFramesDepth := [], exceptionPacket := some 9#64, handlerSp := 10 })
        11#64 ?_) (.next hret (.stop _)))
  exact .fetch (by decide) (.stay _)

theorem recursive_collects : ∃ f, f 0x1008 = 0x4008 ∧
    Exec interpreted (.collect f) recursiveRaising recursiveMoved := by
  have hself : (gc weakEnv recursiveMachine).map (fun r => r.1.self) =
      some recursiveMoved.toThreadContext := by decide +kernel
  obtain ⟨⟨g, used⟩, hgc, hg⟩ := Option.map_eq_some_iff.1 hself
  rcases (gc_relocates weakEnv recursiveMachine _ recursive_ready).2 g used hgc with ⟨hnil, -⟩ |
    ⟨copied, φ, hmoved⟩
  · exact absurd hnil (List.cons_ne_nil _ _)
  · have hplace : recursiveMachine.codeMove φ 0x1008 = 0x4008 := by
      have hcode := congrArg ThreadContext.codeStart (hmoved.self.symm.trans hg)
      rw [writeBack_eq (publishes_capture _) rfl (by decide)] at hcode
      exact hcode
    refine ⟨_, hplace, ?_⟩
    have hcollect := @Exec.collect interpreted weakEnv recursiveMachine g used copied φ recursiveRaising
      g.self recursive_poolOk (fun a ha hin => ?_) (fun f hf => ?_) hgc hmoved .collects
    · rw [hg] at hcollect
      exact hcollect
    · have hlo := (recursive_inSpaces hin).1
      have hhi : a ≤ 10 := ha
      omega
    · obtain rfl : f = (0x1008, 0x1018) := by
        simpa [ThreadContext.codeRanges, recursiveRaising, recursiveState] using hf
      exact ⟨by decide, by decide, Or.inl (by decide)⟩

/-- The handler register points at a saved register, unless it is at the end of the stack. -/
theorem Laid.saved_le {stack : List PolyWord} {sp : Nat} {marks : List StackMark} (h : Laid stack sp marks)
    (hlt : handlerTop stack.length marks < stack.length) :
    ∃ old ≤ stack.length, stack[handlerTop stack.length marks + 1]? = some (BitVec.ofNat 64 old) := by
  induction marks generalizing sp with
  | nil => exact absurd hlt (Nat.lt_irrefl _)
  | cons m below ih =>
    obtain ⟨-, hholds, hbelow⟩ := h
    cases m with
    | handler slot entry => exact ⟨_, hbelow.handlerTop_le, hholds.2⟩
    | _ => exact ih hbelow hlt

theorem Laid.handlerEntries_eq_nil {stack : List PolyWord} {sp : Nat} {marks : List StackMark}
    (h : Laid stack sp marks) (htop : handlerTop stack.length marks = stack.length) (depth : Nat) :
    handlerEntries depth marks = [] := by
  induction marks generalizing sp with
  | nil => rfl
  | cons m below ih =>
    obtain ⟨-, hholds, hbelow⟩ := h
    cases m with
    | handler slot entry =>
      have hle := hbelow.le_length
      have htop' : slot = stack.length := htop
      simp only [StackMark.above] at hle
      omega
    | _ => exact ih hbelow htop

def lowMem : Mem := fun a =>
  if a = 8 then makeLengthWord 1 0#8 else if a = 16 then PolyWord.tagged 7 else PolyWord.zero

def lowSpace : MemorySpace := { start := 8, capacity := 4, used := 2, spare := none }

/-- Code outside every from-space. -/
def lowState : Interpreter :=
  { recursiveState with
    stack := List.replicate 18 0#64 ++ [0x9100#64, 0#64], sp := 18, pc := 0x9000, codeStart := 0x9000
    codeEnd := 0x9010, handlerSp := 20 }

/-- Two handlers have been set; the lower one lies in slot 16. -/
def lowHandling : Interpreter :=
  { lowState with
    stack := List.replicate 14 0#64 ++ [0x9008#64, 16#64, 0x9008#64, 20#64, 0x9100#64, 0#64], sp := 14
    pc := 0x9006, handlerFramesDepth := [(0, 0x9000, 0x9010), (0, 0x9000, 0x9010)], handlerSp := 14 }

def lowMachine : GcState :=
  { mem := lowMem, nurseries := [lowSpace], self := lowHandling.toThreadContext, threadObjAddr := 0
    peers := [], imageMutableRoots := [] }

def lowEvents : List Event :=
  [.other 18 0x9001 [], .pushHandler, .other 17 0x9003 [], .setHandler 0x9008, .other 16 0x9004 [],
    .pushHandler, .other 15 0x9006 [], .setHandler 0x9008]

/-- Only the lower handler has been set. -/
def lowOnce (sp pc : Nat) (w : PolyWord) : Interpreter :=
  { lowHandling with
    stack := (lowHandling.stack.set 14 0#64).set 15 w, sp, pc
    handlerFramesDepth := [(0, 0x9000, 0x9010)], handlerSp := 16 }

theorem low_handling : Runs interpreted lowState lowEvents lowHandling := by
  have hsave : Exec interpreted .pushHandler { lowState with pc := 0x9001 }
      { lowState with stack := lowState.stack.set 17 20#64, sp := 17, pc := 0x9001 } := .pushHandler rfl
  have hset : Exec interpreted (.setHandler 0x9008)
      { lowState with stack := lowState.stack.set 17 20#64, sp := 17, pc := 0x9003 }
      (lowOnce 16 0x9003 0#64) := .setHandler rfl
  have hsave' : Exec interpreted .pushHandler (lowOnce 16 0x9004 0#64) (lowOnce 15 0x9004 16#64) :=
    .pushHandler rfl
  have hset' : Exec interpreted (.setHandler 0x9008) (lowOnce 15 0x9006 16#64) lowHandling :=
    .setHandler rfl
  refine .next (Exec.goOn (s := lowState) ?_) (.next hsave (.next (Exec.goOn (s := { lowState with
      stack := lowState.stack.set 17 20#64, sp := 17, pc := 0x9001 }) ?_) (.next hset
    (.next (Exec.goOn (s := lowOnce 16 0x9003 0#64) ?_) (.next hsave'
      (.next (Exec.goOn (s := lowOnce 15 0x9004 16#64) ?_) (.next hset' (.stop _))))))))
  · exact .fetch (by decide) (.stay _)
  · exact .fetch (by decide) (.fetch (by decide) (.stay _))
  · exact .fetch (by decide) (.stay _)
  · exact .fetch (by decide) (.fetch (by decide) (.stay _))

theorem low_poolOk : PoolOk lowMem [lowSpace] := by
  have hobj : objectsOf lowMem lowSpace = [16] := by decide
  refine ⟨List.pairwise_singleton _ _, fun s hs => ?_⟩
  obtain rfl := List.mem_singleton.1 hs
  refine ⟨by decide, by decide, by decide, ?_, ?_, ?_⟩
  · rw [hobj]
    exact .cons _ _ _ (.nil _)
  · rw [hobj]
    decide
  · rw [hobj]
    decide
