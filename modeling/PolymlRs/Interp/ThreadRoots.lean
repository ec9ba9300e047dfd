import PolymlRs.Gc.Roots

set_option autoImplicit false

/-! # The roots of one thread

What a collection sees of a thread is a `ThreadRoots`: words the collector may forward, captured
from the thread's fields, and the offsets from which the byte pointers are rebuilt afterwards. A
running thread is captured by the collection itself; a parked one has published its capture, and a
thread that has left its interpreter loop for good publishes a *quiesced* one, which is forwarded but
never written back. A forked thread that has not started yet publishes its two first words only. -/

/-! ## Byte pointers -/

/-- `2^64`. -/
abbrev addressSpace : Nat := 0x10000000000000000

/-- `a.offset_from(b)`. -/
def offsetFrom (a b : Nat) : Int := Int.bmod ((a : Int) - b) addressSpace

/-- `p.offset(off)`. -/
def ptrOffset (p : Nat) (off : Int) : Nat := (((p : Int) + off) % addressSpace).toNat

/-- The rebuilt pointer is as far from its base as the old one was. -/
theorem offsetFrom_ptrOffset (p a b : Nat) :
    offsetFrom (ptrOffset p (offsetFrom a b)) p = offsetFrom a b := by
  have hnn : 0 ≤ ((p : Int) + offsetFrom a b) % addressSpace := Int.emod_nonneg _ (by decide)
  rw [offsetFrom, ptrOffset, Int.toNat_of_nonneg hnn]
  unfold offsetFrom
  rw [Int.sub_eq_add_neg, Int.emod_add_bmod, show (p : Int) + ((a : Int) - b).bmod addressSpace + -p =
    ((a : Int) - b).bmod addressSpace by omega, Int.bmod_bmod]

/-- Away from the ends of the address space a rebuilt pointer is the moved one. -/
theorem ptrOffset_offsetFrom {p a b : Nat} (ha : a < 0x8000000000000000)
    (hb : b < 0x8000000000000000) (hlo : b ≤ p + a) (hhi : p + a < addressSpace + b) :
    ptrOffset p (offsetFrom a b) = p + a - b := by
  have hoff : offsetFrom a b = (a : Int) - b := by
    rw [offsetFrom, addressSpace]
    exact Int.bmod_eq_of_le (by omega) (by omega)
  simp only [addressSpace] at hhi
  rw [ptrOffset, hoff, addressSpace, Int.emod_eq_of_lt (by omega) (by omega)]
  omega

/-! ## The fields of a thread -/

/-- The fields of an interpreter the collector captures or writes. Byte pointers are addresses, a
null pointer is 0; the stack is the whole allocation, of which the slots from `sp` on are live. -/
structure ThreadContext where
  stack : List PolyWord
  sp : Nat
  pc : Nat
  codeStart : Nat
  codeEnd : Nat
  frames : List (Nat × Nat)
  handlerFramesDepth : List (Nat × Nat × Nat)
  exceptionPacket : Option PolyWord
  threadObject : Option PolyWord
  bootstrapTailCall : PolyWord
  recentCallTargets : List Nat
deriving DecidableEq, Repr

/-- The captured roots of a thread; the stack itself stays in the context. -/
structure ThreadRoots where
  sp : Nat
  codeStartSlot : PolyWord
  frameStarts : List PolyWord
  handlerStarts : List PolyWord
  exnSlot : PolyWord
  threadObjSlot : PolyWord
  bootstrapTailSlot : PolyWord
  pcOff : Int
  codeEndOff : Int
  frameOffsets : List Int
  handlerOffsets : List Int
  threadObjPresent : Bool
  quiesced : Bool
deriving DecidableEq, Repr

namespace ThreadRoots

def capture (t : ThreadContext) : ThreadRoots :=
  let quiesced := decide (t.codeStart = 0)
  { sp := t.sp
    codeStartSlot := PolyWord.fromAddr t.codeStart
    frameStarts := t.frames.map (fun f => PolyWord.fromAddr f.1)
    handlerStarts := t.handlerFramesDepth.map (fun f => PolyWord.fromAddr f.2.1)
    exnSlot := t.exceptionPacket.getD PolyWord.zero
    threadObjSlot := t.threadObject.getD PolyWord.zero
    bootstrapTailSlot := t.bootstrapTailCall
    pcOff := if quiesced then 0 else offsetFrom t.pc t.codeStart
    codeEndOff := if quiesced then 0 else offsetFrom t.codeEnd t.codeStart
    frameOffsets := t.frames.map (fun f => offsetFrom f.2 f.1)
    handlerOffsets := t.handlerFramesDepth.map (fun f => offsetFrom f.2.2 f.2.1)
    threadObjPresent := t.threadObject.isSome
    quiesced }

/-- Forward every root slot of the thread: its roots, its stack and the address of its thread object
kept in its handle. -/
def forward (r : ThreadRoots) (stack : List PolyWord) (c : Collector) :
    Option (Collector × ThreadRoots × List PolyWord × Nat) := do
  let (c, live) ← forwardEach Collector.forwardStackSlot c (stack.drop r.sp)
  let (c, exnSlot) ← c.forward r.exnSlot
  let (c, codeStartSlot) ← c.forward r.codeStartSlot
  let (c, frameStarts) ← forwardEach Collector.forward c r.frameStarts
  let (c, handlerStarts) ← forwardEach Collector.forward c r.handlerStarts
  let (c, threadObjSlot) ← c.forward r.threadObjSlot
  let threadObjAddr := if r.threadObjPresent then threadObjSlot.addr else 0
  let (c, bootstrapTailSlot) ← c.forward r.bootstrapTailSlot
  some (c, { r with exnSlot, codeStartSlot, frameStarts, handlerStarts, threadObjSlot,
                    bootstrapTailSlot }, stack.take r.sp ++ live, threadObjAddr)

/-- Overwrite the free slots below `sp`. -/
def scrubBelowSp (r : ThreadRoots) (t : ThreadContext) : ThreadContext :=
  if r.quiesced then t
  else { t with
    stack := (t.stack.take r.sp).map (fun _ => PolyWord.tagged 0) ++ t.stack.drop r.sp }

/-- `frames[i]` gets its new start, and its end at the captured offset. -/
def rebuildFrames : List PolyWord → List Int → List (Nat × Nat) → List (Nat × Nat)
  | s :: starts, off :: offs, _ :: frames =>
    (s.addr, ptrOffset s.addr off) :: rebuildFrames starts offs frames
  | _, _, frames => frames

/-- The same for the handler entries, which also hold a depth. -/
def rebuildHandlers : List PolyWord → List Int → List (Nat × Nat × Nat) → List (Nat × Nat × Nat)
  | s :: starts, off :: offs, (d, _) :: handlers =>
    (d, s.addr, ptrOffset s.addr off) :: rebuildHandlers starts offs handlers
  | _, _, handlers => handlers

/-- The exception packet a slot stands for: none when it is empty. -/
def packetOf (w : PolyWord) : Option PolyWord :=
  if w = PolyWord.zero ∨ w.isTagged then none else some w

/-- Write the forwarded slots back into the fields of the thread. -/
def applyFixups (r : ThreadRoots) (t : ThreadContext) : ThreadContext :=
  if r.quiesced then t
  else
    let newCodeStart := r.codeStartSlot.addr
    { t with
      threadObject := if r.threadObjPresent then some r.threadObjSlot else t.threadObject
      bootstrapTailCall := r.bootstrapTailSlot
      exceptionPacket := packetOf r.exnSlot
      codeStart := newCodeStart
      pc := ptrOffset newCodeStart r.pcOff
      codeEnd := ptrOffset newCodeStart r.codeEndOff
      frames := rebuildFrames r.frameStarts r.frameOffsets t.frames
      handlerFramesDepth := rebuildHandlers r.handlerStarts r.handlerOffsets t.handlerFramesDepth
      recentCallTargets := t.recentCallTargets.map (fun _ => 0) }

end ThreadRoots

/-- The first words of a forked thread that has not started. -/
structure ForkRoots where
  function : PolyWord
  threadObj : PolyWord
deriving DecidableEq, Repr

/-- What a parked thread has published: its roots, with the context they alias, or the first words
of a child. -/
inductive SendRoots
  | thread (t : ThreadContext) (r : ThreadRoots)
  | fork (r : ForkRoots)
deriving DecidableEq, Repr

/-- The handle of another thread, as the collector reaches it: what it has published, the extra root
cell of a blocked runtime call, and the address of its thread object. -/
structure Peer where
  parkedRoots : Option SendRoots
  rtsParkRoot : Option PolyWord
  threadObjAddr : Nat
deriving DecidableEq, Repr

namespace SendRoots

/-- The `forward` thunk; it returns the new thread-object address too. -/
def forward (s : SendRoots) (c : Collector) : Option (Collector × SendRoots × Nat) :=
  match s with
  | thread t r => do
    let (c, r, stack, threadObjAddr) ← r.forward t.stack c
    some (c, .thread { t with stack } r, threadObjAddr)
  | fork r => do
    let (c, function) ← c.forward r.function
    let (c, threadObj) ← c.forward r.threadObj
    some (c, .fork { function, threadObj }, threadObj.addr)

/-- The `fixup` thunk. -/
def fixup : SendRoots → SendRoots
  | thread t r => .thread (r.applyFixups (r.scrubBelowSp t)) r
  | fork r => .fork r

end SendRoots

namespace Peer

/-- Forward what the peer has published; a handle without published roots is passed over. -/
def forward (p : Peer) (c : Collector) : Option (Collector × Peer) :=
  match p.parkedRoots with
  | none => some (c, p)
  | some s => do
    let (c, s, threadObjAddr) ← s.forward c
    some (c, { p with parkedRoots := some s, threadObjAddr })

/-- Forward the root cell of a blocked runtime call. -/
def forwardCell (p : Peer) (c : Collector) : Option (Collector × Peer) :=
  match p.parkedRoots, p.rtsParkRoot with
  | some _, some cell => do
    let (c, cell) ← c.forward cell
    some (c, { p with rtsParkRoot := some cell })
  | _, _ => some (c, p)

def fixup (p : Peer) : Peer := { p with parkedRoots := p.parkedRoots.map SendRoots.fixup }

end Peer

/-- One visit for each element of a list. -/
def visitEach {α : Type} (f : α → Collector → Option (Collector × α)) (c : Collector) :
    List α → Option (Collector × List α)
  | [] => some (c, [])
  | x :: xs => do
    let (c, x) ← f x c
    let (c, xs) ← visitEach f c xs
    some (c, x :: xs)

/-! ## What the visits do -/

section Visits

variable {inSpace : Nat → Prop} {h : HeapView} {live : Nat → Prop}

/-- The root slots of a captured thread. -/
def ThreadRoots.words (r : ThreadRoots) (stack : List PolyWord) : List RootWord :=
  (stack.drop r.sp).map (fun w => (false, w)) ++ ((true, r.exnSlot) :: (true, r.codeStartSlot) ::
    (r.frameStarts.map (fun w => (true, w)) ++ (r.handlerStarts.map (fun w => (true, w)) ++
      [(true, r.threadObjSlot), (true, r.bootstrapTailSlot)])))

/-- The captured roots after every object `b` has moved to `φ b`. -/
def ThreadRoots.relocate (h : HeapView) (φ : Nat → Nat) (r : ThreadRoots) : ThreadRoots :=
  { r with
    exnSlot := h.relocate φ true r.exnSlot
    codeStartSlot := h.relocate φ true r.codeStartSlot
    frameStarts := r.frameStarts.map (h.relocate φ true)
    handlerStarts := r.handlerStarts.map (h.relocate φ true)
    threadObjSlot := h.relocate φ true r.threadObjSlot
    bootstrapTailSlot := h.relocate φ true r.bootstrapTailSlot }

/-- The live part of the stack after the objects have moved. -/
def relocateStack (h : HeapView) (φ : Nat → Nat) (sp : Nat) (stack : List PolyWord) :
    List PolyWord := stack.take sp ++ (stack.drop sp).map (h.relocate φ false)

theorem ThreadRoots.forward_visits (hok : HeapOk inSpace h live) (r : ThreadRoots)
    (stack : List PolyWord) :
    Visits inSpace h live (r.forward stack) (r.words stack) (fun φ =>
      (r.relocate h φ, relocateStack h φ r.sp stack,
        if r.threadObjPresent then (h.relocate φ true r.threadObjSlot).addr else 0)) := by
  have hstack := visits_forwardEach hok false (stack.drop r.sp)
  have hframes := visits_forwardEach hok true r.frameStarts
  have hhandlers := visits_forwardEach hok true r.handlerStarts
  exact (hstack.bind (fun live => (visits_forward hok r.exnSlot).bind (fun exnSlot =>
    (visits_forward hok r.codeStartSlot).bind (fun codeStartSlot =>
      hframes.bind (fun frameStarts => hhandlers.bind (fun handlerStarts =>
        (visits_forward hok r.threadObjSlot).bind (fun threadObjSlot =>
          (visits_forward hok r.bootstrapTailSlot).bind (fun bootstrapTailSlot =>
            Visits.pure ({ r with exnSlot, codeStartSlot, frameStarts, handlerStarts,
                                  threadObjSlot, bootstrapTailSlot },
              stack.take r.sp ++ live,
              if r.threadObjPresent then threadObjSlot.addr else 0))))))))).congr
    (fun _ => rfl) (by simp [ThreadRoots.words]) (fun _ => rfl)

/-- The root slots of what a peer has published. -/
def SendRoots.words : SendRoots → List RootWord
  | thread t r => r.words t.stack
  | fork r => [(true, r.function), (true, r.threadObj)]

def SendRoots.relocate (h : HeapView) (φ : Nat → Nat) : SendRoots → SendRoots
  | thread t r => .thread { t with stack := relocateStack h φ r.sp t.stack } (r.relocate h φ)
  | fork r => .fork { function := h.relocate φ true r.function
                      threadObj := h.relocate φ true r.threadObj }

/-- The address of the thread object that the visit leaves in the handle. -/
def SendRoots.threadObjAddr (h : HeapView) (φ : Nat → Nat) : SendRoots → Nat
  | thread _ r => if r.threadObjPresent then (h.relocate φ true r.threadObjSlot).addr else 0
  | fork r => (h.relocate φ true r.threadObj).addr

theorem SendRoots.forward_visits (hok : HeapOk inSpace h live) (s : SendRoots) :
    Visits inSpace h live s.forward s.words (fun φ => (s.relocate h φ, s.threadObjAddr h φ)) := by
  cases s with
  | thread t r =>
    exact ((r.forward_visits hok t.stack).bind (fun p =>
      Visits.pure (SendRoots.thread { t with stack := p.2.1 } p.1, p.2.2))).congr (fun _ => rfl)
      (by simp [SendRoots.words]) (fun _ => rfl)
  | fork r =>
    exact ((visits_forward hok r.function).bind (fun function =>
      (visits_forward hok r.threadObj).bind (fun threadObj =>
        Visits.pure (SendRoots.fork { function, threadObj }, threadObj.addr)))).congr
      (fun _ => rfl) (by simp [SendRoots.words]) (fun _ => rfl)

def Peer.words (p : Peer) : List RootWord := (p.parkedRoots.map SendRoots.words).getD []

def Peer.relocate (h : HeapView) (φ : Nat → Nat) (p : Peer) : Peer :=
  match p.parkedRoots with
  | none => p
  | some s => { p with
      parkedRoots := some (s.relocate h φ), threadObjAddr := s.threadObjAddr h φ }

theorem Peer.forward_visits (hok : HeapOk inSpace h live) (p : Peer) :
    Visits inSpace h live p.forward p.words (fun φ => p.relocate h φ) := by
  cases hp : p.parkedRoots with
  | none =>
    exact (Visits.pure p).congr (fun _ => by simp only [Peer.forward, hp])
      (by simp [Peer.words, hp]) (fun _ => by simp only [Peer.relocate, hp])
  | some s =>
    refine ((s.forward_visits hok).bind (fun q =>
      Visits.pure { p with parkedRoots := some q.1, threadObjAddr := q.2 })).congr
      (fun _ => ?_) (by simp [Peer.words, hp]) (fun _ => by simp only [Peer.relocate, hp])
    simp only [Peer.forward, hp]
    rfl

/-- The root cell of a blocked runtime call. -/
def Peer.cellWords (p : Peer) : List RootWord :=
  match p.parkedRoots, p.rtsParkRoot with
  | some _, some cell => [(true, cell)]
  | _, _ => []

def Peer.relocateCell (h : HeapView) (φ : Nat → Nat) (p : Peer) : Peer :=
  match p.parkedRoots with
  | none => p
  | some _ => { p with rtsParkRoot := p.rtsParkRoot.map (h.relocate φ true) }

theorem Peer.forwardCell_visits (hok : HeapOk inSpace h live) (p : Peer) :
    Visits inSpace h live p.forwardCell p.cellWords (fun φ => p.relocateCell h φ) := by
  obtain ⟨parked, cell, addr⟩ := p
  cases parked with
  | none => exact Visits.pure _
  | some s =>
    cases cell with
    | none => exact Visits.pure _
    | some w =>
      exact ((visits_forward hok w).bind (fun w' => Visits.pure
        (Peer.mk (some s) (some w') addr))).congr (fun _ => rfl) (by simp [Peer.cellWords])
        (fun _ => rfl)

theorem visits_visitEach {α : Type} {f : α → Collector → Option (Collector × α)}
    {words : α → List RootWord} {out : (Nat → Nat) → α → α}
    (hf : ∀ x, Visits inSpace h live (f x) (words x) (fun φ => out φ x)) (xs : List α) :
    Visits inSpace h live (fun c => visitEach f c xs) (xs.flatMap words)
      (fun φ => xs.map (out φ)) := by
  induction xs with
  | nil => exact Visits.pure []
  | cons x xs ih =>
    exact ((hf x).bind (fun x' => ih.bind (fun xs' => Visits.pure (x' :: xs')))).congr
      (fun _ => rfl) (by simp) (fun _ => rfl)

/-- All peers: what they have published first, then their root cells. -/
def Peer.relocateAll (h : HeapView) (φ : Nat → Nat) (p : Peer) : Peer :=
  (p.relocate h φ).relocateCell h φ

theorem Peer.cellWords_relocate (φ : Nat → Nat) (p : Peer) :
    (p.relocate h φ).cellWords = p.cellWords := by
  obtain ⟨parked, cell, addr⟩ := p
  cases parked with
  | none => rfl
  | some s => cases cell <;> rfl

theorem peers_visits (hok : HeapOk inSpace h live) (peers : List Peer) :
    Visits inSpace h live
      (fun c => (visitEach Peer.forward c peers).bind
        (fun p => visitEach Peer.forwardCell p.1 p.2))
      (peers.flatMap Peer.words ++ peers.flatMap Peer.cellWords)
      (fun φ => peers.map (Peer.relocateAll h φ)) := by
  have hcells : ∀ φ, (peers.map (Peer.relocate h φ)).flatMap Peer.cellWords =
      peers.flatMap Peer.cellWords := by
    intro φ
    rw [List.flatMap_map]
    exact congrArg (fun f => peers.flatMap f) (funext (Peer.cellWords_relocate φ))
  have hnext : ∀ φ, Visits inSpace h live
      (fun c => visitEach Peer.forwardCell c (peers.map (Peer.relocate h φ)))
      (peers.flatMap Peer.cellWords)
      (fun ψ => (peers.map (Peer.relocate h φ)).map (Peer.relocateCell h ψ)) := by
    intro φ
    rw [← hcells φ]
    exact visits_visitEach (fun p => Peer.forwardCell_visits hok p) _
  exact ((visits_visitEach (fun p => Peer.forward_visits hok p) peers).bindAt
    (k := fun ps c => visitEach Peer.forwardCell c ps)
    (g := fun ps ψ => ps.map (Peer.relocateCell h ψ)) hnext).congr (fun _ => rfl) rfl
    (fun φ => by rw [List.map_map]; rfl)

end Visits
