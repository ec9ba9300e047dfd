import PolymlRs.Gc.PoolCollection
import PolymlRs.Interp.ThreadRoots

set_option autoImplicit false

/-! # A collection of the whole machine

`gc` captures the collecting thread, forwards its roots, those of every parked thread and the
permanent mutable objects, and writes the result back. `ThreadMoved` and `PeerMoved` say what becomes
of a thread; `gc_moves` is the theorem that it becomes of all of them, for every collection that
returns. -/

/-- What a collection works on: the heap, the collecting thread with the address of its thread object,
the handles of the other threads, and the regions of permanent mutable objects. -/
structure GcState where
  mem : Mem
  nurseries : List MemorySpace
  self : ThreadContext
  threadObjAddr : Nat
  peers : List Peer
  imageMutableRoots : List (Nat × Nat)

/-- The visits of a collection outside the permanent objects: the collecting thread, what the other
threads have published, and the cells of their blocked runtime calls. -/
def visitThreads (roots : ThreadRoots) (stack : List PolyWord) (peers : List Peer) (c : Collector) :
    Option (Collector × (ThreadRoots × List PolyWord × Nat) × List Peer) := do
  let (c, own) ← roots.forward stack c
  let (c, peers) ← (visitEach Peer.forward c peers).bind
    (fun p => visitEach Peer.forwardCell p.1 p.2)
  some (c, own, peers)

/-- `Interpreter::gc`: `none` is the abort on a word that points into a from-space but at no
object. -/
def gc (env : GcEnv) (s : GcState) : Option (GcState × Option Nat) :=
  let roots := ThreadRoots.capture s.self
  match s.nurseries with
  | [] => some (s, none)
  | primary :: others => do
    let (res, (roots, stack, threadObjAddr), peers) ← collectPool env s.mem primary others
      (visitAll (visitThreads roots s.self.stack s.peers) s.imageMutableRoots)
    let self := { s.self with stack }
    some ({ s with
      mem := res.mem
      nurseries := res.spaces
      self := roots.applyFixups (roots.scrubBelowSp self)
      threadObjAddr
      peers := peers.map Peer.fixup }, some res.newUsed)

/-- All root slots outside the heap. -/
def GcState.rootWords (s : GcState) : List RootWord :=
  (ThreadRoots.capture s.self).words s.self.stack ++
    (s.peers.flatMap Peer.words ++ s.peers.flatMap Peer.cellWords)

/-! ## What a collection may be given -/

/-- A code range `[s, e)`: bytes of one object, or bytes outside every from-space. -/
structure CodeRange (inSpace : Nat → Prop) (h : HeapView) (s e : Nat) : Prop where
  le : s ≤ e
  addressable : e < 0x8000000000000000
  place : (s ∈ h.objs ∧ e ≤ s + 8 * h.mem.objLen s) ∨ ∀ a, s ≤ a → a < e → ¬ inSpace a

/-- The byte pointers of a thread that runs ML code are those of code ranges. -/
structure ThreadOk (inSpace : Nat → Prop) (h : HeapView) (t : ThreadContext) : Prop where
  sp : t.sp ≤ t.stack.length
  code : CodeRange inSpace h t.codeStart t.codeEnd
  pc : t.codeStart ≤ t.pc ∧ t.pc ≤ t.codeEnd
  frames : ∀ f ∈ t.frames, CodeRange inSpace h f.1 f.2
  handlers : ∀ f ∈ t.handlerFramesDepth, CodeRange inSpace h f.2.1 f.2.2

/-- The roots `r` are those of the context `t`: its capture, up to how an empty exception packet is
written. -/
def Publishes (t : ThreadContext) (r : ThreadRoots) : Prop :=
  { r with exnSlot := PolyWord.zero } =
      { ThreadRoots.capture t with exnSlot := PolyWord.zero } ∧
    ThreadRoots.packetOf r.exnSlot = t.exceptionPacket.bind ThreadRoots.packetOf

theorem publishes_capture (t : ThreadContext) : Publishes t (ThreadRoots.capture t) := by
  refine ⟨rfl, ?_⟩
  cases h : t.exceptionPacket with
  | none => simp [ThreadRoots.capture, h, ThreadRoots.packetOf]
  | some w => simp [ThreadRoots.capture, h]

/-- What a parked thread has published is in order; a quiesced box may be out of step with its
context. -/
def PeerOk (inSpace : Nat → Prop) (h : HeapView) (p : Peer) : Prop :=
  ∀ t r, p.parkedRoots = some (.thread t r) → r.quiesced = false →
    Publishes t r ∧ ThreadOk inSpace h t

/-- A machine in which a collection may run; `live` is a closed set of objects that holds what the
roots denote. -/
structure GcReady (env : GcEnv) (s : GcState) (live : Nat → Prop) : Prop where
  heap : ∀ primary others, s.nurseries = primary :: others →
    PoolReady s.mem s.nurseries s.imageMutableRoots s.rootWords live
      (takeScratch env primary (totalCapacity primary others) s.mem).1
      (takeScratch env primary (totalCapacity primary others) s.mem).2.1
  self : s.self.codeStart ≠ 0 → ThreadOk (InSpaces s.nurseries) (poolView s.mem s.nurseries) s.self
  peers : ∀ p ∈ s.peers, PeerOk (InSpaces s.nurseries) (poolView s.mem s.nurseries) p

/-! ## What a collection does -/

namespace Motion

variable (μ : Motion)

/-- A code range has followed its object: it keeps its length, and its bytes are in no retired
space. -/
structure RangeFollows (r r' : Nat × Nat) : Prop where
  start : μ.Follows true (PolyWord.fromAddr r.1) (PolyWord.fromAddr r'.1)
  length : (r'.2 : Int) - r'.1 = r.2 - r.1
  outside : ∀ a, r'.1 ≤ a → a < r'.2 → ¬ μ.retired a

/-- The fields of a thread have followed their objects. -/
structure ThreadMoved (t t' : ThreadContext) : Prop where
  sp : t'.sp = t.sp
  length : t'.stack.length = t.stack.length
  live : List.Forall₂ (μ.Follows false) (t.stack.drop t.sp) (t'.stack.drop t.sp)
  scrubbed : ∀ w ∈ t'.stack.take t.sp, w = PolyWord.tagged 0
  code : μ.RangeFollows (t.codeStart, t.codeEnd) (t'.codeStart, t'.codeEnd)
  pc : (t'.pc : Int) - t'.codeStart = t.pc - t.codeStart
  pcOutside : t.pc < t.codeEnd → ¬ μ.retired t'.pc
  frames : List.Forall₂ μ.RangeFollows t.frames t'.frames
  handlers : List.Forall₂ (fun f f' => f'.1 = f.1 ∧ μ.RangeFollows f.2 f'.2) t.handlerFramesDepth
    t'.handlerFramesDepth
  packet : Option.Rel (μ.Follows true) (t.exceptionPacket.bind ThreadRoots.packetOf)
    t'.exceptionPacket
  threadObject : Option.Rel (μ.Follows true) t.threadObject t'.threadObject
  bootstrap : μ.Follows true t.bootstrapTailCall t'.bootstrapTailCall
  recent : ∀ a ∈ t'.recentCallTargets, a = 0

/-- The slots of a capture have followed their objects, the offsets are as they were. -/
structure RootsMoved (r r' : ThreadRoots) : Prop where
  exn : μ.Follows true r.exnSlot r'.exnSlot
  code : μ.Follows true r.codeStartSlot r'.codeStartSlot
  frames : List.Forall₂ (μ.Follows true) r.frameStarts r'.frameStarts
  handlers : List.Forall₂ (μ.Follows true) r.handlerStarts r'.handlerStarts
  threadObj : μ.Follows true r.threadObjSlot r'.threadObjSlot
  bootstrap : μ.Follows true r.bootstrapTailSlot r'.bootstrapTailSlot
  rest : r' = { r with
    exnSlot := r'.exnSlot, codeStartSlot := r'.codeStartSlot, frameStarts := r'.frameStarts
    handlerStarts := r'.handlerStarts, threadObjSlot := r'.threadObjSlot
    bootstrapTailSlot := r'.bootstrapTailSlot }

/-- What a parked thread has published after the collection, with the address its handle holds. A
running thread's context is written back; of a quiesced one only the live stack is touched. -/
inductive SendMoved : SendRoots → SendRoots → Nat → Prop
  | running {t t' : ThreadContext} {r r' : ThreadRoots} (hq : r.quiesced = false)
      (ht : μ.ThreadMoved t t') (hr : μ.RootsMoved r r') :
      SendMoved (.thread t r) (.thread t' r') ((t'.threadObject.map PolyWord.addr).getD 0)
  | quiesced {t : ThreadContext} {r r' : ThreadRoots} {live : List PolyWord}
      (hq : r.quiesced = true)
      (hlive : List.Forall₂ (μ.Follows false) (t.stack.drop r.sp) live) (hr : μ.RootsMoved r r') :
      SendMoved (.thread t r) (.thread { t with stack := t.stack.take r.sp ++ live } r')
        (if r.threadObjPresent then r'.threadObjSlot.addr else 0)
  | fork {r r' : ForkRoots} (hf : μ.Follows true r.function r'.function)
      (ht : μ.Follows true r.threadObj r'.threadObj) :
      SendMoved (.fork r) (.fork r') r'.threadObj.addr

/-- The handle of another thread after the collection. -/
inductive PeerMoved : Peer → Peer → Prop
  | unpublished {p : Peer} (hp : p.parkedRoots = none) : PeerMoved p p
  | published {p p' : Peer} {s s' : SendRoots} (hp : p.parkedRoots = some s)
      (hp' : p'.parkedRoots = some s') (hs : μ.SendMoved s s' p'.threadObjAddr)
      (hcell : Option.Rel (μ.Follows true) p.rtsParkRoot p'.rtsParkRoot) : PeerMoved p p'

end Motion

/-! ## One thread -/

namespace Motion

/-- The from-spaces hold the old objects, no copy lies in one, and copies are addressable. -/
structure Ok (μ : Motion) : Prop where
  found : ∀ b ∈ μ.before.objs, 8 ≤ b ∧ b % 8 = 0 ∧ μ.before.container b = some b
  inside : ∀ a b, μ.before.container a = some b → μ.retired a
  outside : ∀ b ∈ μ.survivors, ∀ off < 8 * μ.before.mem.objLen b, ¬ μ.retired (μ.place b + off)
  placed : ∀ b ∈ μ.survivors, 8 ≤ μ.place b ∧
    μ.place b + 8 * μ.before.mem.objLen b < 0x8000000000000000

/-- The root words `ws` have been relocated. -/
def Moves (μ : Motion) (ws : List RootWord) : Prop :=
  ∀ p ∈ ws, μ.Follows p.1 p.2 (μ.before.relocate μ.place p.1 p.2)

variable {μ : Motion}

theorem Moves.append {ws ws' : List RootWord} (h : μ.Moves (ws ++ ws')) :
    μ.Moves ws ∧ μ.Moves ws' := List.forall_mem_append.1 h

/-- A list of slots of one kind. -/
theorem Moves.each {tf : Bool} {ws : List PolyWord} (h : μ.Moves (ws.map (fun w => (tf, w)))) :
    List.Forall₂ (μ.Follows tf) ws (ws.map (μ.before.relocate μ.place tf)) := by
  rw [List.forall₂_map_right_iff, List.forall₂_same]
  exact fun w hw => h (tf, w) (List.mem_map_of_mem hw)

/-- The pointers into a code range, rebuilt from its new start, keep their offsets, and those before
its end stay out of the retired spaces. -/
theorem Ok.pointer (hok : μ.Ok) {s e : Nat} (hr : CodeRange μ.retired μ.before s e) {w : PolyWord}
    (hw : μ.Follows true (PolyWord.fromAddr s) w) {p : Nat} (hlo : s ≤ p) (hhi : p ≤ e) :
    ptrOffset w.addr (offsetFrom p s) = w.addr + (p - s) ∧
      (p < e → ¬ μ.retired (w.addr + (p - s))) := by
  have hadd := hr.addressable
  have hle := hr.le
  have hs : (PolyWord.fromAddr s).addr = s := PolyWord.addr_fromAddr (by omega)
  have hwlt := w.addr_lt
  rcases hr.place with ⟨hso, hend⟩ | hout
  · obtain ⟨-, hal, hcont⟩ := hok.found s hso
    have htag : (PolyWord.fromAddr s).isTagged = false := by
      rw [PolyWord.isTagged_fromAddr (by omega)]
      exact decide_eq_false (by omega)
    have ht : μ.before.target true (PolyWord.fromAddr s) = some s := by
      simp [HeapView.target, htag, hs, hcont]
    obtain ⟨hsurv, -, haddr⟩ := hw.denotes s ht
    rw [hs, Nat.sub_self, Nat.add_zero] at haddr
    have hplace := hok.placed s hsurv
    constructor
    · rw [ptrOffset_offsetFrom (by omega) (by omega) (by omega)
        (by simp only [addressSpace]; omega)]
      omega
    · intro hlt
      rw [haddr]
      exact hok.outside s hsurv _ (by omega)
  · by_cases hempty : s = e
    · obtain rfl : p = s := by omega
      have hzero : offsetFrom p p = 0 := by simp [offsetFrom]
      refine ⟨?_, fun hlt => absurd hlt (by omega)⟩
      rw [hzero, ptrOffset, addressSpace, Int.emod_eq_of_lt (by omega) (by omega)]
      omega
    · -- a range outside every from-space stays where it is
      have hnone : μ.before.target true (PolyWord.fromAddr s) = none := by
        cases ht : μ.before.target true (PolyWord.fromAddr s) with
        | none => rfl
        | some b =>
          have hc := HeapView.target_container ht
          rw [hs] at hc
          exact absurd (hok.inside s b hc) (hout s (by omega) (by omega))
      rw [hw.kept hnone, hs]
      constructor
      · rw [ptrOffset_offsetFrom (by omega) (by omega) (by omega)
          (by simp only [addressSpace]; omega)]
        omega
      · intro hlt
        exact hout _ (by omega) (by omega)

theorem Ok.range (hok : μ.Ok) {s e : Nat} (hr : CodeRange μ.retired μ.before s e) {w : PolyWord}
    (hw : μ.Follows true (PolyWord.fromAddr s) w) :
    μ.RangeFollows (s, e) (w.addr, ptrOffset w.addr (offsetFrom e s)) := by
  have hle := hr.le
  have he := (hok.pointer hr hw hle (Nat.le_refl e)).1
  refine ⟨?_, ?_, fun a h1 h2 => ?_⟩
  · rw [PolyWord.fromAddr_addr]
    exact hw
  · rw [he]
    push_cast
    omega
  · rw [he] at h2
    have hp := (hok.pointer hr hw (p := s + (a - w.addr)) (by omega) (by omega)).2 (by omega)
    rwa [show w.addr + (s + (a - w.addr) - s) = a by omega] at hp

end Motion

theorem rebuildFrames_eq (g : Nat × Nat → PolyWord) (off : Nat × Nat → Int)
    (frames : List (Nat × Nat)) :
    ThreadRoots.rebuildFrames (frames.map g) (frames.map off) frames =
      frames.map (fun f => ((g f).addr, ptrOffset (g f).addr (off f))) := by
  induction frames with
  | nil => rfl
  | cons f frames ih => rw [List.map_cons, List.map_cons, ThreadRoots.rebuildFrames, ih]; rfl

theorem rebuildHandlers_eq (g : Nat × Nat × Nat → PolyWord) (off : Nat × Nat × Nat → Int)
    (handlers : List (Nat × Nat × Nat)) :
    ThreadRoots.rebuildHandlers (handlers.map g) (handlers.map off) handlers =
      handlers.map (fun f => (f.1, (g f).addr, ptrOffset (g f).addr (off f))) := by
  induction handlers with
  | nil => rfl
  | cons f handlers ih => rw [List.map_cons, List.map_cons, ThreadRoots.rebuildHandlers, ih]; rfl

section Thread

variable {μ : Motion}

/-- The slots of a capture. -/
theorem rootsMoved {r : ThreadRoots} {stack : List PolyWord} (hm : μ.Moves (r.words stack)) :
    μ.RootsMoved r (r.relocate μ.before μ.place) ∧
      List.Forall₂ (μ.Follows false) (stack.drop r.sp)
        ((stack.drop r.sp).map (μ.before.relocate μ.place false)) := by
  obtain ⟨hlive, hrest⟩ := hm.append
  have hsplit : μ.Moves ([(true, r.exnSlot), (true, r.codeStartSlot)] ++ _) := hrest
  obtain ⟨hheads, htail⟩ := hsplit.append
  obtain ⟨hframes, htail⟩ := htail.append
  obtain ⟨hhandlers, hlast⟩ := htail.append
  exact ⟨⟨hheads (true, r.exnSlot) (by simp), hheads (true, r.codeStartSlot) (by simp),
    hframes.each, hhandlers.each, hlast (true, r.threadObjSlot) (by simp),
    hlast (true, r.bootstrapTailSlot) (by simp), rfl⟩, hlive.each⟩

/-- Writing a running thread back. -/
def ThreadRoots.writeBack (r : ThreadRoots) (h : HeapView) (φ : Nat → Nat) (t : ThreadContext) :
    ThreadContext :=
  (r.relocate h φ).applyFixups
    ((r.relocate h φ).scrubBelowSp { t with stack := relocateStack h φ r.sp t.stack })

/-- A slot that denotes an object is not empty. -/
theorem packetOf_eq {h : HeapView} {w : PolyWord} {b : Nat} (ht : h.target true w = some b)
    (hpos : 8 ≤ b) : ThreadRoots.packetOf w = some w := by
  have htag : w.isTagged = false := by
    by_contra hcon
    rw [Bool.not_eq_false] at hcon
    rw [HeapView.target, Bool.true_and, if_pos hcon] at ht
    cases ht
  have hne : w ≠ PolyWord.zero := by
    rintro rfl
    have hcov := (HeapView.container_covers (HeapView.target_container ht)).1
    have hzero : PolyWord.zero.addr = 0 := rfl
    omega
  rw [ThreadRoots.packetOf, if_neg (by simp [htag, hne])]

/-- The exception packet of a slot that has moved. -/
theorem packet_follows (hok : μ.Ok) {w w' : PolyWord} (hw : μ.Follows true w w') :
    Option.Rel (μ.Follows true) (ThreadRoots.packetOf w) (ThreadRoots.packetOf w') := by
  cases ht : μ.before.target true w with
  | none =>
    obtain rfl := hw.kept ht
    unfold ThreadRoots.packetOf
    split
    · exact .none
    · exact .some hw
  | some t =>
    obtain ⟨hsurv, hafter, -⟩ := hw.denotes t ht
    rw [packetOf_eq ht (hok.found t (HeapView.target_mem ht)).1,
      packetOf_eq hafter (hok.placed t hsurv).1]
    exact .some hw

/-- A code range after the objects have moved, rebuilt from its start. -/
def relocateRange (h : HeapView) (φ : Nat → Nat) (f : Nat × Nat) : Nat × Nat :=
  ((h.relocate φ true (PolyWord.fromAddr f.1)).addr,
    ptrOffset (h.relocate φ true (PolyWord.fromAddr f.1)).addr (offsetFrom f.2 f.1))

/-- The fields of a running thread after it has been written back. -/
theorem writeBack_eq {t : ThreadContext} {r : ThreadRoots} (hpub : Publishes t r)
    (hq : r.quiesced = false) (hsp : t.sp ≤ t.stack.length) (h : HeapView) (φ : Nat → Nat) :
    r.writeBack h φ t =
      { stack := (t.stack.take t.sp).map (fun _ => PolyWord.tagged 0) ++
          (t.stack.drop t.sp).map (h.relocate φ false)
        sp := t.sp
        pc := (relocateRange h φ (t.codeStart, t.pc)).2
        codeStart := (relocateRange h φ (t.codeStart, t.codeEnd)).1
        codeEnd := (relocateRange h φ (t.codeStart, t.codeEnd)).2
        frames := t.frames.map (relocateRange h φ)
        handlerFramesDepth := t.handlerFramesDepth.map (fun f => (f.1, relocateRange h φ f.2))
        exceptionPacket := ThreadRoots.packetOf (h.relocate φ true r.exnSlot)
        threadObject := t.threadObject.map (h.relocate φ true)
        bootstrapTailCall := h.relocate φ true t.bootstrapTailCall
        recentCallTargets := t.recentCallTargets.map (fun _ => 0) } := by
  have hdec : decide (t.codeStart = 0) = false :=
    (congrArg ThreadRoots.quiesced hpub.1).symm.trans hq
  obtain ⟨heq, -⟩ := hpub
  generalize hexn : r.exnSlot = exn at heq ⊢
  have hr : r = { ThreadRoots.capture t with exnSlot := exn } := by
    rw [← hexn]
    exact congrArg (fun q : ThreadRoots => { q with exnSlot := r.exnSlot }) heq
  subst hr
  have hlen : (t.stack.take t.sp).length = t.sp := by rw [List.length_take]; omega
  have htake : (relocateStack h φ t.sp t.stack).take t.sp = t.stack.take t.sp := by
    rw [relocateStack, List.take_append_of_le_length (by omega), List.take_of_length_le (by omega)]
  have hdrop : (relocateStack h φ t.sp t.stack).drop t.sp =
      (t.stack.drop t.sp).map (h.relocate φ false) := by
    rw [relocateStack, List.drop_append_of_le_length (by omega), List.drop_of_length_le (by omega),
      List.nil_append]
  have hobj : (if t.threadObject.isSome then
      some (h.relocate φ true (t.threadObject.getD PolyWord.zero)) else t.threadObject) =
      t.threadObject.map (h.relocate φ true) := by
    cases t.threadObject <;> rfl
  simp only [ThreadRoots.writeBack, ThreadRoots.applyFixups, ThreadRoots.scrubBelowSp,
    ThreadRoots.relocate, ThreadRoots.capture, hdec, Bool.false_eq_true, if_false, htake, hdrop,
    hobj, List.map_map]
  rw [rebuildFrames_eq, rebuildHandlers_eq]
  rfl

/-- A running thread that is written back has moved. -/
theorem threadMoved (hok : μ.Ok) {t : ThreadContext} {r : ThreadRoots} (hpub : Publishes t r)
    (hq : r.quiesced = false) (ht : ThreadOk μ.retired μ.before t)
    (hm : μ.Moves (r.words t.stack)) :
    μ.ThreadMoved t (r.writeBack μ.before μ.place t) := by
  obtain ⟨hr, hlive⟩ := rootsMoved hm
  have hsp : r.sp = t.sp := congrArg ThreadRoots.sp hpub.1
  have hpacket : ThreadRoots.packetOf r.exnSlot = t.exceptionPacket.bind ThreadRoots.packetOf :=
    hpub.2
  have hlen : (t.stack.take t.sp).length = t.sp := by
    rw [List.length_take]
    have := ht.sp
    omega
  have hstart : r.codeStartSlot = PolyWord.fromAddr t.codeStart :=
    congrArg ThreadRoots.codeStartSlot hpub.1
  have hcode : μ.Follows true (PolyWord.fromAddr t.codeStart)
      (μ.before.relocate μ.place true (PolyWord.fromAddr t.codeStart)) := hstart ▸ hr.code
  have hframeStarts : ∀ f ∈ t.frames, μ.Follows true (PolyWord.fromAddr f.1)
      (μ.before.relocate μ.place true (PolyWord.fromAddr f.1)) := by
    have h : r.frameStarts = t.frames.map (fun f => PolyWord.fromAddr f.1) :=
      congrArg ThreadRoots.frameStarts hpub.1
    have hf := hr.frames
    simp only [ThreadRoots.relocate, h, List.map_map] at hf
    rw [List.forall₂_map_left_iff, List.forall₂_map_right_iff, List.forall₂_same] at hf
    exact hf
  have hhandlerStarts : ∀ f ∈ t.handlerFramesDepth, μ.Follows true (PolyWord.fromAddr f.2.1)
      (μ.before.relocate μ.place true (PolyWord.fromAddr f.2.1)) := by
    have h : r.handlerStarts = t.handlerFramesDepth.map (fun f => PolyWord.fromAddr f.2.1) :=
      congrArg ThreadRoots.handlerStarts hpub.1
    have hf := hr.handlers
    simp only [ThreadRoots.relocate, h, List.map_map] at hf
    rw [List.forall₂_map_left_iff, List.forall₂_map_right_iff, List.forall₂_same] at hf
    exact hf
  have hpc := hok.pointer ht.code hcode ht.pc.1 ht.pc.2
  rw [hsp] at hlive
  rw [writeBack_eq hpub hq ht.sp]
  refine ⟨rfl, ?_, ?_, ?_, hok.range ht.code hcode, ?_, fun h => ?_, ?_, ?_, ?_, ?_, ?_, ?_⟩
  · rw [List.length_append, List.length_map, List.length_map, hlen, List.length_drop]
    have := ht.sp
    omega
  · rw [List.drop_left' (by rw [List.length_map, hlen])]
    exact hlive
  · intro w hw
    rw [List.take_left' (by rw [List.length_map, hlen])] at hw
    obtain ⟨-, -, rfl⟩ := List.mem_map.1 hw
    rfl
  · simp only [relocateRange, hpc.1]
    have := ht.pc.1
    push_cast
    omega
  · simp only [relocateRange, hpc.1]
    exact hpc.2 h
  · rw [List.forall₂_map_right_iff, List.forall₂_same]
    exact fun f hf => hok.range (ht.frames f hf) (hframeStarts f hf)
  · rw [List.forall₂_map_right_iff, List.forall₂_same]
    exact fun f hf => ⟨rfl, hok.range (ht.handlers f hf) (hhandlerStarts f hf)⟩
  · rw [← hpacket]
    exact packet_follows hok hr.exn
  · have h : r.threadObjSlot = t.threadObject.getD PolyWord.zero :=
      congrArg ThreadRoots.threadObjSlot hpub.1
    have hthread := hr.threadObj
    simp only [ThreadRoots.relocate, h] at hthread
    cases hto : t.threadObject with
    | none => exact .none
    | some w =>
      rw [hto] at hthread
      exact .some hthread
  · have h : r.bootstrapTailSlot = t.bootstrapTailCall :=
      congrArg ThreadRoots.bootstrapTailSlot hpub.1
    exact h ▸ hr.bootstrap
  · intro a ha
    obtain ⟨-, -, rfl⟩ := List.mem_map.1 ha
    rfl

/-- The address a thread's handle holds is that of its thread object. -/
theorem mirror_eq {t : ThreadContext} {r : ThreadRoots} (hpub : Publishes t r)
    (hq : r.quiesced = false) (hsp : t.sp ≤ t.stack.length) (h : HeapView) (φ : Nat → Nat) :
    (if r.threadObjPresent then (h.relocate φ true r.threadObjSlot).addr else 0) =
      ((r.writeBack h φ t).threadObject.map PolyWord.addr).getD 0 := by
  have hslot : r.threadObjSlot = t.threadObject.getD PolyWord.zero :=
    congrArg ThreadRoots.threadObjSlot hpub.1
  have hpresent : r.threadObjPresent = t.threadObject.isSome :=
    congrArg ThreadRoots.threadObjPresent hpub.1
  rw [writeBack_eq hpub hq hsp, hslot, hpresent]
  cases t.threadObject <;> rfl

end Thread

/-! ## The whole machine -/

section Machine

variable {μ : Motion}

/-- The published roots of a parked thread after the collection. -/
theorem sendMoved (hok : μ.Ok) {s : SendRoots}
    (hs : ∀ t r, s = .thread t r → r.quiesced = false →
      Publishes t r ∧ ThreadOk μ.retired μ.before t) (hm : μ.Moves s.words) :
    μ.SendMoved s (s.relocate μ.before μ.place).fixup (s.threadObjAddr μ.before μ.place) := by
  cases s with
  | thread t r =>
    obtain ⟨hroots, hlive⟩ := rootsMoved hm
    cases hq : r.quiesced with
    | false =>
      obtain ⟨hpub, ht⟩ := hs t r rfl hq
      rw [SendRoots.threadObjAddr, mirror_eq hpub hq ht.sp]
      exact .running hq (threadMoved hok hpub hq ht hm) hroots
    | true =>
      have hsame : SendRoots.fixup ((SendRoots.thread t r).relocate μ.before μ.place) =
          .thread { t with stack := relocateStack μ.before μ.place r.sp t.stack }
            (r.relocate μ.before μ.place) := by
        simp only [SendRoots.relocate, SendRoots.fixup, ThreadRoots.applyFixups,
          ThreadRoots.scrubBelowSp, ThreadRoots.relocate, hq, if_true]
      rw [hsame]
      exact .quiesced hq hlive hroots
  | fork r =>
    have hf := hm (true, r.function) (by simp [SendRoots.words])
    have ht := hm (true, r.threadObj) (by simp [SendRoots.words])
    exact Motion.SendMoved.fork hf ht

/-- The handle of another thread after the collection. -/
theorem peerMoved (hok : μ.Ok) {p : Peer} (hp : PeerOk μ.retired μ.before p)
    (hm : μ.Moves p.words) (hcell : μ.Moves p.cellWords) :
    μ.PeerMoved p (p.relocateAll μ.before μ.place).fixup := by
  obtain ⟨parked, cell, addr⟩ := p
  cases parked with
  | none => exact .unpublished rfl
  | some s =>
    have hs := sendMoved hok (fun t r hs => hp t r (congrArg some hs)) hm
    refine Motion.PeerMoved.published rfl rfl hs ?_
    cases cell with
    | none => exact .none
    | some w => exact .some (hcell (true, w) (by simp [Peer.cellWords]))

/-- What `visitThreads` does. -/
theorem visitThreads_visits {inSpace : Nat → Prop} {h : HeapView} {live : Nat → Prop}
    (hok : HeapOk inSpace h live) (roots : ThreadRoots) (stack : List PolyWord)
    (peers : List Peer) :
    Visits inSpace h live (visitThreads roots stack peers)
      (roots.words stack ++ (peers.flatMap Peer.words ++ peers.flatMap Peer.cellWords))
      (fun φ => ((roots.relocate h φ, relocateStack h φ roots.sp stack,
        if roots.threadObjPresent then (h.relocate φ true roots.threadObjSlot).addr else 0),
        peers.map (Peer.relocateAll h φ))) :=
  ((roots.forward_visits hok stack).bind (fun own => (peers_visits hok peers).bind
    (fun ps => Visits.pure (own, ps)))).congr (fun _ => rfl) (by simp) (fun _ => rfl)

end Machine

/-- The motion of a collection that has promoted the heap. -/
theorem Promoted.motionOk {m m' : Mem} {spaces spaces' : List MemorySpace}
    {images : List (Nat × Nat)} {copied : List Nat} {φ : Nat → Nat}
    (hp : Promoted m spaces images copied φ m' spaces') (hpool : PoolOk m spaces) :
    (motion m spaces copied φ m' spaces').Ok := by
  refine ⟨fun b hb => ⟨hpool.pos b hb, hpool.aligned b hb, ?_⟩, fun a b hc => ?_,
    fun b hb off hoff => ?_, fun b hb => (hp.placed b hb).2⟩
  · exact (HeapView.container_eq_some hpool.separate hpool.pos).2
      ⟨hb, Nat.le_refl b, by omega⟩
  · exact hpool.inSpaces (HeapView.container_mem hc) (HeapView.container_covers hc)
  · have hoff' : off < 8 * m.objLen b := hoff
    have hden := (hp.denotes b hb (b + off) ⟨by omega, by omega⟩).2
    rwa [Nat.add_sub_cancel_left] at hden

/-- `s'` is the machine `s` after a collection that has moved the objects `copied` to `φ`. -/
structure GcMoved (s s' : GcState) (copied : List Nat) (φ : Nat → Nat) : Prop where
  heap : Promoted s.mem s.nurseries s.imageMutableRoots copied φ s'.mem s'.nurseries
  self : s.self.codeStart ≠ 0 →
    (motion s.mem s.nurseries copied φ s'.mem s'.nurseries).ThreadMoved s.self s'.self ∧
      s'.threadObjAddr = (s'.self.threadObject.map PolyWord.addr).getD 0
  peers : List.Forall₂ (motion s.mem s.nurseries copied φ s'.mem s'.nurseries).PeerMoved s.peers
    s'.peers
  heapSlots : ∀ b ∈ copied, ∀ i < s.mem.objLen b, IsSlot s.mem b (b + 8 * i) →
    (motion s.mem s.nurseries copied φ s'.mem s'.nurseries).Follows true (s.mem (b + 8 * i))
      (s'.mem (φ b + 8 * i))
  imageSlots : ∀ a,
    SlotAmong (poolView s.mem s.nurseries) (regionObjects s.mem s.imageMutableRoots) a →
    (motion s.mem s.nurseries copied φ s'.mem s'.nurseries).Follows true (s.mem a) (s'.mem a)

/-- `gc` on the result of the collection of the pool. -/
theorem gc_eq (env : GcEnv) (s : GcState) {primary : MemorySpace} {others : List MemorySpace}
    (hn : s.nurseries = primary :: others) :
    gc env s = (collectPool env s.mem primary others (visitAll (visitThreads
      (ThreadRoots.capture s.self) s.self.stack s.peers) s.imageMutableRoots)).bind (fun p =>
      some ({ s with
        mem := p.1.mem
        nurseries := p.1.spaces
        self := p.2.1.1.applyFixups (p.2.1.1.scrubBelowSp { s.self with stack := p.2.1.2.1 })
        threadObjAddr := p.2.1.2.2
        peers := p.2.2.map Peer.fixup }, some p.1.newUsed)) := by
  simp only [gc, hn]
  rfl

/-- `s'` is `s` after every root has followed its object: the roots are relocated, and those of the
threads are written back. -/
structure GcRelocated (s s' : GcState) (copied : List Nat) (φ : Nat → Nat) : Prop where
  heap : Promoted s.mem s.nurseries s.imageMutableRoots copied φ s'.mem s'.nurseries
  moves : (motion s.mem s.nurseries copied φ s'.mem s'.nurseries).Moves s.rootWords
  self : s'.self = (ThreadRoots.capture s.self).writeBack (poolView s.mem s.nurseries) φ s.self
  threadObjAddr : s'.threadObjAddr = if (ThreadRoots.capture s.self).threadObjPresent then
    ((poolView s.mem s.nurseries).relocate φ true (ThreadRoots.capture s.self).threadObjSlot).addr
    else 0
  peers : s'.peers =
    s.peers.map (fun p => (p.relocateAll (poolView s.mem s.nurseries) φ).fixup)

theorem gc_relocates (env : GcEnv) (s : GcState) (live : Nat → Prop) (hready : GcReady env s live) :
    (AllWordsTracked s.mem s.nurseries s.imageMutableRoots s.rootWords live → gc env s ≠ none) ∧
    ∀ s' used, gc env s = some (s', used) →
      (s.nurseries = [] ∧ s' = s) ∨ ∃ copied φ, GcRelocated s s' copied φ := by
  cases hn : s.nurseries with
  | nil =>
    refine ⟨fun _ => by simp [gc, hn], fun s' used hrun => Or.inl ⟨rfl, ?_⟩⟩
    simp only [gc, hn, Option.some.injEq, Prod.mk.injEq] at hrun
    exact hrun.1.symm
  | cons primary others =>
    have hheap := hready.heap primary others hn
    rw [hn] at hheap
    obtain ⟨hreturns, hspec⟩ := collectPool_spec env hheap
      (visitThreads_visits hheap.heapOk (ThreadRoots.capture s.self) s.self.stack s.peers)
    have hgc := gc_eq env s hn
    constructor
    · intro htracked hnone
      rw [hgc, Option.bind_eq_none_iff] at hnone
      cases hrun : collectPool env s.mem primary others (visitAll (visitThreads
        (ThreadRoots.capture s.self) s.self.stack s.peers) s.imageMutableRoots) with
      | none => exact hreturns htracked hrun
      | some p => exact absurd (hnone p hrun) (by simp)
    · intro s' used hrun
      rw [hgc, Option.bind_eq_some_iff] at hrun
      obtain ⟨⟨res, r⟩, hcollect, heq⟩ := hrun
      obtain ⟨copied, φ, rfl, hroots, hprom⟩ := hspec res r hcollect
      simp only [Option.some.injEq, Prod.mk.injEq] at heq
      obtain ⟨rfl, -⟩ := heq
      right
      refine ⟨copied, φ, ?_, ?_, ?_, ?_, ?_⟩
      · rw [hn]
        exact hprom
      · rw [hn]
        exact fun p hp => hprom.follows hheap.pool.aligned (hroots p hp)
      · rw [hn]
        rfl
      · rw [hn]
      · rw [hn]
        exact List.map_map

/-- A collection of a ready machine returns when every word it forwards is tracked, and a collection
that returns has moved every thread, every slot and every object alike. -/
theorem gc_moves (env : GcEnv) (s : GcState) (live : Nat → Prop) (hready : GcReady env s live) :
    (AllWordsTracked s.mem s.nurseries s.imageMutableRoots s.rootWords live → gc env s ≠ none) ∧
    ∀ s' used, gc env s = some (s', used) →
      (s.nurseries = [] ∧ s' = s) ∨ ∃ copied φ, GcMoved s s' copied φ := by
  obtain ⟨hreturns, hspec⟩ := gc_relocates env s live hready
  refine ⟨hreturns, fun s' used hrun => ?_⟩
  cases hn : s.nurseries with
  | nil =>
    simp only [gc, hn, Option.some.injEq, Prod.mk.injEq] at hrun
    exact Or.inl ⟨rfl, hrun.1.symm⟩
  | cons primary others =>
    rcases hspec s' used hrun with ⟨hnil, -⟩ | ⟨copied, φ, hrel⟩
    · exact absurd (hn.symm.trans hnil) (List.cons_ne_nil _ _)
    have hheap := hready.heap primary others hn
    have hal := hheap.pool.aligned
    have hok := hrel.heap.motionOk hheap.pool
    obtain ⟨hown, hpeers⟩ := hrel.moves.append
    obtain ⟨hwords, hcells⟩ := hpeers.append
    right
    refine ⟨copied, φ, hrel.heap, ?_, ?_,
      fun b hb i hi hs => hrel.heap.follows hal (hrel.heap.slots b hb i hi hs),
      fun a ha => hrel.heap.follows hal (hrel.heap.imageSlots a ha)⟩
    · intro hcode
      have hq : (ThreadRoots.capture s.self).quiesced = false := decide_eq_false hcode
      rw [hrel.self, hrel.threadObjAddr]
      exact ⟨threadMoved hok (publishes_capture s.self) hq (hready.self hcode) hown,
        mirror_eq (publishes_capture s.self) hq (hready.self hcode).sp _ _⟩
    · rw [hrel.peers, List.forall₂_map_right_iff, List.forall₂_same]
      exact fun p hp => peerMoved hok (hready.peers p hp)
        (fun q hq => hwords q (List.mem_flatMap.2 ⟨p, hp, hq⟩))
        (fun q hq => hcells q (List.mem_flatMap.2 ⟨p, hp, hq⟩))

/-! ## A weak link

The machine of a thread whose stack holds one object, with a permanent weak object whose link holds a
SOME cell that nothing else reaches. -/

def weakMem : Mem := fun a =>
  if a = 0x1000 then makeLengthWord 1 0#8
  else if a = 0x1008 then PolyWord.tagged 7
  else if a = 0x1010 then makeLengthWord 1 0#8
  else if a = 0x1018 then PolyWord.fromAddr 0x1028
  else if a = 0x1020 then makeLengthWord 1 fByteObj
  else if a = 0x8000 then makeLengthWord 1 (fMutableBit ||| fWeakBit)
  else if a = 0x8008 then PolyWord.fromAddr 0x1018
  else PolyWord.zero

def weakSpace : MemorySpace := { start := 0x1000, capacity := 8, used := 6, spare := none }

def weakThread : ThreadContext :=
  { stack := [PolyWord.fromAddr 0x1018, PolyWord.fromAddr 0x1008], sp := 1, pc := 0x9004
    codeStart := 0x9000, codeEnd := 0x9010, frames := [], handlerFramesDepth := []
    exceptionPacket := none, threadObject := none, bootstrapTailCall := PolyWord.zero
    recentCallTargets := [0x1018] }

/-- A child that has not started yet. -/
def weakPeer : Peer :=
  { parkedRoots := some (.fork { function := PolyWord.fromAddr 0x1008, threadObj := PolyWord.zero })
    rtsParkRoot := none, threadObjAddr := 0 }

def weakState : GcState :=
  { mem := weakMem, nurseries := [weakSpace], self := weakThread, threadObjAddr := 0
    peers := [weakPeer], imageMutableRoots := [(0x8000, 2)] }

def weakEnv : GcEnv := { audit := false, reuseMaxBytes := 0, freshAddr := 0x4000 }

theorem weak_poolOk : PoolOk weakMem [weakSpace] := by
  have hobj : objectsOf weakMem weakSpace = [0x1008, 0x1018, 0x1028] := by decide
  refine ⟨List.pairwise_singleton _ _, fun s hs => ?_⟩
  obtain rfl := List.mem_singleton.1 hs
  refine ⟨by decide, by decide, by decide, ?_, ?_, ?_⟩
  · rw [hobj]
    exact .cons _ _ _ (.cons _ _ _ (.cons _ _ _ (.nil _)))
  · rw [hobj]
    decide
  · rw [hobj]
    decide

theorem weak_inSpaces {a : Nat} (h : InSpaces [weakSpace] a) : 0x1000 ≤ a ∧ a < 0x1040 := by
  obtain ⟨s, hs, hlo, hhi⟩ := h
  obtain rfl := List.mem_singleton.1 hs
  exact ⟨hlo, hhi⟩

theorem weak_ready : GcReady weakEnv weakState (fun b => b = 0x1008) := by
  have himage : imageObjects weakMem (0x8000, 2) = [0x8008] := by decide
  have hweak : weakAmong (poolView weakMem [weakSpace])
      (regionObjects weakMem [(0x8000, 2)]) = [0x8008] := by decide
  have hno : slotRange weakMem 0x8008 = (0x8008, 0) := by decide
  have hone : slotRange weakMem 0x1008 = (0x1008, 1) := by decide
  constructor
  · intro primary others hn
    obtain ⟨rfl, rfl⟩ := List.cons.inj hn
    have hscratch : (takeScratch weakEnv weakSpace (totalCapacity weakSpace []) weakState.mem).1 = 0x4000 ∧
        (takeScratch weakEnv weakSpace (totalCapacity weakSpace []) weakState.mem).2.1 = 8 := by decide
    rw [hscratch.1, hscratch.2]
    refine ⟨weak_poolOk, ?_, ?_, ?_, ?_, ?_, ?_, List.pairwise_singleton _ _, ?_, ?_, by decide,
      by decide, ?_⟩
    · rintro b rfl
      decide
    · rintro b rfl hcode
      exact absurd hcode (by decide)
    · rintro b a t rfl ⟨i, hi, rfl⟩ ht
      rw [show slotRange weakState.mem 0x1008 = (0x1008, 1) from hone] at hi ht
      obtain rfl : i = 0 := Nat.lt_one_iff.1 hi
      have hnone : (poolView weakState.mem weakState.nurseries).target true
          (weakState.mem ((0x1008, 1).1 + 8 * 0)) = none := by decide
      exact absurd (hnone.symm.trans ht) (by simp)
    · have hroots : weakState.rootWords.all (fun p => decide (
          (poolView weakMem [weakSpace]).target p.1 p.2 = none ∨
            (poolView weakMem [weakSpace]).target p.1 p.2 = some 0x1008)) = true := by decide
      intro p hp t ht
      rcases of_decide_eq_true (List.all_eq_true.1 hroots p hp) with h | h
      · exact absurd (h.symm.trans ht) (by simp)
      · exact Option.some.inj (ht.symm.trans h)
    · intro r hr
      obtain rfl := List.mem_singleton.1 hr
      rw [show imageObjects weakState.mem (0x8000, 2) = [0x8008] from himage]
      exact .cons _ _ _ (.nil _)
    · intro r hr a h1 h2
      obtain rfl := List.mem_singleton.1 hr
      refine ⟨fun hin => ?_, by dsimp only at h1; omega⟩
      have := weak_inSpaces hin
      dsimp only at h1
      omega
    · intro r hr
      obtain rfl := List.mem_singleton.1 hr
      rw [show imageObjects weakState.mem (0x8000, 2) = [0x8008] from himage]
      refine ⟨fun b hb _ hcode => ?_, ?_⟩
      · obtain rfl := List.mem_singleton.1 hb
        exact absurd hcode (by decide)
      · rintro b hb - a ⟨i, hi, rfl⟩
        obtain rfl := List.mem_singleton.1 hb
        rw [show slotRange (poolView weakState.mem weakState.nurseries).mem 0x8008 = (0x8008, 0)
          from hno] at hi
        exact absurd hi (Nat.not_lt_zero _)
    · intro a h1 h2 hin
      have := weak_inSpaces hin
      omega
    · rintro p hp a ⟨i, hi, rfl⟩
      rw [show weakAmong (poolView weakState.mem weakState.nurseries)
        (regionObjects weakState.mem weakState.imageMutableRoots) = [0x8008] from hweak] at hp ⊢
      rcases hp with hp | ⟨rfl, hp⟩
      · obtain rfl := List.mem_singleton.1 hp
        rw [show weakState.mem.objLen 0x8008 = 1 by decide] at hi
        obtain rfl : i = 0 := by omega
        exact Or.inr (Or.inr ⟨by decide, fun _ => Or.inr (by decide)⟩)
      · exact absurd hp (by decide)
  · intro _
    refine ⟨by decide, ⟨by decide, by decide, Or.inr ?_⟩, by decide, by simp [weakState, weakThread],
      by simp [weakState, weakThread]⟩
    intro a h1 h2 hin
    have := weak_inSpaces hin
    have h3 : 0x9000 ≤ a := h1
    omega
  · intro p hp t r hr
    obtain rfl := List.mem_singleton.1 hp
    cases hr

theorem gc_moves_weak :
    (AllWordsTracked weakState.mem weakState.nurseries weakState.imageMutableRoots
      weakState.rootWords (fun b => b = 0x1008) → gc weakEnv weakState ≠ none) ∧
    ∀ s' used, gc weakEnv weakState = some (s', used) →
      (weakState.nurseries = [] ∧ s' = weakState) ∨ ∃ copied φ, GcMoved weakState s' copied φ :=
  gc_moves weakEnv weakState _ weak_ready

/-- The link is emptied: it denotes no copy of the cell it denoted. -/
theorem gc_empties_link : GcReady weakEnv weakState (fun b => b = 0x1008) ∧
    ∃ s' used, gc weakEnv weakState = some (s', used) ∧ ∀ copied φ,
      ¬ (motion weakState.mem weakState.nurseries copied φ s'.mem s'.nurseries).Follows true
        (weakState.mem 0x8008) (s'.mem 0x8008) := by
  refine ⟨weak_ready, ?_⟩
  have hrun : (gc weakEnv weakState).map (fun r => r.1.mem 0x8008) = some (PolyWord.tagged 0) := by
    decide +kernel
  cases h : gc weakEnv weakState with
  | none => simp [h] at hrun
  | some r =>
    rw [h, Option.map_some, Option.some.injEq] at hrun
    refine ⟨r.1, r.2, rfl, fun copied φ hf => ?_⟩
    have htarget : (poolView weakState.mem weakState.nurseries).target true
        (weakState.mem 0x8008) = some 0x1018 := by decide
    have hafter := (hf.denotes _ htarget).2.1
    rw [hrun] at hafter
    simp [HeapView.target, show (PolyWord.tagged 0).isTagged = true by decide] at hafter
