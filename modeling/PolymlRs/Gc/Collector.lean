import PolymlRs.Heap.MemorySpace
import PolymlRs.Lib.SortedRanges

set_option autoImplicit false

/-! # The copying collector

The serial collector as the source computes it: the start bitmap of the pre-pass, forwarding of one
slot, the per-kind scan of a copied object, the Cheney loop over to-space, the weak fixup after it
and the promotion of to-space. `none` stands for a panic: a failed assertion or an index outside the
bitmap. Memory is one map over all addresses, so from-space, to-space and everything else the
collector writes live in the same `mem`. -/

/-- A `Vec<u64>` used as a bitmap: `size` bits are backed by storage, an access past them panics. -/
structure Bitmap where
  size : Nat
  bit : Nat → Bool

namespace Bitmap

/-- `vec![0u64; bits.div_ceil(64)]`. -/
def ofBits (bits : Nat) : Bitmap := { size := 64 * ((bits + 63) / 64), bit := fun _ => false }

def test (b : Bitmap) (i : Nat) : Option Bool := if i < b.size then some (b.bit i) else none

def set (b : Bitmap) (i : Nat) : Option Bitmap :=
  if i < b.size then some { b with bit := Function.update b.bit i true } else none

end Bitmap

/-- The state of one collection. -/
structure Collector where
  /-- Sorted, disjoint address ranges of every from-space. -/
  fromRanges : List (Nat × Nat)
  /-- Address and length (in words) of the scratch buffer that becomes to-space. -/
  toStart : Nat
  toLen : Nat
  /-- Bump pointer into to-space, in words. -/
  toUsed : Nat
  startBits : Bitmap
  rangeBitBase : List Nat
  weakObjects : List Nat
  untrackedAddrs : List Nat
  mem : Mem

/-- `usize::MAX`. -/
def usizeMax : Nat := 0xffffffffffffffff

def saturatingAdd (a b : Nat) : Nat := min (a + b) usizeMax
def saturatingMul (a b : Nat) : Nat := min (a * b) usizeMax

/-- Address and number of the constants of the code object `obj`: the last body word holds the
signed byte distance to them, the word before them their number. -/
def constSegmentForCode (m : Mem) (obj : Nat) : Nat × Nat :=
  let nWords := lengthOf (m (obj - wordBytes))
  let lastWordPtr := obj + wordBytes * (nWords - 1)
  let offsetBytes := (m lastWordPtr).toInt
  let cp := ((lastWordPtr + wordBytes : Nat) + wordBytes * Int.tdiv offsetBytes wordBytes : Int).toNat
  (cp, (m (cp - wordBytes)).toNat)

namespace Collector

def write (c : Collector) (a : Nat) (w : PolyWord) : Collector :=
  { c with mem := Function.update c.mem a w }

def inFromSpace (c : Collector) (addr : Nat) : Bool := (rangeAt c.fromRanges addr).isSome

/-- Length of the object at `body`, read through its tombstone once it has been forwarded. -/
def objectLenViaHeader (m : Mem) (body : Nat) : Nat :=
  let lw := m (body - wordBytes)
  if isTombstone lw then lengthOf (m (forwardPtr lw - wordBytes)) else lengthOf lw

/-- The backward scan of `find_body_start` from bit `bitBase + k` (exclusive) down to `bitBase`. -/
def scanBack (bits : Bitmap) (m : Mem) (rangeStart bitBase addr : Nat) : Nat → Option (Option Nat)
  | 0 => some none
  | k + 1 =>
    match bits.test (bitBase + k) with
    | none => none
    | some false => scanBack bits m rangeStart bitBase addr k
    | some true =>
      let start := rangeStart + k * wordBytes
      let n := objectLenViaHeader m start
      if addr < saturatingAdd start (saturatingMul n wordBytes) then some (some start)
      -- a zero-length object between us and the true container: keep scanning
      else if n > 0 then some none
      else scanBack bits m rangeStart bitBase addr k

/-- The body start of the from-space object containing `addr`. -/
def findBodyStart (c : Collector) (addr : Nat) : Option (Option Nat) :=
  match rangeAt c.fromRanges addr with
  | none => some none
  | some (k, rangeStart, _) =>
    let bitBase := c.rangeBitBase.getD k 0
    let wordIdx := (addr - rangeStart) / wordBytes
    match c.startBits.test (bitBase + wordIdx) with
    | none => none
    | some true => some (some (rangeStart + wordIdx * wordBytes))
    | some false => scanBack c.startBits c.mem rangeStart bitBase addr wordIdx

/-- Reserve `1 + nWords` words of to-space; the address of the new body. -/
def bumpTo (c : Collector) (nWords : Nat) : Option (Collector × Nat) :=
  let bodyIdx := c.toUsed + 1
  let newUsed := bodyIdx + nWords
  if newUsed ≤ c.toLen then some ({ c with toUsed := newUsed }, c.toStart + wordBytes * bodyIdx)
  else none

/-- Copy the object at `obj` to to-space, unless that has been done, and return its new body. -/
def forwardObject (c : Collector) (obj : Nat) : Option (Collector × Nat) :=
  let lw := c.mem (obj - wordBytes)
  if isTombstone lw then some (c, forwardPtr lw)
  else do
    let nWords := lengthOf lw
    let (c, toPtr) ← c.bumpTo nWords
    let c := c.write (toPtr - wordBytes) (makeLengthWord nWords (flagsOf lw))
    let c := { c with mem := c.mem.copyWords obj toPtr nWords }
    some (c.write (obj - wordBytes) (tombstone toPtr), toPtr)

/-- Forward the word `w` held by some slot; the word the slot holds afterwards. -/
def forwardImpl (c : Collector) (w : PolyWord) (taggedFilter : Bool) :
    Option (Collector × PolyWord) :=
  if taggedFilter && w.isTagged then some (c, w)
  else if !c.inFromSpace w.addr then some (c, w)
  else do
    match ← c.findBodyStart w.addr with
    | none => some ({ c with untrackedAddrs := c.untrackedAddrs ++ [w.addr] }, w)
    | some bodyStart =>
      let (c, newBody) ← c.forwardObject bodyStart
      some (c, PolyWord.fromAddr (newBody + (w.addr - bodyStart)))

/-- A body word, a code constant or any other slot that is tagged or a pointer. -/
def forward (c : Collector) (w : PolyWord) : Option (Collector × PolyWord) := c.forwardImpl w true

/-- A stack word: raw code addresses may have bit 0 set, so no filter by tag. -/
def forwardStackSlot (c : Collector) (w : PolyWord) : Option (Collector × PolyWord) :=
  c.forwardImpl w false

/-- `forward` applied to the slot at address `a`. -/
def forwardSlot (c : Collector) (a : Nat) : Option Collector := do
  let (c, w) ← c.forward (c.mem a)
  some (c.write a w)

/-- `for i in 0..n { forward(a.add(i)) }`. -/
def forwardSlots (c : Collector) (a : Nat) : Nat → Option Collector
  | 0 => some c
  | n + 1 => do
    let c ← c.forwardSlots a n
    c.forwardSlot (a + wordBytes * n)

/-- Forward the child pointers of one object, by its type code. -/
def scanObject (c : Collector) (obj : Nat) : Option Collector :=
  let lw := c.mem (obj - wordBytes)
  let nWords := lengthOf lw
  if typeOf lw = fByteObj then some c
  else if typeOf lw = fCodeObj then
    let (cp, count) := constSegmentForCode c.mem obj
    c.forwardSlots cp count
  else if typeOf lw = fClosureObj then c.forwardSlots obj nWords
  -- the slots of a weak word object are exactly the weak links: do not trace them
  else if isWeak lw then some { c with weakObjects := c.weakObjects ++ [obj] }
  else c.forwardSlots obj nWords

/-- Walk to-space from word `scan` until it catches up with the bump pointer. Every round advances
`scan`, so `toLen` rounds of fuel always suffice. -/
def cheneyScan : Nat → Collector → Nat → Option Collector
  | fuel, c, scan =>
    if scan < c.toUsed then
      match fuel with
      | 0 => none
      | fuel + 1 => do
        let nWords := lengthOf (c.mem (c.toStart + wordBytes * scan))
        let c ← c.scanObject (c.toStart + wordBytes * (scan + 1))
        cheneyScan fuel c (scan + (1 + nWords))
    else some c

/-! ## Weak references -/

/-- One weak slot after the trace: forward a surviving SOME cell, demote a dead entry to NONE. -/
def weakSlot (c : Collector) (slot : Nat) : Option Collector :=
  let w := c.mem slot
  let demote (c : Collector) : Collector := c.write slot (PolyWord.tagged 0)
  if w.isTagged then some c
  else
    let someAddr := w.addr
    if !c.inFromSpace someAddr then
      -- permanent SOME cell: its content may still be a dying local reference
      let refW := c.mem someAddr
      if refW.isTagged then some (demote c)
      else if c.inFromSpace refW.addr then
        let refHdr := c.mem (refW.addr - wordBytes)
        if isTombstone refHdr then some (c.write someAddr (PolyWord.fromAddr (forwardPtr refHdr)))
        else some (demote (c.write someAddr (PolyWord.tagged 0)))
      else some c
    else
      let someHdr := c.mem (someAddr - wordBytes)
      if isTombstone someHdr then some (c.write slot (PolyWord.fromAddr (forwardPtr someHdr)))
      else if lengthOf someHdr ≠ 1 ∨ typeOf someHdr ≠ 0#8 then some (demote c)
      else
        let refW := c.mem someAddr
        if refW.isTagged then some (demote c)
        else
          let refHdr := c.mem (refW.addr - wordBytes)
          if c.inFromSpace refW.addr && !isTombstone refHdr then
            some (demote (c.write someAddr (PolyWord.tagged 0)))
          else do
            let newRef :=
              if c.inFromSpace refW.addr then PolyWord.fromAddr (forwardPtr refHdr) else refW
            let (c, toPtr) ← c.bumpTo 1
            let c := c.write (toPtr - wordBytes) (makeLengthWord 1 (flagsOf someHdr))
            let c := c.write toPtr newRef
            let c := c.write (someAddr - wordBytes) (tombstone toPtr)
            some (c.write slot (PolyWord.fromAddr toPtr))

/-- `for i in 0..n` over the slots of one weak object. -/
def weakSlots (c : Collector) (body : Nat) : Nat → Option Collector
  | 0 => some c
  | n + 1 => do
    let c ← c.weakSlots body n
    c.weakSlot (body + wordBytes * n)

/-- The registered weak objects, in the order of registration. -/
def weakFixupLoop (c : Collector) : List Nat → Option Collector
  | [] => some c
  | body :: rest => do
    let c ← c.weakSlots body (lengthOf (c.mem (body - wordBytes)))
    c.weakFixupLoop rest

def weakFixup (c : Collector) : Option Collector :=
  { c with weakObjects := [] }.weakFixupLoop c.weakObjects

end Collector

/-! ## Collecting a pool of spaces -/

/-- What a collection takes from its environment: the `POLYML_GC_AUDIT` and
`POLYML_GC_REUSE_MAX_BYTES` settings, and the address the allocator gives the scratch arena when it
is asked for one. -/
structure GcEnv where
  audit : Bool
  reuseMaxBytes : Nat
  freshAddr : Nat

/-- The order of `sort_unstable` on `(start, end, capacity)`. -/
def rangeLe (a b : Nat × Nat × Nat) : Prop :=
  a.1 < b.1 ∨ a.1 = b.1 ∧ (a.2.1 < b.2.1 ∨ a.2.1 = b.2.1 ∧ a.2.2 ≤ b.2.2)

instance : DecidableRel rangeLe := fun a b => by
  unfold rangeLe
  infer_instance

def sortedRanges (spaces : List MemorySpace) : List (Nat × Nat × Nat) :=
  (spaces.map (fun s => (s.start, s.limit, s.capacity))).insertionSort rangeLe

/-- Each range gets a contiguous run of bits sized to its capacity; the second component is the
number of bits of all of them. -/
def rangeBitBases : List (Nat × Nat × Nat) → Nat → List Nat × Nat
  | [], total => ([], total)
  | r :: rest, total =>
    let (bases, sum) := rangeBitBases rest (total + r.2.2)
    (total :: bases, sum)

/-- Mark the body starts of one space: the `while i < used_words` loop of the pre-pass. Every round
advances `i`, so `usedWords` rounds of fuel always suffice. -/
def prepassSpace (m : Mem) (storageStart usedWords bitBase : Nat) :
    Nat → Nat → Bitmap → Option Bitmap
  | 0, _, bits => some bits
  | fuel + 1, i, bits =>
    if i < usedWords then
      let n := lengthOf (m (storageStart + wordBytes * i))
      if i + 1 + n > usedWords then prepassSpace m storageStart usedWords bitBase fuel (i + 1) bits
      else do
        let bits ← bits.set (bitBase + i + 1)
        prepassSpace m storageStart usedWords bitBase fuel (i + (1 + n)) bits
    else some bits

/-- The pre-pass over every sorted range. -/
def prepass (m : Mem) (spaces : List MemorySpace) :
    List (Nat × Nat × Nat) → List Nat → Bitmap → Option Bitmap
  | r :: ranges, bitBase :: bases, bits => do
    let space ← spaces.find? (fun s => s.start = r.1)
    let bits ← prepassSpace m space.start space.used bitBase space.used 0 bits
    prepass m spaces ranges bases bits
  | _, _, bits => some bits

/-- What is left after a collection. -/
structure Collected where
  mem : Mem
  spaces : List MemorySpace
  newUsed : Nat

/-- To-space: the primary's spare when it is big enough and may be reused, else a zeroed arena. -/
def takeScratch (env : GcEnv) (primary : MemorySpace) (totalCapacity : Nat) (m : Mem) :
    Nat × Nat × Bool × Mem :=
  let reuseEnabled := !env.audit && decide (totalCapacity ≤ env.reuseMaxBytes / wordBytes)
  match primary.spare with
  | some (a, len) =>
    if reuseEnabled && decide (totalCapacity ≤ len) then (a, len, reuseEnabled, m)
    else (env.freshAddr, totalCapacity, reuseEnabled, m.fillZero env.freshAddr totalCapacity)
  | none => (env.freshAddr, totalCapacity, reuseEnabled, m.fillZero env.freshAddr totalCapacity)

/-- To-space is sized for everything in use, and never below the primary's own capacity. -/
def totalCapacity (primary : MemorySpace) (others : List MemorySpace) : Nat :=
  max primary.capacity ((primary :: others).map MemorySpace.used).sum

/-- The collector as the pre-pass leaves it, and whether the retired storage is kept. -/
def startCollection (env : GcEnv) (m : Mem) (primary : MemorySpace) (others : List MemorySpace) :
    Option (Collector × Bool) := do
  let spaces := primary :: others
  let ranges := sortedRanges spaces
  let (bases, bitsTotal) := rangeBitBases ranges 0
  let bits ← prepass m spaces ranges bases (Bitmap.ofBits bitsTotal)
  let (toStart, toLen, reuseEnabled, m) := takeScratch env primary (totalCapacity primary others) m
  some ({ fromRanges := ranges.map (fun r => (r.1, r.2.1)), toStart, toLen, toUsed := 0,
          startBits := bits, rangeBitBase := bases, weakObjects := [], untrackedAddrs := [],
          mem := m }, reuseEnabled)

/-- Untracked pointers abort; otherwise the primary takes to-space and the other nurseries are
reset. -/
def promote (c : Collector) (reuseEnabled : Bool) (primary : MemorySpace)
    (others : List MemorySpace) : Option Collected :=
  if c.untrackedAddrs ≠ [] then none
  else some
    { mem := c.mem
      spaces := primary.replaceStoragePingpong c.toStart c.toLen c.toUsed reuseEnabled ::
        others.map MemorySpace.resetEmpty
      newUsed := c.toUsed }

/-- The part of a collection the trace proper consists of: the roots, then the Cheney loop. -/
def traceRoots {ρ : Type} (c : Collector) (visitRoots : Collector → Option (Collector × ρ)) :
    Option (Collector × ρ) := do
  let (c, r) ← visitRoots c
  let c ← c.cheneyScan c.toLen 0
  some (c, r)

/-- A serial stop-the-world collection of the pool `primary :: others`. -/
def collectPool {ρ : Type} (env : GcEnv) (m : Mem) (primary : MemorySpace)
    (others : List MemorySpace) (visitRoots : Collector → Option (Collector × ρ)) :
    Option (Collected × ρ) := do
  let (c, reuseEnabled) ← startCollection env m primary others
  let (c, r) ← traceRoots c visitRoots
  let c ← c.weakFixup
  let res ← promote c reuseEnabled primary others
  some (res, r)

/-- Forward the slots of a list in order, given by their contents. -/
def forwardEach (fwd : Collector → PolyWord → Option (Collector × PolyWord)) (c : Collector) :
    List PolyWord → Option (Collector × List PolyWord)
  | [] => some (c, [])
  | w :: ws => do
    let (c, w') ← fwd c w
    let (c, ws') ← forwardEach fwd c ws
    some (c, w' :: ws')

/-- A list of root slots. -/
def forwardRoots (c : Collector) (ws : List PolyWord) : Option (Collector × List PolyWord) :=
  forwardEach Collector.forward c ws
