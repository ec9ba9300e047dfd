import PolymlRs.Gc.Collector
import PolymlRs.Heap.Bytes
import PolymlRs.Image.ObjectModel

set_option autoImplicit false

/-! # Snapshots

The exporter walks the objects that are reached from a root and builds an image of them. An object
gets its id when the walk first meets a pointer to it; its body is read when it is taken off the
stack of pending objects. In untrusted mode every pointer is checked against the live spaces first. -/

/-- The `n` words from address `p` on. -/
def Mem.words (m : Mem) (p n : Nat) : List PolyWord := (List.range n).map (fun i => m (p + 8 * i))

@[simp] theorem Mem.length_words (m : Mem) (p n : Nat) : (m.words p n).length = n := by
  rw [Mem.words, List.length_map, List.length_range]

namespace Image

/-- What a reserved slot holds until the object is built. -/
def placeholder : Object := ⟨.empty, .ordinary []⟩

/-- The modifier bits that an image records; the collector's bits are dropped. -/
def objFlags (flags : BitVec 8) : ObjFlags :=
  { mutable := flags &&& fMutableBit != 0#8, negative := flags &&& fNegativeBit != 0#8,
    noOverwrite := flags &&& fNoOverwrite != 0#8, weak := flags &&& fWeakBit != 0#8 }

structure SnapshotBuilder where
  /-- The id of each object, by address. -/
  byAddr : List (Nat × ObjectId)
  objects : List Object
  /-- The objects whose bodies are still to be read, the last one first. -/
  pending : List Nat
  /-- In untrusted mode, the live spaces: start and end. -/
  spaces : Option (List (Nat × Nat))

namespace SnapshotBuilder

/-- `contains_with_header`, for a pointer that is not null. -/
def ptrOk (b : SnapshotBuilder) (w : PolyWord) : Bool :=
  match b.spaces with
  | none => true
  | some ranges => w.isDataPtr && ranges.any (fun r => r.1 < w.addr ∧ w.addr < r.2)

/-- `space_end_of`. -/
def spaceEndOf (ranges : List (Nat × Nat)) (p : Nat) : Option Nat :=
  (ranges.find? (fun r => r.1 < p ∧ p < r.2)).map Prod.snd

/-- The id of the object `w` points to. The number of objects is cut to 32 bits. -/
def intern (b : SnapshotBuilder) (w : PolyWord) : SnapshotBuilder × ObjectId :=
  match b.byAddr.lookup w.addr with
  | some id => (b, id)
  | none =>
    let id := UInt32.ofNat b.objects.length
    ({ b with
        byAddr := (w.addr, id) :: b.byAddr
        objects := b.objects ++ [placeholder]
        pending := w.addr :: b.pending }, id)

def valueFor (b : SnapshotBuilder) (w : PolyWord) : SnapshotBuilder × Value :=
  if w.isTagged then (b, .tagged (Int64.ofInt w.untag))
  else if !b.ptrOk w then (b, .tagged 0)
  else
    let (b, id) := b.intern w
    (b, .ref id)

/-- The loop over the words of a body. -/
def valuesFor (b : SnapshotBuilder) : List PolyWord → SnapshotBuilder × List Value
  | [] => (b, [])
  | w :: ws =>
    let (b, v) := b.valueFor w
    let (b, vs) := b.valuesFor ws
    (b, v :: vs)

def buildOrdinary (b : SnapshotBuilder) (m : Mem) (p n : Nat) : SnapshotBuilder × ObjectBody :=
  let (b, values) := b.valuesFor (m.words p n)
  (b, .ordinary values)

/-- Word 0 is the code address; a word that is none becomes a reference to the root. -/
def buildClosure (b : SnapshotBuilder) (m : Mem) (p n : Nat) : SnapshotBuilder × ObjectBody :=
  let codeWord := m p
  let (b, codeAddr) := if codeWord.isTagged || !b.ptrOk codeWord then (b, 0) else b.intern codeWord
  let (b, values) := b.valuesFor (m.words (p + wordBytes) (n - 1))
  (b, .closure codeAddr values)

/-- The constants of a code object in untrusted mode, where its last word may hold anything. -/
def boundedConstSegment (m : Mem) (p n : Nat) : Nat × Nat :=
  if n < 2 then (p, 0)
  else
    let lastWordPtr := p + wordBytes * (n - 1)
    let offTerm := Int.tdiv (m lastWordPtr).toInt wordBytes * wordBytes
    let cp := (((lastWordPtr + wordBytes : Nat) + offTerm) % 2 ^ 64 : Int).toNat
    if p < cp ∧ cp ≤ p + n * wordBytes then (cp, (m (cp - wordBytes)).toNat) else (p, 0)

def buildCode (b : SnapshotBuilder) (m : Mem) (p n : Nat) : SnapshotBuilder × ObjectBody :=
  let (cp, count) := if b.spaces.isSome then boundedConstSegment m p n else constSegmentForCode m p
  let objEnd := p + n * wordBytes
  -- the code ends at the count word in front of the constants
  let bytecodeLen := min cp objEnd - p - wordBytes
  let codeBytes := m.readBytes p bytecodeLen
  let constsEnd := objEnd - wordBytes
  let safeCount :=
    if p ≤ cp ∧ cp < constsEnd then min count ((constsEnd - cp) / wordBytes) else 0
  let (b, constants) := b.valuesFor (m.words cp safeCount)
  (b, .code codeBytes constants [])

def buildObject (b : SnapshotBuilder) (m : Mem) (p : Nat) (lw : PolyWord) :
    SnapshotBuilder × Object :=
  let n := match b.spaces.bind (spaceEndOf · p) with
    | none => lengthOf lw
    | some e => min (lengthOf lw) ((e - p) / wordBytes)
  let flags := objFlags (flagsOf lw)
  let ty := typeOf lw
  let (b, body) :=
    if ty = fByteObj then (b, .bytes (m.readBytes p (n * wordBytes)))
    else if ty = fCodeObj then b.buildCode m p n
    else if ty = fClosureObj then b.buildClosure m p n
    else b.buildOrdinary m p n
  (b, ⟨flags, body⟩)

/-- The body of the loop in `drain`: build the object just taken off the stack. -/
def buildNext (b : SnapshotBuilder) (m : Mem) (addr : Nat) : Option SnapshotBuilder := do
  let id ← b.byAddr.lookup addr
  let (b, obj) := b.buildObject m addr (m (addr - wordBytes))
  some { b with objects := b.objects.set id.toNat obj }

/-- Build the pending objects. Every round takes one off the stack, so as many rounds as there are
objects suffice. -/
def drain (m : Mem) : Nat → SnapshotBuilder → Option SnapshotBuilder
  | fuel, b =>
    match b.pending with
    | [] => some b
    | addr :: pending =>
      match fuel with
      | 0 => none
      | fuel + 1 => do
        let b ← { b with pending := pending }.buildNext m addr
        drain m fuel b

end SnapshotBuilder

/-- The builder when the walk is over, and the id of the root. -/
def snapshotBuilder (fuel : Nat) (m : Mem) (root : PolyWord) (spaces : Option (List (Nat × Nat))) :
    Option (SnapshotBuilder × ObjectId) := do
  let b : SnapshotBuilder := { byAddr := [], objects := [], pending := [], spaces }
  let (b, rootId) :=
    if root.isTagged || b.ptrOk root then b.intern root
    else ({ b with objects := b.objects ++ [placeholder] }, 0)
  let b ← b.drain m fuel
  some (b, rootId)

def snapshotGated (fuel : Nat) (m : Mem) (root : PolyWord) (spaces : Option (List (Nat × Nat))) :
    Option Image := do
  let (b, rootId) ← snapshotBuilder fuel m root spaces
  some { root := rootId, arch := .interpreted, wordSize := .bits64, objects := b.objects }

def snapshot (fuel : Nat) (m : Mem) (root : PolyWord) : Option Image :=
  snapshotGated fuel m root none

end Image
