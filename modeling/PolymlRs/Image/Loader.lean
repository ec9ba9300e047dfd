import PolymlRs.Gc.Collector
import PolymlRs.Image.ObjectModel
import PolymlRs.Rts.Bignum

set_option autoImplicit false

/-! # The loader

Turns an image into three heap spaces. A first pass allocates a slot for every object, a second pass
writes length words and bodies; references become the addresses of the slots. The host has 64-bit
words. -/

namespace Image

/-- Where an object goes. -/
inductive SpaceKind
  | immutable
  | mutable
  | code
deriving DecidableEq, Repr

inductive LoadError
  | badRoot (root : ObjectId) (count : Nat)
  | taggedOutOfRange (value : Int64)
  | unresolvedRef (id : ObjectId)
  | wordSizeMismatch (imageBytes hostBytes : Nat)
deriving DecidableEq, Repr

/-- What a load takes from its environment: where the allocator puts the storage of the three spaces,
and the `POLYML_ALLOW_WORD_SIZE_MISMATCH` setting. -/
structure LoadEnv where
  immutableAddr : Nat
  mutableAddr : Nat
  codeAddr : Nat
  allowWordSizeMismatch : Bool

/-- The three spaces during the first pass. -/
structure Spaces where
  immutable : MemorySpace
  mutable : MemorySpace
  code : MemorySpace
deriving DecidableEq, Repr

/-- A loaded image: memory and spaces, the root object, the entry point objects, and whether the
root can be run. -/
structure LoadedImage where
  mem : Mem
  spaces : Spaces
  root : Nat
  entryPoints : List (String × Nat)
  runnable : Except String Unit
  untrusted : Bool

/-- `usize::div_ceil` by the word size. -/
def wordsFor (nBytes : Nat) : Nat := (nBytes + (wordBytes - 1)) / wordBytes

/-- The number of body words an object takes in the heap. -/
def bodyWordCount : ObjectBody → Nat
  | .ordinary vs => vs.length
  | .closure _ vs => 1 + vs.length
  | .legacyClosure vs => vs.length
  | .string b => 1 + wordsFor b.length
  | .bytes b => wordsFor b.length
  | .code b cs _ => wordsFor b.length + cs.length + 2
  | .entryPoint name => (name.asBytes.length + wordBytes + wordBytes) / wordBytes
  | .weakRef => 1

/-- The type bits of a body. -/
def typeBits : ObjectBody → BitVec 8
  | .string _ | .bytes _ | .entryPoint _ | .weakRef => fByteObj
  | .code .. => fCodeObj
  | .closure .. | .legacyClosure _ => fClosureObj
  | .ordinary _ => 0#8

/-- The space an object lands in, and its flag byte. -/
def classify (obj : Object) : SpaceKind × BitVec 8 :=
  let flags := 0#8
  let flags := if obj.flags.mutable then flags ||| fMutableBit else flags
  let flags := if obj.flags.negative then flags ||| fNegativeBit else flags
  let flags := if obj.flags.weak then flags ||| fWeakBit else flags
  let flags := if obj.flags.noOverwrite then flags ||| fNoOverwrite else flags
  let flags := flags ||| typeBits obj.body
  let kind :=
    if flags &&& fMutableBit ≠ 0#8 then .mutable
    else if fCodeObj = flags &&& 0x03#8 then .code
    else .immutable
  (kind, flags)

/-- Words for the objects of one kind, length words included. -/
def capacityFor (kind : SpaceKind) (objects : List Object) : Nat :=
  (objects.map (fun obj =>
    if (classify obj).1 = kind then bodyWordCount obj.body + 1 else 0)).sum

def estimateCapacities (image : Image) : Nat × Nat × Nat :=
  (capacityFor .immutable image.objects, capacityFor .mutable image.objects,
    capacityFor .code image.objects)

/-! ## Integers that do not fit the host tag -/

def taggedFitsHost (n : Int64) : Bool :=
  decide (PolyWord.minTagged ≤ n.toInt ∧ n.toInt ≤ PolyWord.maxTagged)

/-- `u64::leading_zeros`. -/
def leadingZeros (mag : Nat) : Nat := 64 - mag.size

/-- The bytes of a magnitude without its leading zero bytes. -/
def magnitudeBytes (n : Int64) : Nat := max (8 - leadingZeros n.toInt.natAbs / 8) 1

/-- Data words of a boxed integer. -/
def boxLongIntWords (n : Int64) : Nat := max (wordsFor (magnitudeBytes n)) 1

/-- The values in a body that may be tagged integers. -/
def valuesOf : ObjectBody → List Value
  | .ordinary vs | .legacyClosure vs | .closure _ vs => vs
  | .code _ cs _ => cs
  | _ => []

/-- Add a value to the oversized ones if it is one that has not been seen. -/
def addOversized (seen : List Int64) : Value → List Int64
  | .tagged n => if !taggedFitsHost n && !seen.contains n then seen ++ [n] else seen
  | .ref _ => seen

/-- The distinct integers that need a box, in the order of their first occurrence. -/
def oversizedValues (image : Image) : List Int64 :=
  (image.objects.flatMap (fun obj => valuesOf obj.body)).foldl addOversized []

/-- `u64::to_le_bytes`. -/
def toLeBytes (mag : Nat) : List UInt8 := (List.range 8).map (fun i => UInt8.ofNat (mag / 256 ^ i))

/-- Write `bytes` from word `wordOffset` of the object on, and pad the last word with zeros. -/
def writeBytesPacked (m : Mem) (p wordOffset : Nat) (bytes : List UInt8) : Mem :=
  let dst := p + wordBytes * wordOffset
  let m := m.writeBytes dst bytes
  let pad := wordBytes * wordsFor bytes.length - bytes.length
  if 0 < pad then m.writeBytes (dst + bytes.length) (List.replicate pad 0) else m

def boxLongInt (m : Mem) (space : MemorySpace) (n : Int64) : Option (Mem × MemorySpace × Nat) := do
  let le := toLeBytes n.toInt.natAbs
  let dataWords := boxLongIntWords n
  let (space, p) ← space.tryAlloc dataWords
  let m := writeBytesPacked m p 0 (le.take (magnitudeBytes n))
  let flags := if n.toInt < 0 then fByteObj ||| fNegativeBit else fByteObj
  some (m.setLengthWord p dataWords flags, space, p)

/-- Box the integers one after the other; the map from values to boxes. -/
def boxAll (m : Mem) (space : MemorySpace) :
    List Int64 → Option (Mem × MemorySpace × List (Int64 × Nat))
  | [] => some (m, space, [])
  | n :: ns => do
    let (m, space, p) ← boxLongInt m space n
    let (m, space, boxed) ← boxAll m space ns
    some (m, space, (n, p) :: boxed)

/-! ## Pass 1 -/

namespace Spaces

def get (s : Spaces) : SpaceKind → MemorySpace
  | .immutable => s.immutable
  | .mutable => s.mutable
  | .code => s.code

def set (s : Spaces) (kind : SpaceKind) (space : MemorySpace) : Spaces :=
  match kind with
  | .immutable => { s with immutable := space }
  | .mutable => { s with mutable := space }
  | .code => { s with code := space }

/-- `alloc` in the space of the kind, which panics when there is no room. -/
def alloc (s : Spaces) (kind : SpaceKind) (nWords : Nat) : Option (Spaces × Nat) := do
  let (space, p) ← (s.get kind).tryAlloc nWords
  some (s.set kind space, p)

end Spaces

/-- A slot for each object: its address and its flags. -/
def layout (s : Spaces) : List Object → Option (Spaces × List (Nat × BitVec 8))
  | [] => some (s, [])
  | obj :: objs => do
    let (kind, flags) := classify obj
    let (s, p) ← s.alloc kind (bodyWordCount obj.body)
    let (s, slots) ← layout s objs
    some (s, (p, flags) :: slots)

/-! ## Pass 2 -/

/-- The addresses that values are resolved to. -/
structure Addresses where
  pointers : List Nat
  boxed : List (Int64 × Nat)

/-- `pointers.get(id)`, and the null check. -/
def Addresses.resolveRef (addrs : Addresses) (id : ObjectId) : Except LoadError PolyWord :=
  match addrs.pointers[id.toNat]? with
  | none => .error (.unresolvedRef id)
  | some p => if p = 0 then .error (.unresolvedRef id) else .ok (.fromAddr p)

def resolveValue (addrs : Addresses) : Value → Except LoadError PolyWord
  | .tagged n =>
    if taggedFitsHost n then .ok (.tagged n.toInt)
    else match addrs.boxed.lookup n with
      | some p => .ok (.fromAddr p)
      | none => .error (.taggedOutOfRange n)
  | .ref id => addrs.resolveRef id

/-- Write the values into consecutive words from address `p` on. -/
def writeValues (addrs : Addresses) (m : Mem) (p : Nat) : List Value → Except LoadError Mem
  | [] => .ok m
  | v :: vs => do
    let w ← resolveValue addrs v
    writeValues addrs (Function.update m p w) (p + wordBytes) vs

/-- Write the body of an object into its slot. -/
def writeBody (addrs : Addresses) (m : Mem) (p : Nat) : ObjectBody → Except LoadError Mem
  | .ordinary vs | .legacyClosure vs => writeValues addrs m p vs
  | .closure codeAddr vs => do
    let code ← addrs.resolveRef codeAddr
    writeValues addrs (Function.update m p code) (p + wordBytes) vs
  | .string bytes =>
    .ok (writeBytesPacked (Function.update m p (BitVec.ofNat 64 bytes.length)) p 1 bytes)
  | .bytes bytes => .ok (writeBytesPacked m p 0 bytes)
  | .code codeBytes constants _ => do
    let m := writeBytesPacked m p 0 codeBytes
    let codeWords := wordsFor codeBytes.length
    let nConsts := constants.length
    let totalWords := codeWords + nConsts + 2
    let m := Function.update m (p + wordBytes * codeWords) (BitVec.ofNat 64 nConsts)
    let m ← writeValues addrs m (p + wordBytes * (codeWords + 1)) constants
    -- the distance back to the constants; relocations are not applied
    let offsetBytes : Int := (((codeWords + 1 : Nat) : Int) - (totalWords : Nat)) * wordBytes
    .ok (Function.update m (p + wordBytes * (totalWords - 1)) (BitVec.ofInt 64 offsetBytes))
  | .entryPoint name =>
    let m : Mem := Function.update m p PolyWord.zero
    let dst := p + wordBytes
    let m := m.writeBytes dst name.asBytes
    .ok (m.writeBytes (dst + name.asBytes.length) [0])
  | .weakRef => .ok (Function.update m p PolyWord.zero)

/-- Length word and body of every object, and the entry points among them. -/
def fill (addrs : Addresses) (m : Mem) :
    List (Object × Nat × BitVec 8) → Except LoadError (Mem × List (String × Nat))
  | [] => .ok (m, [])
  | (obj, p, flags) :: rest => do
    let m := m.setLengthWord p (bodyWordCount obj.body) flags
    let m ← writeBody addrs m p obj.body
    let (m, entryPoints) ← fill addrs m rest
    match obj.body with
    | .entryPoint name => .ok (m, (name, p) :: entryPoints)
    | _ => .ok (m, entryPoints)

/-- The root must be a closure whose code address is that of a code object. -/
def checkRunnable (flagsFor : List (BitVec 8)) (root : ObjectBody) : Except String Unit := do
  let codeId ← match root with
    | .closure codeAddr _ => .ok codeAddr
    | .legacyClosure (.ref id :: _) => .ok id
    | .legacyClosure _ => .error "root legacy-closure has no code-address reference"
    | _ => .error "root object is not a closure"
  match flagsFor[codeId.toNat]? with
  | some f =>
    if f &&& 0x03#8 = fCodeObj then .ok ()
    else .error "root closure's code address does not reference a code object"
  | none => .error "root closure's code address references a missing object"

/-! ## Loading -/

/-- `MemorySpace::new`, at the address the allocator gives it. -/
def newSpace (m : Mem) (start capacity : Nat) : Mem × MemorySpace :=
  (m.fillZero start capacity, { start, capacity, used := 0, spare := none })

/-- The integers to box: none when the word sizes agree. -/
def oversized (image : Image) : List Int64 :=
  if image.wordSize.bytes ≠ wordBytes then oversizedValues image else []

/-- The capacities of the immutable, the mutable and the code space. -/
def capacities (image : Image) : Nat × Nat × Nat :=
  let (immCap, mutCap, codeCap) := estimateCapacities image
  let boxedWords := (image.oversized.map (fun n => 1 + boxLongIntWords n)).sum
  (max immCap 16 + boxedWords + 16, max mutCap 16 + 16, max codeCap 16 + 16)

/-- `load_image`. Nothing is returned where an allocation panics. -/
def load (env : LoadEnv) (m : Mem) (image : Image) : Option (Except LoadError LoadedImage) :=
  match image.objects[image.root.toNat]? with
  | none => some (.error (.badRoot image.root image.objects.length))
  | some root =>
    if image.wordSize.bytes ≠ wordBytes && !env.allowWordSizeMismatch then
      some (.error (.wordSizeMismatch image.wordSize.bytes wordBytes))
    else do
      let (immCap, mutCap, codeCap) := image.capacities
      let (m, immutable) := newSpace m env.immutableAddr immCap
      let (m, mutable) := newSpace m env.mutableAddr mutCap
      let (m, code) := newSpace m env.codeAddr codeCap
      let (m, immutable, boxed) ← boxAll m immutable image.oversized
      let (spaces, slots) ← layout { immutable, mutable, code } image.objects
      let pointers := slots.map Prod.fst
      let rootPtr ← pointers[image.root.toNat]?
      some do
        let (m, entryPoints) ← fill { pointers, boxed } m (image.objects.zip slots)
        .ok { mem := m, spaces, root := rootPtr, entryPoints,
              runnable := checkRunnable (slots.map Prod.snd) root.body, untrusted := false }

end Image
