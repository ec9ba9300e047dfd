import PolymlRs.Image.ObjectModel
import PolymlRs.Lib.Cursor

set_option autoImplicit false

/-! # The binary image format

A compact, endian-neutral serialization of the object graph. Every multi-byte quantity is an LEB128
varint; signed integers are zig-zag coded first. -/

inductive BicError where
  | badMagic
  | eof (pos : Nat)
  | badType (tag : UInt8) (pos : Nat)
  | badValue (tag : UInt8) (pos : Nat)
  | varintOverflow (pos : Nat)
  | badLength (len : UInt64) (pos : Nat)
deriving DecidableEq, Repr

namespace Bic

/-- Magic prefix: `"BICIMG"` and a format-version byte. -/
def magic : List UInt8 := [0x42, 0x49, 0x43, 0x49, 0x4d, 0x47, 0x01]

/-! ## Varints -/

def writeUvarint (v : UInt64) : List UInt8 :=
  let byte := (v &&& 0x7f).toUInt8
  let v' := v >>> 7
  if v' = 0 then [byte] else (byte ||| 0x80) :: writeUvarint v'
termination_by v.toNat
decreasing_by
  have hne : (v >>> 7).toNat ≠ 0 := fun h => ‹¬ v' = 0› (UInt64.toNat_inj.1 h)
  simp only [UInt64.toNat_shiftRight, UInt64.reduceToNat, Nat.reduceMod,
    Nat.shiftRight_eq_div_pow] at hne ⊢
  omega

def zigzag (v : Int64) : UInt64 := ((v <<< 1) ^^^ (v >>> 63)).toUInt64

def unzigzag (v : UInt64) : Int64 := (v >>> 1).toInt64 ^^^ -(v &&& 1).toInt64

/-! ## Architecture bytes -/

def archByte : SourceArch → UInt8
  | .interpreted => 'I'.toUInt8
  | .x86 => 'X'.toUInt8
  | .arm => 'A'.toUInt8
  | .other c => c

def archFromByte (b : UInt8) : SourceArch :=
  if b = 'I'.toUInt8 then .interpreted
  else if b = 'X'.toUInt8 then .x86
  else if b = 'A'.toUInt8 then .arm
  else .other b

/-! ## Tags -/

def tOrdinary : UInt8 := 0
def tClosure : UInt8 := 1
def tLegacyClosure : UInt8 := 2
def tString : UInt8 := 3
def tBytes : UInt8 := 4
def tCode : UInt8 := 5
def tEntryPoint : UInt8 := 6
def tWeakRef : UInt8 := 7

def vTagged : UInt8 := 0
def vRef : UInt8 := 1

/-! ## Writer -/

/-- A length, as `len as u64`. -/
def writeLen (n : Nat) : List UInt8 := writeUvarint (UInt64.ofNat n)

def writeValue : Value → List UInt8
  | .tagged n => vTagged :: writeUvarint (zigzag n)
  | .ref id => vRef :: writeUvarint id.toUInt64

def writeValues (vs : List Value) : List UInt8 := writeLen vs.length ++ vs.flatMap writeValue

def writeBytes (b : List UInt8) : List UInt8 := writeLen b.length ++ b

def writeReloc (r : CodeReloc) : List UInt8 :=
  writeUvarint r.offset.toUInt64 ++ ([r.kind] ++ writeUvarint r.target.toUInt64)

def writeBody : ObjectBody → List UInt8
  | .ordinary vs => tOrdinary :: writeValues vs
  | .closure codeAddr vs => tClosure :: (writeUvarint codeAddr.toUInt64 ++ writeValues vs)
  | .legacyClosure vs => tLegacyClosure :: writeValues vs
  | .string b => tString :: writeBytes b
  | .bytes b => tBytes :: writeBytes b
  | .code codeBytes constants relocs =>
    tCode :: (writeBytes codeBytes ++ (writeValues constants ++
      (writeLen relocs.length ++ relocs.flatMap writeReloc)))
  | .entryPoint name => tEntryPoint :: writeBytes name.asBytes
  | .weakRef => [tWeakRef]

def writeObject (obj : Object) : List UInt8 := obj.flags.bits :: writeBody obj.body

end Bic

/-- Serialize an image to the binary format. -/
def Image.writeBic (img : Image) : List UInt8 :=
  Bic.magic ++ ([Bic.archByte img.arch] ++ ([UInt8.ofNat img.wordSize.bytes] ++
    (Bic.writeUvarint img.root.toUInt64 ++
      (Bic.writeLen img.objects.length ++ img.objects.flatMap Bic.writeObject))))

/-! ## Reader -/

namespace Bic

abbrev Reader (α : Type) := Parser BicError α

def u8 : Reader UInt8 := Parser.bump BicError.eof

/-- Sixty-four bits are full after ten rounds; the round after them reports the overflow, so eleven
rounds of fuel always suffice. -/
def uvarintLoop : Nat → UInt64 → UInt64 → Reader UInt64
  | 0, _, _ => do
    let at' ← Parser.position
    throw (.varintOverflow at')
  | fuel + 1, result, shift => do
    let byte ← u8
    if shift ≥ 64 then do
      let at' ← Parser.position
      throw (.varintOverflow at')
    else
      let result := result ||| ((byte &&& 0x7f).toUInt64 <<< shift)
      if byte &&& 0x80 = 0 then pure result else uvarintLoop fuel result (shift + 7)

def uvarint : Reader UInt64 := uvarintLoop 11 0 0

def ivarint : Reader Int64 := do
  let v ← uvarint
  pure (unzigzag v)

/-- `u32::try_from`. -/
def u32 : Reader UInt32 := do
  let v ← uvarint
  if v.toNat < 2 ^ 32 then pure v.toUInt32
  else do
    let at' ← Parser.position
    throw (.varintOverflow at')

/-- `usize::try_from`, which cannot fail on a 64-bit host. -/
def usize : Reader Nat := do
  let v ← uvarint
  pure v.toNat

/-- A length-prefixed run of raw bytes, refused when it reaches past the end of the input. -/
def bytes : Reader (List UInt8) := do
  let lenU64 ← uvarint
  let len := lenU64.toNat
  let c ← get
  if c.pos + len ≤ c.bytes.length then do
    set (c.advance len)
    pure (c.rest.take len)
  else throw (.badLength lenU64 c.pos)

def value : Reader Value := do
  let tag ← u8
  if tag = vTagged then do
    let n ← ivarint
    pure (.tagged n)
  else if tag = vRef then do
    let id ← u32
    pure (.ref id)
  else do
    let at' ← Parser.position
    throw (.badValue tag at')

def values : Reader (List Value) := do
  let n ← usize
  Parser.times value n

def reloc : Reader CodeReloc := do
  let offset ← u32
  let kind ← u8
  let target ← u32
  pure { offset, kind, target }

end Bic

/-! ### `String::from_utf8_lossy` -/

/-- A continuation byte of a multi-byte sequence. -/
def isContinuation (b : UInt8) : Bool := b &&& 0xc0 = 0x80

/-- May the byte `b` follow the first byte `first` of a three- or four-byte sequence? -/
def secondByteOk (first b : UInt8) : Bool :=
  (first = 0xe0 && decide (0xa0 ≤ b ∧ b ≤ 0xbf)) ||
  (decide (0xe1 ≤ first ∧ first ≤ 0xec) && decide (0x80 ≤ b ∧ b ≤ 0xbf)) ||
  (first = 0xed && decide (0x80 ≤ b ∧ b ≤ 0x9f)) ||
  (decide (0xee ≤ first ∧ first ≤ 0xef) && decide (0x80 ≤ b ∧ b ≤ 0xbf)) ||
  (first = 0xf0 && decide (0x90 ≤ b ∧ b ≤ 0xbf)) ||
  (decide (0xf1 ≤ first ∧ first ≤ 0xf3) && decide (0x80 ≤ b ∧ b ≤ 0xbf)) ||
  (first = 0xf4 && decide (0x80 ≤ b ∧ b ≤ 0x8f))

/-- How many bytes one replacement character stands for: the longest start of a well-formed
sequence, and at least one byte. -/
def invalidLen : List UInt8 → Nat
  | first :: second :: rest =>
    if secondByteOk first second then
      match rest with
      | third :: _ => if first ≥ 0xf0 && isContinuation third then 3 else 2
      | [] => 2
    else 1
  | _ => 1

/-- One character for each well-formed sequence, U+FFFD for each ill-formed one. Every round
consumes a byte, so as many rounds as there are bytes always suffice. -/
def fromUtf8LossyLoop : Nat → List UInt8 → List Char
  | 0, _ => []
  | _ + 1, [] => []
  | fuel + 1, bs@(_ :: _) =>
    match bs.toByteArray.utf8DecodeChar? 0 with
    | some c => c :: fromUtf8LossyLoop fuel (bs.drop c.utf8Size)
    | none => Char.ofNat 0xfffd :: fromUtf8LossyLoop fuel (bs.drop (invalidLen bs))

def fromUtf8Lossy (bs : List UInt8) : String := String.ofList (fromUtf8LossyLoop bs.length bs)

namespace Bic

def readBody : Reader ObjectBody := do
  let tag ← u8
  if tag = tOrdinary then do
    let vs ← values
    pure (.ordinary vs)
  else if tag = tClosure then do
    let codeAddr ← u32
    let vs ← values
    pure (.closure codeAddr vs)
  else if tag = tLegacyClosure then do
    let vs ← values
    pure (.legacyClosure vs)
  else if tag = tString then do
    let b ← bytes
    pure (.string b)
  else if tag = tBytes then do
    let b ← bytes
    pure (.bytes b)
  else if tag = tCode then do
    let codeBytes ← bytes
    let constants ← values
    let nRelocs ← usize
    let relocs ← Parser.times reloc nRelocs
    pure (.code codeBytes constants relocs)
  else if tag = tEntryPoint then do
    let b ← bytes
    pure (.entryPoint (fromUtf8Lossy b))
  else if tag = tWeakRef then pure .weakRef
  else do
    let at' ← Parser.position
    throw (.badType tag at')

def readObject : Reader Object := do
  let bits ← u8
  let body ← readBody
  pure { flags := ObjFlags.fromBitsTruncate bits, body }

/-- The bytes of the magic, one at a time. -/
def readMagic : List UInt8 → Reader Unit
  | [] => pure ()
  | m :: rest => do
    let b ← u8
    if b ≠ m then throw .badMagic else readMagic rest

def readImage : Reader Image := do
  readMagic magic
  let a ← u8
  let w ← u8
  let wordSize := if w = 4 then WordSize.bits32 else WordSize.bits64
  let root ← u32
  let count ← usize
  let objects ← Parser.times readObject count
  pure { root, arch := archFromByte a, wordSize, objects }

end Bic

/-- Parse an image from the binary format. -/
def Image.readBic (bytes : List UInt8) : Except BicError Image :=
  (Bic.readImage.run ⟨bytes, 0⟩).map Prod.fst
