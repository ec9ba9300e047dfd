import Mathlib.Algebra.GroupWithZero.Nat
import Mathlib.Data.List.Basic

set_option autoImplicit false

/-! # The object model of a heap image

Both image formats, the portable export text and the binary bicimage, carry the same object graph:
a table of objects that refer to each other by index. An `Image` says nothing about addresses; the
loader turns it into heap spaces and the exporter builds it from them. -/

/-- An index into the objects of an image. -/
abbrev ObjectId := UInt32

/-- Source architecture of the image, as recorded in the header. -/
inductive SourceArch where
  | interpreted
  | x86
  | arm
  /-- Some other architecture marker, kept as a raw character. -/
  | other (c : UInt8)
deriving DecidableEq, Repr

/-- Native word size as recorded in the image header. -/
inductive WordSize where
  | bits32
  | bits64
deriving DecidableEq, Repr

def WordSize.bytes : WordSize → Nat
  | .bits32 => 4
  | .bits64 => 8

/-- Per-object modifiers. Only the four known bits exist. -/
structure ObjFlags where
  mutable : Bool
  negative : Bool
  noOverwrite : Bool
  weak : Bool
deriving DecidableEq, Repr

namespace ObjFlags

def empty : ObjFlags := ⟨false, false, false, false⟩

/-- The flag byte: `MUTABLE = 0x40`, `NEGATIVE = 0x10`, `NO_OVERWRITE = 0x08`, `WEAK = 0x20`. -/
def bits (f : ObjFlags) : UInt8 :=
  (if f.mutable then 0x40 else 0) ||| (if f.negative then 0x10 else 0) |||
    (if f.noOverwrite then 0x08 else 0) ||| (if f.weak then 0x20 else 0)

/-- Unknown bits are dropped. -/
def fromBitsTruncate (b : UInt8) : ObjFlags :=
  { mutable := b &&& 0x40 != 0, negative := b &&& 0x10 != 0,
    noOverwrite := b &&& 0x08 != 0, weak := b &&& 0x20 != 0 }

theorem fromBitsTruncate_bits (f : ObjFlags) : fromBitsTruncate f.bits = f := by
  obtain ⟨m, n, v, w⟩ := f
  revert m n v w
  decide

end ObjFlags

/-- A slot of an object: an untagged integer, or a reference to another object of the image. -/
inductive Value where
  | tagged (n : Int64)
  | ref (id : ObjectId)
deriving DecidableEq, Repr

/-- A relocation within the instruction bytes of a code object. -/
structure CodeReloc where
  offset : UInt32
  kind : UInt8
  target : ObjectId
deriving DecidableEq, Repr

/-- Body of an object. -/
inductive ObjectBody where
  | ordinary (values : List Value)
  | closure (codeAddr : ObjectId) (values : List Value)
  | legacyClosure (values : List Value)
  | string (bytes : List UInt8)
  | bytes (bytes : List UInt8)
  | code (codeBytes : List UInt8) (constants : List Value) (relocs : List CodeReloc)
  | entryPoint (name : String)
  | weakRef
deriving DecidableEq, Repr

structure Object where
  flags : ObjFlags
  body : ObjectBody
deriving DecidableEq, Repr

/-- A whole image. -/
structure Image where
  root : ObjectId
  arch : SourceArch
  wordSize : WordSize
  objects : List Object
deriving DecidableEq, Repr

/-- The bytes of a string. -/
def String.asBytes (s : String) : List UInt8 := s.toByteArray.data.toList

theorem String.asBytes_eq (s : String) : s.asBytes = s.toList.flatMap String.utf8EncodeChar := by
  rw [String.asBytes, ← String.utf8Encode_toList, List.utf8Encode, List.toList_data_toByteArray]

/-- The lengths of a body are `usize` values, as those of every vector in memory are. -/
def ObjectBody.Fits : ObjectBody → Prop
  | .ordinary vs | .legacyClosure vs => vs.length < 2 ^ 64
  | .closure _ vs => vs.length < 2 ^ 64
  | .string b | .bytes b => b.length < 2 ^ 64
  | .code b cs rs => b.length < 2 ^ 64 ∧ cs.length < 2 ^ 64 ∧ rs.length < 2 ^ 64
  | .entryPoint name => name.asBytes.length < 2 ^ 64
  | .weakRef => True

/-- An image that memory can hold. -/
structure Image.Fits (img : Image) : Prop where
  objects : img.objects.length < 2 ^ 64
  bodies : ∀ o ∈ img.objects, o.body.Fits
