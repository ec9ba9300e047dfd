import PolymlRs.Image.ObjectModel
import PolymlRs.Lib.Cursor
import PolymlRs.Lib.Numerals

set_option autoImplicit false

/-! # The portable export text format

One header line for the number of objects, one for the root, then one line for each object: its id,
modifier letters, a type letter and a payload that depends on the type. -/

/-- Errors of the parser. -/
inductive ParseError where
  | eof (pos : Nat)
  | expected (what : String) (pos : Nat) (got : UInt8)
  | badHeader (reason : String)
  | unknownType (pos : Nat) (got : UInt8)
  | badIndex (id : UInt64) (count : UInt32)
  | badNumber (reason : String) (pos : Nat)
  | badHex (pos : Nat)
  | countMismatch (declared observed : UInt32)
deriving DecidableEq, Repr

namespace Pexport

/-- An ASCII character as a byte. -/
abbrev ascii (c : Char) : UInt8 := c.toUInt8

/-! ## Writer -/

def writeValue : Value → List UInt8
  | .tagged n =>
    if n.toInt < 0 then ascii '-' :: decimal n.toInt.natAbs else decimal n.toInt.natAbs
  | .ref id => ascii '@' :: decimal id.toNat

def writeValueList : List Value → List UInt8
  | [] => []
  | [v] => writeValue v
  | v :: vs => writeValue v ++ ascii ',' :: writeValueList vs

def writeHex (bytes : List UInt8) : List UInt8 := bytes.flatMap hexByte

def writeReloc (r : CodeReloc) : List UInt8 :=
  decimal r.offset.toNat ++ ascii ',' :: (decimal r.kind.toNat ++ ascii ',' ::
    (writeValue (.ref r.target) ++ [ascii ' ']))

def writeBody : ObjectBody → List UInt8
  | .ordinary vs => ascii 'O' :: (decimal vs.length ++ ascii '|' :: writeValueList vs)
  | .closure codeAddr vs =>
    ascii 'C' :: (decimal (1 + vs.length) ++ ascii '|' :: (writeValue (.ref codeAddr) ++
      vs.flatMap (fun v => ascii ',' :: writeValue v)))
  | .legacyClosure vs => ascii 'L' :: (decimal vs.length ++ ascii '|' :: writeValueList vs)
  | .string b => ascii 'S' :: (decimal b.length ++ ascii '|' :: writeHex b)
  | .bytes b => ascii 'B' :: (decimal b.length ++ ascii '|' :: writeHex b)
  | .code codeBytes constants relocs =>
    ascii 'F' :: (decimal constants.length ++ ascii ',' :: (decimal codeBytes.length ++
      ascii '|' :: (writeHex codeBytes ++ ascii '|' :: (writeValueList constants ++
        ascii '|' :: relocs.flatMap writeReloc))))
  | .entryPoint name =>
    ascii 'E' :: (decimal name.asBytes.length ++ ascii '|' :: name.asBytes)
  | .weakRef => [ascii 'K']

/-- Modifier letters in the order MNVW. -/
def writeFlags (f : ObjFlags) : List UInt8 :=
  (if f.mutable then [ascii 'M'] else []) ++ ((if f.negative then [ascii 'N'] else []) ++
    ((if f.noOverwrite then [ascii 'V'] else []) ++ (if f.weak then [ascii 'W'] else [])))

def writeObject (id : UInt32) (obj : Object) : List UInt8 :=
  decimal id.toNat ++ ascii ':' :: (writeFlags obj.flags ++ (writeBody obj.body ++ [ascii '\n']))

/-- The objects from index `id` on. -/
def writeObjects : Nat → List Object → List UInt8
  | _, [] => []
  | id, obj :: objs => writeObject (UInt32.ofNat id) obj ++ writeObjects (id + 1) objs

def archChar : SourceArch → UInt8
  | .interpreted => ascii 'I'
  | .x86 => ascii 'X'
  | .arm => ascii 'A'
  | .other c => c

/-- `arch_char as char` is a Unicode scalar value below 256, printed as UTF-8. -/
def writeArch (a : SourceArch) : List UInt8 :=
  String.utf8EncodeChar (Char.ofNat (archChar a).toNat)

def writeHeader (img : Image) : List UInt8 :=
  "Objects\t".asBytes ++ (decimal img.objects.length ++ ascii '\n' ::
    ("Root\t".asBytes ++ (decimal img.root.toNat ++ ascii ' ' ::
      (writeArch img.arch ++ ascii ' ' :: (decimal img.wordSize.bytes ++ [ascii '\n'])))))

end Pexport

/-- Write an image in the text format. -/
def Image.write (img : Image) : List UInt8 :=
  Pexport.writeHeader img ++ Pexport.writeObjects 0 img.objects

/-! ## Parser -/

namespace Pexport

abbrev TextParser (α : Type) := Parser ParseError α

def peek : TextParser UInt8 := Parser.peek ParseError.eof

def bump : TextParser UInt8 := Parser.bump ParseError.eof

def expect (byte : UInt8) (what : String) : TextParser Unit := do
  let got ← bump
  if got = byte then pure ()
  else do
    let pos ← Parser.position
    throw (.expected what (pos - 1) got)

/-- Read an unsigned decimal integer. -/
def readU64 : TextParser UInt64 := do
  let start ← Parser.position
  let digits ← Parser.takeWhile isAsciiDigit
  if digits = [] then throw (.badNumber "expected digit" start)
  else if digitsValue digits < 2 ^ 64 then pure (UInt64.ofNat (digitsValue digits))
  else throw (.badNumber "overflow" start)

/-- On a 64-bit host every `u64` is a `usize`. -/
def readUsize : TextParser Nat := do
  let v ← readU64
  pure v.toNat

/-- Skip a minus sign, if there is one. -/
def readSign : TextParser Bool := do
  let b ← peek
  if b = ascii '-' then do
    Parser.skip 1
    pure true
  else pure false

/-- Read a signed decimal integer. -/
def readI64 : TextParser Int64 := do
  let start ← Parser.position
  let negative ← readSign
  let digits ← Parser.takeWhile isAsciiDigit
  if digits = [] then throw (.badNumber "expected digit" start)
  else
    let n : Int := if negative then -(digitsValue digits : Int) else digitsValue digits
    if -(2 ^ 63) ≤ n ∧ n < 2 ^ 63 then pure (Int64.ofInt n)
    else throw (.badNumber "overflow" start)

def hexDigitAt (b : UInt8) (pos : Nat) : TextParser UInt8 :=
  match hexValue b with
  | some v => pure v
  | none => throw (.badHex pos)

/-- Two hexadecimal characters. -/
def readHexByte : TextParser UInt8 := do
  let h ← bump
  let l ← bump
  let pos ← Parser.position
  let hv ← hexDigitAt h (pos - 2)
  let lv ← hexDigitAt l (pos - 1)
  pure ((hv <<< 4) ||| lv)

def readHexBytes (n : Nat) : TextParser (List UInt8) := Parser.times readHexByte n

/-- An object index, below the declared number of objects. -/
def readId (nObjects : UInt32) : TextParser ObjectId := do
  let idU ← readU64
  if idU.toNat < nObjects.toNat then pure idU.toUInt32
  else throw (.badIndex idU nObjects)

def parseValue (nObjects : UInt32) : TextParser Value := do
  let b ← peek
  if b = ascii '@' then do
    Parser.skip 1
    let id ← readId nObjects
    pure (.ref id)
  else if b = ascii '-' ∨ isAsciiDigit b then do
    let n ← readI64
    pure (.tagged n)
  else do
    let pos ← Parser.position
    throw (.expected "'@' or digit (Value)" pos b)

def parseValueList (nObjects : UInt32) : Nat → TextParser (List Value)
  | 0 => pure []
  | n + 1 => do
    let v ← parseValue nObjects
    if 0 < n then do
      expect (ascii ',') "',' between values"
      let vs ← parseValueList nObjects n
      pure (v :: vs)
    else pure [v]

def parseOrdinary (nObjects : UInt32) : TextParser ObjectBody := do
  let n ← readUsize
  expect (ascii '|') "'|' after O<count>"
  let vs ← parseValueList nObjects n
  pure (.ordinary vs)

def parseClosure (nObjects : UInt32) : TextParser ObjectBody := do
  let nItems ← readUsize
  expect (ascii '|') "'|' after C<count>"
  -- the first item is always an address, the code pointer
  expect (ascii '@') "'@' for closure code address"
  let codeAddr ← readId nObjects
  let rest := nItems - 1
  if 0 < rest then do
    expect (ascii ',') "',' after closure code address"
    let vs ← parseValueList nObjects rest
    pure (.closure codeAddr vs)
  else pure (.closure codeAddr [])

def parseLegacyClosure (nObjects : UInt32) : TextParser ObjectBody := do
  let n ← readUsize
  expect (ascii '|') "'|' after L<count>"
  let vs ← parseValueList nObjects n
  pure (.legacyClosure vs)

def parseString : TextParser ObjectBody := do
  let n ← readUsize
  expect (ascii '|') "'|' after S<count>"
  let b ← readHexBytes n
  pure (.string b)

def parseBytes : TextParser ObjectBody := do
  let n ← readUsize
  expect (ascii '|') "'|' after B<count>"
  let b ← readHexBytes n
  pure (.bytes b)

def parseReloc (nObjects : UInt32) : TextParser CodeReloc := do
  let offsetU ← readU64
  expect (ascii ',') "',' after reloc offset"
  let kindU ← readU64
  expect (ascii ',') "',' after reloc kind"
  expect (ascii '@') "'@' for reloc target"
  let target ← readId nObjects
  if offsetU.toNat < 2 ^ 32 then
    if kindU.toNat < 2 ^ 8 then
      pure { offset := offsetU.toUInt32, kind := kindU.toUInt8, target }
    else throw (.badHeader "reloc kind exceeds u8")
  else throw (.badHeader "reloc offset exceeds u32")

/-- Zero or more relocations up to the end of the line. Every round reads a byte, so one round more
than there are bytes always suffices. -/
def parseRelocs (nObjects : UInt32) : Nat → TextParser (List CodeReloc)
  | 0 => do
    let pos ← Parser.position
    throw (.eof pos)
  | fuel + 1 => do
    let b ← peek
    if b = ascii '\n' ∨ b = ascii '\r' then pure []
    else if b = ascii ' ' then do
      Parser.skip 1
      parseRelocs nObjects fuel
    else do
      let r ← parseReloc nObjects
      let rs ← parseRelocs nObjects fuel
      pure (r :: rs)

def parseCode (nObjects : UInt32) : TextParser ObjectBody := do
  let nConsts ← readUsize
  expect (ascii ',') "',' after F<constCount>"
  let nBytes ← readUsize
  expect (ascii '|') "'|' after F header"
  let codeBytes ← readHexBytes nBytes
  expect (ascii '|') "'|' after F code bytes"
  let constants ← parseValueList nObjects nConsts
  expect (ascii '|') "'|' after F constants"
  let c ← get
  let relocs ← parseRelocs nObjects (c.rest.length + 1)
  pure (.code codeBytes constants relocs)

/-- The `n` bytes of an entry-point name. Where `start + n` overflows a `usize`, the name ends
behind the input as well; only the reported position differs. -/
def readName (n : Nat) : TextParser String := do
  let c ← get
  let start := c.pos
  if start + n > c.bytes.length then
    throw (.eof (if start + n < 2 ^ 64 then start + n else start))
  else
    match String.fromUTF8? (c.rest.take n).toByteArray with
    | none => throw (.badHeader "entry point name not UTF-8")
    | some name => do
      set (c.advance n)
      pure name

def parseEntryPoint : TextParser ObjectBody := do
  let n ← readUsize
  expect (ascii '|') "'|' after E<count>"
  let name ← readName n
  pure (.entryPoint name)

def isFlagLetter (b : UInt8) : Bool :=
  b = ascii 'M' || b = ascii 'N' || b = ascii 'V' || b = ascii 'W'

def addFlag (f : ObjFlags) (b : UInt8) : ObjFlags :=
  if b = ascii 'M' then { f with mutable := true }
  else if b = ascii 'N' then { f with negative := true }
  else if b = ascii 'V' then { f with noOverwrite := true }
  else { f with weak := true }

/-- The payload, by type letter. -/
def parseBody (nObjects : UInt32) (ty : UInt8) : TextParser ObjectBody :=
  if ty = ascii 'O' then parseOrdinary nObjects
  else if ty = ascii 'C' then parseClosure nObjects
  else if ty = ascii 'L' then parseLegacyClosure nObjects
  else if ty = ascii 'S' then parseString
  else if ty = ascii 'B' then parseBytes
  else if ty = ascii 'F' then parseCode nObjects
  else if ty = ascii 'E' then parseEntryPoint
  else if ty = ascii 'K' then pure .weakRef
  else do
    let pos ← Parser.position
    throw (.unknownType (pos - 1) ty)

def isBlank (b : UInt8) : Bool := b = ascii ' ' || b = ascii '\t'

def isNewline (b : UInt8) : Bool := b = ascii '\n' || b = ascii '\r'

/-- The payload must have consumed the whole line, up to trailing spaces and tabs. -/
def endOfLine : TextParser Unit := do
  Parser.skipWhile isBlank
  let c ← get
  match c.rest.head? with
  | none => pure ()
  | some got =>
    if isNewline got then pure ()
    else throw (.expected
      "end of object line (payload did not consume the line — type/count mismatch)" c.pos got)

def parseObjectLine (nObjects : UInt32) : TextParser (ObjectId × Object) := do
  let id ← readId nObjects
  expect (ascii ':') "':' after object id"
  -- modifier letters in any order, the loop that stops at the first other byte
  let letters ← Parser.takeWhile isFlagLetter
  let flags := letters.foldl addFlag ObjFlags.empty
  let ty ← bump
  let body ← parseBody nObjects ty
  endOfLine
  Parser.skipWhile (fun b => !isNewline b)
  pure (id, { flags, body })

/-- A keyword, one byte at a time. -/
def expectAll (what : String) : List UInt8 → TextParser Unit
  | [] => pure ()
  | b :: bs => do
    expect b what
    expectAll what bs

/-- Architecture and word size, which older images leave out. -/
def parseArch : TextParser (SourceArch × WordSize) := do
  Parser.skipWhile isBlank
  let a ← peek
  if isNewline a then pure (.interpreted, .bits64)
  else do
    let arch :=
      if a = ascii 'I' then SourceArch.interpreted
      else if a = ascii 'X' then .x86
      else if a = ascii 'A' then .arm
      else .other a
    Parser.skip 1
    Parser.skipWhile isBlank
    let w ← readU64
    if w = 4 then pure (arch, .bits32)
    else if w = 8 then pure (arch, .bits64)
    else throw (.badHeader "word size must be 4 or 8")

/-- The object count and the root index. -/
def parseCounts : TextParser (UInt32 × ObjectId) := do
  expectAll "header magic 'Objects'" "Objects".asBytes
  Parser.skipWhile isBlank
  let count ← readU64
  if count.toNat < 2 ^ 32 then do
    Parser.skipWhile isNewline
    expectAll "header keyword 'Root'" "Root".asBytes
    Parser.skipWhile isBlank
    let root ← readU64
    if root.toNat < 2 ^ 32 then pure (count.toUInt32, root.toUInt32)
    else throw (.badHeader "root index exceeds u32")
  else throw (.badHeader "object count exceeds u32")

def parseHeader : TextParser (UInt32 × ObjectId × SourceArch × WordSize) := do
  let (count, root) ← parseCounts
  let (arch, wordSize) ← parseArch
  Parser.skipWhile isNewline
  pure (count, root, arch, wordSize)

/-- The object lines, with the objects and the number of lines read so far. Every round reads a
line, so one round more than there are bytes always suffices. -/
def parseObjects (nObjects : UInt32) :
    Nat → List (Option Object) → Nat → TextParser (List (Option Object) × Nat)
  | 0, _, _ => do
    let pos ← Parser.position
    throw (.eof pos)
  | fuel + 1, objects, observed => do
    Parser.skipWhile isNewline
    let done ← Parser.atEof
    if done then pure (objects, observed)
    else do
      let (id, obj) ← parseObjectLine nObjects
      if id.toNat ≥ objects.length then throw (.badIndex id.toUInt64 nObjects)
      else do
        -- `observed` is a saturating `u32`
        let observed := min (observed + 1) (2 ^ 32 - 1)
        parseObjects nObjects fuel (objects.set id.toNat (some obj)) observed

/-- Every slot must have been filled. -/
def collectObjects (nObjects : UInt32) : Nat → List (Option Object) → TextParser (List Object)
  | _, [] => pure []
  | i, some obj :: rest => do
    let objs ← collectObjects nObjects (i + 1) rest
    pure (obj :: objs)
  | i, none :: _ => throw (.badIndex (UInt64.ofNat i) nObjects)

def parseImage : TextParser Image := do
  let (nObjects, root, arch, wordSize) ← parseHeader
  let c ← get
  -- an object line has at least one byte
  if nObjects.toNat > c.bytes.length - c.pos then throw (.eof c.pos)
  else do
    let (objects, observed) ← parseObjects nObjects (c.rest.length + 1)
      (List.replicate nObjects.toNat none) 0
    if observed ≠ nObjects.toNat then
      throw (.countMismatch nObjects (UInt32.ofNat observed))
    else do
      let objects ← collectObjects nObjects 0 objects
      pure { root, arch, wordSize, objects }

end Pexport

/-- Parse an image in the text format. -/
def Image.parse (bytes : List UInt8) : Except ParseError Image :=
  (Pexport.parseImage.run ⟨bytes, 0⟩).map Prod.fst
