import PolymlRs.Image.Pexport

set_option autoImplicit false

/-! # The text format reads back what it wrote

One `Reads` lemma for each printer, in the order of the writer. A number is only read back when no
digit follows it, so most fields come with a condition on the next byte. `Printable` is what an
image needs for its text to be read back; `parse_yields` shows that every image the parser returns
is printable, but for the architecture byte. -/

namespace Pexport

open Parser (Reads Refuses Yields Ends Next Anything)

/-- No digit follows. -/
abbrev NoDigit : List UInt8 → Prop := Ends isAsciiDigit

/-- A digit is no other character. -/
theorem ne_of_isDigit {b c : UInt8} (hb : isAsciiDigit b = true) (hc : isAsciiDigit c = false) :
    b ≠ c := by
  rintro rfl
  rw [hb] at hc
  cases hc

/-- A number is next, which no run of other characters continues into. -/
theorem decimal_ends {pred : UInt8 → Bool} (h : ∀ b, isAsciiDigit b = true → pred b = false)
    (n : Nat) (post : List UInt8) : Ends pred (decimal n ++ post) := by
  obtain ⟨b, t, hbt, hb⟩ := decimal_cons n
  rw [hbt]
  exact Ends.cons (h b hb) _

theorem isBlank_of_isDigit {b : UInt8} (hb : isAsciiDigit b = true) : isBlank b = false := by
  simp [isBlank, ne_of_isDigit hb (c := ascii ' ') (by decide),
    ne_of_isDigit hb (c := ascii '\t') (by decide)]

theorem isNewline_of_isDigit {b : UInt8} (hb : isAsciiDigit b = true) : isNewline b = false := by
  simp [isNewline, ne_of_isDigit hb (c := ascii '\n') (by decide),
    ne_of_isDigit hb (c := ascii '\r') (by decide)]

/-! ## Numbers -/

theorem reads_expect (b : UInt8) (what : String) : Reads Anything (expect b what) [b] () := by
  refine Reads.bumpBind ?_
  rw [if_pos rfl]
  exact .pure ()

theorem toNat_uint64OfNat {n : Nat} (h : n < 2 ^ 64) : (UInt64.ofNat n).toNat = n := by
  rw [UInt64.toNat_ofNat', Nat.mod_eq_of_lt h]

theorem reads_readU64 {n : Nat} (h : n < 2 ^ 64) :
    Reads NoDigit readU64 (decimal n) (UInt64.ofNat n) := by
  refine Reads.withPosition (fun start => ?_)
  refine (Reads.takeWhile (isAsciiDigit_decimal n)).finish ?_
  rw [if_neg (decimal_ne_nil n), digitsValue_decimal, if_pos h]

theorem reads_readUsize {n : Nat} (h : n < 2 ^ 64) : Reads NoDigit readUsize (decimal n) n := by
  have hr := (reads_readU64 h).map (g := UInt64.toNat)
  rwa [toNat_uint64OfNat h] at hr

theorem reads_readId {nObjects : UInt32} {id : ObjectId} (h : id.toNat < nObjects.toNat) :
    Reads NoDigit (readId nObjects) (decimal id.toNat) id := by
  have hid : id.toNat < 2 ^ 64 := Nat.lt_trans id.toNat_lt (by decide)
  refine (reads_readU64 hid).finish ?_
  rw [toNat_uint64OfNat hid, if_pos h, UInt64.toUInt32_ofNat', UInt32.ofNat_toNat]

/-- A digit is next: there is no sign. -/
theorem reads_noSign : Reads (Next (fun b => isAsciiDigit b = true)) readSign [] false := by
  refine Reads.peekNext (fun b hb => ?_)
  rw [if_neg (ne_of_isDigit hb (by decide))]
  exact .pure false

theorem reads_sign : Reads Anything readSign [ascii '-'] true := by
  refine Reads.peekBind ?_
  rw [if_pos rfl]
  exact (Reads.skip [ascii '-']).map

theorem reads_readI64 (n : Int64) :
    Reads NoDigit readI64 (writeValue (.tagged n)) n := by
  have hlo := n.le_toInt
  have hhi := n.toInt_lt
  rw [writeValue]
  refine Reads.withPosition (fun start => ?_)
  by_cases hneg : n.toInt < 0
  · rw [if_pos hneg]
    refine reads_sign.bindAny ?_
    refine (Reads.takeWhile (isAsciiDigit_decimal _)).finish ?_
    have hval : -((n.toInt.natAbs : Nat) : Int) = n.toInt := by omega
    rw [if_neg (decimal_ne_nil _), digitsValue_decimal]
    simp only [if_true, hval]
    rw [if_pos ⟨hlo, hhi⟩, Int64.ofInt_toInt]
  · rw [if_neg hneg]
    have hnext : ∀ post, NoDigit post → Next (fun b => isAsciiDigit b = true)
        (decimal n.toInt.natAbs ++ post) := by
      intro post _
      obtain ⟨b, t, hbt, hb⟩ := decimal_cons n.toInt.natAbs
      rw [hbt]
      exact Next.cons hb _
    refine reads_noSign.bind ?_ hnext
    refine (Reads.takeWhile (isAsciiDigit_decimal _)).finish ?_
    have hval : ((n.toInt.natAbs : Nat) : Int) = n.toInt := by omega
    rw [if_neg (decimal_ne_nil _), digitsValue_decimal]
    simp only [Bool.false_eq_true, if_false, hval]
    rw [if_pos ⟨hlo, hhi⟩, Int64.ofInt_toInt]

/-! ## Values -/

/-- References name one of the `nObjects` objects. -/
def ValueOk (nObjects : UInt32) : Value → Prop
  | .tagged _ => True
  | .ref id => id.toNat < nObjects.toNat

theorem reads_value {nObjects : UInt32} {v : Value} (h : ValueOk nObjects v) :
    Reads NoDigit (parseValue nObjects) (writeValue v) v := by
  cases v with
  | ref id =>
    refine Reads.peekBind ?_
    rw [if_pos rfl]
    refine (Reads.skip [ascii '@']).bindAny ?_
    exact (reads_readId h).map
  | tagged n =>
    have hread := (reads_readI64 n).map (g := Value.tagged)
    have hfirst : ∃ b t, writeValue (.tagged n) = b :: t ∧ (b = ascii '-' ∨ isAsciiDigit b = true) := by
      obtain ⟨b, t, hbt, hb⟩ := decimal_cons n.toInt.natAbs
      rw [writeValue]
      split
      · exact ⟨_, _, rfl, Or.inl rfl⟩
      · exact ⟨b, t, hbt, Or.inr hb⟩
    obtain ⟨b, t, hbt, hb⟩ := hfirst
    rw [hbt] at hread ⊢
    refine Reads.peekBind ?_
    have hne : b ≠ ascii '@' := by
      rintro rfl
      revert hb
      decide
    rw [if_neg hne, if_pos hb]
    exact hread

theorem reads_valueList {nObjects : UInt32} {vs : List Value} (h : ∀ v ∈ vs, ValueOk nObjects v) :
    Reads NoDigit (parseValueList nObjects vs.length) (writeValueList vs) vs := by
  induction vs with
  | nil => exact .pure []
  | cons v vs ih =>
    have hv := reads_value (h v List.mem_cons_self)
    cases vs with
    | nil =>
      exact hv.finish rfl
    | cons w vs =>
      have hvs := ih (fun x hx => h x (List.mem_cons_of_mem _ hx))
      rw [writeValueList.eq_3 v (w :: vs) (by simp), List.length_cons, parseValueList]
      refine hv.bind ?_ (fun post _ => Ends.cons rfl _)
      rw [if_pos (by simp)]
      exact (reads_expect _ _).bindAny hvs.map

/-- The captured values of a closure, each after a comma. -/
theorem writeValueList_cons (v : Value) (vs : List Value) :
    writeValueList (v :: vs) = writeValue v ++ vs.flatMap (fun v => ascii ',' :: writeValue v) := by
  induction vs generalizing v with
  | nil => rw [List.flatMap_nil, List.append_nil, writeValueList]
  | cons w vs ih =>
    rw [writeValueList.eq_3 v (w :: vs) (by simp), ih w, List.flatMap_cons, List.cons_append]

/-! ## Bytes -/

theorem reads_hexByte (b : UInt8) : Reads Anything readHexByte (hexByte b) b := by
  obtain ⟨h, l, hh, hl, hb⟩ := hexValue_hexByte b
  refine Reads.bumpBind ?_
  refine Reads.bumpBind ?_
  refine Reads.withPosition (fun pos => ?_)
  simp only [hexDigitAt, hh, hl, pure_bind, hb]
  exact .pure b

theorem reads_hexBytes (b : List UInt8) : Reads Anything (readHexBytes b.length) (writeHex b) b :=
  Reads.times (fun x _ => reads_hexByte x)

theorem fromUTF8?_asBytes (s : String) : String.fromUTF8? s.asBytes.toByteArray = some s := by
  have hbytes : s.asBytes.toByteArray = s.toByteArray := by
    apply ByteArray.ext
    rw [List.data_toByteArray, String.asBytes, Array.toArray_toList]
  rw [hbytes, String.fromUTF8?, dif_pos s.isValidUTF8]
  rfl

theorem reads_readName (name : String) :
    Reads Anything (readName name.asBytes.length) name.asBytes name := by
  intro c post hc _ hr
  have hroom := hc.room hr
  have htake : c.rest.take name.asBytes.length = name.asBytes := by rw [hr, List.take_left]
  show (if c.pos + name.asBytes.length > c.bytes.length then _ else _ :
    TextParser String) c = _
  rw [if_neg (Nat.not_lt.2 hroom), htake, fromUTF8?_asBytes]
  rfl

/-! ## Relocations -/

/-- The end of a line is next. -/
abbrev LineEnd : List UInt8 → Prop := Next (fun b => b = ascii '\n')

theorem reads_reloc {nObjects : UInt32} {r : CodeReloc} (h : r.target.toNat < nObjects.toNat) :
    Reads NoDigit (parseReloc nObjects) (decimal r.offset.toNat ++ ascii ',' ::
      (decimal r.kind.toNat ++ ascii ',' :: writeValue (.ref r.target))) r := by
  have hoff : r.offset.toNat < 2 ^ 64 := Nat.lt_trans r.offset.toNat_lt (by decide)
  have hkind : r.kind.toNat < 2 ^ 64 := Nat.lt_trans r.kind.toNat_lt (by decide)
  unfold parseReloc
  refine (reads_readU64 hoff).bind ?_ (fun post _ => Ends.cons rfl _)
  refine (reads_expect _ _).bindAny ?_
  refine (reads_readU64 hkind).bind ?_ (fun post _ => Ends.cons rfl _)
  refine (reads_expect _ _).bindAny ?_
  refine (reads_expect _ _).bindAny ?_
  refine (reads_readId h).finish ?_
  rw [toNat_uint64OfNat hoff, toNat_uint64OfNat hkind, if_pos r.offset.toNat_lt, if_pos r.kind.toNat_lt,
    UInt64.toUInt32_ofNat', UInt64.toUInt8_ofNat', UInt32.ofNat_toNat, UInt8.ofNat_toNat]

/-- The relocations end where the line does. -/
theorem reads_relocsEnd (nObjects : UInt32) (fuel : Nat) :
    Reads LineEnd (parseRelocs nObjects (fuel + 1)) [] [] := by
  refine Reads.peekNext (fun b hb => ?_)
  rw [if_pos (Or.inl hb)]
  exact .pure []

theorem reads_relocs {nObjects : UInt32} {rs : List CodeReloc}
    (h : ∀ r ∈ rs, r.target.toNat < nObjects.toNat) (fuel : Nat) :
    Reads LineEnd (parseRelocs nObjects (2 * rs.length + fuel + 1)) (rs.flatMap writeReloc) rs := by
  induction rs with
  | nil => exact reads_relocsEnd nObjects _
  | cons r rs ih =>
    have hr := reads_reloc (h r List.mem_cons_self)
    have hrs := ih (fun x hx => h x (List.mem_cons_of_mem _ hx))
    -- one round for the relocation, one for the space behind it
    have hfuel : 2 * (r :: rs).length + fuel + 1 = 2 * rs.length + fuel + 1 + 1 + 1 := by
      rw [List.length_cons]
      omega
    have hspace : Reads LineEnd (parseRelocs nObjects (2 * rs.length + fuel + 1 + 1))
        (ascii ' ' :: rs.flatMap writeReloc) rs := by
      refine Reads.peekBind ?_
      rw [if_neg (by decide), if_pos rfl]
      exact (Reads.skip [ascii ' ']).bindAny hrs
    have hwrite : (r :: rs).flatMap writeReloc = (decimal r.offset.toNat ++ ascii ',' ::
        (decimal r.kind.toNat ++ ascii ',' :: writeValue (.ref r.target))) ++
        (ascii ' ' :: rs.flatMap writeReloc) := by
      simp [writeReloc]
    obtain ⟨b, t, hbt, hb⟩ := decimal_cons r.offset.toNat
    rw [hfuel, hwrite, hbt, List.cons_append, List.cons_append]
    rw [hbt, List.cons_append] at hr
    refine Reads.peekBind ?_
    have hnl : ¬(b = ascii '\n' ∨ b = ascii '\r') :=
      not_or.2 ⟨ne_of_isDigit hb (by decide), ne_of_isDigit hb (by decide)⟩
    rw [if_neg hnl, if_neg (ne_of_isDigit hb (by decide))]
    exact hr.bind hspace.map (fun post _ => Ends.cons rfl _)

/-! ## Objects -/

/-- A body whose counts the parser accepts and whose references name one of the `nObjects`
objects. -/
def BodyOk (nObjects : UInt32) : ObjectBody → Prop
  | .ordinary vs | .legacyClosure vs => vs.length < 2 ^ 64 ∧ ∀ v ∈ vs, ValueOk nObjects v
  | .closure codeAddr vs =>
    codeAddr.toNat < nObjects.toNat ∧ 1 + vs.length < 2 ^ 64 ∧ ∀ v ∈ vs, ValueOk nObjects v
  | .string b | .bytes b => b.length < 2 ^ 64
  | .code b cs rs =>
    b.length < 2 ^ 64 ∧ cs.length < 2 ^ 64 ∧ (∀ v ∈ cs, ValueOk nObjects v) ∧
      ∀ r ∈ rs, r.target.toNat < nObjects.toNat
  | .entryPoint name => name.asBytes.length < 2 ^ 64
  | .weakRef => True

theorem LineEnd.noDigit {post : List UInt8} (h : LineEnd post) : NoDigit post := by
  obtain ⟨b, t, rfl, rfl⟩ := h
  exact Ends.cons (by decide) t

/-- A count, a bar and that many values. -/
theorem reads_countedValues {nObjects : UInt32} {vs : List Value} (hlen : vs.length < 2 ^ 64)
    (h : ∀ v ∈ vs, ValueOk nObjects v) (what : String) (mk : List Value → ObjectBody) :
    Reads LineEnd (do
        let n ← readUsize
        expect (ascii '|') what
        let vs ← parseValueList nObjects n
        pure (mk vs))
      (decimal vs.length ++ ascii '|' :: writeValueList vs) (mk vs) := by
  refine (reads_readUsize hlen).bind ?_ (fun post _ => Ends.cons rfl _)
  refine (reads_expect _ _).bindAny ?_
  exact (reads_valueList h).map.weaken (fun post hp => hp.noDigit)

/-- A count, a bar and that many bytes in hexadecimal. -/
theorem reads_countedHex {b : List UInt8} (hlen : b.length < 2 ^ 64) (what : String)
    (mk : List UInt8 → ObjectBody) :
    Reads LineEnd (do
        let n ← readUsize
        expect (ascii '|') what
        let b ← readHexBytes n
        pure (mk b))
      (decimal b.length ++ ascii '|' :: writeHex b) (mk b) := by
  refine (reads_readUsize hlen).bind ?_ (fun post _ => Ends.cons rfl _)
  refine (reads_expect _ _).bindAny ?_
  exact (reads_hexBytes b).map.weaken (fun _ _ => trivial)

theorem reads_closure {nObjects : UInt32} {codeAddr : ObjectId} {vs : List Value}
    (hcode : codeAddr.toNat < nObjects.toNat) (hlen : 1 + vs.length < 2 ^ 64)
    (h : ∀ v ∈ vs, ValueOk nObjects v) :
    Reads LineEnd (parseClosure nObjects) (decimal (1 + vs.length) ++ ascii '|' ::
      (writeValue (.ref codeAddr) ++ vs.flatMap (fun v => ascii ',' :: writeValue v)))
      (.closure codeAddr vs) := by
  unfold parseClosure
  refine (reads_readUsize hlen).bind ?_ (fun post _ => Ends.cons rfl _)
  refine (reads_expect _ _).bindAny ?_
  refine (reads_expect _ _).bindAny ?_
  change Reads LineEnd _ (decimal codeAddr.toNat ++ _) _
  cases vs with
  | nil =>
    rw [List.flatMap_nil, List.append_nil]
    exact Reads.weaken (G := NoDigit) ((reads_readId hcode).finish rfl) (fun post hp => hp.noDigit)
  | cons v vs =>
    have hvs : writeValueList (v :: vs) =
        writeValue v ++ vs.flatMap (fun v => ascii ',' :: writeValue v) := writeValueList_cons v vs
    have hcount : 1 + (v :: vs).length - 1 = (v :: vs).length := by omega
    rw [List.flatMap_cons, List.cons_append, ← hvs]
    refine (reads_readId hcode).bind ?_ (fun post _ => Ends.cons rfl _)
    simp only [hcount]
    rw [if_pos (by simp)]
    refine (reads_expect _ _).bindAny ?_
    exact (reads_valueList h).map.weaken (fun post hp => hp.noDigit)

/-- Every relocation takes two rounds of the loop and has more than two bytes. -/
theorem two_mul_length_le_relocs (rs : List CodeReloc) :
    2 * rs.length ≤ (rs.flatMap writeReloc).length := by
  induction rs with
  | nil => exact Nat.zero_le _
  | cons r rs ih =>
    simp only [List.flatMap_cons, writeReloc, List.length_append, List.length_cons]
    omega

theorem reads_code {nObjects : UInt32} {b : List UInt8} {cs : List Value} {rs : List CodeReloc}
    (hb : b.length < 2 ^ 64) (hlen : cs.length < 2 ^ 64) (hcs : ∀ v ∈ cs, ValueOk nObjects v)
    (hrs : ∀ r ∈ rs, r.target.toNat < nObjects.toNat) :
    Reads LineEnd (parseCode nObjects) (decimal cs.length ++ ascii ',' :: (decimal b.length ++
      ascii '|' :: (writeHex b ++ ascii '|' :: (writeValueList cs ++
        ascii '|' :: rs.flatMap writeReloc)))) (.code b cs rs) := by
  unfold parseCode
  refine (reads_readUsize hlen).bind ?_ (fun post _ => Ends.cons rfl _)
  refine (reads_expect _ _).bindAny ?_
  refine (reads_readUsize hb).bind ?_ (fun post _ => Ends.cons rfl _)
  refine (reads_expect _ _).bindAny ?_
  refine (reads_hexBytes b).bindAny ?_
  refine (reads_expect _ _).bindAny ?_
  refine (reads_valueList hcs).bind ?_ (fun post _ => Ends.cons rfl _)
  refine (reads_expect _ _).bindAny ?_
  refine Reads.withCursor (fun c hc => ?_)
  obtain ⟨fuel, hfuel⟩ := Nat.exists_eq_add_of_le
    (Nat.le_trans (two_mul_length_le_relocs rs) hc)
  rw [hfuel]
  exact (reads_relocs hrs fuel).map

/-- The type letter and the payload. -/
theorem reads_body {nObjects : UInt32} {body : ObjectBody} (h : BodyOk nObjects body) :
    Reads LineEnd (bump >>= parseBody nObjects) (writeBody body) body := by
  cases body with
  | ordinary vs => exact Reads.bumpBind (reads_countedValues h.1 h.2 _ .ordinary)
  | closure codeAddr vs => exact Reads.bumpBind (reads_closure h.1 h.2.1 h.2.2)
  | legacyClosure vs => exact Reads.bumpBind (reads_countedValues h.1 h.2 _ .legacyClosure)
  | string b => exact Reads.bumpBind (reads_countedHex h _ .string)
  | bytes b => exact Reads.bumpBind (reads_countedHex h _ .bytes)
  | code b cs rs => exact Reads.bumpBind (reads_code h.1 h.2.1 h.2.2.1 h.2.2.2)
  | entryPoint name =>
    refine Reads.bumpBind ((reads_readUsize h).bind ?_ (fun post _ => Ends.cons rfl _))
    refine (reads_expect _ _).bindAny ?_
    exact (reads_readName name).map.weaken (fun _ _ => trivial)
  | weakRef => exact Reads.bumpBind (.pure _)

/-- No modifier letter is next. -/
theorem writeBody_ends (body : ObjectBody) (post : List UInt8) :
    Ends isFlagLetter (writeBody body ++ post) := by
  cases body <;> exact Ends.cons (by decide) _

theorem isFlagLetter_writeFlags (f : ObjFlags) : ∀ b ∈ writeFlags f, isFlagLetter b = true := by
  have hall : (writeFlags f).all isFlagLetter = true := by
    obtain ⟨m, n, v, w⟩ := f
    revert m n v w
    decide
  exact List.all_eq_true.1 hall

theorem foldl_addFlag_writeFlags (f : ObjFlags) :
    (writeFlags f).foldl addFlag ObjFlags.empty = f := by
  obtain ⟨m, n, v, w⟩ := f
  revert m n v w
  decide

theorem reads_endOfLine : Reads LineEnd endOfLine [] () := by
  unfold endOfLine
  have hskip : Reads LineEnd (Parser.skipWhile isBlank : TextParser Unit) [] () := by
    refine (Reads.skipWhile (by simp)).weaken ?_
    rintro post ⟨b, t, rfl, rfl⟩
    exact Ends.cons (by decide) t
  refine hskip.bindNil ?_
  intro c post hc hp hr
  obtain ⟨b, t, rfl, rfl⟩ := hp
  dsimp only [bind, StateT.bind, get, getThe, MonadStateOf.get, StateT.get, pure, Except.pure, Except.bind]
  rw [hr]
  rfl

/-- After the payload nothing but the line terminator is left. -/
theorem reads_lineRest (x : ObjectId × Object) :
    Reads LineEnd (do
      endOfLine
      Parser.skipWhile (fun b => !isNewline b)
      pure x : TextParser (ObjectId × Object)) [] x := by
  have hskip : Reads LineEnd (Parser.skipWhile (fun b => !isNewline b) : TextParser Unit) [] () := by
    refine (Reads.skipWhile (by simp)).weaken ?_
    rintro post ⟨b, t, rfl, rfl⟩
    exact Ends.cons (by decide) t
  exact reads_endOfLine.bindNil hskip.map

/-- An object line without the line terminator. -/
theorem reads_objectLine {nObjects id : UInt32} {obj : Object} (hid : id.toNat < nObjects.toNat)
    (h : BodyOk nObjects obj.body) :
    Reads LineEnd (parseObjectLine nObjects)
      (decimal id.toNat ++ ascii ':' :: (writeFlags obj.flags ++ writeBody obj.body)) (id, obj) := by
  unfold parseObjectLine
  refine (reads_readId hid).bind ?_ (fun post _ => Ends.cons rfl _)
  refine (reads_expect _ _).bindAny ?_
  refine (Reads.takeWhile (isFlagLetter_writeFlags obj.flags)).bind ?_
    (fun post _ => writeBody_ends obj.body post)
  rw [foldl_addFlag_writeFlags]
  have hbody : Reads LineEnd ((bump >>= parseBody nObjects) >>= fun body => do
      endOfLine
      Parser.skipWhile (fun b => !isNewline b)
      pure (id, { flags := obj.flags, body })) (writeBody obj.body) (id, obj) :=
    (reads_body h).bindNil (reads_lineRest (id, obj))
  rw [bind_assoc] at hbody
  exact hbody

/-! ## The header -/

theorem reads_expectAll (what : String) (bs : List UInt8) :
    Reads Anything (expectAll what bs) bs () := by
  induction bs with
  | nil => exact .pure ()
  | cons b bs ih => exact (reads_expect b what).bindAny ih

/-- An architecture byte that the parser keeps as it is. -/
def ArchOk : SourceArch → Prop
  | .other c => isBlank c = false ∧ isNewline c = false ∧ c ≠ ascii 'I' ∧ c ≠ ascii 'X' ∧ c ≠ ascii 'A'
  | _ => True

/-- The architecture byte is an ASCII character. -/
def AsciiArch (a : SourceArch) : Prop := ∀ c, a = .other c → c.toNat < 128

instance (a : SourceArch) : Decidable (AsciiArch a) :=
  match a with
  | .other c => decidable_of_iff (c.toNat < 128) ⟨fun h c' hc => by cases hc; exact h, fun h => h c rfl⟩
  | .interpreted => isTrue (fun _ h => nomatch h)
  | .x86 => isTrue (fun _ h => nomatch h)
  | .arm => isTrue (fun _ h => nomatch h)

/-- A character below 128 is one byte of UTF-8. -/
theorem utf8EncodeChar_ascii {c : UInt8} (h : c.toNat < 128) :
    String.utf8EncodeChar (Char.ofNat c.toNat) = [c] := by
  have hall : ∀ n : Fin 128, String.utf8EncodeChar (Char.ofNat n.val) = [UInt8.ofNat n.val] := by
    decide
  rw [hall ⟨c.toNat, h⟩, UInt8.ofNat_toNat]

/-- A character from 128 to 255 is two bytes of UTF-8: a lead byte, which no architecture marker,
blank or line terminator is, and a continuation byte, which is no blank and no digit. -/
theorem utf8EncodeChar_latin {c : UInt8} (h : 128 ≤ c.toNat) :
    ∃ lead cont, String.utf8EncodeChar (Char.ofNat c.toNat) = [lead, cont] ∧
      isNewline lead = false ∧ isBlank lead = false ∧ isBlank cont = false ∧
      isAsciiDigit cont = false := by
  have hall : ∀ n : Fin 128, ∃ lead cont,
      String.utf8EncodeChar (Char.ofNat (128 + n.val)) = [lead, cont] ∧
      isNewline lead = false ∧ isBlank lead = false ∧ isBlank cont = false ∧
      isAsciiDigit cont = false := by
    intro n
    refine ⟨if n.val < 64 then 0xC2 else 0xC3, UInt8.ofNat (128 + n.val % 64), ?_⟩
    revert n
    decide
  have hlt := c.toNat_lt
  obtain ⟨n, hn⟩ := Nat.exists_eq_add_of_le h
  rw [hn]
  exact hall ⟨n, by omega⟩

theorem writeArch_ends {a : SourceArch} (hok : ArchOk a) (post : List UInt8) :
    Ends isBlank (writeArch a ++ post) := by
  cases a with
  | interpreted => exact Ends.cons (b := ascii 'I') (by decide) _
  | x86 => exact Ends.cons (b := ascii 'X') (by decide) _
  | arm => exact Ends.cons (b := ascii 'A') (by decide) _
  | other c =>
    rcases Nat.lt_or_ge c.toNat 128 with hc | hc
    · rw [writeArch, archChar, utf8EncodeChar_ascii hc]
      exact Ends.cons hok.1 _
    · obtain ⟨lead, cont, hwrite, _, hblank, _⟩ := utf8EncodeChar_latin hc
      rw [writeArch, archChar, hwrite]
      exact Ends.cons hblank _

/-- A blank, the architecture, a blank and the word size. -/
theorem reads_parseArch {a : SourceArch} {w : WordSize} (hok : ArchOk a) (hascii : AsciiArch a) :
    Reads NoDigit parseArch ([ascii ' '] ++ (writeArch a ++ ascii ' ' :: decimal w.bytes)) (a, w) := by
  have hwrite : writeArch a = [archChar a] := by
    cases a with
    | other c => exact utf8EncodeChar_ascii (hascii c rfl)
    | interpreted => exact utf8EncodeChar_ascii (by decide)
    | x86 => exact utf8EncodeChar_ascii (by decide)
    | arm => exact utf8EncodeChar_ascii (by decide)
  have hline : isNewline (archChar a) = false := by
    cases a with
    | other c => exact hok.2.1
    | interpreted => rfl
    | x86 => rfl
    | arm => rfl
  have harch : (if archChar a = ascii 'I' then SourceArch.interpreted
      else if archChar a = ascii 'X' then .x86
      else if archChar a = ascii 'A' then .arm
      else .other (archChar a)) = a := by
    cases a with
    | other c =>
      obtain ⟨_, _, hI, hX, hA⟩ := hok
      rw [archChar, if_neg hI, if_neg hX, if_neg hA]
    | interpreted => rfl
    | x86 => rfl
    | arm => rfl
  have hbytes : w.bytes < 2 ^ 64 := by cases w <;> decide
  refine (Reads.skipWhile (List.forall_mem_singleton.2 rfl)).bind ?_ (fun post _ => by
    rw [List.append_assoc]
    exact writeArch_ends hok _)
  rw [hwrite]
  refine Reads.peekBind ?_
  simp only [hline, harch, Bool.false_eq_true, if_false]
  refine (Reads.skip [archChar a]).bindAny ?_
  change Reads NoDigit _ ([ascii ' '] ++ decimal w.bytes) _
  refine (Reads.skipWhile (List.forall_mem_singleton.2 rfl)).bind ?_
    (fun post _ => decimal_ends (fun b => isBlank_of_isDigit) _ _)
  refine (reads_readU64 hbytes).finish ?_
  cases w <;> rfl

/-- What `arch_char as char` makes of a byte from 128 on is not read back. -/
theorem refuses_parseArch {c : UInt8} (h : 128 ≤ c.toNat) :
    Refuses parseArch ([ascii ' '] ++ writeArch (.other c)) := by
  obtain ⟨lead, cont, hwrite, hline, hblank, hcont, hdigit⟩ := utf8EncodeChar_latin h
  rw [writeArch, archChar, hwrite]
  refine Refuses.bind (Reads.skipWhile (List.forall_mem_singleton.2 rfl)) ?_ (fun post => Ends.cons hblank _)
  refine Refuses.peekBind ?_
  simp only [hline, Bool.false_eq_true, if_false]
  refine Refuses.bind (G := Anything) (Reads.skip [lead]) ?_ (fun _ => trivial)
  change Refuses _ ([] ++ [cont])
  refine Refuses.bind (Reads.skipWhile (by simp)) ?_ (fun post => Ends.cons hcont post)
  refine Refuses.left (Refuses.withPosition (fun start => ?_))
  change Refuses _ ([] ++ [cont])
  refine Refuses.bind (Reads.takeWhile (by simp)) ?_ (fun post => Ends.cons hdigit post)
  exact Refuses.throw _

/-- The two keywords with their numbers, up to the architecture. -/
def writeCounts (count : Nat) (root : ObjectId) : List UInt8 :=
  "Objects\t".asBytes ++ (decimal count ++ ascii '\n' ::
    ("Root\t".asBytes ++ decimal root.toNat))

theorem writeHeader_eq (img : Image) : writeHeader img = writeCounts img.objects.length img.root ++
    (([ascii ' '] ++ (writeArch img.arch ++ ascii ' ' :: decimal img.wordSize.bytes)) ++
      [ascii '\n']) := by
  simp only [writeHeader, writeCounts, List.append_assoc, List.cons_append, List.nil_append]

theorem reads_parseCounts {count : Nat} (root : ObjectId) (hcount : count < 2 ^ 32) :
    Reads NoDigit parseCounts (writeCounts count root) (UInt32.ofNat count, root) := by
  have hroot : root.toNat < 2 ^ 64 := Nat.lt_trans root.toNat_lt (by decide)
  have hcount64 : count < 2 ^ 64 := Nat.lt_trans hcount (by decide)
  have hobjects : "Objects\t".asBytes = "Objects".asBytes ++ [ascii '\t'] := by decide
  have hkeyword : "Root\t".asBytes = "Root".asBytes ++ [ascii '\t'] := by decide
  unfold parseCounts writeCounts
  rw [hobjects, hkeyword, List.append_assoc, List.append_assoc]
  refine (reads_expectAll _ _).bindAny ?_
  refine (Reads.skipWhile (List.forall_mem_singleton.2 rfl)).bind ?_ (fun post _ => ?_)
  · refine (reads_readU64 hcount64).bind ?_ (fun post _ => Ends.cons rfl _)
    rw [toNat_uint64OfNat hcount64, if_pos hcount]
    change Reads NoDigit _ ([ascii '\n'] ++ _) _
    refine (Reads.skipWhile (List.forall_mem_singleton.2 rfl)).bind ?_ (fun post _ => ?_)
    · refine (reads_expectAll _ _).bindAny ?_
      refine (Reads.skipWhile (List.forall_mem_singleton.2 rfl)).bind ?_ (fun post _ => ?_)
      · refine (reads_readU64 hroot).finish ?_
        rw [toNat_uint64OfNat hroot, if_pos root.toNat_lt, UInt64.toUInt32_ofNat',
          UInt64.toUInt32_ofNat', UInt32.ofNat_toNat]
      · exact decimal_ends (fun b => isBlank_of_isDigit) _ _
    · exact Ends.cons (b := ascii 'R') (by decide) _
  · rw [List.append_assoc]
    exact decimal_ends (fun b => isBlank_of_isDigit) _ _

/-- A count that 32 bits do not hold is refused. -/
theorem refuses_parseCounts {count : Nat} (root : ObjectId) (hcount : 2 ^ 32 ≤ count)
    (hcount64 : count < 2 ^ 64) : Refuses parseCounts (writeCounts count root) := by
  have hobjects : "Objects\t".asBytes = "Objects".asBytes ++ [ascii '\t'] := by decide
  unfold parseCounts writeCounts
  rw [hobjects, List.append_assoc]
  refine Refuses.bind (reads_expectAll _ _) ?_ (fun _ => trivial)
  refine Refuses.bind (Reads.skipWhile (List.forall_mem_singleton.2 rfl)) ?_ (fun post => ?_)
  · refine Refuses.bind (reads_readU64 hcount64) ?_ (fun post => Ends.cons rfl _)
    rw [toNat_uint64OfNat hcount64, if_neg (Nat.not_lt.2 hcount)]
    exact Refuses.throw _
  · rw [List.append_assoc]
    exact decimal_ends (fun b => isBlank_of_isDigit) _ _

theorem reads_parseHeader {img : Image} (hcount : img.objects.length < 2 ^ 32)
    (hok : ArchOk img.arch) (hascii : AsciiArch img.arch) :
    Reads (Ends isNewline) parseHeader (writeHeader img)
      (UInt32.ofNat img.objects.length, img.root, img.arch, img.wordSize) := by
  rw [writeHeader_eq]
  refine (reads_parseCounts img.root hcount).bind ?_ (fun post _ => ?_)
  · refine (reads_parseArch hok hascii).bind ?_ (fun post _ => Ends.cons rfl _)
    exact (Reads.skipWhile (List.forall_mem_singleton.2 rfl)).map
  · exact Ends.cons (b := ascii ' ') (by decide) _

/-- An image whose architecture byte is not ASCII is not read back. -/
theorem refuses_parseHeader {img : Image} {c : UInt8} (hcount : img.objects.length < 2 ^ 32)
    (harch : img.arch = .other c) (hc : 128 ≤ c.toNat) :
    Refuses parseHeader
      (writeCounts img.objects.length img.root ++ ([ascii ' '] ++ writeArch img.arch)) := by
  refine Refuses.bind (reads_parseCounts img.root hcount) ?_ (fun post => Ends.cons rfl _)
  rw [harch]
  exact (refuses_parseArch hc).left

/-! ## The object table -/

theorem writeObjects_ends (id : Nat) (objs : List Object) : Ends isNewline (writeObjects id objs) := by
  cases objs with
  | nil => exact Ends.nil
  | cons obj objs =>
    rw [writeObjects, writeObject, List.append_assoc]
    exact decimal_ends (fun b => isNewline_of_isDigit) _ _

theorem length_le_writeObjects (id : Nat) (objs : List Object) :
    objs.length ≤ (writeObjects id objs).length := by
  induction objs generalizing id with
  | nil => exact Nat.zero_le _
  | cons obj objs ih =>
    have hrest := ih (id + 1)
    simp only [writeObjects, writeObject, List.length_append, List.length_cons]
    omega

/-- Setting the first free slot fills it. -/
theorem set_firstFree (done objs : List Object) (obj : Object) :
    (done.map some ++ List.replicate (objs.length + 1) none).set done.length (some obj) =
      (done ++ [obj]).map some ++ List.replicate objs.length none := by
  rw [List.set_append_right _ _ (by simp)]
  simp [List.replicate_succ]

/-- The loop fills the slots in order; `nl` is the line terminator of the line before. -/
theorem reads_parseObjects {nObjects : UInt32} {done objs : List Object} {fuel : Nat}
    {nl : List UInt8} (hn : nObjects.toNat = done.length + objs.length)
    (hok : ∀ obj ∈ objs, BodyOk nObjects obj.body) (hfuel : objs.length < fuel)
    (hnl : ∀ b ∈ nl, isNewline b = true) :
    Reads (· = [])
      (parseObjects nObjects fuel (done.map some ++ List.replicate objs.length none) done.length)
      (nl ++ writeObjects done.length objs) ((done ++ objs).map some, done.length + objs.length) := by
  induction objs generalizing done fuel nl with
  | nil =>
    obtain ⟨fuel, rfl⟩ := Nat.exists_eq_add_of_lt hfuel
    refine (Reads.skipWhile hnl).bind ?_ (fun post hp => ?_)
    · refine Reads.atEof.bindNil ?_
      simp only [if_true, List.length_nil, List.replicate_zero, List.append_nil, Nat.add_zero]
      exact .pure _
    · rw [writeObjects, hp]
      exact Ends.nil
  | cons obj objs ih =>
    obtain ⟨fuel, rfl⟩ := Nat.exists_eq_add_of_lt hfuel
    have hlt := nObjects.toNat_lt
    rw [List.length_cons] at hn
    have hid : (UInt32.ofNat done.length).toNat = done.length := by
      rw [UInt32.toNat_ofNat', Nat.mod_eq_of_lt (by omega)]
    have hline := @reads_objectLine nObjects (UInt32.ofNat done.length) obj (by omega)
      (hok obj List.mem_cons_self)
    refine (Reads.skipWhile hnl).bind ?_ (fun post hp => ?_)
    · have hwrite : writeObjects done.length (obj :: objs) =
          (decimal (UInt32.ofNat done.length).toNat ++ ascii ':' ::
            (writeFlags obj.flags ++ writeBody obj.body)) ++
          ([ascii '\n'] ++ writeObjects (done ++ [obj]).length objs) := by
        simp only [writeObjects, writeObject, List.append_assoc, List.cons_append, List.nil_append,
          List.length_append, List.length_singleton]
      have hrest := @ih (done ++ [obj]) (objs.length + fuel + 1) [ascii '\n']
        (by rw [List.length_append, List.length_singleton, hn, Nat.add_assoc, Nat.add_comm 1])
        (fun o ho => hok o (List.mem_cons_of_mem _ ho)) (by omega) (List.forall_mem_singleton.2 rfl)
      obtain ⟨b, t, hbt, hb⟩ := decimal_cons (UInt32.ofNat done.length).toNat
      rw [hwrite]
      rw [hbt] at hline ⊢
      refine Reads.moreBind ?_
      refine hline.bind ?_ (fun post _ => ⟨_, _, rfl, rfl⟩)
      have hslots : ¬done.length ≥
          (done.map some ++ List.replicate (objs.length + 1) none : List (Option Object)).length := by
        rw [List.length_append, List.length_map, List.length_replicate]
        omega
      have hcount : min (done.length + 1) (2 ^ 32 - 1) = (done ++ [obj]).length := by
        rw [List.length_append, List.length_singleton]
        omega
      have hsum : done.length + (objs.length + 1) = (done ++ [obj]).length + objs.length := by
        rw [List.length_append, List.length_singleton, Nat.add_assoc, Nat.add_comm 1]
      have hlist : done ++ obj :: objs = done ++ [obj] ++ objs := by simp
      have hfuel' : objs.length + 1 + fuel = objs.length + fuel + 1 := Nat.add_right_comm _ _ _
      simp only [hid, List.length_cons]
      rw [if_neg hslots, set_firstFree, hcount, hsum, hlist, hfuel']
      exact hrest
    · rw [hp, List.append_nil]
      exact writeObjects_ends _ _

theorem reads_collectObjects (nObjects : UInt32) (i : Nat) (objs : List Object) :
    Reads Anything (collectObjects nObjects i (objs.map some)) [] objs := by
  induction objs generalizing i with
  | nil => exact .pure []
  | cons obj objs ih => exact (ih (i + 1)).map

/-! ## The image -/

/-- What an image needs for its text to be accepted, but for an ASCII architecture byte. -/
structure Printable (img : Image) : Prop where
  count : img.objects.length < 2 ^ 32
  objects : ∀ obj ∈ img.objects, BodyOk (UInt32.ofNat img.objects.length) obj.body
  arch : ArchOk img.arch

theorem reads_parseImage {img : Image} (h : Printable img) (hascii : AsciiArch img.arch) :
    Reads (· = []) parseImage img.write img := by
  have hn : (UInt32.ofNat img.objects.length).toNat = img.objects.length := by
    rw [UInt32.toNat_ofNat', Nat.mod_eq_of_lt h.count]
  unfold parseImage Image.write
  refine (reads_parseHeader h.count h.arch hascii).bind ?_ (fun post hp => ?_)
  · refine Reads.withCursor (fun c hc => ?_)
    have hlen := Nat.le_trans (length_le_writeObjects 0 img.objects) hc
    have hroom : ¬(UInt32.ofNat img.objects.length).toNat > c.bytes.length - c.pos := by
      rw [hn, ← List.length_drop]
      exact Nat.not_lt.2 hlen
    have hobjects := @reads_parseObjects (UInt32.ofNat img.objects.length) [] img.objects
      (c.rest.length + 1) [] (by rw [hn, List.length_nil, Nat.zero_add]) h.objects
      (Nat.lt_succ_of_le hlen) (by simp)
    simp only [List.map_nil, List.nil_append, List.length_nil, Nat.zero_add] at hobjects
    simp only [hn] at hroom ⊢
    rw [if_neg hroom]
    refine hobjects.bindNil ?_
    rw [if_neg (fun hne => hne rfl)]
    exact (reads_collectObjects _ 0 img.objects).map.weaken (fun _ _ => trivial)
  · rw [hp, List.append_nil]
    exact writeObjects_ends 0 img.objects

/-- A parser that reads a whole input back runs on it. -/
theorem parse_write {img : Image} (h : Printable img) (hascii : AsciiArch img.arch) :
    Image.parse img.write = .ok img := by
  have hrun := reads_parseImage h hascii ⟨img.write, 0⟩ [] (Nat.zero_le _) rfl
    (List.append_nil _).symm
  unfold Image.parse
  rw [StateT.run, hrun]
  rfl

theorem parse_write_fails {img : Image} (h : Printable img) (hascii : ¬AsciiArch img.arch) :
    ∃ e, Image.parse img.write = .error e := by
  obtain ⟨c, harch, hc⟩ : ∃ c, img.arch = .other c ∧ 128 ≤ c.toNat := by
    simp only [AsciiArch, not_forall, Nat.not_lt] at hascii
    obtain ⟨c, harch, hc⟩ := hascii
    exact ⟨c, harch, hc⟩
  have hrefuse : Refuses parseImage
      (writeCounts img.objects.length img.root ++ ([ascii ' '] ++ writeArch img.arch)) :=
    (refuses_parseHeader h.count harch hc).left
  obtain ⟨e, he⟩ := hrefuse ⟨img.write, 0⟩ _ (Nat.zero_le _) (by
    show img.write = _ ++ _
    rw [Image.write, writeHeader_eq]
    simp only [List.append_assoc]
    rfl)
  refine ⟨e, ?_⟩
  unfold Image.parse
  rw [StateT.run, he]
  rfl

/-- An image with too many objects is not read back. -/
theorem parse_write_tooMany {img : Image} (hcount : 2 ^ 32 ≤ img.objects.length)
    (hcount64 : img.objects.length < 2 ^ 64) : ∃ e, Image.parse img.write = .error e := by
  have hrefuse : Refuses parseImage (writeCounts img.objects.length img.root) :=
    (refuses_parseCounts img.root hcount hcount64).left.left
  obtain ⟨e, he⟩ := hrefuse ⟨img.write, 0⟩ _ (Nat.zero_le _) (by
    show img.write = _ ++ _
    rw [Image.write, writeHeader_eq]
    simp only [List.append_assoc]
    rfl)
  refine ⟨e, ?_⟩
  unfold Image.parse
  rw [StateT.run, he]
  rfl

/-! ## What the parser returns -/

theorem yields_readUsize : Yields readUsize (fun n => n < 2 ^ 64) :=
  Yields.bindAny (fun v => .pure v.toNat_lt)

theorem yields_readId (nObjects : UInt32) :
    Yields (readId nObjects) (fun id => id.toNat < nObjects.toNat) := by
  refine Yields.bindAny (fun idU => ?_)
  split
  · rename_i h
    refine .pure ?_
    rw [UInt64.toNat_toUInt32]
    exact Nat.lt_of_le_of_lt (Nat.mod_le _ _) h
  · exact .throw

theorem yields_parseValue (nObjects : UInt32) : Yields (parseValue nObjects) (ValueOk nObjects) := by
  refine Yields.bindAny (fun b => ?_)
  split
  · refine Yields.bindAny (fun _ => ?_)
    exact (yields_readId nObjects).bind (fun id hid => .pure hid)
  · split
    · exact Yields.bindAny (fun n => .pure trivial)
    · exact Yields.bindAny (fun pos => .throw)

theorem yields_parseValueList (nObjects : UInt32) (n : Nat) :
    Yields (parseValueList nObjects n)
      (fun vs => vs.length = n ∧ ∀ v ∈ vs, ValueOk nObjects v) := by
  induction n with
  | zero => exact .pure ⟨rfl, by simp⟩
  | succ n ih =>
    refine (yields_parseValue nObjects).bind (fun v hv => ?_)
    split
    · refine Yields.bindAny (fun _ => ?_)
      refine ih.bind (fun vs hvs => .pure ⟨by rw [List.length_cons, hvs.1], ?_⟩)
      exact List.forall_mem_cons.2 ⟨hv, hvs.2⟩
    · rename_i hn
      refine .pure ⟨?_, List.forall_mem_singleton.2 hv⟩
      rw [List.length_singleton]
      omega

theorem yields_readHexBytes (n : Nat) : Yields (readHexBytes n) (fun b => b.length = n) :=
  ((Yields.trivial readHexByte).times n).weaken (fun _ h => h.1)

/-- A counted list of values, as `parseOrdinary` and `parseLegacyClosure` read it. -/
theorem yields_countedValues (nObjects : UInt32) (what : String) (mk : List Value → ObjectBody)
    (hmk : ∀ vs, vs.length < 2 ^ 64 → (∀ v ∈ vs, ValueOk nObjects v) → BodyOk nObjects (mk vs)) :
    Yields (do
        let n ← readUsize
        expect (ascii '|') what
        let vs ← parseValueList nObjects n
        pure (mk vs)) (BodyOk nObjects) := by
  refine yields_readUsize.bind (fun n hn => Yields.bindAny (fun _ => ?_))
  refine (yields_parseValueList nObjects n).bind (fun vs hvs => .pure (hmk vs ?_ hvs.2))
  rw [hvs.1]
  exact hn

/-- A counted string of bytes, as `parseString` and `parseBytes` read it. -/
theorem yields_countedHex (nObjects : UInt32) (what : String) (mk : List UInt8 → ObjectBody)
    (hmk : ∀ b, b.length < 2 ^ 64 → BodyOk nObjects (mk b)) :
    Yields (do
        let n ← readUsize
        expect (ascii '|') what
        let b ← readHexBytes n
        pure (mk b)) (BodyOk nObjects) := by
  refine yields_readUsize.bind (fun n hn => Yields.bindAny (fun _ => ?_))
  refine (yields_readHexBytes n).bind (fun b hb => .pure (hmk b ?_))
  rw [hb]
  exact hn

theorem yields_parseClosure (nObjects : UInt32) :
    Yields (parseClosure nObjects) (BodyOk nObjects) := by
  refine yields_readUsize.bind (fun n hn => Yields.bindAny (fun _ => Yields.bindAny (fun _ => ?_)))
  refine (yields_readId nObjects).bind (fun codeAddr hcode => ?_)
  dsimp only
  split
  · refine Yields.bindAny (fun _ => ?_)
    refine (yields_parseValueList nObjects _).bind (fun vs hvs => .pure ⟨hcode, ?_, hvs.2⟩)
    rw [hvs.1]
    omega
  · exact .pure ⟨hcode, by simp, by simp⟩

theorem yields_parseReloc (nObjects : UInt32) :
    Yields (parseReloc nObjects) (fun r => r.target.toNat < nObjects.toNat) := by
  refine Yields.bindAny (fun offsetU => Yields.bindAny (fun _ => Yields.bindAny (fun kindU => ?_)))
  refine Yields.bindAny (fun _ => Yields.bindAny (fun _ => ?_))
  refine (yields_readId nObjects).bind (fun target htarget => ?_)
  split
  · split
    · exact .pure htarget
    · exact .throw
  · exact .throw

theorem yields_parseRelocs (nObjects : UInt32) (fuel : Nat) :
    Yields (parseRelocs nObjects fuel) (fun rs => ∀ r ∈ rs, r.target.toNat < nObjects.toNat) := by
  induction fuel with
  | zero => exact Yields.bindAny (fun pos => .throw)
  | succ fuel ih =>
    refine Yields.bindAny (fun b => ?_)
    split
    · exact .pure (by simp)
    · split
      · exact Yields.bindAny (fun _ => ih)
      · refine (yields_parseReloc nObjects).bind (fun r hr => ?_)
        exact ih.bind (fun rs hrs => .pure (List.forall_mem_cons.2 ⟨hr, hrs⟩))

theorem yields_parseCode (nObjects : UInt32) :
    Yields (parseCode nObjects) (BodyOk nObjects) := by
  refine yields_readUsize.bind (fun nConsts hConsts => Yields.bindAny (fun _ => ?_))
  refine yields_readUsize.bind (fun nBytes hBytes => Yields.bindAny (fun _ => ?_))
  refine (yields_readHexBytes nBytes).bind (fun b hb => Yields.bindAny (fun _ => ?_))
  refine (yields_parseValueList nObjects nConsts).bind (fun cs hcs => ?_)
  refine Yields.bindAny (fun _ => Yields.bindAny (fun c => ?_))
  refine (yields_parseRelocs nObjects _).bind (fun rs hrs => .pure ⟨?_, ?_, hcs.2, hrs⟩)
  · rw [hb]
    exact hBytes
  · rw [hcs.1]
    exact hConsts

/-- A name is as long as its bytes. -/
theorem length_asBytes_of_fromUTF8? {bs : List UInt8} {name : String}
    (h : String.fromUTF8? bs.toByteArray = some name) : name.asBytes.length = bs.length := by
  unfold String.fromUTF8? at h
  split at h
  · cases h
    show bs.toByteArray.data.toList.length = bs.length
    rw [List.toList_data_toByteArray]
  · cases h

theorem yields_readName (n : Nat) : Yields (readName n) (fun name => name.asBytes.length ≤ n) := by
  refine Yields.bindAny (fun c => ?_)
  dsimp only
  split
  · exact .throw
  · split
    · exact .throw
    · rename_i name hname
      refine Yields.bindAny (fun _ => .pure ?_)
      rw [length_asBytes_of_fromUTF8? hname]
      exact List.length_take_le _ _

theorem yields_parseBody (nObjects : UInt32) (ty : UInt8) :
    Yields (parseBody nObjects ty) (BodyOk nObjects) := by
  unfold parseBody
  split
  · exact yields_countedValues nObjects _ .ordinary (fun vs hlen hvs => ⟨hlen, hvs⟩)
  split
  · exact yields_parseClosure nObjects
  split
  · exact yields_countedValues nObjects _ .legacyClosure (fun vs hlen hvs => ⟨hlen, hvs⟩)
  split
  · exact yields_countedHex nObjects _ .string (fun b hlen => hlen)
  split
  · exact yields_countedHex nObjects _ .bytes (fun b hlen => hlen)
  split
  · exact yields_parseCode nObjects
  split
  · refine yields_readUsize.bind (fun n hn => Yields.bindAny (fun _ => ?_))
    exact (yields_readName n).bind (fun name hname => .pure (Nat.lt_of_le_of_lt hname hn))
  split
  · exact .pure trivial
  · exact Yields.bindAny (fun pos => .throw)

theorem yields_parseObjectLine (nObjects : UInt32) :
    Yields (parseObjectLine nObjects) (fun r => BodyOk nObjects r.2.body) := by
  refine Yields.bindAny (fun id => Yields.bindAny (fun _ => Yields.bindAny (fun letters => ?_)))
  refine Yields.bindAny (fun ty => ?_)
  refine (yields_parseBody nObjects ty).bind (fun body hbody => ?_)
  exact Yields.bindAny (fun _ => Yields.bindAny (fun _ => .pure hbody))

/-- The slots keep their number, and each filled one holds an accepted object. -/
def SlotsOk (nObjects : UInt32) (n : Nat) (objects : List (Option Object)) : Prop :=
  objects.length = n ∧ ∀ obj, some obj ∈ objects → BodyOk nObjects obj.body

theorem yields_parseObjects (nObjects : UInt32) (n fuel : Nat) {objects : List (Option Object)}
    (observed : Nat) (h : SlotsOk nObjects n objects) :
    Yields (parseObjects nObjects fuel objects observed) (fun r => SlotsOk nObjects n r.1) := by
  induction fuel generalizing objects observed with
  | zero => exact Yields.bindAny (fun pos => .throw)
  | succ fuel ih =>
    refine Yields.bindAny (fun _ => Yields.bindAny (fun done => ?_))
    split
    · exact .pure h
    · refine (yields_parseObjectLine nObjects).bind (fun r hr => ?_)
      dsimp only
      split
      · exact .throw
      · refine ih _ ⟨by rw [List.length_set, h.1], fun obj hobj => ?_⟩
        rcases List.mem_or_eq_of_mem_set hobj with hold | hnew
        · exact h.2 obj hold
        · cases hnew
          exact hr

theorem yields_collectObjects (nObjects : UInt32) (i : Nat) {objects : List (Option Object)}
    (h : ∀ obj, some obj ∈ objects → BodyOk nObjects obj.body) :
    Yields (collectObjects nObjects i objects)
      (fun objs => objs.length = objects.length ∧ ∀ obj ∈ objs, BodyOk nObjects obj.body) := by
  induction objects generalizing i with
  | nil => exact .pure ⟨rfl, by simp⟩
  | cons o objects ih =>
    cases o with
    | none => exact .throw
    | some obj =>
      have hrest := ih (i + 1) (fun x hx => h x (List.mem_cons_of_mem _ hx))
      refine hrest.bind (fun objs hobjs => .pure ⟨?_, ?_⟩)
      · rw [List.length_cons, hobjs.1, List.length_cons]
      · exact List.forall_mem_cons.2 ⟨h obj List.mem_cons_self, hobjs.2⟩

theorem yields_parseArch : Yields parseArch (fun r => ArchOk r.1) := by
  have harch : ∀ a : UInt8, isBlank a = false → isNewline a = false →
      ArchOk (if a = ascii 'I' then SourceArch.interpreted
        else if a = ascii 'X' then .x86
        else if a = ascii 'A' then .arm
        else .other a) := by
    intro a hblank hline
    split
    · trivial
    split
    · trivial
    split
    · trivial
    · exact ⟨hblank, hline, ‹_›, ‹_›, ‹_›⟩
  unfold parseArch peek
  rw [← bind_assoc]
  refine (Yields.skipWhilePeek isBlank ParseError.eof).bind (fun a hblank => ?_)
  split
  · exact .pure trivial
  · rename_i hline
    have hok := harch a hblank (Bool.not_eq_true _ ▸ hline)
    refine Yields.bindAny (fun _ => Yields.bindAny (fun _ => Yields.bindAny (fun w => ?_)))
    split
    · exact .pure hok
    split
    · exact .pure hok
    · exact .throw

/-- Every image the parser returns is printable. -/
theorem yields_parseImage : Yields parseImage Printable := by
  refine Yields.bind (P := fun r => ArchOk r.2.2.1) ?_ (fun r harch => Yields.bindAny (fun c => ?_))
  · refine Yields.bindAny (fun counts => yields_parseArch.bind (fun r hr => ?_))
    exact Yields.bindAny (fun _ => .pure hr)
  · dsimp only
    split
    · exact .throw
    · have hinit : SlotsOk r.1 r.1.toNat (List.replicate r.1.toNat none) := by
        refine ⟨List.length_replicate, fun obj hobj => ?_⟩
        cases List.eq_of_mem_replicate hobj
      refine (yields_parseObjects r.1 _ _ 0 hinit).bind (fun slots hslots => ?_)
      split
      · exact .throw
      · refine (yields_collectObjects r.1 0 hslots.2).bind (fun objs hobjs => .pure ?_)
        have hlen : objs.length = r.1.toNat := by rw [hobjs.1, hslots.1]
        refine ⟨?_, ?_, harch⟩
        · show objs.length < 2 ^ 32
          rw [hlen]
          exact r.1.toNat_lt
        · show ∀ obj ∈ objs, BodyOk (UInt32.ofNat objs.length) obj.body
          rw [hlen, UInt32.ofNat_toNat]
          exact hobjs.2

theorem printable_of_parse {bytes : List UInt8} {img : Image} (h : Image.parse bytes = .ok img) :
    Printable img := by
  unfold Image.parse at h
  cases hrun : parseImage.run ⟨bytes, 0⟩ with
  | error e =>
    rw [hrun] at h
    cases h
  | ok r =>
    rw [hrun] at h
    cases h
    exact yields_parseImage _ _ _ hrun

end Pexport

open Pexport in
/-- An image that was parsed from text is written to a text that parses to the same image if and only
if its architecture byte is an ASCII character. -/
theorem Image.parse_write_iff {bytes : List UInt8} {img : Image} (h : Image.parse bytes = .ok img) :
    Image.parse img.write = .ok img ↔ AsciiArch img.arch := by
  have hprint := printable_of_parse h
  constructor
  · intro hback
    by_contra hascii
    obtain ⟨e, he⟩ := parse_write_fails hprint hascii
    rw [hback] at he
    cases he
  · exact parse_write hprint

/-- A small image with a closure, its code, a byte object and an entry point. -/
def sampleText : List UInt8 :=
  "Objects\t4\nRoot\t0 Z 8\n0:WMC2|@1,-7\n2:B2|0aFF\n1:F1,1|7f|@3|4,1,@2\n3:E2|é\n".asBytes

/-- The image of `sampleText`. -/
def sampleImage : Image where
  root := 0
  arch := .other 0x5A
  wordSize := .bits64
  objects := [
    ⟨⟨true, false, false, true⟩, .closure 1 [.tagged (-7)]⟩,
    ⟨.empty, .code [0x7F] [.ref 3] [⟨4, 1, 2⟩]⟩,
    ⟨.empty, .bytes [0x0A, 0xFF]⟩,
    ⟨.empty, .entryPoint "é"⟩]

theorem Image.parse_sampleText : Image.parse sampleText = .ok sampleImage := by decide +kernel

theorem Image.parse_write_sampleText :
    Image.parse sampleText = .ok sampleImage ∧ Image.parse sampleImage.write = .ok sampleImage :=
  ⟨Image.parse_sampleText, (Image.parse_write_iff Image.parse_sampleText).2 (by decide)⟩

/-- A header whose architecture byte is `0xE9`. -/
def latinHeader : List UInt8 := "Objects\t0\nRoot\t0 ".asBytes ++ 0xE9 :: " 8\n".asBytes

theorem Image.parse_latinHeader : Image.parse latinHeader =
    .ok { root := 0, arch := .other 0xE9, wordSize := .bits64, objects := [] } := by
  decide

/-- The image of `latinHeader` is written to a text that the parser refuses. -/
theorem Image.not_parse_write_latinHeader :
    ¬∀ (bytes : List UInt8) (img : Image), Image.parse bytes = .ok img →
      Image.parse img.write = .ok img := by
  intro h
  have hparse := Image.parse_latinHeader
  obtain ⟨e, he⟩ := Pexport.parse_write_fails (Pexport.printable_of_parse hparse) (by decide)
  rw [h _ _ hparse] at he
  cases he
