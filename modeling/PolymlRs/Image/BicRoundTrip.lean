import PolymlRs.Image.Bicimage

set_option autoImplicit false

/-! # The binary format reads back what it wrote

One `Reads` lemma for each field and each writer, in the order of the writer, from the varints up to
the whole image. -/

namespace Bic

/-! ## Varints -/

theorem toNat_shiftRight_seven (v : UInt64) : (v >>> 7).toNat = v.toNat / 128 := by
  rw [UInt64.toNat_shiftRight]
  simp [Nat.shiftRight_eq_div_pow]

theorem toNat_low7 (v : UInt64) : ((v &&& 0x7f).toUInt8).toNat = v.toNat % 128 := by
  have h : (0x7f : UInt64).toNat = 2 ^ 7 - 1 := rfl
  rw [UInt64.toNat_toUInt8, UInt64.toNat_and, h, Nat.and_two_pow_sub_one_eq_mod]
  omega

theorem toNat_continued {b : UInt8} (h : b.toNat < 128) : (b ||| 0x80).toNat = b.toNat + 128 := by
  have h80 : (0x80 : UInt8).toNat = 2 ^ 7 * 1 := rfl
  rw [UInt8.toNat_or, h80, Nat.or_comm, ← Nat.two_pow_add_eq_or_of_lt h]
  omega

/-- One round of the writer, in numbers. -/
theorem writeUvarint_eq (v : UInt64) : writeUvarint v =
    if v.toNat / 128 = 0 then [UInt8.ofNat (v.toNat % 128)]
    else UInt8.ofNat (v.toNat % 128 + 128) :: writeUvarint (v >>> 7) := by
  have hlow : (v &&& 0x7f).toUInt8 = UInt8.ofNat (v.toNat % 128) := by
    apply UInt8.toNat_inj.1
    rw [toNat_low7, UInt8.toNat_ofNat']
    omega
  have hhigh : (v &&& 0x7f).toUInt8 ||| 0x80 = UInt8.ofNat (v.toNat % 128 + 128) := by
    apply UInt8.toNat_inj.1
    rw [toNat_continued (by rw [toNat_low7]; omega), toNat_low7, UInt8.toNat_ofNat']
    omega
  rw [writeUvarint]
  by_cases h : v.toNat / 128 = 0
  · have hz : v >>> 7 = 0 := UInt64.toNat_inj.1 (by rw [toNat_shiftRight_seven]; simpa using h)
    rw [if_pos h, if_pos hz, hlow]
  · have hz : ¬ v >>> 7 = 0 := fun he => h (by rw [← toNat_shiftRight_seven, he]; rfl)
    rw [if_neg h, if_neg hz, hhigh]

/-- The seven payload bits of a byte of the writer. -/
theorem toNat_payload (n : Nat) (b : UInt8)
    (hb : b = UInt8.ofNat (n % 128) ∨ b = UInt8.ofNat (n % 128 + 128)) :
    (b &&& 0x7f).toNat = n % 128 := by
  have h7f : (0x7f : UInt8).toNat = 2 ^ 7 - 1 := rfl
  rw [UInt8.toNat_and, h7f, Nat.and_two_pow_sub_one_eq_mod]
  rcases hb with rfl | rfl
  · rw [UInt8.toNat_ofNat']
    omega
  · rw [UInt8.toNat_ofNat']
    omega

/-- Bit 7 of a byte tells whether another byte follows. -/
theorem continued_iff (b : UInt8) : b &&& 0x80 = 0 ↔ b.toNat < 128 := by
  have hb : ∀ i : Fin 256, i.val &&& 128 = i.val / 128 * 128 := by decide +kernel
  have hand : (b &&& 0x80).toNat = b.toNat / 128 * 128 := by
    rw [UInt8.toNat_and]
    exact hb ⟨b.toNat, b.toNat_lt⟩
  rw [← UInt8.toNat_inj, hand]
  have := b.toNat_lt
  simp only [UInt8.reduceToNat]
  omega

/-- The accumulator takes seven more bits of `V`. -/
theorem accumulate {V s : Nat} (hV : V < 2 ^ 64) (hs : s < 64) {acc : UInt64} {b : UInt8}
    (hacc : acc.toNat = V % 2 ^ s) (hb : (b &&& 0x7f).toNat = V / 2 ^ s % 128) :
    (acc ||| ((b &&& 0x7f).toUInt64 <<< UInt64.ofNat s)).toNat = V % 2 ^ (s + 7) := by
  have hfit : V / 2 ^ s % 128 * 2 ^ s < 2 ^ 64 := by
    have h1 : V / 2 ^ s % 128 ≤ V / 2 ^ s := Nat.mod_le ..
    have h2 : V / 2 ^ s * 2 ^ s ≤ V := Nat.div_mul_le_self ..
    have h3 : V / 2 ^ s % 128 * 2 ^ s ≤ V / 2 ^ s * 2 ^ s := Nat.mul_le_mul_right _ h1
    omega
  have hshift : (UInt64.ofNat s).toNat % 64 = s := by
    rw [UInt64.toNat_ofNat']
    omega
  rw [UInt64.toNat_or, UInt64.toNat_shiftLeft, hshift, UInt8.toNat_toUInt64, hb, hacc,
    Nat.shiftLeft_eq, Nat.mod_eq_of_lt hfit, Nat.or_comm, Nat.mul_comm,
    ← Nat.two_pow_add_eq_or_of_lt (Nat.mod_lt _ (Nat.two_pow_pos s)), Nat.pow_add, Nat.mod_mul,
    Nat.add_comm, show (2 : Nat) ^ 7 = 128 from rfl]

/-- The reader after `k` bytes: the accumulator holds the low `7k` bits of `V`, and the encoding of
the remaining bits is next. -/
theorem reads_uvarintLoop (V : UInt64) : ∀ (fuel k : Nat) (acc : UInt64), k ≤ 9 → fuel + k = 11 →
    acc.toNat = V.toNat % 2 ^ (7 * k) → ∀ w : UInt64, w.toNat = V.toNat / 2 ^ (7 * k) →
    Parser.Reads Parser.Anything (uvarintLoop fuel acc (UInt64.ofNat (7 * k))) (writeUvarint w) V := by
  intro fuel
  induction fuel with
  | zero => intro k acc hk hfuel; omega
  | succ fuel ih =>
    intro k acc hk hfuel hacc w hw
    have hV := V.toNat_lt
    have hdiv : V.toNat / 2 ^ (7 * k) / 128 = V.toNat / 2 ^ (7 * k + 7) := by
      rw [Nat.div_div_eq_div_mul, Nat.pow_add]
    have hs : (UInt64.ofNat (7 * k)).toNat = 7 * k := by
      rw [UInt64.toNat_ofNat', Nat.mod_eq_of_lt (by omega)]
    have hshift : ¬ UInt64.ofNat (7 * k) ≥ 64 := by
      rw [ge_iff_le, UInt64.le_iff_toNat_le, hs, show (64 : UInt64).toNat = 64 from rfl]
      omega
    rw [writeUvarint_eq, hw, uvarintLoop]
    by_cases hlast : V.toNat / 2 ^ (7 * k) / 128 = 0
    · rw [if_pos hlast]
      have hsmall : V.toNat < 2 ^ (7 * k + 7) := by
        rw [hdiv] at hlast
        exact (Nat.div_eq_zero_iff_lt (Nat.two_pow_pos _)).1 hlast
      have hstop : UInt8.ofNat (V.toNat / 2 ^ (7 * k) % 128) &&& 0x80 = 0 := by
        rw [continued_iff, UInt8.toNat_ofNat']
        omega
      have hval := accumulate hV (by omega) hacc
        (toNat_payload (V.toNat / 2 ^ (7 * k)) _ (Or.inl rfl))
      rw [Nat.mod_eq_of_lt hsmall] at hval
      refine Parser.Reads.bumpBind ?_
      rw [if_neg hshift, if_pos hstop, UInt64.toNat_inj.1 hval]
      exact .pure V
    · rw [if_neg hlast]
      have hmore : ¬ UInt8.ofNat (V.toNat / 2 ^ (7 * k) % 128 + 128) &&& 0x80 = 0 := by
        rw [continued_iff, UInt8.toNat_ofNat']
        omega
      have hk9 : k + 1 ≤ 9 := by
        by_contra hcon
        have h63 : k = 9 := by omega
        subst h63
        omega
      have hval := accumulate hV (by omega) hacc
        (toNat_payload (V.toNat / 2 ^ (7 * k)) _ (Or.inr rfl))
      have hnext : UInt64.ofNat (7 * k) + 7 = UInt64.ofNat (7 * (k + 1)) := by
        apply UInt64.toNat_inj.1
        rw [UInt64.toNat_add, hs, UInt64.toNat_ofNat', show (7 : UInt64).toNat = 7 from rfl]
        rfl
      refine Parser.Reads.bumpBind ?_
      rw [if_neg hshift, if_neg hmore, hnext]
      refine ih (k + 1) _ hk9 (by omega) hval _ ?_
      rw [toNat_shiftRight_seven, hw, hdiv]
      rfl

theorem reads_uvarint (v : UInt64) : Parser.Reads Parser.Anything uvarint (writeUvarint v) v :=
  reads_uvarintLoop v 11 0 0 (by omega) rfl (by simp [Nat.mod_one]) v (by simp)

/-- The sign of `n` in every bit. -/
theorem sshiftRight_sign (b : BitVec 64) : b.sshiftRight 63 = BitVec.fill 64 b.msb := by
  apply BitVec.eq_of_toInt_eq
  rw [BitVec.toInt_sshiftRight, BitVec.fill_toInt, Int.shiftRight_eq_div_pow, BitVec.msb_eq_toInt]
  have h1 := b.toInt_lt
  have h2 := b.le_toInt
  by_cases h : b.toInt < 0
  · simp [h]
    omega
  · simp [h]
    omega

theorem toBitVec_zigzag (n : Int64) :
    (zigzag n).toBitVec = (n.toBitVec <<< 1) ^^^ BitVec.fill 64 n.toBitVec.msb := by
  rw [← sshiftRight_sign]
  rfl

theorem unzigzag_zigzag (n : Int64) : unzigzag (zigzag n) = n := by
  apply Int64.toBitVec.inj
  have hun : (unzigzag (zigzag n)).toBitVec =
      (zigzag n).toBitVec >>> 1 ^^^ -((zigzag n).toBitVec &&& 1#64) := rfl
  have hlow : (zigzag n).toBitVec &&& 1#64 = if n.toBitVec.msb then 1#64 else 0#64 := by
    rw [toBitVec_zigzag]
    apply BitVec.eq_of_getLsbD_eq
    intro i hi
    cases i with
    | zero => cases n.toBitVec.msb <;> simp [BitVec.fill_eq]
    | succ i => cases n.toBitVec.msb <;> simp [BitVec.getLsbD_one]
  have hneg : -((zigzag n).toBitVec &&& 1#64) = BitVec.fill 64 n.toBitVec.msb := by
    rw [hlow]
    cases n.toBitVec.msb <;> rfl
  rw [hun, hneg, toBitVec_zigzag]
  apply BitVec.eq_of_getLsbD_eq
  intro i hi
  simp only [BitVec.getLsbD_xor, BitVec.getLsbD_ushiftRight, BitVec.getLsbD_shiftLeft,
    BitVec.getLsbD_fill]
  by_cases h63 : i = 63
  · subst h63
    simp [BitVec.msb_eq_getLsbD_last]
  · have h64 : 1 + i < 64 := by omega
    simp [h64, hi]

theorem reads_ivarint (n : Int64) :
    Parser.Reads Parser.Anything ivarint (writeUvarint (zigzag n)) n := by
  have h := (reads_uvarint (zigzag n)).map (g := unzigzag)
  rwa [unzigzag_zigzag] at h

theorem reads_u32 (n : UInt32) : Parser.Reads Parser.Anything u32 (writeUvarint n.toUInt64) n := by
  have hlt : n.toUInt64.toNat < 2 ^ 32 := by
    rw [UInt32.toNat_toUInt64]
    exact n.toNat_lt
  refine (reads_uvarint n.toUInt64).finish ?_
  rw [if_pos hlt, UInt32.toUInt32_toUInt64]

theorem reads_usize {n : Nat} (h : n < 2 ^ 64) :
    Parser.Reads Parser.Anything usize (writeLen n) n := by
  have hr := (reads_uvarint (UInt64.ofNat n)).map (g := UInt64.toNat)
  rwa [UInt64.toNat_ofNat', Nat.mod_eq_of_lt h] at hr

theorem reads_u8 (b : UInt8) : Parser.Reads Parser.Anything u8 [b] b := Parser.Reads.bump _ b

/-! ## Fields -/

theorem reads_bytes {b : List UInt8} (h : b.length < 2 ^ 64) :
    Parser.Reads Parser.Anything bytes (writeBytes b) b := by
  refine (reads_uvarint (UInt64.ofNat b.length)).bindAny ?_
  intro c post hc _ hr
  have hlen : (UInt64.ofNat b.length).toNat = b.length := by
    rw [UInt64.toNat_ofNat', Nat.mod_eq_of_lt h]
  show (if c.pos + (UInt64.ofNat b.length).toNat ≤ c.bytes.length then _ else _ : Reader _) c = _
  rw [hlen, if_pos (hc.room hr)]
  show Except.ok (c.rest.take b.length, c.advance b.length) = _
  rw [hr, List.take_left]

theorem reads_value (v : Value) : Parser.Reads Parser.Anything value (writeValue v) v := by
  cases v with
  | tagged n =>
    refine Parser.Reads.bumpBind ?_
    rw [if_pos rfl]
    exact (reads_ivarint n).map
  | ref id =>
    refine Parser.Reads.bumpBind ?_
    rw [if_neg (by decide), if_pos rfl]
    exact (reads_u32 id).map

theorem reads_values {vs : List Value} (h : vs.length < 2 ^ 64) :
    Parser.Reads Parser.Anything values (writeValues vs) vs :=
  (reads_usize h).bindAny (.times (fun v _ => reads_value v))

theorem reads_reloc (r : CodeReloc) : Parser.Reads Parser.Anything reloc (writeReloc r) r :=
  (reads_u32 r.offset).bindAny ((reads_u8 r.kind).bindAny (reads_u32 r.target).map)

/-- Well-formed UTF-8 has no byte to replace. -/
theorem fromUtf8LossyLoop_encode (cs : List Char) : ∀ fuel : Nat,
    (cs.flatMap String.utf8EncodeChar).length ≤ fuel →
      fromUtf8LossyLoop fuel (cs.flatMap String.utf8EncodeChar) = cs := by
  induction cs with
  | nil => intro fuel _; cases fuel <;> rfl
  | cons c cs ih =>
    intro fuel hfuel
    have hdec : (c :: cs |>.flatMap String.utf8EncodeChar).toByteArray.utf8DecodeChar? 0 = some c :=
      List.utf8DecodeChar?_utf8Encode_cons
    have hdrop : ((c :: cs).flatMap String.utf8EncodeChar).drop c.utf8Size =
        cs.flatMap String.utf8EncodeChar := by
      rw [List.flatMap_cons, ← String.length_utf8EncodeChar c, List.drop_left]
    have hlen : ((c :: cs).flatMap String.utf8EncodeChar).length =
        c.utf8Size + (cs.flatMap String.utf8EncodeChar).length := by
      rw [List.flatMap_cons, List.length_append, String.length_utf8EncodeChar]
    have hpos := c.utf8Size_pos
    cases fuel with
    | zero => omega
    | succ fuel =>
      cases hbs : (c :: cs).flatMap String.utf8EncodeChar with
      | nil =>
        rw [hbs] at hlen
        simp only [List.length_nil] at hlen
        omega
      | cons b t =>
        rw [hbs] at hdec hdrop
        rw [fromUtf8LossyLoop, hdec]
        show c :: fromUtf8LossyLoop fuel ((b :: t).drop c.utf8Size) = c :: cs
        rw [hdrop, ih fuel (by omega)]

theorem fromUtf8Lossy_asBytes (s : String) : fromUtf8Lossy s.asBytes = s := by
  rw [fromUtf8Lossy, String.asBytes_eq, fromUtf8LossyLoop_encode _ _ (Nat.le_refl _),
    String.ofList_toList]

/-! ## Objects -/

theorem reads_body {body : ObjectBody} (h : body.Fits) :
    Parser.Reads Parser.Anything readBody (writeBody body) body := by
  cases body with
  | ordinary vs =>
    refine Parser.Reads.bumpBind ?_
    rw [if_pos rfl]
    exact (reads_values h).map
  | closure codeAddr vs =>
    refine Parser.Reads.bumpBind ?_
    rw [if_neg (by decide), if_pos rfl]
    exact (reads_u32 codeAddr).bindAny (reads_values h).map
  | legacyClosure vs =>
    refine Parser.Reads.bumpBind ?_
    rw [if_neg (by decide), if_neg (by decide), if_pos rfl]
    exact (reads_values h).map
  | string b =>
    refine Parser.Reads.bumpBind ?_
    rw [if_neg (by decide), if_neg (by decide), if_neg (by decide), if_pos rfl]
    exact (reads_bytes h).map
  | bytes b =>
    refine Parser.Reads.bumpBind ?_
    rw [if_neg (by decide), if_neg (by decide), if_neg (by decide), if_neg (by decide), if_pos rfl]
    exact (reads_bytes h).map
  | code codeBytes constants relocs =>
    refine Parser.Reads.bumpBind ?_
    rw [if_neg (by decide), if_neg (by decide), if_neg (by decide), if_neg (by decide),
      if_neg (by decide), if_pos rfl]
    exact (reads_bytes h.1).bindAny ((reads_values h.2.1).bindAny ((reads_usize h.2.2).bindAny
      (Parser.Reads.times (fun r _ => reads_reloc r)).map))
  | entryPoint name =>
    refine Parser.Reads.bumpBind ?_
    rw [if_neg (by decide), if_neg (by decide), if_neg (by decide), if_neg (by decide),
      if_neg (by decide), if_neg (by decide), if_pos rfl]
    have hname := (reads_bytes h).map (g := fun b => ObjectBody.entryPoint (fromUtf8Lossy b))
    rwa [fromUtf8Lossy_asBytes] at hname
  | weakRef =>
    refine Parser.Reads.bumpBind ?_
    rw [if_neg (by decide), if_neg (by decide), if_neg (by decide), if_neg (by decide),
      if_neg (by decide), if_neg (by decide), if_neg (by decide), if_pos rfl]
    exact .pure _

theorem reads_object {obj : Object} (h : obj.body.Fits) :
    Parser.Reads Parser.Anything readObject (writeObject obj) obj := by
  refine Parser.Reads.bumpBind ?_
  simp only [ObjFlags.fromBitsTruncate_bits]
  exact (reads_body h).map

/-! ## The image -/

theorem reads_magic (bs : List UInt8) : Parser.Reads Parser.Anything (readMagic bs) bs () := by
  induction bs with
  | nil => exact .pure ()
  | cons b bs ih =>
    refine Parser.Reads.bumpBind ?_
    rw [if_neg (by simp)]
    exact ih

/-- The architecture is one the reader can return. -/
def Readable (a : SourceArch) : Prop := archFromByte (archByte a) = a

theorem archFromByte_archByte (b : UInt8) : Readable (archFromByte b) := by
  unfold Readable archFromByte
  split
  · rfl
  · split
    · rfl
    · split
      · rfl
      · rename_i hI hX hA
        simp only [archByte, hI, hX, hA, if_false]

theorem reads_image {img : Image} (harch : Readable img.arch) (hfits : img.Fits) :
    Parser.Reads Parser.Anything readImage img.writeBic img := by
  have hword : (if UInt8.ofNat img.wordSize.bytes = 4 then WordSize.bits32 else WordSize.bits64) =
      img.wordSize := by
    cases img.wordSize <;> rfl
  refine (reads_magic magic).bindAny ?_
  refine (reads_u8 _).bindAny ?_
  refine (reads_u8 _).bindAny ?_
  refine (reads_u32 img.root).bindAny ?_
  refine (reads_usize hfits.objects).bindAny ?_
  refine (Parser.Reads.times (fun o ho => reads_object (hfits.bodies o ho))).finish ?_
  rw [hword, harch]

theorem readBic_written {img : Image} (harch : Readable img.arch) (hfits : img.Fits) :
    Image.readBic img.writeBic = .ok img := by
  have hrest : (⟨img.writeBic, 0⟩ : Cursor).rest = img.writeBic ++ [] := by
    rw [Cursor.rest, List.drop_zero, List.append_nil]
  have hrun := reads_image harch hfits ⟨img.writeBic, 0⟩ [] (Nat.zero_le _) trivial hrest
  unfold Image.readBic
  rw [StateT.run, hrun]
  rfl

end Bic

/-- **Binary round trip.** Every image that memory can hold, with an architecture as the reader
produces it, is read back from its serialization. -/
theorem Image.readBic_writeBic (img : Image) (harch : ∃ b, img.arch = Bic.archFromByte b)
    (hfits : img.Fits) : Image.readBic img.writeBic = .ok img := by
  obtain ⟨b, hb⟩ := harch
  refine Bic.readBic_written ?_ hfits
  rw [hb]
  exact Bic.archFromByte_archByte b

/-- One object of each kind, the extreme integers, and a name that is not ASCII. -/
def everyKind : Image :=
  { root := 0, arch := .other 0xff, wordSize := .bits32
    objects :=
      [⟨⟨true, false, true, true⟩, .closure 5 [.tagged (-9223372036854775808), .ref 4294967295]⟩,
       ⟨⟨false, false, false, false⟩, .ordinary [.tagged 9223372036854775807, .ref 0]⟩,
       ⟨⟨false, false, false, false⟩, .legacyClosure []⟩,
       ⟨⟨false, false, false, false⟩, .string [0x00, 0x0a, 0xff]⟩,
       ⟨⟨false, true, false, false⟩, .bytes [0x80]⟩,
       ⟨⟨false, false, false, false⟩, .code [0xde, 0xad] [.tagged (-1)] [⟨300, 255, 2⟩]⟩,
       ⟨⟨false, false, true, false⟩, .entryPoint "λ"⟩,
       ⟨⟨false, false, false, true⟩, .weakRef⟩] }

theorem Image.readBic_writeBic_everyKind : Image.readBic everyKind.writeBic = .ok everyKind :=
  Image.readBic_writeBic everyKind ⟨0xff, rfl⟩
    ⟨by decide, by simp [everyKind, ObjectBody.Fits, String.asBytes_eq, String.utf8EncodeChar]⟩
