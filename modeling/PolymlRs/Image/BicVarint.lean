import PolymlRs.Image.BicRoundTrip
import PolymlRs.Lib.Leb128

set_option autoImplicit false

/-! # The varint reader and the number its bytes denote

The reader refuses a byte that it would have to shift by 64 or more. That is a test of the length of
the group, not of the number: ten bytes carry seventy bits, and the shift of the tenth payload by 63
keeps only its lowest one. -/

namespace Bic

open Leb128 (payloads number)

/-- At `c` the reader agrees with the number denoted by the bytes in front of it. -/
structure UvarintExact (c : Cursor) : Prop where
  /-- A number that fits is returned, and the reader is behind its group. -/
  fits : ∀ ds, payloads c.rest = some ds → number ds < 2 ^ 64 →
    uvarint c = .ok (UInt64.ofNat (number ds), c.advance ds.length)
  /-- An overflow is reported just for the others. -/
  overflows : ∀ ds, payloads c.rest = some ds →
    ((∃ pos, uvarint c = .error (.varintOverflow pos)) ↔ 2 ^ 64 ≤ number ds)
  /-- Bytes that end inside a group denote nothing, and nothing is returned for them. -/
  cut : payloads c.rest = none → ∀ v c', uvarint c ≠ .ok (v, c')

/-- The payloads from the tenth on: a tenth one that ends the group is a single bit, and a longer
group has a bit of weight `2 ^ 64` or more. -/
def WellSized (ds : List Nat) : Prop :=
  match ds.drop 9 with
  | [] => True
  | [tenth] => tenth ≤ 1
  | tenth :: later => 2 ≤ tenth ∨ ∃ d ∈ later, d ≠ 0

/-! ## One round of the reader -/

/-- A payload of the reader is shifted in above the accumulator, and what does not fit is lost. -/
theorem toNat_shiftIn {s : Nat} (hs : s < 64) {acc : UInt64} (hacc : acc.toNat < 2 ^ s) (b : UInt8) :
    (acc ||| ((b &&& 0x7f).toUInt64 <<< UInt64.ofNat s)).toNat =
      (acc.toNat + 2 ^ s * (b.toNat % 128)) % 2 ^ 64 := by
  have hpayload : (b &&& 0x7f).toNat = b.toNat % 128 := by
    rw [UInt8.toNat_and, show (0x7f : UInt8).toNat = 2 ^ 7 - 1 from rfl,
      Nat.and_two_pow_sub_one_eq_mod]
  have hshift : (UInt64.ofNat s).toNat % 64 = s := by
    rw [UInt64.toNat_ofNat']
    omega
  have hwidth : (2 : Nat) ^ 64 = 2 ^ s * 2 ^ (64 - s) := by
    rw [← Nat.pow_add, Nat.add_sub_cancel' (Nat.le_of_lt hs)]
  have hsum : (acc.toNat + 2 ^ s * (b.toNat % 128)) % 2 ^ 64 =
      acc.toNat + 2 ^ s * (b.toNat % 128 % 2 ^ (64 - s)) := by
    rw [hwidth, Nat.mod_mul, Nat.add_mul_mod_self_left, Nat.mod_eq_of_lt hacc,
      Nat.add_mul_div_left _ _ (Nat.two_pow_pos s), Nat.div_eq_of_lt hacc, Nat.zero_add]
  rw [UInt64.toNat_or, UInt64.toNat_shiftLeft, hshift, UInt8.toNat_toUInt64, hpayload,
    Nat.shiftLeft_eq, Nat.mul_comm _ (2 ^ s), hsum, hwidth, Nat.mul_mod_mul_left, Nat.or_comm,
    ← Nat.two_pow_add_eq_or_of_lt hacc, Nat.add_comm]

theorem u8_cons {c : Cursor} {b : UInt8} {bs : List UInt8} (h : c.rest = b :: bs) :
    u8 c = .ok (b, c.advance 1) := by
  have hvalid : c.Valid := by
    rw [Cursor.Valid, Nat.le_iff_lt_or_eq]
    left
    have hlen := congrArg List.length h
    rw [Cursor.rest, List.length_drop, List.length_cons] at hlen
    omega
  exact reads_u8 b c bs hvalid trivial h

theorem u8_nil {c : Cursor} (h : c.rest = []) : u8 c = .error (.eof c.pos) := by
  have hend : c.bytes[c.pos]? = none := by rw [c.getElem?_pos, h]; rfl
  have hpeek : Parser.peek BicError.eof c = .error (.eof c.pos) := by
    simp only [Parser.peek, hend]
  show (Parser.peek BicError.eof c >>= fun r => _) = _
  rw [hpeek]
  rfl

theorem rest_advance_one {c : Cursor} {b : UInt8} {bs : List UInt8} (h : c.rest = b :: bs) :
    (c.advance 1).rest = bs := @Cursor.rest_advance c [b] bs h

/-- What the loop does with the byte it has read. -/
theorem uvarintLoop_cons {c : Cursor} {b : UInt8} {bs : List UInt8} (h : c.rest = b :: bs)
    (fuel : Nat) (acc shift : UInt64) : uvarintLoop (fuel + 1) acc shift c =
      if shift ≥ 64 then .error (.varintOverflow (c.pos + 1))
      else if b &&& 0x80 = 0 then
        .ok (acc ||| ((b &&& 0x7f).toUInt64 <<< shift), c.advance 1)
      else uvarintLoop fuel (acc ||| ((b &&& 0x7f).toUInt64 <<< shift)) (shift + 7) (c.advance 1) := by
  have hrun : uvarintLoop (fuel + 1) acc shift c =
      (if shift ≥ 64 then Parser.position >>= fun at' => throw (.varintOverflow at')
        else if b &&& 0x80 = 0 then pure (acc ||| ((b &&& 0x7f).toUInt64 <<< shift))
        else uvarintLoop fuel (acc ||| ((b &&& 0x7f).toUInt64 <<< shift)) (shift + 7) :
        Reader UInt64) (c.advance 1) := by
    rw [uvarintLoop]
    show (u8 c >>= _) = _
    rw [u8_cons h]
    rfl
  rw [hrun]
  split
  · rfl
  · split
    · rfl
    · rfl

/-! ## The whole group -/

theorem shift_ge_iff {k : Nat} (hk : k ≤ 10) : UInt64.ofNat (7 * k) ≥ 64 ↔ k = 10 := by
  have hs : (UInt64.ofNat (7 * k)).toNat = 7 * k := by
    rw [UInt64.toNat_ofNat', Nat.mod_eq_of_lt (by omega)]
  rw [ge_iff_le, UInt64.le_iff_toNat_le, hs, show (64 : UInt64).toNat = 64 from rfl]
  omega

/-- The loop behind `k` bytes. It returns the number of the whole group, reduced to 64 bits, when
ten bytes are enough for the group; the eleventh byte is an overflow, whatever it is. -/
theorem uvarintLoop_group (fuel : Nat) : ∀ (k : Nat) (acc : UInt64) (c : Cursor) (ds : List Nat),
    k + fuel = 11 → (k ≤ 9 → acc.toNat < 2 ^ (7 * k)) → payloads c.rest = some ds →
    uvarintLoop fuel acc (UInt64.ofNat (7 * k)) c =
      if k + ds.length ≤ 10 then
        .ok (UInt64.ofNat (acc.toNat + 2 ^ (7 * k) * number ds), c.advance ds.length)
      else .error (.varintOverflow (c.pos + fuel)) := by
  induction fuel with
  | zero =>
    intro k acc c ds hk _ hds
    have hpos := (Leb128.payloads_spec hds).1
    rw [if_neg (by omega)]
    rfl
  | succ fuel ih =>
    intro k acc c ds hk hacc hds
    have hpos := (Leb128.payloads_spec hds).1
    cases hrest : c.rest with
    | nil =>
      rw [hrest] at hds
      cases hds
    | cons b bs =>
      rw [uvarintLoop_cons hrest]
      rw [hrest] at hds
      by_cases h10 : k = 10
      · rw [if_pos ((shift_ge_iff (by omega)).2 h10), if_neg (by omega)]
        have hfuel : fuel = 0 := by omega
        rw [hfuel]
      · rw [if_neg (fun h => h10 ((shift_ge_iff (by omega)).1 h))]
        have hacc' := toNat_shiftIn (show 7 * k < 64 by omega) (hacc (by omega)) b
        by_cases hb : b.toNat < 128
        · -- the last byte of the group
          rw [Leb128.payloads_stop hb] at hds
          cases hds
          rw [List.length_singleton, if_pos ((continued_iff b).2 hb),
            if_pos (show k + 1 ≤ 10 by omega), Leb128.number_singleton]
          have hval : acc ||| ((b &&& 0x7f).toUInt64 <<< UInt64.ofNat (7 * k)) =
              UInt64.ofNat (acc.toNat + 2 ^ (7 * k) * (b.toNat % 128)) := by
            apply UInt64.toNat_inj.1
            rw [hacc', UInt64.toNat_ofNat']
          rw [hval]
        · rw [Leb128.payloads_more hb] at hds
          obtain ⟨tl, htl, rfl⟩ := Option.map_eq_some_iff.1 hds
          rw [if_neg (fun h => hb ((continued_iff b).1 h))]
          have hweight : 2 ^ (7 * (k + 1)) = 2 ^ (7 * k) * 128 := by
            rw [Nat.mul_add, Nat.pow_add]
          have hsmall : (acc ||| ((b &&& 0x7f).toUInt64 <<< UInt64.ofNat (7 * k))).toNat <
              2 ^ (7 * (k + 1)) := by
            rw [hacc']
            have hle := Nat.mod_le (acc.toNat + 2 ^ (7 * k) * (b.toNat % 128)) (2 ^ 64)
            have hmul : 2 ^ (7 * k) * (b.toNat % 128) ≤ 2 ^ (7 * k) * 127 :=
              Nat.mul_le_mul_left _ (by omega)
            have hlt := hacc (by omega)
            omega
          have hval : UInt64.ofNat ((acc ||| ((b &&& 0x7f).toUInt64 <<< UInt64.ofNat (7 * k))).toNat +
              2 ^ (7 * (k + 1)) * number tl) =
              UInt64.ofNat (acc.toNat + 2 ^ (7 * k) * number (b.toNat % 128 :: tl)) := by
            apply UInt64.toNat_inj.1
            rw [hacc', UInt64.toNat_ofNat', UInt64.toNat_ofNat', Nat.mod_add_mod,
              Leb128.number_cons, hweight, Nat.mul_add, Nat.mul_assoc, Nat.add_assoc]
          have hshift : UInt64.ofNat (7 * k) + 7 = UInt64.ofNat (7 * (k + 1)) := by
            rw [Nat.mul_add, Nat.mul_one, UInt64.ofNat_add]
            rfl
          have htail : payloads (c.advance 1).rest = some tl := by rwa [rest_advance_one hrest]
          rw [hshift, ih (k + 1) _ (c.advance 1) tl (by omega) (fun _ => hsmall) htail, hval,
            Cursor.advance_advance, List.length_cons, Cursor.pos_advance,
            show k + 1 + tl.length = k + (tl.length + 1) by omega, Nat.add_comm 1 tl.length,
            show c.pos + 1 + fuel = c.pos + (fuel + 1) by omega]

/-- Bytes that end inside the group: the loop finds the end of the input or the eleventh byte. -/
theorem uvarintLoop_cut (fuel : Nat) : ∀ (acc shift : UInt64) (c : Cursor),
    payloads c.rest = none → ∃ e, uvarintLoop fuel acc shift c = .error e := by
  induction fuel with
  | zero => exact fun _ _ c _ => ⟨.varintOverflow c.pos, rfl⟩
  | succ fuel ih =>
    intro acc shift c hnone
    cases hrest : c.rest with
    | nil =>
      refine ⟨.eof c.pos, ?_⟩
      rw [uvarintLoop]
      show (u8 c >>= _) = _
      rw [u8_nil hrest]
      rfl
    | cons b bs =>
      rw [uvarintLoop_cons hrest]
      rw [hrest] at hnone
      by_cases hb : b.toNat < 128
      · rw [Leb128.payloads_stop hb] at hnone
        cases hnone
      · rw [Leb128.payloads_more hb, Option.map_eq_none_iff] at hnone
        rw [if_neg (fun h => hb ((continued_iff b).1 h))]
        by_cases hs : shift ≥ 64
        · exact ⟨_, if_pos hs⟩
        · rw [if_neg hs]
          exact ih _ _ (c.advance 1) (by rwa [rest_advance_one hrest])

/-- The reader on a complete group. -/
theorem uvarint_group {c : Cursor} {ds : List Nat} (h : payloads c.rest = some ds) :
    uvarint c = if ds.length ≤ 10 then .ok (UInt64.ofNat (number ds), c.advance ds.length)
      else .error (.varintOverflow (c.pos + 11)) := by
  have hloop := uvarintLoop_group 11 0 0 c ds rfl (fun _ => Nat.one_pos) h
  rwa [Nat.zero_add, Nat.mul_zero, Nat.pow_zero, Nat.one_mul, UInt64.toNat_zero, Nat.zero_add]
    at hloop

/-- The overflow is a matter of the length. -/
theorem overflows_iff {c : Cursor} {ds : List Nat} (h : payloads c.rest = some ds) :
    (∃ pos, uvarint c = .error (.varintOverflow pos)) ↔ ¬ds.length ≤ 10 := by
  rw [uvarint_group h]
  by_cases hlen : ds.length ≤ 10
  · rw [if_pos hlen]
    exact ⟨fun ⟨_, he⟩ => (nomatch he), fun hn => absurd hlen hn⟩
  · rw [if_neg hlen]
    exact ⟨fun _ => hlen, fun _ => ⟨_, rfl⟩⟩

/-! ## When the length says enough -/

/-- Ten bytes hold the number of a group just when it fits into 64 bits: this is what the reader
takes for granted, and what the payloads from the tenth on decide. -/
theorem wellSized_iff {ds : List Nat} (hds : ∀ d ∈ ds, d < 128) :
    WellSized ds ↔ (ds.length ≤ 10 ↔ number ds < 2 ^ 64) := by
  have hlen : (ds.drop 9).length = ds.length - 9 := List.length_drop
  by_cases h9 : ds.length ≤ 9
  · have hsmall : number ds < 2 ^ 64 := by
      have hlt := Leb128.number_lt hds
      have hle : 128 ^ ds.length ≤ 128 ^ 9 := Nat.pow_le_pow_right (by decide) h9
      omega
    rw [WellSized, List.drop_eq_nil_of_le h9]
    exact ⟨fun _ => ⟨fun _ => hsmall, fun _ => by omega⟩, fun _ => trivial⟩
  · have hfits : number ds < 2 ^ 64 ↔ number (ds.drop 9) < 2 :=
      Leb128.number_lt_iff (k := 9) (m := 2) hds (by omega)
    rw [hfits, WellSized]
    cases hdrop : ds.drop 9 with
    | nil =>
      rw [hdrop, List.length_nil] at hlen
      omega
    | cons tenth later =>
      rw [hdrop, List.length_cons] at hlen
      cases later with
      | nil =>
        rw [List.length_nil] at hlen
        rw [Leb128.number_singleton]
        show tenth ≤ 1 ↔ _
        omega
      | cons d later =>
        rw [List.length_cons] at hlen
        rw [Leb128.number_cons]
        show (2 ≤ tenth ∨ ∃ x ∈ d :: later, x ≠ 0) ↔ _
        rw [← Leb128.number_ne_zero_iff]
        omega

end Bic

/-- **When a varint is read exactly.** The reader returns the number that the bytes denote, and
reports an overflow for the numbers that do not fit and for no other, just on the groups whose
payloads from the tenth on say so. -/
theorem Bic.uvarintExact_iff (c : Cursor) :
    Bic.UvarintExact c ↔ ∀ ds, Leb128.payloads c.rest = some ds → Bic.WellSized ds := by
  constructor
  · intro h ds hds
    have hover := h.overflows ds hds
    rw [Bic.overflows_iff hds] at hover
    rw [Bic.wellSized_iff (Leb128.payloads_spec hds).2]
    omega
  · intro h
    have hlen : ∀ ds, Leb128.payloads c.rest = some ds →
        (ds.length ≤ 10 ↔ Leb128.number ds < 2 ^ 64) :=
      fun ds hds => (Bic.wellSized_iff (Leb128.payloads_spec hds).2).1 (h ds hds)
    refine ⟨fun ds hds hfits => ?_, fun ds hds => ?_, fun hnone v c' hok => ?_⟩
    · rw [Bic.uvarint_group hds, if_pos ((hlen ds hds).2 hfits)]
    · rw [Bic.overflows_iff hds, hlen ds hds]
      omega
    · obtain ⟨e, he⟩ := Bic.uvarintLoop_cut 11 0 0 c hnone
      change Bic.uvarint c = _ at he
      rw [he] at hok
      cases hok

/-- Nine bytes without a payload, then `2`: the bytes denote `2 ^ 64`, and the reader returns 0. -/
theorem Bic.uvarint_dropsHighBits : ¬Bic.UvarintExact ⟨List.replicate 9 0x80 ++ [0x02], 0⟩ := by
  intro h
  obtain ⟨pos, hpos⟩ := (h.overflows [0, 0, 0, 0, 0, 0, 0, 0, 0, 2] rfl).2 (by decide)
  have hrun : Bic.uvarint ⟨List.replicate 9 0x80 ++ [0x02], 0⟩ =
      .ok (0, ⟨List.replicate 9 0x80 ++ [0x02], 10⟩) := rfl
  rw [hrun] at hpos
  cases hpos
