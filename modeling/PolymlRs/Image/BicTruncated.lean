import PolymlRs.Image.BicRoundTrip

set_option autoImplicit false

/-! # A truncated binary image is rejected

Every field of the format is delimited by the bytes before it: a fixed width, a continuation bit, or
a count. So the reader never asks where the input ends to decide that a field is complete, and a run
that succeeds on the start of a file succeeds in the same way on the whole of it. The reader of a
whole file stops at the last byte, which no shorter run can reach. -/

namespace Bic

/-! ## Every field is delimited by the bytes before it -/

theorem local_u8 : Parser.Local u8 := .bump _

theorem local_uvarintLoop (fuel : Nat) : ∀ result shift : UInt64,
    Parser.Local (uvarintLoop fuel result shift) := by
  induction fuel with
  | zero => exact fun _ _ => .bind .position (fun _ => .throw _)
  | succ fuel ih =>
    intro result shift
    exact .bind local_u8 (fun b => .ite (.bind .position (fun _ => .throw _))
      (.ite (.pure _) (ih _ _)))

theorem local_uvarint : Parser.Local uvarint := local_uvarintLoop 11 0 0

theorem local_ivarint : Parser.Local ivarint := .bind local_uvarint (fun _ => .pure _)

theorem local_u32 : Parser.Local u32 :=
  .bind local_uvarint (fun _ => .ite (.pure _) (.bind .position (fun _ => .throw _)))

theorem local_usize : Parser.Local usize := .bind local_uvarint (fun _ => .pure _)

/-- The one field whose reader looks at the length of the input: it refuses a run that reaches past
the end, and a longer input only makes room. -/
theorem local_bytes : Parser.Local bytes := by
  refine .bind local_uvarint (fun len => ?_)
  intro c y c' hr
  change (if c.pos + len.toNat ≤ c.bytes.length then _ else _ : Reader (List UInt8)) c = _ at hr
  by_cases hroom : c.pos + len.toNat ≤ c.bytes.length
  · rw [if_pos hroom] at hr
    cases hr
    refine ⟨rfl, fun _ => hroom, fun more => ?_⟩
    have hroom' : c.pos + len.toNat ≤ (c.bytes ++ more).length := by
      rw [List.length_append]
      omega
    have htake : (c.extend more).rest.take len.toNat = c.rest.take len.toNat := by
      have hrest : (c.extend more).rest = c.rest ++ more :=
        List.drop_append_of_le_length (Nat.le_of_add_right_le hroom)
      have hlen : len.toNat ≤ c.rest.length := by
        rw [Cursor.rest, List.length_drop]
        omega
      rw [hrest, List.take_append_of_le_length hlen]
    show (if c.pos + len.toNat ≤ (c.bytes ++ more).length then _ else _ :
      Reader (List UInt8)) (c.extend more) = _
    rw [if_pos hroom']
    show Except.ok ((c.extend more).rest.take len.toNat, (c.extend more).advance len.toNat) = _
    rw [htake]
    rfl
  · rw [if_neg hroom] at hr
    cases hr

theorem local_value : Parser.Local value :=
  .bind local_u8 (fun _ => .ite (.bind local_ivarint (fun _ => .pure _))
    (.ite (.bind local_u32 (fun _ => .pure _)) (.bind .position (fun _ => .throw _))))

theorem local_values : Parser.Local values := .bind local_usize local_value.times

theorem local_reloc : Parser.Local reloc :=
  .bind local_u32 (fun _ => .bind local_u8 (fun _ => .bind local_u32 (fun _ => .pure _)))

theorem local_readBody : Parser.Local readBody := by
  refine .bind local_u8 (fun tag => ?_)
  refine .ite (.bind local_values (fun _ => .pure _)) ?_
  refine .ite (.bind local_u32 (fun _ => .bind local_values (fun _ => .pure _))) ?_
  refine .ite (.bind local_values (fun _ => .pure _)) ?_
  refine .ite (.bind local_bytes (fun _ => .pure _)) ?_
  refine .ite (.bind local_bytes (fun _ => .pure _)) ?_
  refine .ite ?code ?_
  case code =>
    exact .bind local_bytes (fun _ => .bind local_values (fun _ => .bind local_usize (fun n =>
      .bind (local_reloc.times n) (fun _ => .pure _))))
  refine .ite (.bind local_bytes (fun _ => .pure _)) ?_
  exact .ite (.pure _) (.bind .position (fun _ => .throw _))

theorem local_readObject : Parser.Local readObject :=
  .bind local_u8 (fun _ => .bind local_readBody (fun _ => .pure _))

theorem local_readMagic (bs : List UInt8) : Parser.Local (readMagic bs) := by
  induction bs with
  | nil => exact .pure ()
  | cons m bs ih => exact .bind local_u8 (fun _ => .ite (.throw _) ih)

theorem local_readImage : Parser.Local readImage := by
  refine .bind (local_readMagic magic) (fun _ => ?_)
  refine .bind local_u8 (fun _ => .bind local_u8 (fun _ => ?_))
  refine .bind local_u32 (fun _ => .bind local_usize (fun count => ?_))
  exact .bind (local_readObject.times count) (fun _ => .pure _)

/-! ## The whole image -/

/-- The image as it is read back: the architecture is the one its byte stands for. -/
def asRead (img : Image) : Image := { img with arch := archFromByte (archByte img.arch) }

theorem archByte_archFromByte (b : UInt8) : archByte (archFromByte b) = b := by
  unfold archFromByte
  split
  · exact Eq.symm ‹_›
  · split
    · exact Eq.symm ‹_›
    · split
      · exact Eq.symm ‹_›
      · rfl

theorem writeBic_asRead (img : Image) : (asRead img).writeBic = img.writeBic := by
  show magic ++ ([archByte (archFromByte (archByte img.arch))] ++ _) = _
  rw [archByte_archFromByte]
  rfl

end Bic

/-- **No truncated file is accepted.** Every strict prefix of a written image is refused. -/
theorem Image.readBic_truncated (img : Image) (hfits : img.Fits) (bs : List UInt8)
    (hpre : bs <+: img.writeBic) (hne : bs ≠ img.writeBic) :
    ∃ e, Image.readBic bs = .error e := by
  have hreads : Parser.Reads Parser.Anything Bic.readImage (Bic.asRead img).writeBic
      (Bic.asRead img) :=
    Bic.reads_image (Bic.archFromByte_archByte _) ⟨hfits.objects, hfits.bodies⟩
  rw [Bic.writeBic_asRead] at hreads
  obtain ⟨e, he⟩ := Bic.local_readImage.truncated hreads hpre hne
  refine ⟨e, ?_⟩
  unfold Image.readBic
  rw [StateT.run, he]
  rfl

/-- The file of `everyKind`, cut behind the magic and inside a value of the first object. -/
theorem Image.readBic_truncated_everyKind : (∃ e, Image.readBic Bic.magic = .error e) ∧
    ∃ e, Image.readBic (everyKind.writeBic.take 20) = .error e :=
  have hfits : everyKind.Fits :=
    ⟨by decide, by simp [everyKind, ObjectBody.Fits, String.asBytes_eq, String.utf8EncodeChar]⟩
  have hlen : 20 < everyKind.writeBic.length := by decide +kernel
  ⟨Image.readBic_truncated everyKind hfits Bic.magic ⟨_, rfl⟩ (by simp [Image.writeBic]),
    Image.readBic_truncated everyKind hfits _ (List.take_prefix 20 _) (fun h => by
      have hcut := congrArg List.length h
      rw [List.length_take] at hcut
      omega)⟩
