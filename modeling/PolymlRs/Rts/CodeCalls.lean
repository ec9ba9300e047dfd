import PolymlRs.Lib.Recorded
import PolymlRs.Rts.Bitwise

set_option autoImplicit false

/-! # Runtime calls that build code

`PolySetCodeConstant`, `PolyLockMutableClosure`, `PolySetCodeByte` and `PolyGetCodeConstant`. In untrusted
mode a pointer is followed only when it lies between the ends of a live space, and an offset is checked
against the length that the code object declares. -/

/-! ## The calls -/

/-- `usize::to_ne_bytes`. -/
def PolyWord.toNeBytes (w : PolyWord) : List UInt8 :=
  (List.range wordBytes).map (fun i => UInt8.ofNat (w.toNat / 256 ^ i))

/-- `untag() as usize`. -/
def PolyWord.untagUsize (w : PolyWord) : Nat := (w.sshiftRight 1).toNat

def isCodeObject (lw : PolyWord) : Bool := typeOf lw == fCodeObj

/-- A call that a guard refuses returns `TAGGED(0)` at once. -/
abbrev CodeRun := Recorded Mem Span

def readWord (p : Nat) : CodeRun PolyWord := .load ⟨p, wordBytes⟩ (fun m => m.readUnaligned p)

def writeAt (p : Nat) (bs : List UInt8) : CodeRun Unit :=
  .store ⟨p, bs.length⟩ (fun m => m.writeBytes p bs)

/-- `length_word_of`. -/
def readLengthWord (w : PolyWord) : CodeRun PolyWord := readWord (w - 8#64).addr

/-- `w` may be followed. In trusted mode there are no spaces to check it against. -/
def liveIn (spaces : Option (List (Nat × Nat))) (w : PolyWord) : Bool :=
  spaces.all (fun ranges => containsWithHeader ranges w.addr)

/-- The code object behind a closure's first word, with its length word. -/
def codeOfClosure (spaces : Option (List (Nat × Nat))) (closure : PolyWord) :
    CodeRun (PolyWord × PolyWord) := do
  let codeWord ← readWord closure.addr
  .require codeWord.isDataPtr
  .require (liveIn spaces codeWord)
  let clw ← readLengthWord codeWord
  .require (isCodeObject clw)
  pure (codeWord, clw)

/-- The closure may be the code object itself. Only the kinds 0 and 2 write. -/
def polySetCodeConstant (spaces : Option (List (Nat × Nat))) (closure offset cWord flags : PolyWord) :
    CodeRun PolyWord := do
  .require closure.isDataPtr
  .require (liveIn spaces closure)
  let lw ← readLengthWord closure
  let (code, clw) ← if isCodeObject lw then pure (closure, lw) else codeOfClosure spaces closure
  let off := offset.untagUsize
  let codeByteLen := lengthOf clw * wordBytes
  let writeWidth := if flags.untag = 0 ∨ flags.untag = 2 then wordBytes else 0
  .require !(writeWidth != 0 && (off > codeByteLen || off + writeWidth > codeByteLen))
  if flags.untag = 0 ∨ flags.untag = 2 then writeAt (code.addr + off) cWord.toNeBytes else pure ()
  pure (.tagged 0)

def polyLockMutableClosure (spaces : Option (List (Nat × Nat))) (_tid closure : PolyWord) :
    CodeRun PolyWord := do
  .require closure.isDataPtr
  .require (liveIn spaces closure)
  let (code, clw) ← codeOfClosure spaces closure
  writeAt (code - 8#64).addr (makeLengthWord (lengthOf clw) fCodeObj).toNeBytes
  pure (.tagged 0)

def polySetCodeByte (spaces : Option (List (Nat × Nat))) (closure offset byteVal : PolyWord) :
    CodeRun PolyWord := do
  .require closure.isDataPtr
  .require (liveIn spaces closure)
  let (code, clw) ← codeOfClosure spaces closure
  let off := offset.untagUsize
  .require (off < lengthOf clw * wordBytes)
  writeAt (code.addr + off) [UInt8.ofNat byteVal.untagUsize]
  pure (.tagged 0)

def polyGetCodeConstant (spaces : Option (List (Nat × Nat))) (closure offset _flags : PolyWord) :
    CodeRun PolyWord := do
  .require closure.isDataPtr
  .require (liveIn spaces closure)
  let (code, clw) ← codeOfClosure spaces closure
  let off := offset.untagUsize
  let codeByteLen := lengthOf clw * wordBytes
  .require !(off > codeByteLen || off + wordBytes > codeByteLen)
  readWord (code.addr + off)

inductive CodeCall
  | setCodeConstant (closure offset cWord flags : PolyWord)
  | lockMutableClosure (tid closure : PolyWord)
  | setCodeByte (closure offset byteVal : PolyWord)
  | getCodeConstant (closure offset flags : PolyWord)
deriving DecidableEq

namespace CodeCall

def run (spaces : Option (List (Nat × Nat))) : CodeCall → CodeRun PolyWord
  | setCodeConstant closure offset cWord flags =>
    polySetCodeConstant spaces closure offset cWord flags
  | lockMutableClosure tid closure => polyLockMutableClosure spaces tid closure
  | setCodeByte closure offset byteVal => polySetCodeByte spaces closure offset byteVal
  | getCodeConstant closure offset flags => polyGetCodeConstant spaces closure offset flags

/-! ## What a call addresses -/

def closure : CodeCall → PolyWord
  | setCodeConstant closure .. => closure
  | lockMutableClosure _ closure => closure
  | setCodeByte closure .. => closure
  | getCodeConstant closure .. => closure

/-- The call works on the object it is given. -/
def IsDirect (m : Mem) : CodeCall → Prop
  | setCodeConstant closure .. => isCodeObject (m.readUnaligned (closure - 8#64).addr)
  | _ => False

instance (m : Mem) (c : CodeCall) : Decidable (c.IsDirect m) := by
  cases c <;> unfold IsDirect <;> infer_instance

/-- The code object. -/
def code (m : Mem) (c : CodeCall) : PolyWord :=
  if c.IsDirect m then c.closure else m.readUnaligned c.closure.addr

/-- Offset and width of the bytes of the code object that are read or written. -/
def window : CodeCall → Option (Nat × Nat)
  | setCodeConstant _ offset _ flags =>
    if flags.untag = 0 ∨ flags.untag = 2 then some (offset.untagUsize, wordBytes) else none
  | lockMutableClosure .. => none
  | setCodeByte _ offset _ => some (offset.untagUsize, 1)
  | getCodeConstant _ offset _ => some (offset.untagUsize, wordBytes)

/-- `w` is a data pointer into a live space, so it is followed. -/
def Follows (ranges : List (Nat × Nat)) (w : PolyWord) : Prop :=
  w.isDataPtr ∧ containsWithHeader ranges w.addr

/-- The pointers are followed and the window lies in the length that the code object declares. -/
structure Guarded (ranges : List (Nat × Nat)) (m : Mem) (c : CodeCall) : Prop where
  closure : Follows ranges c.closure
  code : Follows ranges (c.code m)
  is_code : isCodeObject (m.readUnaligned (c.code m - 8#64).addr)
  window_declared : ∀ off width, c.window = some (off, width) →
    off + width ≤ lengthOf (m.readUnaligned (c.code m - 8#64).addr) * wordBytes

/-- Does the call read the length word of its closure? -/
def readsLength : CodeCall → Bool
  | setCodeConstant .. => true
  | _ => false

end CodeCall

/-! ## Live spaces -/

/-- The live spaces are allocations of their own. -/
structure RtsSafeSpaces where
  ranges : List (Nat × Nat)
  disjoint : ranges.Pairwise (fun r r' => r.2 ≤ r'.1 ∨ r'.2 ≤ r.1)
  bounded : ∀ r ∈ ranges, r.2 < 2 ^ 64

namespace RtsSafeSpaces

variable {spaces : RtsSafeSpaces}

/-- There is a word between the start of the space and the pointer. -/
def RoomBelow (spaces : RtsSafeSpaces) (a : Nat) : Prop :=
  ∀ r ∈ spaces.ranges, r.1 < a → a < r.2 → r.1 + wordBytes ≤ a

/-- There are `n` bytes from the pointer to the end of the space. -/
def RoomAbove (spaces : RtsSafeSpaces) (a n : Nat) : Prop :=
  ∀ r ∈ spaces.ranges, r.1 < a → a < r.2 → a + n ≤ r.2

/-- A live space behind the pointer holds the `width` bytes at offset `off`. -/
def Behind (spaces : RtsSafeSpaces) (a off width : Nat) : Prop :=
  ∃ r ∈ spaces.ranges, a ≤ r.1 ∧ r.1 ≤ a + off ∧ a + off + width ≤ r.2

theorem eq_of_mem {r r' : Nat × Nat} (hr : r ∈ spaces.ranges) (hr' : r' ∈ spaces.ranges) {a : Nat}
    (ha : r.1 ≤ a ∧ a < r.2) (ha' : r'.1 ≤ a ∧ a < r'.2) : r = r' := by
  by_contra hne
  have : Std.Symm (fun r r' : Nat × Nat => r.2 ≤ r'.1 ∨ r'.2 ≤ r.1) := ⟨fun _ _ h => h.symm⟩
  rcases spaces.disjoint.forall hr hr' hne with h | h
  · exact absurd (ha'.1.trans_lt ha.2) (Nat.not_lt.2 h)
  · exact absurd (ha.1.trans_lt ha'.2) (Nat.not_lt.2 h)

/-- The length word below a live pointer. -/
theorem within_below {w : PolyWord} (hlive : containsWithHeader spaces.ranges w.addr) :
    Span.Within spaces.ranges ⟨(w - 8#64).addr, wordBytes⟩ ↔ spaces.RoomBelow w.addr := by
  obtain ⟨r, hr, hin⟩ := List.any_eq_true.1 hlive
  have hin := of_decide_eq_true hin
  have hsub : (w - 8#64).addr = if w.addr < wordBytes then w.addr + (2 ^ 64 - wordBytes)
      else w.addr - wordBytes := by
    have hlt := w.addr_lt
    unfold PolyWord.addr wordBytes at *
    rw [BitVec.toNat_sub]
    simp only [BitVec.toNat_ofNat]
    split <;> omega
  constructor
  · rintro ⟨r', hr', hlo, hhi⟩ q hq hq1 hq2
    have hbound := spaces.bounded r' hr'
    simp only [hsub, wordBytes] at hlo hhi
    -- below address 8 the length word would wrap around
    have hge : wordBytes ≤ w.addr := by
      unfold wordBytes
      by_contra hlt
      rw [if_pos (by omega)] at hhi
      omega
    rw [if_neg (by unfold wordBytes at hge; omega)] at hlo hhi
    unfold wordBytes at hge ⊢
    obtain rfl : q = r' := eq_of_mem hq hr' (a := w.addr - 1) (by omega) (by omega)
    omega
  · intro hroom
    have hbelow := hroom r hr hin.1 hin.2
    refine ⟨r, hr, ?_, ?_⟩ <;> simp only [hsub] <;> rw [if_neg (by omega)] <;> omega

/-- What lies at an offset from a live pointer. -/
theorem within_above {a off width : Nat} (hlive : containsWithHeader spaces.ranges a)
    (hwidth : 0 < width) : Span.Within spaces.ranges ⟨a + off, width⟩ ↔
      spaces.RoomAbove a (off + width) ∨ spaces.Behind a off width := by
  obtain ⟨r, hr, hin⟩ := List.any_eq_true.1 hlive
  have hin := of_decide_eq_true hin
  constructor
  · rintro ⟨r', hr', hlo, hhi⟩
    simp only at hlo hhi
    by_cases hsame : r'.1 < a
    · have heq : r' = r := eq_of_mem hr' hr (a := a) ⟨hsame.le, by omega⟩ ⟨hin.1.le, hin.2⟩
      refine .inl (fun q hq hq1 hq2 => ?_)
      obtain rfl : q = r' := (eq_of_mem hq hr ⟨hq1.le, hq2⟩ ⟨hin.1.le, hin.2⟩).trans heq.symm
      omega
    · exact .inr ⟨r', hr', Nat.not_lt.1 hsame, hlo, hhi⟩
  · rintro (hroom | ⟨r', hr', -, hlo, hhi⟩)
    · have habove := hroom r hr hin.1 hin.2
      exact ⟨r, hr, by simp only; omega, by simp only; omega⟩
    · exact ⟨r', hr', hlo, hhi⟩

/-- The word at a live pointer. -/
theorem within_word {a : Nat} (hlive : containsWithHeader spaces.ranges a) :
    Span.Within spaces.ranges ⟨a, wordBytes⟩ ↔ spaces.RoomAbove a wordBytes := by
  have hoff : Span.Within spaces.ranges ⟨a + 0, wordBytes⟩ ↔
      spaces.RoomAbove a (0 + wordBytes) ∨ spaces.Behind a 0 wordBytes :=
    within_above hlive (by decide)
  rw [Nat.add_zero, Nat.zero_add] at hoff
  rw [hoff, or_iff_left]
  rintro ⟨r', hr', ha, hlo, hhi⟩
  obtain ⟨r, hr, hin⟩ := List.any_eq_true.1 hlive
  have hin := of_decide_eq_true hin
  have heq : r' = r := eq_of_mem hr' hr (a := a) ⟨by omega, by unfold wordBytes at hhi; omega⟩
    ⟨hin.1.le, hin.2⟩
  subst heq
  omega

end RtsSafeSpaces

/-- What the guards leave open. A pointer that is not aligned may have less than a word to an end of its
space, and the declared length may reach beyond the space. -/
structure CodeCall.HasRoom (spaces : RtsSafeSpaces) (m : Mem) (c : CodeCall) : Prop where
  closure_below : c.readsLength = true → Follows spaces.ranges c.closure →
    spaces.RoomBelow c.closure.addr
  closure_above : ¬c.IsDirect m → Follows spaces.ranges c.closure →
    spaces.RoomAbove c.closure.addr wordBytes
  code_below : ¬c.IsDirect m → Follows spaces.ranges c.closure → Follows spaces.ranges (c.code m) →
    spaces.RoomBelow (c.code m).addr
  window_room : c.Guarded spaces.ranges m → ∀ off width, c.window = some (off, width) →
    spaces.RoomAbove (c.code m).addr (off + width) ∨ spaces.Behind (c.code m).addr off width

@[simp] theorem length_toNeBytes (w : PolyWord) : w.toNeBytes.length = wordBytes := by
  simp [PolyWord.toNeBytes]

namespace CodeCall

variable {ranges : List (Nat × Nat)} {m : Mem} {α : Type}

@[simp] theorem liveIn_some (w : PolyWord) :
    liveIn (some ranges) w = containsWithHeader ranges w.addr := rfl

/-! ## From a closure to its code object -/

/-- The guards on the way. -/
theorem accepts_codeOfClosure_bind (w : PolyWord) (f : PolyWord × PolyWord → CodeRun α) :
    (codeOfClosure (some ranges) w >>= f).Accepts m ↔
      (m.readUnaligned w.addr).isDataPtr ∧
      containsWithHeader ranges (m.readUnaligned w.addr).addr ∧
      isCodeObject (m.readUnaligned (m.readUnaligned w.addr - 8#64).addr) ∧
      (f (m.readUnaligned w.addr, m.readUnaligned (m.readUnaligned w.addr - 8#64).addr)).Accepts m := by
  simp only [codeOfClosure, readLengthWord, readWord, bind_assoc, pure_bind, liveIn_some,
    Recorded.accepts_load_bind, Recorded.accepts_require_bind]

/-- The words read on the way. -/
theorem all_codeOfClosure_bind {P : Span → Prop} (w : PolyWord) (f : PolyWord × PolyWord → CodeRun α) :
    (codeOfClosure (some ranges) w >>= f).All P m ↔ P ⟨w.addr, wordBytes⟩ ∧
      ((m.readUnaligned w.addr).isDataPtr →
        containsWithHeader ranges (m.readUnaligned w.addr).addr →
        P ⟨(m.readUnaligned w.addr - 8#64).addr, wordBytes⟩ ∧
        (isCodeObject (m.readUnaligned (m.readUnaligned w.addr - 8#64).addr) →
          (f (m.readUnaligned w.addr, m.readUnaligned (m.readUnaligned w.addr - 8#64).addr)).All P m)) := by
  simp only [codeOfClosure, readLengthWord, readWord, bind_assoc, pure_bind, liveIn_some,
    Recorded.all_load_bind, Recorded.all_require_bind]

variable {c : CodeCall}

theorem code_of_not_direct (h : ¬c.IsDirect m) : c.code m = m.readUnaligned c.closure.addr := if_neg h

theorem code_of_direct (h : c.IsDirect m) : c.code m = c.closure := if_pos h

/-- The guards of a call that follows its closure. -/
theorem guarded_iff_of_not_direct (h : ¬c.IsDirect m) :
    c.Guarded ranges m ↔ Follows ranges c.closure ∧ Follows ranges (m.readUnaligned c.closure.addr) ∧
      isCodeObject (m.readUnaligned (m.readUnaligned c.closure.addr - 8#64).addr) ∧
      ∀ off width, c.window = some (off, width) → off + width ≤
        lengthOf (m.readUnaligned (m.readUnaligned c.closure.addr - 8#64).addr) * wordBytes := by
  rw [← code_of_not_direct h]
  exact ⟨fun ⟨h1, h2, h3, h4⟩ => ⟨h1, h2, h3, h4⟩, fun ⟨h1, h2, h3, h4⟩ => ⟨h1, h2, h3, h4⟩⟩

/-- The guards of a call on the code object itself. -/
theorem guarded_iff_of_direct (h : c.IsDirect m)
    (hcode : isCodeObject (m.readUnaligned (c.closure - 8#64).addr)) :
    c.Guarded ranges m ↔ Follows ranges c.closure ∧
      ∀ off width, c.window = some (off, width) →
        off + width ≤ lengthOf (m.readUnaligned (c.closure - 8#64).addr) * wordBytes := by
  rw [← code_of_direct h] at hcode ⊢
  exact ⟨fun ⟨_, h2, _, h4⟩ => ⟨h2, h4⟩, fun ⟨h2, h4⟩ => ⟨code_of_direct h ▸ h2, h2, hcode, h4⟩⟩

/-! ## Which calls get through, and what they touch -/

theorem accepts_setCodeConstant (w off v kind : PolyWord) :
    (polySetCodeConstant (some ranges) w off v kind).Accepts m ↔
      (setCodeConstant w off v kind).Guarded ranges m := by
  by_cases hdirect : isCodeObject (m.readUnaligned (w - 8#64).addr)
  · rw [guarded_iff_of_direct (show (setCodeConstant w off v kind).IsDirect m from hdirect) hdirect]
    by_cases hkind : kind.untag = 0 ∨ kind.untag = 2
    · simp [polySetCodeConstant, readLengthWord, readWord, writeAt, closure, window, Follows, hdirect,
        hkind, and_assoc]
      omega
    · simp [polySetCodeConstant, readLengthWord, readWord, closure, window, Follows, hdirect, hkind]
  · rw [guarded_iff_of_not_direct (show ¬(setCodeConstant w off v kind).IsDirect m from hdirect)]
    by_cases hkind : kind.untag = 0 ∨ kind.untag = 2
    · simp [polySetCodeConstant, readLengthWord, readWord, writeAt, accepts_codeOfClosure_bind, closure,
        window, Follows, hdirect, hkind, and_assoc]
      omega
    · simp [polySetCodeConstant, readLengthWord, readWord, accepts_codeOfClosure_bind, closure, window,
        Follows, hdirect, hkind, and_assoc]

/-- A call gets through when its guards hold. -/
theorem accepts_iff (c : CodeCall) : (c.run (some ranges)).Accepts m ↔ c.Guarded ranges m := by
  cases c with
  | setCodeConstant w off v kind => exact accepts_setCodeConstant w off v kind
  | lockMutableClosure tid w =>
    have hnot : ¬(lockMutableClosure tid w).IsDirect m := fun h => h
    rw [guarded_iff_of_not_direct hnot]
    simp [run, polyLockMutableClosure, writeAt, accepts_codeOfClosure_bind, closure, window, Follows,
      and_assoc]
  | setCodeByte w off v =>
    have hnot : ¬(setCodeByte w off v).IsDirect m := fun h => h
    rw [guarded_iff_of_not_direct hnot]
    simp [run, polySetCodeByte, writeAt, accepts_codeOfClosure_bind, closure, window, Follows, and_assoc]
  | getCodeConstant w off kind =>
    have hnot : ¬(getCodeConstant w off kind).IsDirect m := fun h => h
    rw [guarded_iff_of_not_direct hnot]
    simp [run, polyGetCodeConstant, readWord, accepts_codeOfClosure_bind, closure, window, Follows,
      and_assoc]
    omega

/-- What a call touches, whether it gets through or not. -/
structure Touches (P : Span → Prop) (ranges : List (Nat × Nat)) (m : Mem) (c : CodeCall) : Prop where
  closure_length : c.readsLength = true → Follows ranges c.closure →
    P ⟨(c.closure - 8#64).addr, wordBytes⟩
  closure_word : ¬c.IsDirect m → Follows ranges c.closure → P ⟨c.closure.addr, wordBytes⟩
  code_length : ¬c.IsDirect m → Follows ranges c.closure → Follows ranges (c.code m) →
    P ⟨(c.code m - 8#64).addr, wordBytes⟩
  window : c.Guarded ranges m → ∀ off width, c.window = some (off, width) →
    P ⟨(c.code m).addr + off, width⟩

/-- The accesses of a call that follows its closure, in their order. -/
theorem touches_iff_of_not_direct {P : Span → Prop} (h : ¬c.IsDirect m) :
    c.Touches P ranges m ↔ (Follows ranges c.closure →
      (c.readsLength = true → P ⟨(c.closure - 8#64).addr, wordBytes⟩) ∧
      P ⟨c.closure.addr, wordBytes⟩ ∧
      (Follows ranges (m.readUnaligned c.closure.addr) →
        P ⟨(m.readUnaligned c.closure.addr - 8#64).addr, wordBytes⟩ ∧
        (isCodeObject (m.readUnaligned (m.readUnaligned c.closure.addr - 8#64).addr) →
          (∀ off width, c.window = some (off, width) → off + width ≤
            lengthOf (m.readUnaligned (m.readUnaligned c.closure.addr - 8#64).addr) * wordBytes) →
          ∀ off width, c.window = some (off, width) →
            P ⟨(m.readUnaligned c.closure.addr).addr + off, width⟩))) := by
  rw [← code_of_not_direct h]
  constructor
  · rintro ⟨hlength, hword, hcode, hwindow⟩ hclosure
    exact ⟨fun hr => hlength hr hclosure, hword h hclosure, fun hfollows =>
      ⟨hcode h hclosure hfollows, fun his hdecl => hwindow ⟨hclosure, hfollows, his, hdecl⟩⟩⟩
  · intro hall
    exact ⟨fun hr hclosure => (hall hclosure).1 hr, fun _ hclosure => (hall hclosure).2.1,
      fun _ hclosure hfollows => ((hall hclosure).2.2 hfollows).1,
      fun hg => ((hall hg.closure).2.2 hg.code).2 hg.is_code hg.window_declared⟩

/-- Those of a call on the code object itself. -/
theorem touches_iff_of_direct {P : Span → Prop} (h : c.IsDirect m)
    (hcode : isCodeObject (m.readUnaligned (c.closure - 8#64).addr)) :
    c.Touches P ranges m ↔ (Follows ranges c.closure →
      (c.readsLength = true → P ⟨(c.closure - 8#64).addr, wordBytes⟩) ∧
      ((∀ off width, c.window = some (off, width) →
          off + width ≤ lengthOf (m.readUnaligned (c.closure - 8#64).addr) * wordBytes) →
        ∀ off width, c.window = some (off, width) → P ⟨c.closure.addr + off, width⟩)) := by
  constructor
  · rintro ⟨hlength, -, -, hwindow⟩ hclosure
    refine ⟨fun hr => hlength hr hclosure, fun hdecl => ?_⟩
    rw [← code_of_direct h]
    exact hwindow ((guarded_iff_of_direct h hcode).2 ⟨hclosure, hdecl⟩)
  · intro hall
    refine ⟨fun hr hclosure => (hall hclosure).1 hr, fun hn => absurd h hn, fun hn => absurd h hn, ?_⟩
    intro hg
    rw [code_of_direct h]
    obtain ⟨hclosure, hdecl⟩ := (guarded_iff_of_direct h hcode).1 hg
    exact (hall hclosure).2 hdecl

theorem all_setCodeConstant {P : Span → Prop} (w off v kind : PolyWord) :
    (polySetCodeConstant (some ranges) w off v kind).All P m ↔
      (setCodeConstant w off v kind).Touches P ranges m := by
  by_cases hdirect : isCodeObject (m.readUnaligned (w - 8#64).addr)
  · rw [touches_iff_of_direct (show (setCodeConstant w off v kind).IsDirect m from hdirect) hdirect]
    by_cases hkind : kind.untag = 0 ∨ kind.untag = 2
    · simp [polySetCodeConstant, readLengthWord, readWord, writeAt, closure, window, readsLength, Follows,
        hdirect, hkind]
      grind
    · simp [polySetCodeConstant, readLengthWord, readWord, closure, window, readsLength, Follows, hdirect,
        hkind]
  · rw [touches_iff_of_not_direct (show ¬(setCodeConstant w off v kind).IsDirect m from hdirect)]
    by_cases hkind : kind.untag = 0 ∨ kind.untag = 2
    · simp [polySetCodeConstant, readLengthWord, readWord, writeAt, all_codeOfClosure_bind, closure,
        window, readsLength, Follows, hdirect, hkind]
      grind
    · simp [polySetCodeConstant, readLengthWord, readWord, all_codeOfClosure_bind, closure, window,
        readsLength, Follows, hdirect, hkind]

/-- The guards decide what a call touches, and nothing else does. -/
theorem all_iff {P : Span → Prop} (c : CodeCall) :
    (c.run (some ranges)).All P m ↔ c.Touches P ranges m := by
  cases c with
  | setCodeConstant w off v kind => exact all_setCodeConstant w off v kind
  | lockMutableClosure tid w =>
    have hnot : ¬(lockMutableClosure tid w).IsDirect m := fun h => h
    rw [touches_iff_of_not_direct hnot]
    simp [run, polyLockMutableClosure, writeAt, closure, window, readsLength, Follows,
      all_codeOfClosure_bind]
    -- the length word that is written has been read before
    grind
  | setCodeByte w off v =>
    have hnot : ¬(setCodeByte w off v).IsDirect m := fun h => h
    rw [touches_iff_of_not_direct hnot]
    simp [run, polySetCodeByte, writeAt, closure, window, readsLength, Follows, all_codeOfClosure_bind]
  | getCodeConstant w off kind =>
    have hnot : ¬(getCodeConstant w off kind).IsDirect m := fun h => h
    rw [touches_iff_of_not_direct hnot]
    simp [run, polyGetCodeConstant, readWord, closure, window, readsLength, Follows,
      all_codeOfClosure_bind]
    grind

/-- In untrusted mode every access of a call stays inside a live space, exactly when the pointers and
the window have the room that the guards leave open. -/
theorem inside_iff_room (spaces : RtsSafeSpaces) (m : Mem) (c : CodeCall) :
    (c.run (some spaces.ranges)).All (Span.Within spaces.ranges) m ↔ c.HasRoom spaces m := by
  have hwidth : ∀ off width, c.window = some (off, width) → 0 < width := by
    intro off width h
    cases c <;> simp only [window] at h <;> grind
  rw [all_iff]
  constructor
  · rintro ⟨hlength, hword, hcode, hwindow⟩
    exact
      { closure_below := fun hr hf => (RtsSafeSpaces.within_below hf.2).1 (hlength hr hf)
        closure_above := fun hn hf => (RtsSafeSpaces.within_word hf.2).1 (hword hn hf)
        code_below := fun hn hf hc => (RtsSafeSpaces.within_below hc.2).1 (hcode hn hf hc)
        window_room := fun hg off width hw =>
          (RtsSafeSpaces.within_above hg.code.2 (hwidth off width hw)).1 (hwindow hg off width hw) }
  · rintro ⟨hlength, hword, hcode, hwindow⟩
    exact
      { closure_length := fun hr hf => (RtsSafeSpaces.within_below hf.2).2 (hlength hr hf)
        closure_word := fun hn hf => (RtsSafeSpaces.within_word hf.2).2 (hword hn hf)
        code_length := fun hn hf hc => (RtsSafeSpaces.within_below hc.2).2 (hcode hn hf hc)
        window := fun hg off width hw =>
          (RtsSafeSpaces.within_above hg.code.2 (hwidth off width hw)).2 (hwindow hg off width hw) }

/-! ## A forged length -/

/-- One space of 64 bytes. -/
def smallSpace : RtsSafeSpaces where
  ranges := [(4096, 4160)]
  disjoint := List.pairwise_singleton ..
  bounded := by decide

/-- A code object of 16 bytes at 4128 that declares `2 ^ 40` words, and a closure over it. -/
def forgedMem : Mem := fun a =>
  if a = 4104 then makeLengthWord 1 fClosureObj
  else if a = 4112 then .fromAddr 4128
  else if a = 4120 then makeLengthWord (2 ^ 40) fCodeObj
  else 0#64

/-- The constant goes 4096 bytes behind the start of the code object, and the length word of a closure
two bytes behind the start of the space begins before it, though the call is refused. -/
theorem not_inside_forged :
    ¬((setCodeConstant (.fromAddr 4112) (.tagged 4096) 0#64 (.tagged 0)).run
        (some smallSpace.ranges)).All (Span.Within smallSpace.ranges) forgedMem ∧
      ¬((setCodeConstant (.fromAddr 4098) (.tagged 0) 0#64 (.tagged 0)).run
        (some smallSpace.ranges)).Accepts forgedMem ∧
      ¬((setCodeConstant (.fromAddr 4098) (.tagged 0) 0#64 (.tagged 0)).run
        (some smallSpace.ranges)).All (Span.Within smallSpace.ranges) forgedMem := by
  decide +kernel

/-- An aligned pointer has a word on either side of it in an aligned space. -/
theorem room_of_aligned {spaces : RtsSafeSpaces} (halign : ∀ r ∈ spaces.ranges, 8 ∣ r.1 ∧ 8 ∣ r.2)
    {a : Nat} (ha : 8 ∣ a) : spaces.RoomBelow a ∧ spaces.RoomAbove a wordBytes := by
  unfold wordBytes RtsSafeSpaces.RoomBelow RtsSafeSpaces.RoomAbove wordBytes
  constructor
  · intro r hr hlo hhi
    have hr8 := halign r hr
    omega
  · intro r hr hlo hhi
    have hr8 := halign r hr
    omega

/-- With aligned pointers and a length word that tells the truth there is room. -/
theorem hasRoom_of_honest {spaces : RtsSafeSpaces} {c : CodeCall}
    (halign : ∀ r ∈ spaces.ranges, 8 ∣ r.1 ∧ 8 ∣ r.2) (hclosure : 8 ∣ c.closure.addr)
    (hcode : 8 ∣ (c.code m).addr)
    (hfit : spaces.RoomAbove (c.code m).addr
      (lengthOf (m.readUnaligned (c.code m - 8#64).addr) * wordBytes)) : c.HasRoom spaces m where
  closure_below _ _ := (room_of_aligned halign hclosure).1
  closure_above _ _ := (room_of_aligned halign hclosure).2
  code_below _ _ _ := (room_of_aligned halign hcode).1
  window_room hg off width hwin := by
    have hdecl := hg.window_declared off width hwin
    exact .inl (fun r hr hlo hhi => (Nat.add_le_add_left hdecl _).trans (hfit r hr hlo hhi))

end CodeCall
