import PolymlRs.Interp.Calls
import PolymlRs.Jit.PeekDepth
import PolymlRs.Rts.Bignum

set_option autoImplicit false

/-! # The arity of a closure

A native call has to know how many arguments its callee drops. The number is read off the callee's code
in several ways: from an `ENTER_INT` prologue, from the first return of a walk over the instructions,
from the first byte that looks like a return, and, where the walk fails, from how deep the code reads
into the stack. -/

/-! ## Returns -/

/-- Step over the instruction at `pc`. -/
def stepOver (bytecode : List UInt8) (pc : Nat) : Option (Stride.Look Nat) :=
  match opcodeTotalLen bytecode pc with
  | .ok step => some (.pass step)
  | .error _ => none

def terminatorArm (bytecode : List UInt8) (includeTail : Bool) (pc : Nat) : Option (Stride.Look Nat) :=
  match returnArm bytecode pc with
  | some (some n) => some (.found n)
  | some none => none
  | none =>
    if includeTail = true ∧ bytecode[pc]? = some instrTailBB then
      match bytecode[pc + 1]? with
      | none => none
      | some tc => if 2 ≤ tc.toNat then some (.found (tc.toNat - 2)) else stepOver bytecode pc
    else stepOver bytecode pc

def arityFromTerminatorScan (bytecode : List UInt8) (includeTail : Bool) : Option Nat :=
  Stride.search bytecode.length (terminatorArm bytecode includeTail) 0

def arityFromReturnScan (bytecode : List UInt8) : Option Nat := arityFromTerminatorScan bytecode false

/-! ## From a closure to its arity -/

def isEnterInt (b : UInt8) : Bool := b == instrEnterIntX86 || b == instrEnterIntArm64

def functionPrologue (bytecode : List UInt8) : Nat × Nat :=
  if bytecode.length < 2 then (0, 0)
  else if isEnterInt (bytecode.getD 0 0) then (2, (bytecode.getD 1 0 &&& 0x7f).toNat)
  else (0, 0)

/-- The bytes up to the constant area. The last word of the object says how far back that starts, and
    its count stands a word before it. -/
def bytecodeOf (m : Mem) (code : Nat) : Option (List UInt8) :=
  let nWords := m.objLen code
  if nWords = 0 ∨ nWords > 2 ^ 24 then none
  else
    let bodyLenBytes := nWords * 8
    let trailingOffset := (m (code + bodyLenBytes - 8)).toInt
    let cpByteOff := (BitVec.ofInt 64 (bodyLenBytes + trailingOffset)).toNat
    some (m.readBytes code (min (cpByteOff - 8) bodyLenBytes))

def closureArityFromAddr (m : Mem) (addr : Nat) : Option Nat :=
  if addr = 0 ∨ addr % 8 ≠ 0 then none
  else
    let candidateA := (m addr).toNat
    let codeObj := if candidateA ≠ 0 ∧ candidateA % 8 = 0 then candidateA else addr
    match bytecodeOf m codeObj with
    | none => none
    | some [] => none
    | some (b0 :: rest) =>
      -- a marker with no byte after it panics
      if isEnterInt b0 then rest.head?.map (fun b1 => (b1 &&& 0x7f).toNat)
      else match arityFromReturnScan (b0 :: rest) with
        | some arity => some arity
        | none => inferArgCount (b0 :: rest) 0

def checkClosureArity (m : Mem) (addr : Nat) : Option Nat :=
  if addr = 0 ∨ addr % 8 ≠ 0 then none
  else
    let codeAddr := (m addr).toNat
    if codeAddr = 0 ∨ codeAddr % 8 ≠ 0 then none
    else match bytecodeOf m codeAddr with
      | none => none
      | some bytecode =>
        if isEnterInt (m.byteAt codeAddr) then some (m.byteAt (codeAddr + 1) &&& 0x7f).toNat
        else arityFromReturnScan bytecode

/-- The scan of the raw bytes, of which it looks at 512. -/
def rawReturnScan (object : List UInt8) : Option Nat :=
  ((List.range (min object.length 512)).findSome? (returnArm object)).join

/-- The arity that `jit_dispatch_dynamic_call` goes by. -/
def dynamicArity (m : Mem) (closure : PolyWord) : Except InterpError Nat :=
  if closure.isDataPtr = false then .error (.notAClosure closure)
  else
    let codeWord := m closure.addr
    if codeWord.isDataPtr = false then .error (.notAClosure closure)
    else
      let codePtr := codeWord.addr
      let arityByte := m.byteAt (codePtr + 1)
      if isEnterInt (m.byteAt codePtr) = true ∧ arityByte &&& 0x80 ≠ 0 then
        .ok (arityByte &&& 0x7f).toNat
      else match rawReturnScan (m.readBytes codePtr (m.objLen codePtr * 8)) with
        | some n => .ok n
        | none => .error (.notAClosure closure)

/-- The arguments that the closure is called with: the topmost of those on the caller's stack. -/
def jitDispatchDynamicCall (m : Mem) (closure : PolyWord) (args : List PolyWord) :
    Except InterpError (List PolyWord) := do
  let n ← dynamicArity m closure
  if n > args.length then .error .stackUnderflow else .ok (args.drop (args.length - n))

/-! ## Code objects -/

/-- The code of a function: an `ENTER_INT` prologue or none, and whole instructions, at least one, of which
    every return drops `arity` arguments. -/
structure Code (arity : Nat) where
  marker : Option UInt8
  body : Body
  nonempty : body.bytes ≠ []
  isMarker : ∀ b ∈ marker, isEnterInt b = true ∧ arity < 0x80
  returns : ∀ pc n, Boundary body.bytes pc → returnArm body.bytes pc = some (some n) → n = arity

def Code.bytes {arity : Nat} (c : Code arity) : List UInt8 :=
  match c.marker with
  | none => c.body.bytes
  | some b => b :: (UInt8.ofNat arity ||| 0x80) :: c.body.bytes

/-- A code object with this code at `code`, and the constant area after it. -/
structure CodeObject (m : Mem) (code : Nat) {arity : Nat} (c : Code arity) : Prop where
  aligned : code % 8 = 0
  nonzero : 8 ≤ code
  inRange : code < 0x10000000000000000
  size : m.objLen code ≤ 2 ^ 24
  bytes : m.readBytes code c.bytes.length = c.bytes
  room : c.bytes.length + 16 ≤ m.objLen code * 8
  trailer : m (code + m.objLen code * 8 - 8) = .ofInt 64 (c.bytes.length + 8 - m.objLen code * 8)

/-- A closure over the code at `code`. -/
structure ClosureOver (m : Mem) (code addr : Nat) : Prop where
  aligned : addr % 8 = 0
  nonzero : 8 ≤ addr
  inRange : addr < 0x10000000000000000
  points : m addr = .fromAddr code

/-- Every way to the arity that gives a number gives the right one. How deep the code reads is asked for
    only where there is no prologue. -/
structure AritiesAgree (m : Mem) (addr : Nat) {arity : Nat} (c : Code arity) : Prop where
  prologue : ∀ n, functionPrologue c.bytes = (2, n) → n = arity
  scan : ∀ n, arityFromReturnScan c.bytes = some n → n = arity
  peek : c.marker = none → ∀ n, inferArgCount c.bytes 0 = some n → n = arity
  closure : ∀ n, closureArityFromAddr m addr = some n → n = arity
  check : ∀ n, checkClosureArity m addr = some n → n = arity
  dynamic : ∀ n, dynamicArity m (.fromAddr addr) = .ok n → n = arity

/-- A byte among the first 512 of the object that reads as a return of another number comes behind one
    that has the value of a return. -/
def RawReturns (object : List UInt8) (arity : Nat) : Prop :=
  ∀ i < 512, ∀ n, returnArm object i = some (some n) → n ≠ arity →
    ∃ j < i, (returnArm object j).isSome = true

/-- There is a prologue; or the bytes of the object do not mislead, and the search for the depth gives
    up or the code reads the caller's words down to that of the arity. -/
def Code.Readable {arity : Nat} (c : Code arity) (m : Mem) (code : Nat) : Prop :=
  c.marker.isSome = true ∨
    RawReturns (m.readBytes code (m.objLen code * 8)) arity ∧
      (SearchCut c.bytes 0 ∨ ReadsDownTo c.bytes 0 arity)

section Proofs

variable {m : Mem} {code addr arity : Nat} {c : Code arity}

theorem CodeObject.bytecodeOf_eq (h : CodeObject m code c) : bytecodeOf m code = some c.bytes := by
  have hroom := h.room
  have hsize := h.size
  have hcp : (BitVec.ofInt 64 ((m.objLen code * 8 : Nat) +
      (BitVec.ofInt 64 ((c.bytes.length : Int) + 8 - m.objLen code * 8)).toInt)).toNat =
      c.bytes.length + 8 := by
    have hint : (BitVec.ofInt 64 ((c.bytes.length : Int) + 8 - m.objLen code * 8)).toInt =
        (c.bytes.length : Int) + 8 - m.objLen code * 8 := by
      rw [BitVec.toInt_ofInt, Int.bmod_eq_of_le] <;> omega
    rw [hint, BitVec.toNat_ofInt]
    omega
  have hwords : ¬ (m.objLen code = 0 ∨ m.objLen code > 2 ^ 24) := by omega
  simp only [bytecodeOf, if_neg hwords, h.trailer, hcp]
  rw [Nat.add_sub_cancel, Nat.min_eq_left (by omega), h.bytes]

theorem isEnterInt_iff (b : UInt8) :
    isEnterInt b = true ↔ b = instrEnterIntX86 ∨ b = instrEnterIntArm64 := by
  simp [isEnterInt]

theorem returnArm_enterInt {b : UInt8} (hb : isEnterInt b = true) (bs : List UInt8) :
    returnArm (b :: bs) 0 = none ∧ stepOver (b :: bs) 0 = none := by
  rcases (isEnterInt_iff b).1 hb with rfl | rfl
  · exact ⟨rfl, rfl⟩
  · exact ⟨rfl, rfl⟩

theorem and_or_arity : ∀ a < 0x80, ((UInt8.ofNat a ||| 0x80) &&& 0x7f).toNat = a ∧
    (UInt8.ofNat a ||| 0x80) &&& 0x80 ≠ 0 := by
  decide +kernel

/-- The interpreter does not execute an `ENTER_INT`. -/
theorem isEnterInt_of_consumed {bytes : List UInt8} {pc k : Nat} {op : UInt8}
    (hop : bytes[pc]? = some op) (hk : consumed bytes pc = some k) : isEnterInt op = false := by
  have hnone : stepOneArms.fetches instrEnterIntX86 = none ∧
      stepOneArms.fetches instrEnterIntArm64 = none := by decide +kernel
  have hne : instrEnterIntX86 ≠ instrCase16 ∧ instrEnterIntX86 ≠ instrEscape ∧
      instrEnterIntArm64 ≠ instrCase16 ∧ instrEnterIntArm64 ≠ instrEscape := by decide
  rw [← Bool.not_eq_true, isEnterInt_iff]
  rintro (rfl | rfl)
  · simp [consumed, hop, hnone.1, hne.1, hne.2.1] at hk
  · simp [consumed, hop, hnone.2, hne.2.2.1, hne.2.2.2] at hk

theorem stepOver_spec {bytes : List UInt8} {pc : Nat} {v : Stride.Look Nat}
    (h : stepOver bytes pc = some v) : ∃ l, v = .pass l ∧ consumed bytes pc = some l := by
  rw [stepOver] at h
  cases hlen : opcodeTotalLen bytes pc with
  | error e => simp [hlen] at h
  | ok l =>
    rw [hlen, Option.some.injEq] at h
    exact ⟨l, h.symm, consumed_of_opcodeTotalLen hlen⟩

/-- Without the hint of a tail call, an arm finds a return or steps over the instruction. -/
theorem terminatorArm_false (bytes : List UInt8) (pc : Nat) : terminatorArm bytes false pc =
    match returnArm bytes pc with
    | some n => n.map .found
    | none => stepOver bytes pc := by
  rw [terminatorArm]
  split <;> simp_all

/-- The walk finds the first return only. -/
theorem returnScan_sound (hc : c.marker = none) {n : Nat} (h : arityFromReturnScan c.bytes = some n) :
    n = arity := by
  have hbytes : c.bytes = c.body.bytes := by simp [Code.bytes, hc]
  rw [hbytes, arityFromReturnScan, arityFromTerminatorScan] at h
  have hright : ∀ q l, terminatorArm c.body.bytes false q = some (.pass l) →
      (consumed c.body.bytes q).getD 0 = l := by
    intro q l hover
    rw [terminatorArm_false] at hover
    cases hret : returnArm c.body.bytes q with
    | none =>
      rw [hret] at hover
      obtain ⟨l', hl, hk⟩ := stepOver_spec hover
      obtain rfl : l = l' := by injection hl
      simp [hk]
    | some n' =>
      rw [hret] at hover
      obtain ⟨n'', -, hn⟩ := Option.map_eq_some_iff.1 hover
      cases hn
  obtain ⟨q, hq, hfound⟩ := Stride.search_sound hright h
  rw [terminatorArm_false] at hfound
  cases hret : returnArm c.body.bytes q with
  | none =>
    rw [hret] at hfound
    obtain ⟨l, hl, -⟩ := stepOver_spec hfound
    cases hl
  | some n' =>
    rw [hret] at hfound
    obtain ⟨n'', rfl, hn⟩ := Option.map_eq_some_iff.1 hfound
    obtain rfl : n'' = n := by injection hn
    exact c.returns q n'' hq hret

theorem CodeObject.byteAt (ho : CodeObject m code c) {i : Nat} {b : UInt8} (hb : c.bytes[i]? = some b) :
    m.byteAt (code + i) = b := by
  have hi := (List.getElem?_eq_some_iff.1 hb).1
  rw [← ho.bytes, Mem.readBytes, List.getElem?_map, List.getElem?_range hi] at hb
  exact Option.some.inj hb

/-- The object starts with the code. -/
theorem CodeObject.object (ho : CodeObject m code c) :
    ∃ rest, m.readBytes code (m.objLen code * 8) = c.bytes ++ rest := by
  have hroom := ho.room
  refine ⟨m.readBytes (code + c.bytes.length) (m.objLen code * 8 - c.bytes.length), ?_⟩
  calc m.readBytes code (m.objLen code * 8)
      = m.readBytes code (c.bytes.length + (m.objLen code * 8 - c.bytes.length)) := by
        congr 1
        omega
    _ = c.bytes ++ _ := by rw [Mem.readBytes_add, ho.bytes]

theorem lt_length_of_returnArm {bs : List UInt8} {i : Nat} {r : Option Nat}
    (h : returnArm bs i = some r) : i < bs.length := by
  by_contra hge
  rw [returnArm, List.getElem?_eq_none (Nat.not_lt.1 hge)] at h
  cases h

/-- The scan of the raw bytes goes by the first that could be a return. -/
theorem rawReturnScan_eq {object : List UInt8} {i : Nat} {r : Option Nat} (hi : i < 512)
    (hret : returnArm object i = some r) (hfirst : ∀ j < i, returnArm object j = none) :
    rawReturnScan object = r := by
  have hlen := lt_length_of_returnArm hret
  have hsplit : List.range (min object.length 512) =
      List.range i ++ i :: (List.range (min object.length 512 - (i + 1))).map (i + 1 + ·) := by
    rw [← List.singleton_append, ← List.append_assoc, ← List.range_succ, ← List.range_add]
    congr 1
    omega
  have hnone : (List.range i).findSome? (returnArm object) = none :=
    List.findSome?_eq_none_iff.2 (fun j hj => hfirst j (List.mem_range.1 hj))
  rw [rawReturnScan, hsplit, List.findSome?_append, hnone, List.findSome?_cons, hret]
  rfl

theorem rawReturnScan_spec {object : List UInt8} {n : Nat} (h : rawReturnScan object = some n) :
    ∃ i < 512, returnArm object i = some (some n) ∧ ∀ j < i, returnArm object j = none := by
  have hex : ∃ i, i < 512 ∧ (returnArm object i).isSome = true := by
    rw [rawReturnScan, Option.join_eq_some_iff] at h
    obtain ⟨i, hi, hret⟩ := List.exists_of_findSome?_eq_some h
    exact ⟨i, by rw [List.mem_range] at hi; omega, by rw [hret]; rfl⟩
  have hi := Nat.find_spec hex
  have hfirst : ∀ j < Nat.find hex, returnArm object j = none := by
    intro j hj
    have hmin := Nat.find_min hex hj
    rw [← Option.not_isSome_iff_eq_none]
    exact fun hsome => hmin ⟨hj.trans hi.1, hsome⟩
  obtain ⟨r, hr⟩ := Option.isSome_iff_exists.1 hi.2
  have hscan := rawReturnScan_eq hi.1 hr hfirst
  exact ⟨Nat.find hex, hi.1, by rw [hr, ← hscan, h], hfirst⟩

/-- When the scan of the raw bytes can only give the arity. -/
theorem rawReturnScan_only_iff {object : List UInt8} :
    (∀ n, rawReturnScan object = some n → n = arity) ↔ RawReturns object arity := by
  constructor
  · intro h i hi n hret hne
    by_contra hnone
    have hfirst : ∀ j < i, returnArm object j = none := by
      intro j hj
      rw [← Option.not_isSome_iff_eq_none]
      exact fun hsome => hnone ⟨j, hj, hsome⟩
    exact hne (h n (rawReturnScan_eq hi hret hfirst))
  · intro h n hscan
    obtain ⟨i, hi, hret, hfirst⟩ := rawReturnScan_spec hscan
    by_contra hne
    obtain ⟨j, hj, hsome⟩ := h i hi n hret hne
    rw [hfirst j hj] at hsome
    cases hsome

theorem dynamicArity_eq (ho : CodeObject m code c) (hcl : ClosureOver m code addr) :
    dynamicArity m (.fromAddr addr) =
      if isEnterInt (m.byteAt code) = true ∧ m.byteAt (code + 1) &&& 0x80 ≠ 0 then
        .ok (m.byteAt (code + 1) &&& 0x7f).toNat
      else match rawReturnScan (m.readBytes code (m.objLen code * 8)) with
        | some n => .ok n
        | none => .error (.notAClosure (.fromAddr addr)) := by
  have hptr := isDataPtr_fromAddr hcl.inRange hcl.aligned hcl.nonzero
  have hcode := isDataPtr_fromAddr ho.inRange ho.aligned ho.nonzero
  simp only [dynamicArity, hptr, PolyWord.addr_fromAddr hcl.inRange, hcl.points, hcode,
    PolyWord.addr_fromAddr ho.inRange, Bool.true_eq_false, if_false]

/-- The address of the code passes the check of an address. -/
theorem CodeObject.not_rejected (ho : CodeObject m code c) : ¬ (code = 0 ∨ code % 8 ≠ 0) := by
  have hnonzero := ho.nonzero
  rw [ho.aligned]
  omega

theorem ClosureOver.not_rejected (hcl : ClosureOver m code addr) : ¬ (addr = 0 ∨ addr % 8 ≠ 0) := by
  have hnonzero := hcl.nonzero
  rw [hcl.aligned]
  omega

theorem ClosureOver.toNat_points (hcl : ClosureOver m code addr) (ho : CodeObject m code c) :
    (m addr).toNat = code := by
  rw [hcl.points]
  exact PolyWord.addr_fromAddr ho.inRange

theorem closureArity_eq (ho : CodeObject m code c) (hcl : ClosureOver m code addr) :
    closureArityFromAddr m addr = match c.bytes with
      | [] => none
      | b0 :: rest =>
        if isEnterInt b0 then rest.head?.map (fun b1 => (b1 &&& 0x7f).toNat)
        else match arityFromReturnScan (b0 :: rest) with
          | some arity => some arity
          | none => inferArgCount (b0 :: rest) 0 := by
  have hcode := ho.nonzero
  have hpoints : code ≠ 0 ∧ code % 8 = 0 := ⟨by omega, ho.aligned⟩
  simp only [closureArityFromAddr, if_neg hcl.not_rejected, hcl.toNat_points ho, if_pos hpoints,
    ho.bytecodeOf_eq]
  split <;> simp_all

theorem checkArity_eq (ho : CodeObject m code c) (hcl : ClosureOver m code addr) :
    checkClosureArity m addr =
      if isEnterInt (m.byteAt code) then some (m.byteAt (code + 1) &&& 0x7f).toNat
      else arityFromReturnScan c.bytes := by
  simp only [checkClosureArity, if_neg hcl.not_rejected, hcl.toNat_points ho, if_neg ho.not_rejected,
    ho.bytecodeOf_eq]

/-- The prologue tells the arity. -/
theorem aritiesAgree_prologue (ho : CodeObject m code c) (hcl : ClosureOver m code addr) {b : UInt8}
    (hb : c.marker = some b) : AritiesAgree m addr c := by
  obtain ⟨hmark, hlt⟩ := c.isMarker b hb
  obtain ⟨hand, hbit⟩ := and_or_arity arity hlt
  have hbytes : c.bytes = b :: (UInt8.ofNat arity ||| 0x80) :: c.body.bytes := by simp [Code.bytes, hb]
  have hb0 : m.byteAt code = b := ho.byteAt (i := 0) (by rw [hbytes]; rfl)
  have hb1 : m.byteAt (code + 1) = UInt8.ofNat arity ||| 0x80 := ho.byteAt (i := 1) (by rw [hbytes]; rfl)
  refine ⟨fun n h => ?_, fun n h => ?_, fun h => ?_, fun n h => ?_, fun n h => ?_, fun n h => ?_⟩
  · rw [hbytes, functionPrologue, if_neg (by simp)] at h
    simp only [List.getD_cons_zero, hmark, if_true, List.getD_cons_succ, hand, Prod.mk.injEq] at h
    exact h.2.symm
  · obtain ⟨hret, hstep⟩ := returnArm_enterInt hmark ((UInt8.ofNat arity ||| 0x80) :: c.body.bytes)
    rw [hbytes, arityFromReturnScan, arityFromTerminatorScan, Stride.search_none] at h
    · cases h
    · rw [terminatorArm_false, hret]
      exact hstep
  · rw [hb] at h
    cases h
  · rw [closureArity_eq ho hcl, hbytes] at h
    simp only [hmark, if_true, List.head?_cons, Option.map_some, hand, Option.some.injEq] at h
    exact h.symm
  · rw [checkArity_eq ho hcl, hb0, hb1, if_pos hmark, hand, Option.some.injEq] at h
    exact h.symm
  · rw [dynamicArity_eq ho hcl, hb0, hb1, if_pos ⟨hmark, hbit⟩, hand] at h
    exact (Except.ok.inj h).symm

/-- Without a prologue the walks over the instructions are right, and the other two ways may be wrong. -/
theorem aritiesAgree_iff_of_bare (ho : CodeObject m code c) (hcl : ClosureOver m code addr)
    (hc : c.marker = none) : AritiesAgree m addr c ↔
      (∀ n, rawReturnScan (m.readBytes code (m.objLen code * 8)) = some n → n = arity) ∧
        ∀ n, inferArgCount c.bytes 0 = some n → n = arity := by
  have hbytes : c.bytes = c.body.bytes := by simp [Code.bytes, hc]
  obtain ⟨b0, rest, hcons⟩ := List.exists_cons_of_ne_nil c.nonempty
  obtain ⟨k, hk, -⟩ := c.body.whole 0 (.refl 0) (by rw [hcons]; exact Nat.succ_pos _)
  have hmark : isEnterInt b0 = false := isEnterInt_of_consumed (by rw [hcons]; rfl) hk
  have hb0 : m.byteAt code = b0 := ho.byteAt (i := 0) (by rw [hbytes, hcons]; rfl)
  have hdynamic : ∀ n, dynamicArity m (.fromAddr addr) = .ok n ↔
      rawReturnScan (m.readBytes code (m.objLen code * 8)) = some n := by
    intro n
    rw [dynamicArity_eq ho hcl, hb0, hmark]
    simp only [Bool.false_eq_true, false_and, if_false]
    cases rawReturnScan (m.readBytes code (m.objLen code * 8)) <;> simp
  constructor
  · intro h
    exact ⟨fun n hn => h.dynamic n ((hdynamic n).2 hn), h.peek hc⟩
  · rintro ⟨hraw, hpeek⟩
    refine ⟨fun n h => ?_, fun n h => returnScan_sound hc h, fun _ => hpeek, fun n h => ?_, fun n h => ?_,
      fun n h => hraw n ((hdynamic n).1 h)⟩
    · rw [functionPrologue, hbytes, hcons, List.getD_cons_zero, hmark] at h
      split at h <;> cases h
    · rw [closureArity_eq ho hcl, hbytes, hcons] at h
      simp only [hmark, Bool.false_eq_true, if_false] at h
      rw [← hcons, ← hbytes] at h
      cases hscan : arityFromReturnScan c.bytes with
      | some n' =>
        rw [hscan] at h
        obtain rfl := Option.some.inj h
        exact returnScan_sound hc hscan
      | none =>
        rw [hscan] at h
        exact hpeek n h
    · rw [checkArity_eq ho hcl, hb0, hmark] at h
      exact returnScan_sound hc h

/-- Every way to the arity gives the right number exactly if there is a prologue, or no byte misleads the
    scan of the raw bytes and the code happens to read as deep as its arity. -/
theorem aritiesAgree_iff (ho : CodeObject m code c) (hcl : ClosureOver m code addr) :
    AritiesAgree m addr c ↔ c.Readable m code := by
  cases hb : c.marker with
  | some b =>
    exact ⟨fun _ => .inl (by rw [hb]; rfl), fun _ => aritiesAgree_prologue ho hcl hb⟩
  | none =>
    rw [aritiesAgree_iff_of_bare ho hcl hb, rawReturnScan_only_iff, inferArgCount_only_iff, Code.Readable,
      hb]
    simp

/-- The callee gets as many arguments as it drops, the topmost ones. -/
theorem AritiesAgree.dispatch (h : AritiesAgree m addr c) {args passed : List PolyWord}
    (hcall : jitDispatchDynamicCall m (.fromAddr addr) args = .ok passed) :
    passed.length = arity ∧ passed <:+ args := by
  rw [jitDispatchDynamicCall] at hcall
  cases hn : dynamicArity m (.fromAddr addr) with
  | error e => simp [hn, bind, Except.bind] at hcall
  | ok n =>
    obtain rfl := h.dynamic n hn
    simp only [hn, bind, Except.bind] at hcall
    split at hcall
    · cases hcall
    next hle =>
      obtain rfl := Except.ok.inj hcall
      exact ⟨by rw [List.length_drop]; omega, List.drop_suffix ..⟩

end Proofs

/-! ## A function of one argument -/

/-- `CONST_INT_W` or `STACK_SIZE16`, with `b` in its operand, then `LOCAL_1` and `RETURN_1`. -/
def firstArg (op b : UInt8) (hop : op = instrConstIntW ∨ op = instrStackSize16) : Body where
  bytes := [op, b, 0, instrLocal1, instrReturn1, instrNoOp, instrNoOp, instrNoOp]
  whole := by
    intro pc hpc hlt
    have hfirst : consumed [op, b, 0, instrLocal1, instrReturn1, instrNoOp, instrNoOp, instrNoOp] 0 =
        some 3 := by
      rcases hop with rfl | rfl <;> rfl
    rcases Body.boundary_cases hpc hfirst with rfl | hpc
    · exact ⟨3, hfirst, by simp⟩
    rcases Body.boundary_cases hpc (k := 1) rfl with rfl | hpc
    · exact ⟨1, rfl, by simp⟩
    rcases Body.boundary_cases hpc (k := 1) rfl with rfl | hpc
    · exact ⟨1, rfl, by simp⟩
    rcases Body.boundary_cases hpc (k := 1) rfl with rfl | hpc
    · exact ⟨1, rfl, by simp⟩
    rcases Body.boundary_cases hpc (k := 1) rfl with rfl | hpc
    · exact ⟨1, rfl, by simp⟩
    rcases Body.boundary_cases hpc (k := 1) rfl with rfl | hpc
    · exact ⟨1, rfl, by simp⟩
    · exact absurd hlt (Nat.not_lt.2 hpc.le)

def firstArgCode (op b : UInt8) (hop : op = instrConstIntW ∨ op = instrStackSize16) : Code 1 where
  marker := none
  body := firstArg op b hop
  nonempty := by simp [firstArg]
  isMarker := by simp
  returns := by
    intro pc n hpc hret
    have hfirst : consumed (firstArg op b hop).bytes 0 = some 3 := by
      rcases hop with rfl | rfl <;> rfl
    rcases Body.boundary_cases hpc hfirst with rfl | hpc
    · rcases hop with rfl | rfl <;> cases hret
    rcases Body.boundary_cases hpc (k := 1) rfl with rfl | hpc
    · cases hret
    rcases Body.boundary_cases hpc (k := 1) rfl with rfl | hpc
    · cases hret
      rfl
    rcases Body.boundary_cases hpc (k := 1) rfl with rfl | hpc
    · cases hret
    rcases Body.boundary_cases hpc (k := 1) rfl with rfl | hpc
    · cases hret
    rcases Body.boundary_cases hpc (k := 1) rfl with rfl | hpc
    · cases hret
    · exact absurd (lt_length_of_returnArm hret) (Nat.not_lt.2 hpc.le)

/-- The code at 4096, with a closure over it at 8192. -/
def firstArgMem (op b : UInt8) : Mem := fun a =>
  if a = 4088 then 3
  else if a = 4096 then .ofBytes
    ([op, b, 0, instrLocal1, instrReturn1, instrNoOp, instrNoOp, instrNoOp].getD · 0)
  else if a = 4112 then .ofInt 64 (-8)
  else if a = 8192 then .fromAddr 4096
  else 0

section FirstArg

variable (op b : UInt8) (hop : op = instrConstIntW ∨ op = instrStackSize16)

theorem objLen_firstArgMem : (firstArgMem op b).objLen 4096 = 3 := by
  change lengthOf 3#64 = 3
  decide

theorem firstArg_object : CodeObject (firstArgMem op b) 4096 (firstArgCode op b hop) where
  aligned := rfl
  nonzero := by decide
  inRange := by decide
  size := by
    rw [objLen_firstArgMem]
    decide
  bytes := by
    have hbyte : ∀ i ∈ List.range 8,
        (firstArgMem op b).byteAt (4096 + i) = (firstArg op b hop).bytes.getD i 0 := by
      intro i hi
      have hmod : (4096 + i) % 8 = i := by
        rw [List.mem_range] at hi
        omega
      rw [Mem.byteAt, hmod, Nat.add_sub_cancel]
      exact PolyWord.byte_ofBytes _ (List.mem_range.1 hi)
    exact List.map_congr_left hbyte
  room := by
    rw [objLen_firstArgMem]
    exact Nat.le_refl 24
  trailer := by
    rw [objLen_firstArgMem]
    rfl

theorem firstArg_closure : ClosureOver (firstArgMem op b) 4096 8192 := ⟨rfl, by decide, by decide, rfl⟩

end FirstArg

/-- The operand looks like no return, and the code reads one word of its caller. -/
theorem aritiesAgree_firstArg :
    AritiesAgree (firstArgMem instrConstIntW 5) 8192 (firstArgCode instrConstIntW 5 (.inl rfl)) := by
  refine (aritiesAgree_iff (firstArg_object _ _ _) (firstArg_closure _ _)).2 (.inr ⟨?_, ?_⟩)
  · have hscan : rawReturnScan ((firstArgMem instrConstIntW 5).readBytes 4096 24) = some 1 := by
      decide +kernel
    exact rawReturnScan_only_iff.1 (fun n h => Option.some.inj (h.symm.trans hscan))
  · have hpeek : inferArgCount (firstArgCode instrConstIntW 5 (.inl rfl)).bytes 0 = some 1 := by
      decide +kernel
    exact inferArgCount_only_iff.1 (fun k h => Option.some.inj (h.symm.trans hpeek))

/-- The scan of the raw bytes takes an operand for a `RETURN_2`; and the translator's table does not have
    `STACK_SIZE16`, so that nothing is found out about a code that starts with it. -/
theorem not_aritiesAgree :
    (CodeObject (firstArgMem instrConstIntW instrReturn2) 4096
        (firstArgCode instrConstIntW instrReturn2 (.inl rfl)) ∧
      ClosureOver (firstArgMem instrConstIntW instrReturn2) 4096 8192 ∧
      ¬AritiesAgree (firstArgMem instrConstIntW instrReturn2) 8192
        (firstArgCode instrConstIntW instrReturn2 (.inl rfl))) ∧
    CodeObject (firstArgMem instrStackSize16 16) 4096 (firstArgCode instrStackSize16 16 (.inr rfl)) ∧
      ClosureOver (firstArgMem instrStackSize16 16) 4096 8192 ∧
      closureArityFromAddr (firstArgMem instrStackSize16 16) 8192 = some 0 := by
  refine ⟨⟨firstArg_object _ _ _, firstArg_closure _ _, fun h => ?_⟩, firstArg_object _ _ _,
    firstArg_closure _ _, by decide +kernel⟩
  have h2 := h.dynamic 2 (by decide +kernel)
  cases h2
