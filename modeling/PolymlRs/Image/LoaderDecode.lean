import PolymlRs.Image.Export
import PolymlRs.Image.Loader

set_option autoImplicit false

/-! # Reading a loaded object back

`decode` reads an object out of the heap, told only what kind of object it is and which addresses
stand for which values. `writeBody_decode` says that it gives back what the loader has written:
`ObjectBody.stored`, which is the body but for the zero bytes that fill the last word, the
relocations, and what follows the first NUL of an entry point's name. -/

namespace Image

inductive BodyKind
  | words
  | closure
  | string
  | bytes
  | code
  | entryPoint
  | weakRef
deriving DecidableEq, Repr

/-- What the heap keeps of a body. The first word of a closure is its code address. -/
inductive StoredBody
  | words (values : List Value)
  | closure (values : List Value)
  | string (bytes : List UInt8)
  | bytes (bytes : List UInt8)
  | code (bytes : List UInt8) (constants : List Value)
  | entryPoint (name : List UInt8)
  | weakRef
deriving DecidableEq, Repr

/-- The bytes, filled up with zeros to whole words. -/
def padded (bytes : List UInt8) : List UInt8 :=
  bytes ++ List.replicate (wordBytes * wordsFor bytes.length - bytes.length) 0

def kindOf : ObjectBody → BodyKind
  | .ordinary _ => .words
  | .closure .. | .legacyClosure _ => .closure
  | .string _ => .string
  | .bytes _ => .bytes
  | .code .. => .code
  | .entryPoint _ => .entryPoint
  | .weakRef => .weakRef

def stored : ObjectBody → StoredBody
  | .ordinary vs => .words vs
  | .closure codeAddr vs => .closure (.ref codeAddr :: vs)
  | .legacyClosure vs => .closure vs
  | .string b => .string b
  | .bytes b => .bytes (padded b)
  | .code b cs _ => .code (padded b) cs
  | .entryPoint name => .entryPoint (name.asBytes.takeWhile (fun b => b != 0))
  | .weakRef => .weakRef

/-! ## Decoding -/

/-- What the address of an object stands for: the object, or the integer in a box. -/
def Addresses.valueAt (addrs : Addresses) (a : Nat) : Option Value :=
  match addrs.pointers.idxOf? a with
  | some i => some (.ref (UInt32.ofNat i))
  | none => (addrs.boxed.find? (fun e => decide (e.2 = a))).map (fun e => .tagged e.1)

def decodeValue (addrs : Addresses) (w : PolyWord) : Option Value :=
  if w.isTagged then some (.tagged (Int64.ofInt w.untag)) else addrs.valueAt w.addr

/-- The values in `n` words from address `p` on. -/
def decodeValues (addrs : Addresses) (m : Mem) (p n : Nat) : Option (List Value) :=
  (List.range n).mapM (fun i => decodeValue addrs (m (p + wordBytes * i)))

/-- Read the object with body `p`. -/
def decode (addrs : Addresses) (m : Mem) (p : Nat) : BodyKind → Option StoredBody
  | .words => (decodeValues addrs m p (m.objLen p)).map .words
  | .closure => (decodeValues addrs m p (m.objLen p)).map .closure
  | .string => some (.string (m.readBytes (p + wordBytes) (m p).toNat))
  | .bytes => some (.bytes (m.readBytes p (wordBytes * m.objLen p)))
  | .code =>
    let (cp, count) := constSegmentForCode m p
    (decodeValues addrs m cp count).map (.code (m.readBytes p (cp - wordBytes - p)))
  | .entryPoint =>
    let chars := m.readBytes (p + wordBytes) (wordBytes * (m.objLen p - 1))
    some (.entryPoint (chars.takeWhile (fun b => b != 0)))
  | .weakRef => some .weakRef

/-- The type bits of a kind of body. -/
def BodyKind.typeBits : BodyKind → BitVec 8
  | .words => 0#8
  | .closure => fClosureObj
  | .string | .bytes | .entryPoint | .weakRef => fByteObj
  | .code => fCodeObj

/-- Flags and body of an object; the type bits in its length word must be those of the kind. -/
def decodeObject (addrs : Addresses) (m : Mem) (p : Nat) (kind : BodyKind) :
    Option (ObjFlags × StoredBody) :=
  let lw := m (p - wordBytes)
  if typeOf lw = kind.typeBits then
    (decode addrs m p kind).map (fun body => (objFlags (flagsOf lw), body))
  else none

/-! ## Values -/

/-- The addresses are those of objects: aligned, distinct, and small enough for a word. -/
structure Addresses.Ok (addrs : Addresses) : Prop where
  nodup : (addrs.pointers ++ addrs.boxed.map Prod.snd).Nodup
  aligned : ∀ a ∈ addrs.pointers ++ addrs.boxed.map Prod.snd,
    a % 8 = 0 ∧ 8 ≤ a ∧ a < 0x10000000000000000

section Values

variable {addrs : Addresses}

theorem decodeValue_fromAddr (hok : addrs.Ok) {a : Nat}
    (ha : a ∈ addrs.pointers ++ addrs.boxed.map Prod.snd) :
    decodeValue addrs (.fromAddr a) = addrs.valueAt a := by
  obtain ⟨haligned, -, hlt⟩ := hok.aligned a ha
  have htag : (PolyWord.fromAddr a).isTagged = false := by
    rw [PolyWord.isTagged_fromAddr hlt]
    exact decide_eq_false (by omega)
  unfold decodeValue
  rw [htag, PolyWord.addr_fromAddr hlt]
  rfl

/-- A reference that is resolved becomes the address of its object. -/
theorem resolveRef_ok {id : ObjectId} {w : PolyWord} (h : addrs.resolveRef id = .ok w) :
    ∃ p, addrs.pointers[id.toNat]? = some p ∧ w = .fromAddr p := by
  unfold Addresses.resolveRef at h
  split at h
  · cases h
  · rename_i p hp
    split at h
    · cases h
    · exact ⟨p, hp, (Except.ok.inj h).symm⟩

/-- The address of an object stands for a reference to it. -/
theorem valueAt_pointer (hok : addrs.Ok) {id : ObjectId} {p : Nat}
    (h : addrs.pointers[id.toNat]? = some p) : addrs.valueAt p = some (.ref id) := by
  obtain ⟨hlt, hget⟩ := List.getElem?_eq_some_iff.1 h
  have hidx : addrs.pointers.idxOf? p = some id.toNat := by
    refine List.idxOf?_eq_some_iff.2 ⟨hlt, hget, fun j hj heq => ?_⟩
    have hnodup := (List.nodup_append.1 hok.nodup).1
    exact Nat.ne_of_lt hj ((hnodup.getElem_inj_iff).1 (heq.trans hget.symm))
  unfold Addresses.valueAt
  rw [hidx]
  exact congrArg (fun i => some (Value.ref i)) (UInt32.ofNat_toNat ..)

/-- The address of a box stands for the integer in it. -/
theorem valueAt_box (hok : addrs.Ok) {n : Int64} {p : Nat} (h : (n, p) ∈ addrs.boxed) :
    addrs.valueAt p = some (.tagged n) := by
  obtain ⟨-, hboxes, hapart⟩ := List.nodup_append.1 hok.nodup
  have hnone : addrs.pointers.idxOf? p = none :=
    List.idxOf?_eq_none_iff.2 (fun hp => hapart p hp p (List.mem_map_of_mem (f := Prod.snd) h) rfl)
  have hfind : addrs.boxed.find? (fun e => decide (e.2 = p)) = some (n, p) := by
    cases hf : addrs.boxed.find? (fun e => decide (e.2 = p)) with
    | none => exact absurd (decide_eq_true rfl) (List.find?_eq_none.1 hf _ h)
    | some e =>
      have he : e.2 = p := by simpa using List.find?_some hf
      exact congrArg some (List.inj_on_of_nodup_map hboxes (List.mem_of_find?_eq_some hf) h he)
  unfold Addresses.valueAt
  rw [hnone, hfind]
  rfl

/-- A resolved value is decoded to itself. -/
theorem decodeValue_resolveValue (hok : addrs.Ok) {v : Value} {w : PolyWord}
    (h : resolveValue addrs v = .ok w) : decodeValue addrs w = some v := by
  cases v with
  | tagged n =>
    rw [resolveValue] at h
    by_cases hfits : taggedFitsHost n = true
    · rw [if_pos hfits] at h
      obtain rfl := Except.ok.inj h
      obtain ⟨hlo, hhi⟩ := of_decide_eq_true hfits
      unfold decodeValue
      rw [PolyWord.isTagged_tagged, PolyWord.untag_tagged hlo hhi, Int64.ofInt_toInt]
      rfl
    · rw [if_neg hfits] at h
      split at h
      · rename_i p hbox
        obtain rfl := Except.ok.inj h
        have hmem : (n, p) ∈ addrs.boxed := by
          obtain ⟨l₁, l₂, hsplit, -⟩ := List.lookup_eq_some_iff.1 hbox
          rw [hsplit]
          exact List.mem_append_right _ List.mem_cons_self
        rw [decodeValue_fromAddr hok (List.mem_append_right _ (List.mem_map_of_mem hmem))]
        exact valueAt_box hok hmem
      · cases h
  | ref id =>
    obtain ⟨p, hp, rfl⟩ := resolveRef_ok h
    rw [decodeValue_fromAddr hok (List.mem_append_left _ (List.mem_of_getElem? hp))]
    exact valueAt_pointer hok hp

theorem mapM_cons_ok {v : Value} {vs : List Value} {ws : List PolyWord}
    (h : (v :: vs).mapM (resolveValue addrs) = .ok ws) :
    ∃ w ws', resolveValue addrs v = .ok w ∧ vs.mapM (resolveValue addrs) = .ok ws' ∧
      ws = w :: ws' := by
  rw [List.mapM_cons] at h
  cases hv : resolveValue addrs v with
  | error e => rw [hv] at h; cases h
  | ok w =>
    cases hvs : vs.mapM (resolveValue addrs) with
    | error e => rw [hv, hvs] at h; cases h
    | ok ws' =>
      rw [hv, hvs] at h
      exact ⟨w, ws', rfl, rfl, (Except.ok.inj h).symm⟩

theorem length_resolved {vs : List Value} {ws : List PolyWord}
    (h : vs.mapM (resolveValue addrs) = .ok ws) : ws.length = vs.length := by
  induction vs generalizing ws with
  | nil =>
    obtain rfl := Except.ok.inj h
    rfl
  | cons v vs ih =>
    obtain ⟨w, ws', -, hvs, rfl⟩ := mapM_cons_ok h
    exact congrArg Nat.succ (ih hvs)

/-- The values are resolved first, then their words are written. -/
theorem writeValues_eq (m : Mem) (p : Nat) (vs : List Value) : writeValues addrs m p vs =
    (vs.mapM (resolveValue addrs)).map (m.putWords p) := by
  induction vs generalizing m p with
  | nil => rfl
  | cons v vs ih =>
    rw [writeValues, List.mapM_cons]
    cases resolveValue addrs v with
    | error e => rfl
    | ok w =>
      show writeValues addrs _ _ vs = _
      rw [ih]
      cases vs.mapM (resolveValue addrs) with
      | error e => rfl
      | ok ws => rfl

theorem writeValues_ok {m m₁ : Mem} {p : Nat} {vs : List Value}
    (h : writeValues addrs m p vs = .ok m₁) :
    ∃ ws, vs.mapM (resolveValue addrs) = .ok ws ∧ m₁ = m.putWords p ws := by
  rw [writeValues_eq] at h
  cases hres : vs.mapM (resolveValue addrs) with
  | error e => rw [hres] at h; cases h
  | ok ws =>
    rw [hres] at h
    exact ⟨ws, rfl, (Except.ok.inj h).symm⟩

theorem decodeValues_succ (m : Mem) (p n : Nat) : decodeValues addrs m p (n + 1) =
    (decodeValue addrs (m p)).bind (fun v => (decodeValues addrs m (p + 8) n).map (v :: ·)) := by
  have hshift : (fun i => decodeValue addrs (m (p + wordBytes * i))) ∘ Nat.succ =
      fun i => decodeValue addrs (m (p + 8 + wordBytes * i)) := by
    funext i
    have haddr : p + wordBytes * i.succ = p + 8 + wordBytes * i := by unfold wordBytes; omega
    exact congrArg (fun a => decodeValue addrs (m a)) haddr
  unfold decodeValues
  rw [List.range_succ_eq_map, List.mapM_cons, List.mapM_map, hshift]
  cases decodeValue addrs (m p) with
  | none => rfl
  | some v =>
    cases (List.range n).mapM (fun i => decodeValue addrs (m (p + 8 + wordBytes * i))) <;> rfl

/-- Words that were resolved from values are decoded to them. -/
theorem decodeValues_resolved (hok : addrs.Ok) {vs : List Value} {ws : List PolyWord}
    (hres : vs.mapM (resolveValue addrs) = .ok ws) {m : Mem} {p : Nat}
    (hm : ∀ i (h : i < ws.length), m (p + 8 * i) = ws[i]) :
    decodeValues addrs m p vs.length = some vs := by
  induction vs generalizing ws p with
  | nil => rfl
  | cons v vs ih =>
    obtain ⟨w, ws', hv, hvs, rfl⟩ := mapM_cons_ok hres
    have hhead : m p = w := hm 0 (Nat.zero_lt_succ _)
    have htail : ∀ i (h : i < ws'.length), m (p + 8 + 8 * i) = ws'[i] := by
      intro i h
      have haddr : p + 8 + 8 * i = p + 8 * (i + 1) := by omega
      rw [haddr, hm (i + 1) (Nat.succ_lt_succ h), List.getElem_cons_succ]
    rw [List.length_cons, decodeValues_succ, hhead, decodeValue_resolveValue hok hv, ih hvs htail]
    rfl

/-- Values that were written are read back. -/
theorem decodeValues_written (hok : addrs.Ok) {vs : List Value} {m m₁ m' : Mem} {p : Nat}
    (hw : writeValues addrs m p vs = .ok m₁)
    (hm : ∀ i < vs.length, m' (p + 8 * i) = m₁ (p + 8 * i)) :
    decodeValues addrs m' p vs.length = some vs := by
  obtain ⟨ws, hres, rfl⟩ := writeValues_ok hw
  refine decodeValues_resolved hok hres (fun i hi => ?_)
  rw [hm i (length_resolved hres ▸ hi), Mem.putWords_inside hi]

theorem writeValues_outside {vs : List Value} {m m₁ : Mem} {p a : Nat}
    (hw : writeValues addrs m p vs = .ok m₁) (ha : a < p ∨ p + 8 * vs.length ≤ a) :
    m₁ a = m a := by
  obtain ⟨ws, hres, rfl⟩ := writeValues_ok hw
  exact Mem.putWords_outside (length_resolved hres ▸ ha)

end Values

/-! ## Bodies -/

theorem length_padded (bytes : List UInt8) :
    (padded bytes).length = 8 * wordsFor bytes.length := by
  have hle : bytes.length ≤ 8 * wordsFor bytes.length := by
    unfold wordsFor wordBytes
    omega
  rw [padded, List.length_append, List.length_replicate]
  exact Nat.add_sub_cancel' hle

theorem writeBytesPacked_eq (m : Mem) (p off : Nat) (bytes : List UInt8) :
    writeBytesPacked m p off bytes = m.writeBytes (p + wordBytes * off) (padded bytes) := by
  unfold writeBytesPacked padded
  dsimp only
  split
  · rw [Mem.writeBytes_append]
  · rename_i hpad
    rw [Nat.eq_zero_of_not_pos hpad, List.replicate_zero, List.append_nil]

section Bodies

variable {addrs : Addresses}

/-- The code address of a closure is resolved like its other words. -/
theorem writeBody_closure (m : Mem) (p : Nat) (codeAddr : ObjectId) (vs : List Value) :
    writeBody addrs m p (.closure codeAddr vs) = writeValues addrs m p (.ref codeAddr :: vs) := rfl

/-- The steps in which a code object is written: the code bytes, the number of the constants, the
constants, and the distance back to them. -/
theorem writeBody_code {m m₁ : Mem} {p : Nat} {b : List UInt8} {cs : List Value}
    {rs : List CodeReloc} (h : writeBody addrs m p (.code b cs rs) = .ok m₁) :
    ∃ m₂, writeValues addrs (Function.update (m.writeBytes p (padded b))
        (p + 8 * wordsFor b.length) (BitVec.ofNat 64 cs.length)) (p + 8 * (wordsFor b.length + 1)) cs
        = .ok m₂ ∧
      m₁ = Function.update m₂ (p + 8 * (wordsFor b.length + cs.length + 1))
        (BitVec.ofInt 64 (-(8 * (cs.length + 1)))) := by
  rw [writeBody, writeBytesPacked_eq] at h
  have hbytes : p + wordBytes * 0 = p := rfl
  rw [hbytes] at h
  cases hw : writeValues addrs (Function.update (m.writeBytes p (padded b))
    (p + wordBytes * wordsFor b.length) (BitVec.ofNat 64 cs.length))
    (p + wordBytes * (wordsFor b.length + 1)) cs with
  | error e => rw [hw] at h; cases h
  | ok m₂ =>
    rw [hw] at h
    refine ⟨m₂, rfl, (Except.ok.inj h).symm.trans ?_⟩
    have hlast : wordsFor b.length + cs.length + 2 - 1 = wordsFor b.length + cs.length + 1 := rfl
    have hdist : (((wordsFor b.length + 1 : Nat) : Int) -
        (wordsFor b.length + cs.length + 2 : Nat)) * wordBytes = -(8 * (cs.length + 1)) := by
      unfold wordBytes
      omega
    rw [hlast, hdist]

/-- The name and its NUL are written at once. -/
theorem writeBody_entryPoint (m : Mem) (p : Nat) (name : String) :
    writeBody addrs m p (.entryPoint name) =
      .ok (Mem.writeBytes (Function.update m p PolyWord.zero) (p + 8) (name.asBytes ++ [0])) := by
  rw [writeBody, Mem.writeBytes_append]

/-- Nothing is written outside the slot. -/
theorem writeBody_outside {m m₁ : Mem} {p a : Nat} {body : ObjectBody}
    (h : writeBody addrs m p body = .ok m₁) (ha : a + 8 ≤ p ∨ p + 8 * bodyWordCount body ≤ a) :
    m₁ a = m a := by
  cases body with
  | ordinary vs => exact writeValues_outside h (by rw [bodyWordCount] at ha; omega)
  | legacyClosure vs => exact writeValues_outside h (by rw [bodyWordCount] at ha; omega)
  | closure codeAddr vs =>
    rw [writeBody_closure] at h
    exact writeValues_outside h (by rw [bodyWordCount] at ha; rw [List.length_cons]; omega)
  | string b =>
    rw [bodyWordCount] at ha
    obtain rfl := Except.ok.inj h
    rw [writeBytesPacked_eq, Mem.writeBytes_outside, Function.update_of_ne (by omega)]
    rw [length_padded]
    unfold wordBytes
    omega
  | bytes b =>
    rw [bodyWordCount] at ha
    obtain rfl := Except.ok.inj h
    rw [writeBytesPacked_eq, Mem.writeBytes_outside]
    rw [length_padded]
    unfold wordBytes
    omega
  | code b cs rs =>
    rw [bodyWordCount] at ha
    obtain ⟨m₂, hw, rfl⟩ := writeBody_code h
    rw [Function.update_of_ne (by omega), writeValues_outside hw (by omega),
      Function.update_of_ne (by omega), Mem.writeBytes_outside]
    rw [length_padded]
    omega
  | entryPoint name =>
    rw [bodyWordCount] at ha
    rw [writeBody_entryPoint] at h
    obtain rfl := Except.ok.inj h
    unfold wordBytes at ha
    rw [Mem.writeBytes_outside, Function.update_of_ne (by omega)]
    rw [List.length_append, List.length_singleton]
    omega
  | weakRef =>
    rw [bodyWordCount] at ha
    obtain rfl := Except.ok.inj h
    exact Function.update_of_ne (by omega) ..

/-- The constants of a code object are found through its last word. -/
theorem constSegmentForCode_written {m : Mem} {p k n : Nat} (hlen : m.objLen p = k + n + 2)
    (hn : n < 0x100000000000000) (hcount : m (p + 8 * k) = BitVec.ofNat 64 n)
    (hlast : m (p + 8 * (k + n + 1)) = BitVec.ofInt 64 (-(8 * (n + 1)))) :
    constSegmentForCode m p = (p + 8 * (k + 1), n) := by
  have hoffset : (m (p + 8 * (k + n + 1))).toInt = -(8 * (n + 1)) := by
    rw [hlast, BitVec.toInt_ofInt, Int.bmod_def]
    omega
  have hcp : ((p + wordBytes * (k + n + 2 - 1) + wordBytes : Nat) +
      wordBytes * Int.tdiv (-(8 * (n + 1))) wordBytes : Int).toNat = p + 8 * (k + 1) := by
    unfold wordBytes
    rw [Int.neg_tdiv, Nat.cast_ofNat, Int.mul_tdiv_cancel_left _ (by decide)]
    omega
  have hbefore : p + 8 * (k + 1) - wordBytes = p + 8 * k := by
    unfold wordBytes
    omega
  unfold constSegmentForCode
  rw [Mem.objLen] at hlen
  dsimp only
  rw [hlen]
  have hsub : k + n + 2 - 1 = k + n + 1 := rfl
  rw [hsub] at hcp ⊢
  rw [show p + wordBytes * (k + n + 1) = p + 8 * (k + n + 1) from rfl] at hcp ⊢
  rw [hoffset, hcp, hbefore, hcount, BitVec.toNat_ofNat, Nat.mod_eq_of_lt (by omega)]

theorem takeWhile_nul (xs ys : List UInt8) : (xs ++ ([0] ++ ys)).takeWhile (fun b => b != 0) =
    xs.takeWhile (fun b => b != 0) := by
  induction xs with
  | nil => rfl
  | cons x xs ih => rw [List.cons_append, List.takeWhile_cons, List.takeWhile_cons, ih]

/-- A written body is read back, from any memory that agrees with the written one on the slot. -/
theorem writeBody_decode (hok : addrs.Ok) {m m₁ m' : Mem} {p : Nat} {body : ObjectBody}
    (hp : p % 8 = 0) (hfits : bodyWordCount body < 0x100000000000000)
    (hlen : m'.objLen p = bodyWordCount body) (hw : writeBody addrs m p body = .ok m₁)
    (hm : ∀ a, p ≤ a → a + 8 ≤ p + 8 * bodyWordCount body → m' a = m₁ a) :
    decode addrs m' p (kindOf body) = some (stored body) := by
  cases body with
  | ordinary vs =>
    have hvs : decodeValues addrs m' p vs.length = some vs :=
      decodeValues_written hok hw
        (fun i hi => hm _ (Nat.le_add_right ..) (by rw [bodyWordCount]; omega))
    rw [bodyWordCount] at hlen
    rw [kindOf, decode, hlen, hvs]
    rfl
  | legacyClosure vs =>
    have hvs : decodeValues addrs m' p vs.length = some vs :=
      decodeValues_written hok hw
        (fun i hi => hm _ (Nat.le_add_right ..) (by rw [bodyWordCount]; omega))
    rw [bodyWordCount] at hlen
    rw [kindOf, decode, hlen, hvs]
    rfl
  | closure codeAddr vs =>
    rw [writeBody_closure] at hw
    rw [bodyWordCount] at hlen hm
    have hvs : decodeValues addrs m' p (vs.length + 1) = some (.ref codeAddr :: vs) :=
      decodeValues_written hok hw
        (fun i hi => hm _ (Nat.le_add_right ..) (by rw [List.length_cons] at hi; omega))
    rw [kindOf, decode, hlen, Nat.add_comm, hvs]
    rfl
  | string b =>
    rw [bodyWordCount] at hfits hm
    obtain rfl := Except.ok.inj hw
    rw [writeBytesPacked_eq] at hm
    have hsize : b.length ≤ 8 * wordsFor b.length := by
      unfold wordsFor wordBytes
      omega
    have hcount : (m' p).toNat = b.length := by
      have hword : m' p = BitVec.ofNat 64 b.length := by
        rw [hm p (Nat.le_refl p) (by omega), Mem.writeBytes_outside, Function.update_self]
        exact Or.inl (by unfold wordBytes; omega)
      rw [hword, BitVec.toNat_ofNat, Nat.mod_eq_of_lt (by omega)]
    have hread : m'.readBytes (p + 8) b.length = b := by
      rw [Mem.readBytes_words hp (by omega) hm (by omega) (by omega)]
      rw [← length_padded] at hsize
      exact (Mem.readBytes_writeBytes_take _ (p + 8) (padded b) hsize).trans (List.take_left' rfl)
    rw [kindOf, decode, hcount]
    exact congrArg (fun bytes => some (StoredBody.string bytes)) hread
  | bytes b =>
    rw [bodyWordCount] at hlen hm
    obtain rfl := Except.ok.inj hw
    rw [writeBytesPacked_eq] at hm
    have hread : m'.readBytes p (8 * wordsFor b.length) = padded b := by
      rw [Mem.readBytes_words hp (by omega) hm (Nat.le_refl p) (Nat.le_refl _), ← length_padded]
      exact Mem.readBytes_writeBytes m p (padded b)
    rw [kindOf, decode, hlen]
    exact congrArg (fun bytes => some (StoredBody.bytes bytes)) hread
  | code b cs rs =>
    rw [bodyWordCount] at hfits hlen hm
    obtain ⟨m₂, hvalues, rfl⟩ := writeBody_code hw
    -- the word in front of the constants, and the last word
    have hcount : m' (p + 8 * wordsFor b.length) = BitVec.ofNat 64 cs.length := by
      rw [hm _ (by omega) (by omega), Function.update_of_ne (by omega),
        writeValues_outside hvalues (by omega), Function.update_self]
    have hlast : m' (p + 8 * (wordsFor b.length + cs.length + 1)) =
        BitVec.ofInt 64 (-(8 * (cs.length + 1))) := by
      rw [hm _ (by omega) (by omega), Function.update_self]
    have hconsts : decodeValues addrs m' (p + 8 * (wordsFor b.length + 1)) cs.length = some cs :=
      decodeValues_written hok hvalues (fun i hi => by
        rw [hm _ (by omega) (by omega), Function.update_of_ne (by omega)])
    have hread : m'.readBytes p (8 * wordsFor b.length) = padded b := by
      have hcode : ∀ a, p ≤ a → a + 8 ≤ p + 8 * wordsFor b.length →
          m' a = m.writeBytes p (padded b) a := by
        intro a hlo hhi
        rw [hm a hlo (by omega), Function.update_of_ne (by omega),
          writeValues_outside hvalues (by omega), Function.update_of_ne (by omega)]
      rw [Mem.readBytes_words hp (by omega) hcode (Nat.le_refl p) (Nat.le_refl _), ← length_padded]
      exact Mem.readBytes_writeBytes m p (padded b)
    have hcodeBytes : p + 8 * (wordsFor b.length + 1) - wordBytes - p = 8 * wordsFor b.length := by
      unfold wordBytes
      omega
    rw [kindOf, decode, constSegmentForCode_written hlen (by omega) hcount hlast]
    dsimp only
    rw [hconsts, hcodeBytes, hread]
    rfl
  | entryPoint name =>
    rw [bodyWordCount] at hlen hm
    rw [writeBody_entryPoint] at hw
    obtain rfl := Except.ok.inj hw
    have hsize : name.asBytes.length + 1 ≤ 8 * (m'.objLen p - 1) := by
      rw [hlen]
      unfold wordBytes
      omega
    have hname : m'.readBytes (p + 8) (name.asBytes.length + 1) = name.asBytes ++ [0] := by
      rw [Mem.readBytes_words hp (e := p + 8 * m'.objLen p) (by omega) (hlen ▸ hm) (by omega)
        (by omega)]
      exact @Mem.readBytes_writeBytes_take _ (p + 8) (name.asBytes.length + 1) (name.asBytes ++ [0])
        (by simp) |>.trans (List.take_of_length_le (by simp))
    obtain ⟨rest, hrest⟩ := Nat.exists_eq_add_of_le hsize
    have hchars : m'.readBytes (p + wordBytes) (wordBytes * (m'.objLen p - 1)) =
        (name.asBytes ++ [0]) ++ m'.readBytes (p + 8 + (name.asBytes.length + 1)) rest := by
      rw [show wordBytes * (m'.objLen p - 1) = _ from hrest, Mem.readBytes_add]
      exact congrArg (· ++ _) hname
    rw [kindOf, decode, hchars, List.append_assoc]
    exact congrArg (fun chars => some (StoredBody.entryPoint chars)) (takeWhile_nul ..)
  | weakRef => rfl

/-! ## Flags -/

theorem typeBits_kindOf (body : ObjectBody) : (kindOf body).typeBits = typeBits body := by
  cases body <;> rfl

/-- The modifier bits, in the order in which they are set. -/
def modifierBits (f : ObjFlags) : BitVec 8 :=
  let flags := 0#8
  let flags := if f.mutable then flags ||| fMutableBit else flags
  let flags := if f.negative then flags ||| fNegativeBit else flags
  let flags := if f.weak then flags ||| fWeakBit else flags
  if f.noOverwrite then flags ||| fNoOverwrite else flags

theorem modifierBits_typeBits (f : ObjFlags) (kind : BodyKind) :
    (modifierBits f ||| kind.typeBits) &&& 0x03#8 = kind.typeBits ∧
      objFlags (modifierBits f ||| kind.typeBits) = f := by
  obtain ⟨m, n, o, w⟩ := f
  cases kind <;> revert m n o w <;> decide

theorem classify_flags (obj : Object) :
    (classify obj).2 = modifierBits obj.flags ||| (kindOf obj.body).typeBits := by
  rw [typeBits_kindOf]
  rfl

/-- A written object is read back. -/
theorem decodeObject_written (hok : addrs.Ok) {obj : Object} {m m₁ m' : Mem} {p : Nat}
    (hp : p % 8 = 0) (hfits : bodyWordCount obj.body < 0x100000000000000)
    (hlw : m' (p - 8) = makeLengthWord (bodyWordCount obj.body) (classify obj).2)
    (hw : writeBody addrs m p obj.body = .ok m₁)
    (hm : ∀ a, p ≤ a → a + 8 ≤ p + 8 * bodyWordCount obj.body → m' a = m₁ a) :
    decodeObject addrs m' p (kindOf obj.body) = some (obj.flags, stored obj.body) := by
  have hflags := flagsOf_makeLengthWord (classify obj).2 hfits
  have hlen : m'.objLen p = bodyWordCount obj.body := by
    rw [Mem.objLen, wordBytes, hlw, lengthOf_makeLengthWord _ hfits]
  obtain ⟨htype, hdecode⟩ := modifierBits_typeBits obj.flags (kindOf obj.body)
  unfold decodeObject
  dsimp only
  rw [wordBytes, hlw, typeOf, hflags, classify_flags, if_pos htype, hdecode,
    writeBody_decode hok hp hfits hlen hw hm]
  rfl

end Bodies

end Image
