import Mathlib.Data.Set.Card
import PolymlRs.Image.LoaderDecode

set_option autoImplicit false

/-! # What the exporter visits

The walk interns exactly the objects that are reached from the root, each of them once, and builds
each of them as `exportObject` says. The addresses it has interned are kept in a list, the last one
first; the id of an object is its position counted from the end, cut to 32 bits. -/

/-- The words of an object that hold values: all of them in a word object or a closure, the
constants in a code object, none in a byte object. -/
def valueSlots (m : Mem) (b : Nat) : List Nat :=
  if typeOf (m (b - 8)) = fByteObj then []
  else if typeOf (m (b - 8)) = fCodeObj then
    (List.range (constSegmentForCode m b).2).map (fun i => (constSegmentForCode m b).1 + 8 * i)
  else (List.range (m.objLen b)).map (fun i => b + 8 * i)

/-- The objects reached from the one at `r`. -/
inductive Reached (m : Mem) (r : Nat) : Nat → Prop
  | root : Reached m r r
  | slot {b a : Nat} (hb : Reached m r b) (ha : a ∈ valueSlots m b)
      (hp : (m a).isTagged = false) : Reached m r (m a).addr

/-- A code object as the loader and the compiler lay it out: code, the number of the constants, the
constants, and the distance back to them. -/
structure CodeLayout (m : Mem) (b codeWords count : Nat) : Prop where
  length : m.objLen b = codeWords + count + 2
  counted : m (b + 8 * codeWords) = BitVec.ofNat 64 count
  offset : m (b + 8 * (codeWords + count + 1)) = BitVec.ofInt 64 (-(8 * (count + 1)))

/-- A heap outside of collections: `objs` are its objects. -/
structure WellFormed (m : Mem) (objs : List Nat) : Prop where
  address : ∀ b ∈ objs, b % 8 = 0 ∧ 8 ≤ b
  /-- The collector's mark and tombstone bits are clear. -/
  flags : ∀ b ∈ objs, flagsOf (m (b - 8)) &&& 0x84#8 = 0#8
  /-- A value is an integer or points to an object. -/
  values : ∀ b ∈ objs, ∀ a ∈ valueSlots m b, (m a).isTagged = true ∨ (m a).addr ∈ objs
  closures : ∀ b ∈ objs, typeOf (m (b - 8)) = fClosureObj →
    1 ≤ m.objLen b ∧ (m b).isTagged = false
  code : ∀ b ∈ objs, typeOf (m (b - 8)) = fCodeObj →
    ∃ codeWords count, CodeLayout m b codeWords count

theorem Reached.mem {m : Mem} {objs : List Nat} (hwf : WellFormed m objs) {r b : Nat}
    (hr : r ∈ objs) (hb : Reached m r b) : b ∈ objs := by
  induction hb with
  | root => exact hr
  | slot _ ha hp ih =>
    rcases hwf.values _ ih _ ha with htag | hmem
    · rw [hp] at htag
      cases htag
    · exact hmem

theorem CodeLayout.constSegment {m : Mem} {b codeWords count : Nat}
    (h : CodeLayout m b codeWords count) :
    constSegmentForCode m b = (b + 8 * (codeWords + 1), count) := by
  have hlt : m.objLen b < 0x100000000000000 := lengthOf_lt _
  have hlen := h.length
  exact Image.constSegmentForCode_written hlen (by omega) h.counted h.offset

namespace Image

/-! ## Ids -/

/-- The position of an address among the interned ones, counted from the first. -/
def position : List Nat → Nat → Nat
  | [], _ => 0
  | x :: xs, a => if x = a then xs.length else position xs a

/-- The table after the addresses were interned one after the other. -/
def idTable : List Nat → List (Nat × ObjectId)
  | [] => []
  | x :: xs => (x, UInt32.ofNat xs.length) :: idTable xs

theorem lookup_idTable (xs : List Nat) (a : Nat) : (idTable xs).lookup a =
    if a ∈ xs then some (UInt32.ofNat (position xs a)) else none := by
  induction xs with
  | nil => rfl
  | cons x xs ih =>
    rw [idTable, List.lookup_cons, ih, position]
    by_cases hx : a = x
    · subst hx
      simp
    · have hne : (a == x) = false := by simpa using hx
      simp only [hne, List.mem_cons, hx, false_or, if_neg (Ne.symm hx)]

theorem position_lt {xs : List Nat} {a : Nat} (h : a ∈ xs) : position xs a < xs.length := by
  induction xs with
  | nil => cases h
  | cons x xs ih =>
    rw [position, List.length_cons]
    split
    · exact Nat.lt_succ_self _
    · rename_i hx
      have hmem : a ∈ xs := (List.mem_cons.1 h).resolve_left (Ne.symm hx)
      exact Nat.lt_succ_of_lt (ih hmem)

theorem position_inj {xs : List Nat} {a b : Nat} (ha : a ∈ xs) (hb : b ∈ xs)
    (h : position xs a = position xs b) : a = b := by
  induction xs with
  | nil => cases ha
  | cons x xs ih =>
    rw [position, position] at h
    by_cases hxa : x = a
    · by_cases hxb : x = b
      · exact hxa.symm.trans hxb
      · have hlt := position_lt ((List.mem_cons.1 hb).resolve_left (Ne.symm hxb))
        rw [if_pos hxa, if_neg hxb] at h
        omega
    · by_cases hxb : x = b
      · have hlt := position_lt ((List.mem_cons.1 ha).resolve_left (Ne.symm hxa))
        rw [if_neg hxa, if_pos hxb] at h
        omega
      · rw [if_neg hxa, if_neg hxb] at h
        exact ih ((List.mem_cons.1 ha).resolve_left (Ne.symm hxa))
          ((List.mem_cons.1 hb).resolve_left (Ne.symm hxb)) h

/-- Interning further addresses does not move the earlier ones. -/
theorem position_append {xs new : List Nat} {a : Nat} (ha : a ∈ xs) (hnew : ∀ x ∈ new, x ∉ xs) :
    position (new ++ xs) a = position xs a := by
  induction new with
  | nil => rfl
  | cons x new ih =>
    have hx : x ≠ a := fun h => hnew x List.mem_cons_self (h ▸ ha)
    rw [List.cons_append, position, if_neg hx]
    exact ih (fun y hy => hnew y (List.mem_cons_of_mem _ hy))

/-! ## Objects -/

def exportValue (xs : List Nat) (w : PolyWord) : Value :=
  if w.isTagged then .tagged (Int64.ofInt w.untag) else .ref (UInt32.ofNat (position xs w.addr))

/-- The words of the value slots. -/
def slotWords (m : Mem) (b : Nat) : List PolyWord := (valueSlots m b).map m

def exportBody (xs : List Nat) (m : Mem) (b : Nat) : ObjectBody :=
  if typeOf (m (b - 8)) = fByteObj then .bytes (m.readBytes b (8 * m.objLen b))
  else if typeOf (m (b - 8)) = fCodeObj then
    .code (m.readBytes b ((constSegmentForCode m b).1 - 8 - b)) ((slotWords m b).map (exportValue xs)) []
  else if typeOf (m (b - 8)) = fClosureObj then
    .closure (UInt32.ofNat (position xs (m b).addr)) ((slotWords m b).tail.map (exportValue xs))
  else .ordinary ((slotWords m b).map (exportValue xs))

/-- The object at `b`, once all that it refers to has been interned. -/
def exportObject (xs : List Nat) (m : Mem) (b : Nat) : Object :=
  ⟨objFlags (flagsOf (m (b - 8))), exportBody xs m b⟩

/-- The targets of the pointers among some words. -/
def targets (ws : List PolyWord) : List Nat := (ws.filter (fun w => !w.isTagged)).map PolyWord.addr

theorem mem_targets {ws : List PolyWord} {a : Nat} :
    a ∈ targets ws ↔ ∃ w ∈ ws, w.isTagged = false ∧ w.addr = a := by
  simp [targets, and_assoc]

theorem exportValue_append {xs new : List Nat} {w : PolyWord} (hnew : ∀ x ∈ new, x ∉ xs)
    (hw : w.isTagged = false → w.addr ∈ xs) :
    exportValue (new ++ xs) w = exportValue xs w := by
  unfold exportValue
  cases htag : w.isTagged with
  | true => rfl
  | false => rw [position_append (hw htag) hnew]

theorem map_exportValue_append {xs new : List Nat} {ws : List PolyWord}
    (hnew : ∀ x ∈ new, x ∉ xs) (hws : ∀ a ∈ targets ws, a ∈ xs) :
    ws.map (exportValue (new ++ xs)) = ws.map (exportValue xs) :=
  List.map_congr_left (fun w hw => exportValue_append hnew
    (fun htag => hws _ (mem_targets.2 ⟨w, hw, htag, rfl⟩)))

namespace SnapshotBuilder

/-- Interning the addresses `new`, the last one first, takes the builder `b` to `b'`. -/
structure Interns (xs new : List Nat) (b b' : SnapshotBuilder) : Prop where
  fresh : ∀ x ∈ new, x ∉ xs
  nodup : new.Nodup
  byAddr : b'.byAddr = idTable (new ++ xs)
  objects : b'.objects = b.objects ++ List.replicate new.length placeholder
  pending : b'.pending = new ++ b.pending
  spaces : b'.spaces = none

/-- A builder in trusted mode that has interned `xs`. -/
structure Has (xs : List Nat) (b : SnapshotBuilder) : Prop where
  byAddr : b.byAddr = idTable xs
  objects : b.objects.length = xs.length
  spaces : b.spaces = none

namespace Interns

variable {xs new more : List Nat} {b b' b'' : SnapshotBuilder}

theorem refl (h : b.Has xs) : Interns xs [] b b :=
  ⟨by simp, .nil, h.byAddr, by simp, rfl, h.spaces⟩

theorem has (hi : Interns xs new b b') (h : b.Has xs) : b'.Has (new ++ xs) := by
  refine ⟨hi.byAddr, ?_, hi.spaces⟩
  rw [hi.objects, List.length_append, List.length_replicate, h.objects, List.length_append,
    Nat.add_comm]

theorem trans (h₁ : Interns xs new b b') (h₂ : Interns (new ++ xs) more b' b'') :
    Interns xs (more ++ new) b b'' := by
  refine ⟨fun x hx => ?_, ?_, ?_, ?_, ?_, h₂.spaces⟩
  · rcases List.mem_append.1 hx with hx | hx
    · exact fun hxs => h₂.fresh x hx (List.mem_append_right _ hxs)
    · exact h₁.fresh x hx
  · exact List.nodup_append.2 ⟨h₂.nodup, h₁.nodup, fun a ha c hc hac =>
      h₂.fresh a ha (List.mem_append_left _ (hac ▸ hc))⟩
  · rw [h₂.byAddr, List.append_assoc]
  · rw [h₂.objects, h₁.objects, List.append_assoc, List.replicate_append_replicate,
      List.length_append, Nat.add_comm]
  · rw [h₂.pending, h₁.pending, List.append_assoc]

end Interns

/-- A pointer gets the id of its target, which is new or has been met before. -/
theorem intern_spec {xs : List Nat} {b : SnapshotBuilder} (h : b.Has xs) (w : PolyWord) :
    ∃ new b', b.intern w = (b', UInt32.ofNat (position (new ++ xs) w.addr)) ∧
      Interns xs new b b' ∧ w.addr ∈ new ++ xs ∧ ∀ x ∈ new, x = w.addr := by
  unfold intern
  rw [h.byAddr, lookup_idTable]
  by_cases hmem : w.addr ∈ xs
  · rw [if_pos hmem]
    exact ⟨[], b, rfl, .refl h, hmem, by simp⟩
  · rw [if_neg hmem]
    refine ⟨[w.addr], _, Prod.ext rfl ?_, ?_, by simp, by simp⟩
    · dsimp only
      rw [List.singleton_append, position, if_pos rfl, h.objects]
    · refine ⟨by simpa using hmem, by simp, ?_, rfl, rfl, h.spaces⟩
      rw [List.singleton_append, idTable, h.objects]

/-- In trusted mode an integer stays as it is and a pointer becomes a reference. -/
theorem valueFor_spec {xs : List Nat} {b : SnapshotBuilder} (h : b.Has xs) (w : PolyWord) :
    ∃ new b', b.valueFor w = (b', exportValue (new ++ xs) w) ∧ Interns xs new b b' ∧
      (w.isTagged = false → w.addr ∈ new ++ xs) ∧
      ∀ x ∈ new, w.isTagged = false ∧ x = w.addr := by
  unfold valueFor exportValue
  cases htag : w.isTagged with
  | true => exact ⟨[], b, by simp, .refl h, by simp, by simp⟩
  | false =>
    have hok : b.ptrOk w = true := by
      unfold ptrOk
      rw [h.spaces]
    obtain ⟨new, b', hintern, hi, hmem, hnew⟩ := intern_spec h w
    refine ⟨new, b', ?_, hi, fun _ => hmem, fun x hx => ⟨rfl, hnew x hx⟩⟩
    simp [hok, hintern]

theorem valuesFor_spec {ws : List PolyWord} {xs : List Nat} {b : SnapshotBuilder} (h : b.Has xs) :
    ∃ new b', b.valuesFor ws = (b', ws.map (exportValue (new ++ xs))) ∧ Interns xs new b b' ∧
      (∀ a ∈ targets ws, a ∈ new ++ xs) ∧ ∀ x ∈ new, x ∈ targets ws := by
  induction ws generalizing xs b with
  | nil => exact ⟨[], b, rfl, .refl h, by simp [targets], by simp⟩
  | cons w ws ih =>
    obtain ⟨new₁, b₁, hvalue, hi₁, hmem₁, hnew₁⟩ := valueFor_spec h w
    obtain ⟨new₂, b₂, hvalues, hi₂, hmem₂, hnew₂⟩ := ih (hi₁.has h)
    refine ⟨new₂ ++ new₁, b₂, ?_, hi₁.trans hi₂, fun a ha => ?_, fun x hx => ?_⟩
    · rw [valuesFor, hvalue]
      dsimp only
      rw [hvalues, List.map_cons, List.append_assoc, exportValue_append hi₂.fresh hmem₁]
    · obtain ⟨w', hw', htag, rfl⟩ := mem_targets.1 ha
      rw [List.append_assoc]
      rcases List.mem_cons.1 hw' with rfl | hw'
      · exact List.mem_append_right _ (hmem₁ htag)
      · exact hmem₂ _ (mem_targets.2 ⟨w', hw', htag, rfl⟩)
    · rcases List.mem_append.1 hx with hx | hx
      · obtain ⟨w', hw', htag, rfl⟩ := mem_targets.1 (hnew₂ x hx)
        exact mem_targets.2 ⟨w', List.mem_cons_of_mem _ hw', htag, rfl⟩
      · obtain ⟨htag, rfl⟩ := hnew₁ x hx
        exact mem_targets.2 ⟨w, List.mem_cons_self, htag, rfl⟩

theorem slotWords_byte {m : Mem} {b : Nat} (h : typeOf (m (b - 8)) = fByteObj) :
    slotWords m b = [] := by
  rw [slotWords, valueSlots, if_pos h]
  rfl

theorem slotWords_code {m : Mem} {b codeWords count : Nat} (h : typeOf (m (b - 8)) = fCodeObj)
    (hl : CodeLayout m b codeWords count) :
    slotWords m b = m.words (b + 8 * (codeWords + 1)) count := by
  have hne : ¬typeOf (m (b - 8)) = fByteObj := by
    rw [h]
    decide
  rw [slotWords, valueSlots, if_neg hne, if_pos h, hl.constSegment, List.map_map]
  rfl

theorem slotWords_words {m : Mem} {b : Nat} (hb : ¬typeOf (m (b - 8)) = fByteObj)
    (hc : ¬typeOf (m (b - 8)) = fCodeObj) : slotWords m b = m.words b (m.objLen b) := by
  rw [slotWords, valueSlots, if_neg hb, if_neg hc, List.map_map]
  rfl

theorem words_succ (m : Mem) (p n : Nat) : m.words p (n + 1) = m p :: m.words (p + 8) n := by
  have hshift : (fun i => m (p + 8 * i)) ∘ Nat.succ = fun i => m (p + 8 + 8 * i) := by
    funext i
    have haddr : p + 8 * i.succ = p + 8 + 8 * i := by omega
    exact congrArg m haddr
  rw [Mem.words, List.range_succ_eq_map, List.map_cons, List.map_map, hshift]
  rfl

/-- The code bytes and the constants are found through the last word. -/
theorem buildCode_spec {xs : List Nat} {b : SnapshotBuilder} (h : b.Has xs) {m : Mem}
    {p codeWords count : Nat} (hl : CodeLayout m p codeWords count) :
    b.buildCode m p (m.objLen p) =
      ((b.valuesFor (m.words (p + 8 * (codeWords + 1)) count)).1,
        .code (m.readBytes p (8 * codeWords))
          (b.valuesFor (m.words (p + 8 * (codeWords + 1)) count)).2 []) := by
  have hlen : min (p + 8 * (codeWords + 1)) (p + (codeWords + count + 2) * wordBytes) - p -
      wordBytes = 8 * codeWords := by
    unfold wordBytes
    omega
  have hcount : (if p ≤ p + 8 * (codeWords + 1) ∧
      p + 8 * (codeWords + 1) < p + (codeWords + count + 2) * wordBytes - wordBytes then
      min count ((p + (codeWords + count + 2) * wordBytes - wordBytes -
        (p + 8 * (codeWords + 1))) / wordBytes) else 0) = count := by
    unfold wordBytes
    split <;> omega
  unfold buildCode
  rw [h.spaces]
  simp only [Option.isSome_none, Bool.false_eq_true, if_false, hl.constSegment, hl.length, hlen,
    hcount]

/-- An object is built from what it refers to, and that is interned. -/
theorem buildObject_spec {xs : List Nat} {b : SnapshotBuilder} (h : b.Has xs) {m : Mem}
    {objs : List Nat} (hwf : WellFormed m objs) {p : Nat} (hp : p ∈ objs) :
    ∃ new b', b.buildObject m p (m (p - wordBytes)) = (b', exportObject (new ++ xs) m p) ∧
      Interns xs new b b' ∧ (∀ a ∈ targets (slotWords m p), a ∈ new ++ xs) ∧
      ∀ x ∈ new, x ∈ targets (slotWords m p) := by
  have hlw : m (p - wordBytes) = m (p - 8) := rfl
  have hlen : lengthOf (m (p - 8)) = m.objLen p := rfl
  unfold buildObject exportObject exportBody
  simp only [h.spaces, Option.bind_none, hlw, hlen]
  by_cases hbyte : typeOf (m (p - 8)) = fByteObj
  · simp only [if_pos hbyte, slotWords_byte hbyte, Nat.mul_comm _ wordBytes]
    exact ⟨[], b, rfl, .refl h, by simp [targets], by simp⟩
  by_cases hcode : typeOf (m (p - 8)) = fCodeObj
  · obtain ⟨codeWords, count, hl⟩ := hwf.code p hp hcode
    have hbytes : p + 8 * (codeWords + 1) - 8 - p = 8 * codeWords := by omega
    simp only [if_neg hbyte, if_pos hcode, slotWords_code hcode hl, hl.constSegment, hbytes,
      buildCode_spec h hl]
    obtain ⟨new, b', hvalues, hi, hmem, hnew⟩ :=
      @valuesFor_spec (m.words (p + 8 * (codeWords + 1)) count) _ _ h
    exact ⟨new, b', by rw [hvalues], hi, hmem, hnew⟩
  by_cases hclosure : typeOf (m (p - 8)) = fClosureObj
  · obtain ⟨hpos, htag⟩ := hwf.closures p hp hclosure
    obtain ⟨n, hn⟩ : ∃ n, m.objLen p = n + 1 := ⟨m.objLen p - 1, by omega⟩
    simp only [if_neg hbyte, if_neg hcode, if_pos hclosure, slotWords_words hbyte hcode, hn,
      words_succ, List.tail_cons]
    have hok : b.ptrOk (m p) = true := by
      unfold ptrOk
      rw [h.spaces]
    obtain ⟨new₁, b₁, hintern, hi₁, hmem₁, hnew₁⟩ := intern_spec h (m p)
    obtain ⟨new₂, b₂, hvalues, hi₂, hmem₂, hnew₂⟩ :=
      @valuesFor_spec (m.words (p + 8) n) _ _ (hi₁.has h)
    refine ⟨new₂ ++ new₁, b₂, ?_, hi₁.trans hi₂, fun a ha => ?_, fun x hx => ?_⟩
    · have hn' : n + 1 - 1 = n := rfl
      have haddr : p + wordBytes = p + 8 := rfl
      unfold buildClosure
      simp only [htag, hok, hintern, hn', haddr, Bool.not_true, Bool.or_self, Bool.false_eq_true,
        if_false, hvalues, List.append_assoc, position_append hmem₁ hi₂.fresh]
    · obtain ⟨w, hw, hptr, rfl⟩ := mem_targets.1 ha
      rw [List.append_assoc]
      rcases List.mem_cons.1 hw with rfl | hw
      · exact List.mem_append_right _ hmem₁
      · exact hmem₂ _ (mem_targets.2 ⟨w, hw, hptr, rfl⟩)
    · rcases List.mem_append.1 hx with hx | hx
      · obtain ⟨w, hw, hptr, rfl⟩ := mem_targets.1 (hnew₂ x hx)
        exact mem_targets.2 ⟨w, List.mem_cons_of_mem _ hw, hptr, rfl⟩
      · obtain rfl := hnew₁ x hx
        exact mem_targets.2 ⟨m p, List.mem_cons_self, htag, rfl⟩
  · simp only [if_neg hbyte, if_neg hcode, if_neg hclosure, slotWords_words hbyte hcode]
    obtain ⟨new, b', hvalues, hi, hmem, hnew⟩ := @valuesFor_spec (m.words p (m.objLen p)) _ _ h
    exact ⟨new, b', by rw [buildOrdinary, hvalues], hi, hmem, hnew⟩

/-- Interning more does not change an object all of whose targets are interned. -/
theorem exportObject_append {xs new : List Nat} {m : Mem} {objs : List Nat}
    (hwf : WellFormed m objs) {p : Nat} (hp : p ∈ objs) (hnew : ∀ x ∈ new, x ∉ xs)
    (ht : ∀ a ∈ targets (slotWords m p), a ∈ xs) :
    exportObject (new ++ xs) m p = exportObject xs m p := by
  have hmap := map_exportValue_append hnew ht
  unfold exportObject exportBody
  by_cases hbyte : typeOf (m (p - 8)) = fByteObj
  · simp only [if_pos hbyte]
  by_cases hcode : typeOf (m (p - 8)) = fCodeObj
  · simp only [if_neg hbyte, if_pos hcode, hmap]
  by_cases hclosure : typeOf (m (p - 8)) = fClosureObj
  · obtain ⟨hpos, htag⟩ := hwf.closures p hp hclosure
    obtain ⟨n, hn⟩ : ∃ n, m.objLen p = n + 1 := ⟨m.objLen p - 1, by omega⟩
    have hfirst : (m p).addr ∈ xs := by
      refine ht _ (mem_targets.2 ⟨m p, ?_, htag, rfl⟩)
      rw [slotWords_words hbyte hcode, hn, words_succ]
      exact List.mem_cons_self
    have htail : (slotWords m p).tail.map (exportValue (new ++ xs)) =
        (slotWords m p).tail.map (exportValue xs) := by rw [List.map_tail, List.map_tail, hmap]
    simp only [if_neg hbyte, if_neg hcode, if_pos hclosure, htail, position_append hfirst hnew]
  · simp only [if_neg hbyte, if_neg hcode, if_neg hclosure, hmap]

/-- The state between two rounds: `xs` is interned, and what is not pending is built. -/
structure Inv (m : Mem) (r : Nat) (xs : List Nat) (b : SnapshotBuilder) : Prop where
  has : b.Has xs
  nodup : xs.Nodup
  pendingNodup : b.pending.Nodup
  pending : ∀ a ∈ b.pending, a ∈ xs
  reached : ∀ a ∈ xs, Reached m r a
  root : r ∈ xs ∧ position xs r = 0
  closed : ∀ a ∈ xs, a ∉ b.pending → ∀ t ∈ targets (slotWords m a), t ∈ xs
  /-- The ids are positions as long as 32 bits hold them. -/
  built : xs.length ≤ 2 ^ 32 → ∀ a ∈ xs, a ∉ b.pending →
    b.objects[position xs a]? = some (exportObject xs m a)

theorem reached_target {m : Mem} {r a t : Nat} (ha : Reached m r a)
    (ht : t ∈ targets (slotWords m a)) : Reached m r t := by
  obtain ⟨w, hw, htag, rfl⟩ := mem_targets.1 ht
  obtain ⟨s, hs, rfl⟩ := List.mem_map.1 hw
  exact .slot ha hs htag

/-- One round. -/
theorem Inv.step {m : Mem} {objs : List Nat} (hwf : WellFormed m objs) {r : Nat} (hr : r ∈ objs)
    {xs : List Nat} {b : SnapshotBuilder} (h : Inv m r xs b) {addr : Nat} {rest : List Nat}
    (hpending : b.pending = addr :: rest) :
    ∃ new b', { b with pending := rest }.buildNext m addr = some b' ∧
      Inv m r (new ++ xs) b' ∧ b'.pending = new ++ rest := by
  have haddr : addr ∈ xs := h.pending addr (hpending ▸ List.mem_cons_self)
  have haddrReached := h.reached addr haddr
  have hnodup := h.pendingNodup
  rw [hpending] at hnodup
  obtain ⟨haddrRest, hrestNodup⟩ := List.nodup_cons.1 hnodup
  have hrest : ∀ a ∈ rest, a ∈ xs := fun a ha => h.pending a (hpending ▸ List.mem_cons_of_mem _ ha)
  have hhas : Has xs { b with pending := rest } := ⟨h.has.byAddr, h.has.objects, h.has.spaces⟩
  obtain ⟨new, b', hbuild, hi, hmem, hnew⟩ :=
    buildObject_spec hhas hwf (haddrReached.mem hwf hr)
  have hlookup : b.byAddr.lookup addr = some (UInt32.ofNat (position xs addr)) := by
    rw [h.has.byAddr, lookup_idTable, if_pos haddr]
  have hhas' := hi.has hhas
  refine ⟨new,
    { b' with
      objects := b'.objects.set (UInt32.ofNat (position xs addr)).toNat
        (exportObject (new ++ xs) m addr) }, ?_, ?_, hi.pending⟩
  · unfold buildNext
    simp only [hlookup, Option.bind_eq_bind, Option.bind_some, hbuild]
  -- an object that is not pending any more was built before, or is the one taken off the stack
  have hbefore : ∀ a ∈ new ++ xs, a ∉ b'.pending → a ∈ xs ∧ (a = addr ∨ a ∉ b.pending) := by
    intro a ha hout
    rw [hi.pending] at hout
    have hxs := (List.mem_append.1 ha).resolve_left (fun h => hout (List.mem_append_left _ h))
    by_cases hadd : a = addr
    · exact ⟨hxs, Or.inl hadd⟩
    · refine ⟨hxs, Or.inr (fun hp => ?_)⟩
      rw [hpending] at hp
      exact hout (List.mem_append_right _ ((List.mem_cons.1 hp).resolve_left hadd))
  constructor
  case has => exact ⟨hhas'.byAddr, by rw [List.length_set]; exact hhas'.objects, hhas'.spaces⟩
  case nodup =>
    exact List.nodup_append.2 ⟨hi.nodup, h.nodup, fun a ha c hc hac => hi.fresh a ha (hac ▸ hc)⟩
  case pendingNodup =>
    dsimp only
    rw [hi.pending]
    exact List.nodup_append.2 ⟨hi.nodup, hrestNodup, fun a ha c hc hac =>
      hi.fresh a ha (hac ▸ hrest c hc)⟩
  case pending =>
    intro a ha
    dsimp only at ha
    rw [hi.pending] at ha
    rcases List.mem_append.1 ha with ha | ha
    · exact List.mem_append_left _ ha
    · exact List.mem_append_right _ (hrest a ha)
  case reached =>
    intro a ha
    rcases List.mem_append.1 ha with ha | ha
    · exact reached_target haddrReached (hnew a ha)
    · exact h.reached a ha
  case root =>
    obtain ⟨hroot, hpos⟩ := h.root
    exact ⟨List.mem_append_right _ hroot, by rw [position_append hroot hi.fresh, hpos]⟩
  case closed =>
    intro a ha hout t ht
    obtain ⟨hxs, rfl | hdone⟩ := hbefore a ha hout
    · exact hmem t ht
    · exact List.mem_append_right _ (h.closed a hxs hdone t ht)
  case built =>
    intro hsmall a ha hout
    obtain ⟨hxs, hdone⟩ := hbefore a ha hout
    have hlen : xs.length ≤ 2 ^ 32 := by
      rw [List.length_append] at hsmall
      omega
    have hpos := position_lt haddr
    have hid : (UInt32.ofNat (position xs addr)).toNat = position xs addr := by
      rw [UInt32.toNat_ofNat', Nat.mod_eq_of_lt (by omega)]
    rw [hid, position_append hxs hi.fresh]
    by_cases hadd : a = addr
    · subst hadd
      refine List.getElem?_set_self ?_
      rw [hhas'.objects, List.length_append]
      omega
    · have hne : position xs addr ≠ position xs a := fun hp => hadd (position_inj haddr hxs hp).symm
      have hwas := hdone.resolve_left hadd
      have hold := h.built hlen a hxs hwas
      rw [List.getElem?_set_ne hne, hi.objects, exportObject_append hwf ((h.reached a hxs).mem hwf hr)
        hi.fresh (h.closed a hxs hwas)]
      have hlt := (List.getElem?_eq_some_iff.1 hold).1
      rw [List.getElem?_append_left hlt]
      exact hold

theorem Inv.length_le {m : Mem} {objs : List Nat} (hwf : WellFormed m objs) {r : Nat}
    (hr : r ∈ objs) {xs : List Nat} {b : SnapshotBuilder} (h : Inv m r xs b) :
    xs.length ≤ objs.length :=
  (List.subperm_of_subset h.nodup (fun a ha => (h.reached a ha).mem hwf hr)).length_le

/-- The walk ends, with nothing pending. -/
theorem drain_spec {m : Mem} {objs : List Nat} (hwf : WellFormed m objs) {r : Nat} (hr : r ∈ objs)
    {fuel : Nat} {xs : List Nat} {b : SnapshotBuilder} (h : Inv m r xs b)
    (hfuel : objs.length + b.pending.length ≤ fuel + xs.length) :
    ∃ b' xs', b.drain m fuel = some b' ∧ Inv m r xs' b' ∧ b'.pending = [] := by
  induction fuel generalizing xs b with
  | zero =>
    have hle := h.length_le hwf hr
    have hnil : b.pending = [] := List.eq_nil_of_length_eq_zero (by omega)
    refine ⟨b, xs, ?_, h, hnil⟩
    rw [drain, hnil]
  | succ fuel ih =>
    cases hpending : b.pending with
    | nil =>
      refine ⟨b, xs, ?_, h, hpending⟩
      rw [drain, hpending]
    | cons addr rest =>
      obtain ⟨new, b₁, hround, hinv, hrest⟩ := h.step hwf hr hpending
      have hcount : objs.length + b₁.pending.length ≤ fuel + (new ++ xs).length := by
        rw [hpending, List.length_cons] at hfuel
        rw [hrest, List.length_append, List.length_append]
        omega
      obtain ⟨b', xs', hdrain, hinv', hnil⟩ := ih hinv hcount
      refine ⟨b', xs', ?_, hinv', hnil⟩
      rw [drain, hpending]
      simp only [hround, Option.bind_eq_bind, Option.bind_some, hdrain]

/-- The builder at the end of a snapshot: exactly the reached objects are interned. -/
theorem snapshotBuilder_spec {m : Mem} {objs : List Nat} (hwf : WellFormed m objs)
    {root : PolyWord} (htag : root.isTagged = false) (hroot : root.addr ∈ objs) {fuel : Nat}
    (hfuel : objs.length ≤ fuel) :
    ∃ b xs, snapshotBuilder fuel m root none = some (b, 0) ∧ Inv m root.addr xs b ∧
      b.pending = [] := by
  have hinit : Inv m root.addr [root.addr]
      { byAddr := [(root.addr, 0)], objects := [placeholder], pending := [root.addr],
        spaces := none } := by
    refine ⟨⟨rfl, rfl, rfl⟩, by simp, by simp, by simp, ?_, by simp [position], ?_, ?_⟩
    · intro a ha
      obtain rfl := List.mem_singleton.1 ha
      exact .root
    · exact fun a ha hout => absurd ha hout
    · exact fun _ a ha hout => absurd ha hout
  obtain ⟨b', xs', hdrain, hinv, hnil⟩ :=
    @drain_spec m objs hwf root.addr hroot fuel _ _ hinit (Nat.add_le_add_right hfuel 1)
  refine ⟨b', xs', ?_, hinv, hnil⟩
  have hintern : intern { byAddr := [], objects := [], pending := [], spaces := none } root =
    ({ byAddr := [(root.addr, 0)], objects := [placeholder], pending := [root.addr],
       spaces := none }, 0) := rfl
  unfold snapshotBuilder
  simp only [htag, ptrOk, Bool.or_true, if_true, hintern, hdrain, Option.bind_eq_bind,
    Option.bind_some]

end SnapshotBuilder

end Image
