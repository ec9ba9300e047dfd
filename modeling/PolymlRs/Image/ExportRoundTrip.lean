import PolymlRs.Image.ExportImage

set_option autoImplicit false

/-! # Exporting a heap and loading it again

`SameGraph` is an isomorphism of object graphs, word for word. A heap that is exported, written in
either format, read back and loaded has it to the original, as long as the ids of its objects fit in
32 bits; `roundTrips_iff` says that this is the only condition. -/

/-- The word `w` after every object `b` has moved to `φ b`. -/
def moveWord (φ : Nat → Nat) (w : PolyWord) : PolyWord :=
  if w.isTagged then w else .fromAddr (φ w.addr)

/-- The object at `b'` in `m'` is the one at `b` in `m`, after every object has moved by `φ`. -/
structure Copied (φ : Nat → Nat) (m : Mem) (b : Nat) (m' : Mem) (b' : Nat) : Prop where
  /-- Length and flags are kept. -/
  header : m' (b' - 8) = m (b - 8)
  /-- The values are in the same places, ... -/
  slots : valueSlots m' b' = (valueSlots m b).map (fun a => b' + (a - b))
  /-- ... integers are kept and pointers follow the objects, ... -/
  values : ∀ a ∈ valueSlots m b, m' (b' + (a - b)) = moveWord φ (m a)
  /-- ... and every other word is kept: bytes, code, and what frames the constants. -/
  others : ∀ i < m.objLen b, b + 8 * i ∉ valueSlots m b → m' (b' + 8 * i) = m (b + 8 * i)

/-- `φ` takes the graph reached from `r` in `m` to the graph reached from `r'` in `m'`. -/
structure SameGraph (m : Mem) (r : Nat) (m' : Mem) (r' : Nat) (φ : Nat → Nat) : Prop where
  root : φ r = r'
  /-- Different objects stay different: sharing and cycles are kept. -/
  injective : ∀ b c, Reached m r b → Reached m r c → φ b = φ c → b = c
  reached : ∀ b', Reached m' r' b' ↔ ∃ b, Reached m r b ∧ φ b = b'
  copied : ∀ b, Reached m r b → Copied φ m b m' (φ b)

/-- Objects that are copied one by one are copied as a graph. -/
theorem SameGraph.of_copied {m m' : Mem} {r r' : Nat} {φ : Nat → Nat} (hroot : φ r = r')
    (hφ : ∀ b, Reached m r b → φ b % 8 = 0 ∧ φ b < 0x10000000000000000)
    (hinj : ∀ b c, Reached m r b → Reached m r c → φ b = φ c → b = c)
    (hcopied : ∀ b, Reached m r b → Copied φ m b m' (φ b)) : SameGraph m r m' r' φ := by
  -- a word that is a pointer stays one, to where its target has moved
  have hmove : ∀ b, Reached m r b → ∀ a ∈ valueSlots m b, (m a).isTagged = false →
      (m' (φ b + (a - b))).isTagged = false ∧ (m' (φ b + (a - b))).addr = φ (m a).addr := by
    intro b hb a ha htag
    obtain ⟨haligned, hlt⟩ := hφ _ (.slot hb ha htag)
    rw [(hcopied b hb).values a ha, moveWord, htag, if_neg Bool.false_ne_true,
      PolyWord.isTagged_fromAddr hlt, PolyWord.addr_fromAddr hlt]
    exact ⟨decide_eq_false (by omega), rfl⟩
  refine ⟨hroot, hinj, fun b' => ⟨fun hb' => ?_, ?_⟩, hcopied⟩
  · induction hb' with
    | root => exact ⟨r, .root, hroot⟩
    | slot _ ha' hp ih =>
      obtain ⟨b, hb, rfl⟩ := ih
      rw [(hcopied b hb).slots] at ha'
      obtain ⟨a, ha, rfl⟩ := List.mem_map.1 ha'
      have htag : (m a).isTagged = false := by
        rw [(hcopied b hb).values a ha] at hp
        by_contra hne
        rw [moveWord, if_pos (by simpa using hne)] at hp
        exact hne hp
      exact ⟨(m a).addr, .slot hb ha htag, (hmove b hb a ha htag).2.symm⟩
  · rintro ⟨b, hb, rfl⟩
    induction hb with
    | root => exact hroot ▸ .root
    | slot hb ha hp ih =>
      obtain ⟨htag, haddr⟩ := hmove _ hb _ ha hp
      rw [← haddr]
      refine .slot ih ?_ htag
      rw [(hcopied _ hb).slots]
      exact List.mem_map_of_mem ha

namespace Image

/-- The snapshot of the graph under `root`, written and read back, is loaded to the same graph
wherever there is memory for it. -/
def RoundTrips (fuel : Nat) (fmt : Format) (m : Mem) (root : PolyWord) : Prop :=
  ∃ b rootId image, snapshotBuilder fuel m root none = some (b, rootId) ∧
    OneIdEach m root.addr b.byAddr ∧ rootId = 0 ∧ snapshot fuel m root = some image ∧
    ∃ image', fmt.deserialize (fmt.serialize image) = some image' ∧
      ∀ env m₀, MemoryHolds env image' → ∃ loaded φ,
        load env m₀ image' = some (.ok loaded) ∧
          SameGraph m root.addr loaded.mem loaded.root φ

/-! ## The loaded heap -/

/-- The modifier bits and the type bits of a flag byte are all of it, outside of collections. -/
theorem modifierBits_objFlags (f : BitVec 8) (h : f &&& 0x84#8 = 0#8) :
    modifierBits (objFlags f) ||| (f &&& 0x03#8) = f := by
  have hall : ∀ n : Fin (2 ^ 8), BitVec.ofFin n &&& 0x84#8 = 0#8 →
      modifierBits (objFlags (BitVec.ofFin n)) ||| (BitVec.ofFin n &&& 0x03#8) = BitVec.ofFin n := by
    decide +kernel
  exact hall f.toFin h

/-- Objects with the same bytes have the same words. -/
theorem words_of_readBytes {m m' : Mem} {a p n : Nat} (ha : a % 8 = 0) (hp : p % 8 = 0)
    (h : m'.readBytes p (8 * n) = m.readBytes a (8 * n)) {i : Nat} (hi : i < n) :
    m' (p + 8 * i) = m (a + 8 * i) := by
  have hbyte : ∀ j < 8 * n, m'.byteAt (p + j) = m.byteAt (a + j) := by
    intro j hj
    unfold Mem.readBytes at h
    have hj' := congrArg (fun bs : List UInt8 => bs[j]?) h
    simpa [hj] using hj'
  have hbytes : m'.readBytes (p + 8 * i) 8 = m.readBytes (a + 8 * i) 8 := by
    unfold Mem.readBytes
    refine List.map_congr_left (fun j hj => ?_)
    have hlt := List.mem_range.1 hj
    rw [Nat.add_assoc, Nat.add_assoc]
    exact hbyte _ (by omega)
  apply BitVec.eq_of_toNat_eq
  rw [Mem.toNat_eq_ofDigits (by omega), Mem.toNat_eq_ofDigits (by omega), hbytes]

theorem padded_readBytes (m : Mem) (a n : Nat) :
    padded (m.readBytes a (8 * n)) = m.readBytes a (8 * n) := by
  have hpad : wordBytes * wordsFor (8 * n) - 8 * n = 0 := by
    unfold wordsFor wordBytes
    omega
  rw [padded, Mem.length_readBytes, hpad, List.replicate_zero, List.append_nil]

/-- Where the object with id `position xs b` was loaded. -/
def place (addrs : Addresses) (xs : List Nat) (b : Nat) : Nat :=
  (addrs.pointers[position xs b]?).getD 0

/-- A heap that the image of a snapshot was loaded into. -/
structure Reloaded (m : Mem) (objs : List Nat) (r : Nat) (xs : List Nat) (image : Image)
    (addrs : Addresses) (loaded : LoadedImage) : Prop where
  snap : Snapshotted m objs r xs image
  faithful : Faithful image addrs loaded
  written : ∀ i obj p, ObjectAt image addrs i obj p →
    Placed.Written addrs loaded.mem (obj, p, (classify obj).2)

namespace Reloaded

variable {m : Mem} {objs : List Nat} {r : Nat} {xs : List Nat} {image : Image} {addrs : Addresses}
  {loaded : LoadedImage}

theorem pointer (h : Reloaded m objs r xs image addrs loaded) {a : Nat} (ha : a ∈ xs) :
    addrs.pointers[position xs a]? = some (place addrs xs a) := by
  have hlt : position xs a < addrs.pointers.length := by
    rw [h.faithful.length, h.snap.length]
    exact position_lt ha
  rw [place, List.getElem?_eq_getElem hlt]
  rfl

theorem placed (h : Reloaded m objs r xs image addrs loaded) {a : Nat} (ha : a ∈ xs) :
    place addrs xs a % 8 = 0 ∧ 8 ≤ place addrs xs a ∧ place addrs xs a < 0x10000000000000000 :=
  h.faithful.names.aligned _ (List.mem_append_left _ (List.mem_of_getElem? (h.pointer ha)))

theorem place_inj (h : Reloaded m objs r xs image addrs loaded) {a b : Nat} (ha : a ∈ xs)
    (hb : b ∈ xs) (heq : place addrs xs a = place addrs xs b) : a = b := by
  obtain ⟨hla, hpa⟩ := List.getElem?_eq_some_iff.1 (h.pointer ha)
  obtain ⟨hlb, hpb⟩ := List.getElem?_eq_some_iff.1 (h.pointer hb)
  have hnodup := (List.nodup_append.1 h.faithful.names.nodup).1
  exact position_inj ha hb ((hnodup.getElem_inj_iff).1 (hpa.trans (heq.trans hpb.symm)))

theorem objectAt (h : Reloaded m objs r xs image addrs loaded) {a : Nat} (ha : a ∈ xs) :
    ObjectAt image addrs (position xs a) (exportObject xs m a) (place addrs xs a) :=
  ⟨h.snap.built a ha, h.pointer ha⟩

theorem header (h : Reloaded m objs r xs image addrs loaded) {a : Nat} (ha : a ∈ xs) :
    loaded.mem (place addrs xs a - 8) = m (a - 8) := by
  have htype : (kindOf (exportBody xs m a)).typeBits = typeOf (m (a - 8)) := by
    rcases h.snap.exportBody_cases ha with ⟨ht, -, hbody⟩ | ⟨ht, k, n, -, -, hbody⟩ |
      ⟨-, ⟨ht, n, -, -, -, hbody⟩ | ⟨ht, hbody⟩⟩ <;> rw [ht, hbody] <;> rfl
  have hflags : (classify (exportObject xs m a)).2 = flagsOf (m (a - 8)) := by
    rw [classify_flags]
    show modifierBits (objFlags (flagsOf (m (a - 8)))) ||| (kindOf (exportBody xs m a)).typeBits = _
    rw [htype]
    exact modifierBits_objFlags _ (h.snap.wf.flags a (h.snap.address ha))
  have hcount : bodyWordCount (exportObject xs m a).body = lengthOf (m (a - 8)) :=
    h.snap.bodyWordCount_exportBody ha
  rw [h.faithful.header _ _ _ (h.objectAt ha), hcount, hflags, makeLengthWord_lengthOf_flagsOf]

/-- A value is resolved to the word it was made from, moved. -/
theorem resolve_exportValue (h : Reloaded m objs r xs image addrs loaded) {w : PolyWord}
    (hw : w.isTagged = false → w.addr ∈ xs) :
    resolveValue addrs (exportValue xs w) = .ok (moveWord (place addrs xs) w) := by
  unfold exportValue moveWord
  cases htag : w.isTagged with
  | true =>
    obtain ⟨-, -, hword⟩ := PolyWord.tagged_untag htag
    rw [if_pos rfl, if_pos rfl, resolveValue, if_pos (Snapshotted.taggedFitsHost_untag htag),
      Snapshotted.toInt_untag htag, hword]
  | false =>
    have hmem := hw htag
    have hpos := (h.placed hmem).2.1
    rw [if_neg Bool.false_ne_true, if_neg Bool.false_ne_true, resolveValue, Addresses.resolveRef,
      h.snap.toNat_id hmem, h.pointer hmem]
    dsimp only
    rw [if_neg (by omega)]

theorem mapM_exportValue (h : Reloaded m objs r xs image addrs loaded) {ws : List PolyWord}
    (hws : ∀ w ∈ ws, w.isTagged = false → w.addr ∈ xs) :
    (ws.map (exportValue xs)).mapM (resolveValue addrs) = .ok (ws.map (moveWord (place addrs xs))) := by
  induction ws with
  | nil => rfl
  | cons w ws ih =>
    rw [List.map_cons, List.mapM_cons, h.resolve_exportValue (hws w List.mem_cons_self),
      ih (fun v hv => hws v (List.mem_cons_of_mem _ hv))]
    rfl

/-- The words of a run of values are written moved. -/
theorem writeValues_words (h : Reloaded m objs r xs image addrs loaded) {m₀ m₁ : Mem} {a p n : Nat}
    (hws : ∀ i < n, (m (a + 8 * i)).isTagged = false → (m (a + 8 * i)).addr ∈ xs)
    (hw : writeValues addrs m₀ p ((m.words a n).map (exportValue xs)) = .ok m₁) {i : Nat}
    (hi : i < n) : m₁ (p + 8 * i) = moveWord (place addrs xs) (m (a + 8 * i)) := by
  have hmem : ∀ w ∈ m.words a n, w.isTagged = false → w.addr ∈ xs := by
    intro w hw
    obtain ⟨j, hj, rfl⟩ := List.mem_map.1 hw
    exact hws j (List.mem_range.1 hj)
  rw [writeValues_eq, h.mapM_exportValue hmem] at hw
  obtain rfl := Except.ok.inj hw
  have hlen : i < ((m.words a n).map (moveWord (place addrs xs))).length := by
    rw [List.length_map, Mem.length_words]
    exact hi
  rw [Mem.putWords_inside hlen]
  simp [Mem.words]

/-- The slot of an object, as `writeBody` has filled it. -/
theorem slot (h : Reloaded m objs r xs image addrs loaded) {a : Nat} (ha : a ∈ xs) :
    ∃ m₀ m₁, writeBody addrs m₀ (place addrs xs a) (exportBody xs m a) = .ok m₁ ∧
      ∀ i < m.objLen a, loaded.mem (place addrs xs a + 8 * i) = m₁ (place addrs xs a + 8 * i) := by
  obtain ⟨-, m₀, m₁, hw, hslot⟩ := h.written _ _ _ (h.objectAt ha)
  have hcount : bodyWordCount (exportObject xs m a).body = m.objLen a :=
    h.snap.bodyWordCount_exportBody ha
  rw [hcount] at hslot
  exact ⟨m₀, m₁, hw, fun i hi => hslot _ (Nat.le_add_right ..) (by dsimp only; omega)⟩

theorem copied_bytes (h : Reloaded m objs r xs image addrs loaded) {a : Nat} (ha : a ∈ xs)
    (ht : typeOf (m (a - 8)) = fByteObj)
    (hbody : exportBody xs m a = .bytes (m.readBytes a (8 * m.objLen a))) :
    Copied (place addrs xs) m a loaded.mem (place addrs xs a) := by
  have hheader := h.header ha
  obtain ⟨m₀, m₁, hw, hslot⟩ := h.slot ha
  obtain ⟨haligned, -, -⟩ := h.placed ha
  have hslots : valueSlots m a = [] := by rw [valueSlots, if_pos ht]
  have hslots' : valueSlots loaded.mem (place addrs xs a) = [] := by
    rw [valueSlots, hheader, if_pos ht]
  refine ⟨hheader, ?_, ?_, fun i hi _ => ?_⟩
  · rw [hslots, hslots', List.map_nil]
  · rw [hslots]
    exact fun s hs => absurd hs List.not_mem_nil
  · rw [hbody] at hw
    obtain rfl := Except.ok.inj hw
    rw [hslot i hi, writeBytesPacked_eq, padded_readBytes]
    refine words_of_readBytes (h.snap.wf.address a (h.snap.address ha)).1 haligned ?_ hi
    have hread := Mem.readBytes_writeBytes m₀ (place addrs xs a) (m.readBytes a (8 * m.objLen a))
    rwa [Mem.length_readBytes] at hread

/-- Words that are all values. -/
theorem copied_words (h : Reloaded m objs r xs image addrs loaded) {a : Nat} (ha : a ∈ xs)
    (hb : ¬typeOf (m (a - 8)) = fByteObj) (hc : ¬typeOf (m (a - 8)) = fCodeObj)
    (hbody : ∀ m₀, writeBody addrs m₀ (place addrs xs a) (exportBody xs m a) =
      writeValues addrs m₀ (place addrs xs a) (slotValues (exportBody xs m a))) :
    Copied (place addrs xs) m a loaded.mem (place addrs xs a) := by
  have hheader := h.header ha
  have hlen : loaded.mem.objLen (place addrs xs a) = m.objLen a := congrArg lengthOf hheader
  obtain ⟨m₀, m₁, hw, hslot⟩ := h.slot ha
  have hslots : valueSlots m a = (List.range (m.objLen a)).map (fun i => a + 8 * i) := by
    rw [valueSlots, if_neg hb, if_neg hc]
  have hslots' : valueSlots loaded.mem (place addrs xs a) =
      (List.range (m.objLen a)).map (fun i => place addrs xs a + 8 * i) := by
    rw [valueSlots, hheader, if_neg hb, if_neg hc, hlen]
  have htargets : ∀ i < m.objLen a, (m (a + 8 * i)).isTagged = false →
      (m (a + 8 * i)).addr ∈ xs := by
    intro i hi htag
    refine h.snap.target ha ?_ htag
    rw [hslots]
    exact List.mem_map_of_mem (List.mem_range.2 hi)
  rw [hbody, h.snap.slotValues_exportBody ha, SnapshotBuilder.slotWords_words hb hc] at hw
  refine ⟨hheader, ?_, fun s hs => ?_, fun i hi hout => ?_⟩
  · rw [hslots, hslots', List.map_map]
    simp
  · rw [hslots] at hs
    obtain ⟨i, hi, rfl⟩ := List.mem_map.1 hs
    have hi := List.mem_range.1 hi
    rw [Nat.add_sub_cancel_left, hslot i hi, h.writeValues_words htargets hw hi]
  · rw [hslots] at hout
    exact absurd (List.mem_map_of_mem (List.mem_range.2 hi)) hout

/-- Code, the number of the constants, the constants, and the distance to them. -/
theorem copied_code (h : Reloaded m objs r xs image addrs loaded) {a : Nat} (ha : a ∈ xs)
    (ht : typeOf (m (a - 8)) = fCodeObj) {k n : Nat} (hl : CodeLayout m a k n)
    (hbody : exportBody xs m a =
      .code (m.readBytes a (8 * k)) ((slotWords m a).map (exportValue xs)) []) :
    Copied (place addrs xs) m a loaded.mem (place addrs xs a) := by
  have hheader := h.header ha
  have hlen : loaded.mem.objLen (place addrs xs a) = m.objLen a := congrArg lengthOf hheader
  have hb : ¬typeOf (m (a - 8)) = fByteObj := by
    rw [ht]
    decide
  obtain ⟨m₀, m₁, hw, hslot⟩ := h.slot ha
  obtain ⟨haligned, -, -⟩ := h.placed ha
  generalize hp : place addrs xs a = p at *
  rw [hl.length] at hslot
  have hslots : valueSlots m a = (List.range n).map (fun i => a + 8 * (k + 1) + 8 * i) := by
    rw [valueSlots, if_neg hb, if_pos ht, hl.constSegment]
  have htargets : ∀ i < n, (m (a + 8 * (k + 1) + 8 * i)).isTagged = false →
      (m (a + 8 * (k + 1) + 8 * i)).addr ∈ xs := by
    intro i hi htag
    refine h.snap.target ha ?_ htag
    rw [hslots]
    exact List.mem_map_of_mem (List.mem_range.2 hi)
  -- what was written, from the last step back
  have hwords : wordsFor (8 * k) = k := by
    unfold wordsFor wordBytes
    omega
  rw [hbody, SnapshotBuilder.slotWords_code ht hl] at hw
  obtain ⟨m₂, hvalues, rfl⟩ := writeBody_code hw
  rw [Mem.length_readBytes, hwords, List.length_map, Mem.length_words] at hvalues hslot
  rw [padded_readBytes] at hvalues
  have hlast : loaded.mem (p + 8 * (k + n + 1)) = m (a + 8 * (k + n + 1)) := by
    rw [hslot _ (by omega), Function.update_self, hl.offset]
  have hconst : ∀ i < n, loaded.mem (p + 8 * (k + 1) + 8 * i) =
      moveWord (place addrs xs) (m (a + 8 * (k + 1) + 8 * i)) := by
    intro i hi
    have haddr : p + 8 * (k + 1) + 8 * i = p + 8 * (k + 1 + i) := by omega
    rw [haddr, hslot _ (by omega), Function.update_of_ne (by omega), ← haddr,
      h.writeValues_words htargets hvalues hi]
  have hvalue : ∀ i, (i < k + 1 ∨ k + 1 + n ≤ i) → i < k + n + 1 →
      loaded.mem (p + 8 * i) = Function.update (m₀.writeBytes p (m.readBytes a (8 * k))) (p + 8 * k)
        (BitVec.ofNat 64 n) (p + 8 * i) := by
    intro i hi hlt
    rw [hslot _ (by omega), Function.update_of_ne (by omega), writeValues_outside hvalues]
    rw [List.length_map, Mem.length_words]
    omega
  have hcount : loaded.mem (p + 8 * k) = m (a + 8 * k) := by
    rw [hvalue k (by omega) (by omega), Function.update_self, hl.counted]
  have hcode : ∀ i < k, loaded.mem (p + 8 * i) = m (a + 8 * i) := by
    intro i hi
    rw [hvalue i (by omega) (by omega), Function.update_of_ne (by omega)]
    refine words_of_readBytes (h.snap.wf.address a (h.snap.address ha)).1 haligned ?_ hi
    have hread := Mem.readBytes_writeBytes m₀ p (m.readBytes a (8 * k))
    rwa [Mem.length_readBytes] at hread
  have hl' : CodeLayout loaded.mem p k n :=
    ⟨hlen.trans hl.length, hcount.trans hl.counted, hlast.trans hl.offset⟩
  have hslots' : valueSlots loaded.mem p = (List.range n).map (fun i => p + 8 * (k + 1) + 8 * i) := by
    rw [valueSlots, hheader, if_neg hb, if_pos ht, hl'.constSegment]
  refine ⟨hheader, ?_, fun s hs => ?_, fun i hi hout => ?_⟩
  · rw [hslots, hslots', List.map_map]
    refine List.map_congr_left (fun i _ => ?_)
    dsimp only [Function.comp]
    omega
  · rw [hslots] at hs
    obtain ⟨i, hi, rfl⟩ := List.mem_map.1 hs
    have haddr : p + (a + 8 * (k + 1) + 8 * i - a) = p + 8 * (k + 1) + 8 * i := by omega
    rw [haddr, hconst i (List.mem_range.1 hi)]
  · rw [hl.length] at hi
    rcases Nat.lt_trichotomy i k with hlt | rfl | hgt
    · exact hcode i hlt
    · exact hcount
    · by_cases hend : i = k + n + 1
      · rw [hend, hlast]
      · refine absurd ?_ hout
        rw [hslots, List.mem_map]
        exact ⟨i - (k + 1), List.mem_range.2 (by omega), by omega⟩

/-- Every object is copied. -/
theorem copied (h : Reloaded m objs r xs image addrs loaded) {a : Nat} (ha : a ∈ xs) :
    Copied (place addrs xs) m a loaded.mem (place addrs xs a) := by
  rcases h.snap.exportBody_cases ha with ⟨ht, -, hbody⟩ | ⟨ht, k, n, hl, -, hbody⟩ |
    ⟨-, ⟨ht, n, -, -, -, hbody⟩ | ⟨ht, hbody⟩⟩
  · exact h.copied_bytes ha ht hbody
  · exact h.copied_code ha ht hl hbody
  · exact h.copied_words ha (by rw [ht]; decide) (by rw [ht]; decide) (fun m₀ => by rw [hbody]; rfl)
  · exact h.copied_words ha (by rw [ht]; decide) (by rw [ht]; decide) (fun m₀ => by rw [hbody]; rfl)

/-- The loaded graph is the original one. -/
theorem sameGraph (h : Reloaded m objs r xs image addrs loaded) :
    SameGraph m r loaded.mem loaded.root (place addrs xs) := by
  have hmem : ∀ b, Reached m r b → b ∈ xs := fun b hb => (h.snap.mem b).2 hb
  refine .of_copied ?_ (fun b hb => ?_) (fun b c hb hc => h.place_inj (hmem b hb) (hmem c hc))
    (fun b hb => h.copied (hmem b hb))
  · have hroot := h.pointer (hmem r .root)
    have hloaded := h.faithful.root
    rw [h.snap.imageRoot] at hloaded
    rw [h.snap.rootPosition] at hroot
    exact Option.some.inj (hroot.symm.trans hloaded)
  · obtain ⟨haligned, -, hlt⟩ := h.placed (hmem b hb)
    exact ⟨haligned, hlt⟩

end Reloaded

/-! ## The round trip -/

/-- A snapshot that has been read back is loaded to the same graph. -/
theorem Snapshotted.load_sameGraph {m : Mem} {objs : List Nat} {r : Nat} {xs : List Nat}
    {image : Image} (h : Snapshotted m objs r xs image) (env : LoadEnv) (m₀ : Mem)
    (hmem : MemoryHolds env image) : ∃ loaded φ,
    load env m₀ image = some (.ok loaded) ∧ SameGraph m r loaded.mem loaded.root φ := by
  obtain ⟨loaded, addrs, hload, hfaithful, hwritten⟩ := load_of_loadable hmem (h.loadable env) m₀
  have hreloaded : Reloaded m objs r xs image addrs loaded := ⟨h, hfaithful, hwritten⟩
  exact ⟨loaded, place addrs xs, hload, hreloaded.sameGraph⟩

variable {m : Mem} {objs : List Nat} {root : PolyWord} {fuel : Nat}

/-- Everything that fits the format makes the round trip. -/
theorem roundTrips_of_le (hwf : WellFormed m objs) (htag : root.isTagged = false)
    (hroot : root.addr ∈ objs) (hfuel : objs.length ≤ fuel) {fmt : Format}
    (hcount : {b | Reached m root.addr b}.ncard ≤ fmt.maxObjects) : RoundTrips fuel fmt m root := by
  obtain ⟨b, xs, hbuilder, hinv, hnil⟩ :=
    SnapshotBuilder.snapshotBuilder_spec hwf htag hroot hfuel
  rw [hinv.ncard_reached hnil] at hcount
  have hsmall : xs.length ≤ 2 ^ 32 := by cases fmt <;> exact hcount.trans (by decide)
  have hsnap := hinv.snapshotted hwf hroot hnil hsmall
  refine ⟨b, 0, _, hbuilder, hinv.oneIdEach hnil hsmall, rfl, ?_, _,
    hsnap.deserialize_serialize hcount, fun env m₀ hmem => hsnap.load_sameGraph env m₀ hmem⟩
  unfold snapshot snapshotGated
  rw [hbuilder]
  rfl

/-- Nothing larger does. -/
theorem not_roundTrips_of_lt (hwf : WellFormed m objs) (htag : root.isTagged = false)
    (hroot : root.addr ∈ objs) (hfuel : objs.length ≤ fuel) {fmt : Format}
    (hcount : fmt.maxObjects < {b | Reached m root.addr b}.ncard) : ¬RoundTrips fuel fmt m root := by
  obtain ⟨b, xs, hbuilder, hinv, hnil⟩ :=
    SnapshotBuilder.snapshotBuilder_spec hwf htag hroot hfuel
  rw [hinv.ncard_reached hnil] at hcount
  rintro ⟨b', rootId, image, hbuilder', hids, -, hsnapshot, image', hread, -⟩
  rw [hbuilder] at hbuilder'
  obtain ⟨rfl, rfl⟩ := Prod.mk.inj (Option.some.inj hbuilder')
  by_cases hlarge : 2 ^ 32 < xs.length
  · exact hinv.not_oneIdEach hlarge hids
  · cases fmt with
    | text =>
      -- the ids still fit, but the count does not
      have hobjects : image.objects.length = xs.length := by
        unfold snapshot snapshotGated at hsnapshot
        rw [hbuilder] at hsnapshot
        obtain rfl := Option.some.inj hsnapshot
        exact hinv.has.objects
      rw [Format.maxObjects] at hcount
      obtain ⟨e, he⟩ := @Pexport.parse_write_tooMany image (by omega) (by omega)
      have hread : (Image.parse image.write).toOption = some image' := hread
      rw [he] at hread
      cases hread
    | bic => exact hlarge hcount

/-- The number of objects is all that matters. -/
theorem roundTrips_iff (hwf : WellFormed m objs) (htag : root.isTagged = false)
    (hroot : root.addr ∈ objs) (hfuel : objs.length ≤ fuel) (fmt : Format) :
    RoundTrips fuel fmt m root ↔ {b | Reached m root.addr b}.ncard ≤ fmt.maxObjects := by
  constructor
  · intro h
    by_contra hlarge
    exact not_roundTrips_of_lt hwf htag hroot hfuel (Nat.lt_of_not_le hlarge) h
  · exact roundTrips_of_le hwf htag hroot hfuel

/-- No more is reached than there is. -/
theorem ncard_reached_le (hwf : WellFormed m objs) {r : Nat} (hr : r ∈ objs) :
    {b | Reached m r b}.ncard ≤ objs.length := by
  have hsub : {b | Reached m r b} ⊆ ↑objs.toFinset := by
    intro b hb
    simpa using Reached.mem hwf hr hb
  refine (Set.ncard_le_ncard hsub).trans ?_
  rw [Set.ncard_coe_finset]
  exact objs.toFinset_card_le

/-! ## A small heap and a large one -/

/-- A pair at 0x1008 of a mutable byte object and of a closure, which holds the pair again; the constant
of its code is the byte object. -/
def ring : Mem := fun a =>
  if a = 0x1000 then makeLengthWord 2 0#8
  else if a = 0x1008 then .fromAddr 0x1020
  else if a = 0x1010 then .fromAddr 0x1030
  else if a = 0x1018 then makeLengthWord 1 (fByteObj ||| fMutableBit)
  else if a = 0x1028 then makeLengthWord 2 fClosureObj
  else if a = 0x1030 then .fromAddr 0x1048
  else if a = 0x1038 then .fromAddr 0x1008
  else if a = 0x1040 then makeLengthWord 4 fCodeObj
  else if a = 0x1050 then 1#64
  else if a = 0x1058 then .fromAddr 0x1020
  else if a = 0x1060 then BitVec.ofInt 64 (-16)
  else 0x41#64

def ringObjs : List Nat := [0x1008, 0x1020, 0x1030, 0x1048]

theorem wellFormed_ring : WellFormed ring ringObjs where
  address := by decide
  flags := by decide
  values := by
    have hslots : ringObjs.map (valueSlots ring) =
        [[0x1008, 0x1010], [], [0x1030, 0x1038], [0x1058]] := by decide
    have hvalues : ∀ slots ∈ ringObjs.map (valueSlots ring), ∀ a ∈ slots,
        (ring a).isTagged = true ∨ (ring a).addr ∈ ringObjs := by
      rw [hslots]
      decide
    exact fun b hb a ha => hvalues _ (List.mem_map_of_mem hb) a ha
  closures := by decide
  code b hb hcode := by
    have honly : ∀ b ∈ ringObjs, typeOf (ring (b - 8)) = fCodeObj → b = 0x1048 := by decide
    obtain rfl := honly b hb hcode
    exact ⟨1, 1, by decide, by decide, by decide⟩

theorem roundTrips_ring : RoundTrips 4 .text ring (.fromAddr 0x1008) ∧
    RoundTrips 4 .bic ring (.fromAddr 0x1008) := by
  have hcount : {b | Reached ring 0x1008 b}.ncard ≤ 4 :=
    ncard_reached_le wellFormed_ring (by decide)
  have hfits : ∀ fmt : Format, 4 ≤ fmt.maxObjects := fun fmt => by cases fmt <;> decide
  exact ⟨(roundTrips_iff wellFormed_ring (by decide) (by decide) (by decide) .text).2
      (hcount.trans (hfits .text)),
    (roundTrips_iff wellFormed_ring (by decide) (by decide) (by decide) .bic).2
      (hcount.trans (hfits .bic))⟩

/-- A list of `n` objects of one word, each of which points to the next. -/
def chain (n : Nat) : Mem := fun a =>
  if a % 16 = 0 then makeLengthWord 1 0#8
  else if a / 16 < n then .fromAddr (a + 16)
  else .tagged 0

def chainObjs (n : Nat) : List Nat := (List.range n).map (fun i => 16 * i + 24)

theorem mem_chainObjs {n b : Nat} : b ∈ chainObjs n ↔ ∃ i < n, b = 16 * i + 24 := by
  simp [chainObjs, eq_comm]

theorem chain_header {n i : Nat} : chain n (16 * i + 24 - 8) = makeLengthWord 1 0#8 := by
  rw [chain, if_pos (by omega)]

theorem valueSlots_chain {n i : Nat} : valueSlots (chain n) (16 * i + 24) = [16 * i + 24] := by
  have hlen : (chain n).objLen (16 * i + 24) = 1 := by
    rw [Mem.objLen, wordBytes, chain_header]
    decide
  have htype : typeOf (makeLengthWord 1 0#8) = 0#8 := by decide
  rw [valueSlots, chain_header, htype, if_neg (by decide), if_neg (by decide), hlen]
  rfl

theorem chain_next {n i : Nat} (hi : i + 1 < n) :
    chain n (16 * i + 24) = .fromAddr (16 * (i + 1) + 24) := by
  have haddr : 16 * i + 24 + 16 = 16 * (i + 1) + 24 := by omega
  rw [chain, if_neg (by omega), if_pos (by omega), haddr]

theorem chain_last {n i : Nat} (hi : n ≤ i + 1) : chain n (16 * i + 24) = .tagged 0 := by
  rw [chain, if_neg (by omega), if_neg (by omega)]

theorem chain_pointer {n i : Nat} (hn : n ≤ 2 ^ 40) (hi : i + 1 < n) :
    (chain n (16 * i + 24)).isTagged = false ∧
      (chain n (16 * i + 24)).addr = 16 * (i + 1) + 24 := by
  rw [chain_next hi, PolyWord.isTagged_fromAddr (by omega), PolyWord.addr_fromAddr (by omega)]
  exact ⟨decide_eq_false (by omega), rfl⟩

theorem wellFormed_chain {n : Nat} (hn : n ≤ 2 ^ 40) : WellFormed (chain n) (chainObjs n) := by
  have htype : typeOf (makeLengthWord 1 0#8) = 0#8 := by decide
  constructor
  all_goals
    intro b hb
    obtain ⟨i, hi, rfl⟩ := mem_chainObjs.1 hb
  case address => omega
  case flags =>
    rw [chain_header]
    decide
  case values =>
    intro a ha
    rw [valueSlots_chain, List.mem_singleton] at ha
    subst ha
    by_cases hlast : i + 1 < n
    · rw [(chain_pointer hn hlast).2]
      exact Or.inr (mem_chainObjs.2 ⟨i + 1, hlast, rfl⟩)
    · rw [chain_last (Nat.le_of_not_lt hlast)]
      exact Or.inl (by decide)
  case closures =>
    rw [chain_header, htype]
    exact fun h => absurd h (by decide)
  case code =>
    rw [chain_header, htype]
    exact fun h => absurd h (by decide)

/-- The whole list is reached. -/
theorem ncard_chain {n : Nat} (hn : n ≤ 2 ^ 40) (hpos : 0 < n) :
    {b | Reached (chain n) 24 b}.ncard = n := by
  have hwf := wellFormed_chain hn
  have hroot : 24 ∈ chainObjs n := mem_chainObjs.2 ⟨0, hpos, rfl⟩
  have hall : ∀ i < n, Reached (chain n) 24 (16 * i + 24) := by
    intro i hi
    induction i with
    | zero => exact .root
    | succ i ih =>
      obtain ⟨htag, haddr⟩ := chain_pointer hn hi
      rw [← haddr]
      exact .slot (ih (Nat.lt_of_succ_lt hi)) (by rw [valueSlots_chain]; exact List.mem_cons_self) htag
  have hset : {b | Reached (chain n) 24 b} = ↑(chainObjs n).toFinset := by
    ext b
    rw [Finset.mem_coe, List.mem_toFinset]
    constructor
    · exact fun hb => Reached.mem hwf hroot hb
    · intro hb
      obtain ⟨i, hi, rfl⟩ := mem_chainObjs.1 hb
      exact hall i hi
  have hnodup : (chainObjs n).Nodup :=
    List.nodup_range.map (fun i j hij => by omega)
  rw [hset, Set.ncard_coe_finset, List.toFinset_card_of_nodup hnodup, chainObjs, List.length_map,
    List.length_range]

/-- A list of 2^32 + 1 objects does not survive the round trip. -/
theorem not_roundTrips_chain :
    WellFormed (chain (2 ^ 32 + 1)) (chainObjs (2 ^ 32 + 1)) ∧ 24 ∈ chainObjs (2 ^ 32 + 1) ∧
      (chainObjs (2 ^ 32 + 1)).length = 2 ^ 32 + 1 ∧
      ∀ fmt, ¬RoundTrips (2 ^ 32 + 1) fmt (chain (2 ^ 32 + 1)) (.fromAddr 24) := by
  have hwf : WellFormed (chain (2 ^ 32 + 1)) (chainObjs (2 ^ 32 + 1)) :=
    wellFormed_chain (by decide)
  have hroot : 24 ∈ chainObjs (2 ^ 32 + 1) := mem_chainObjs.2 ⟨0, by decide, rfl⟩
  have hlen : (chainObjs (2 ^ 32 + 1)).length = 2 ^ 32 + 1 := by
    rw [chainObjs, List.length_map, List.length_range]
  have haddr : (PolyWord.fromAddr 24).addr = 24 := by decide
  refine ⟨hwf, hroot, hlen, fun fmt => ?_⟩
  refine not_roundTrips_of_lt hwf (by decide) (haddr ▸ hroot) (Nat.le_of_eq hlen) ?_
  rw [haddr, ncard_chain (by decide) (by decide)]
  cases fmt <;> decide

end Image
