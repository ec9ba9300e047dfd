import PolymlRs.Image.BicRoundTrip
import PolymlRs.Image.ExportWalk
import PolymlRs.Image.LoaderSound
import PolymlRs.Image.PexportRoundTrip

set_option autoImplicit false

/-! # The image of a snapshot

While the ids of the objects fit in 32 bits, the walk leaves a `Snapshotted` image: every object
reached stands in the place of its id. Such an image is read back from either format, as far as
the format can count its objects, and the loader accepts it. -/

theorem typeOf_cases (w : PolyWord) : typeOf w = 0#8 ∨ typeOf w = fByteObj ∨ typeOf w = fCodeObj ∨
    typeOf w = fClosureObj := by
  have hle : (typeOf w).toNat ≤ 3 := Nat.and_le_right
  generalize typeOf w = t at hle
  obtain h | h | h | h : t.toNat = 0 ∨ t.toNat = 1 ∨ t.toNat = 2 ∨ t.toNat = 3 := by omega
  · exact Or.inl (BitVec.eq_of_toNat_eq h)
  · exact Or.inr (Or.inl (BitVec.eq_of_toNat_eq h))
  · exact Or.inr (Or.inr (Or.inl (BitVec.eq_of_toNat_eq h)))
  · exact Or.inr (Or.inr (Or.inr (BitVec.eq_of_toNat_eq h)))

namespace Image

/-! ## Formats -/

/-- The two serializations of an image. -/
inductive Format
  | text
  | bic
deriving DecidableEq, Repr

namespace Format

def serialize (fmt : Format) (img : Image) : List UInt8 :=
  match fmt with
  | .text => img.write
  | .bic => img.writeBic

def deserialize (fmt : Format) (bytes : List UInt8) : Option Image :=
  match fmt with
  | .text => (Image.parse bytes).toOption
  | .bic => (Image.readBic bytes).toOption

/-- The numbers of objects for which the ids, and in the text the count, are 32-bit numbers. -/
def maxObjects : Format → Nat
  | .text => 2 ^ 32 - 1
  | .bic => 2 ^ 32

end Format

/-! ## The objects of the image -/

theorem position_surj {xs : List Nat} (hnodup : xs.Nodup) {i : Nat} (hi : i < xs.length) :
    ∃ a ∈ xs, position xs a = i := by
  induction xs with
  | nil => cases hi
  | cons x xs ih =>
    obtain ⟨hx, hxs⟩ := List.nodup_cons.1 hnodup
    rw [List.length_cons] at hi
    by_cases hlast : i = xs.length
    · exact ⟨x, List.mem_cons_self, by rw [position, if_pos rfl, hlast]⟩
    · obtain ⟨a, ha, hpos⟩ := ih hxs (by omega)
      have hne : x ≠ a := fun h => hx (h ▸ ha)
      exact ⟨a, List.mem_cons_of_mem _ ha, by rw [position, if_neg hne, hpos]⟩

/-- An image of the graph under `r`: the objects of `xs`, each in the place of its id. -/
structure Snapshotted (m : Mem) (objs : List Nat) (r : Nat) (xs : List Nat) (image : Image) :
    Prop where
  wf : WellFormed m objs
  root : r ∈ objs
  nodup : xs.Nodup
  mem : ∀ a, a ∈ xs ↔ Reached m r a
  rootPosition : position xs r = 0
  imageRoot : image.root = 0
  arch : image.arch = .interpreted
  wordSize : image.wordSize = .bits64
  length : image.objects.length = xs.length
  small : xs.length ≤ 2 ^ 32
  built : ∀ a ∈ xs, image.objects[position xs a]? = some (exportObject xs m a)

theorem SnapshotBuilder.Inv.mem {m : Mem} {r : Nat} {xs : List Nat} {b : SnapshotBuilder}
    (h : SnapshotBuilder.Inv m r xs b) (hnil : b.pending = []) (a : Nat) :
    a ∈ xs ↔ Reached m r a := by
  refine ⟨h.reached a, fun ha => ?_⟩
  induction ha with
  | root => exact h.root.1
  | slot _ hs hp ih =>
    have hdone : ∀ c, c ∉ b.pending := by simp [hnil]
    exact h.closed _ ih (hdone _)
      _ (mem_targets.2 ⟨_, List.mem_map_of_mem hs, hp, rfl⟩)

namespace Snapshotted

variable {m : Mem} {objs : List Nat} {r : Nat} {xs : List Nat} {image : Image}

theorem address (h : Snapshotted m objs r xs image) {a : Nat} (ha : a ∈ xs) :
    a ∈ objs := ((h.mem a).1 ha).mem h.wf h.root

theorem target (h : Snapshotted m objs r xs image) {a s : Nat} (ha : a ∈ xs)
    (hs : s ∈ valueSlots m a) (htag : (m s).isTagged = false) : (m s).addr ∈ xs :=
  (h.mem _).2 (.slot ((h.mem a).1 ha) hs htag)

/-- Every object of the image is that of an address. -/
theorem object_cases (h : Snapshotted m objs r xs image) {obj : Object}
    (hobj : obj ∈ image.objects) : ∃ a ∈ xs, obj = exportObject xs m a := by
  obtain ⟨i, hi, rfl⟩ := List.mem_iff_getElem.1 hobj
  obtain ⟨a, ha, hpos⟩ := position_surj h.nodup (h.length ▸ hi)
  have hbuilt := h.built a ha
  rw [hpos, List.getElem?_eq_getElem hi] at hbuilt
  exact ⟨a, ha, Option.some.inj hbuilt⟩

theorem toNat_id (h : Snapshotted m objs r xs image) {a : Nat} (ha : a ∈ xs) :
    (UInt32.ofNat (position xs a)).toNat = position xs a := by
  have hlt := position_lt ha
  have hsmall := h.small
  rw [UInt32.toNat_ofNat', Nat.mod_eq_of_lt (by omega)]

theorem id_lt (h : Snapshotted m objs r xs image) {a : Nat} (ha : a ∈ xs) :
    (UInt32.ofNat (position xs a)).toNat < image.objects.length := by
  rw [h.toNat_id ha, h.length]
  exact position_lt ha

/-- The shapes of the objects of an image. -/
theorem exportBody_cases (h : Snapshotted m objs r xs image) {a : Nat} (ha : a ∈ xs) :
    (typeOf (m (a - 8)) = fByteObj ∧ valueSlots m a = [] ∧
      exportBody xs m a = .bytes (m.readBytes a (8 * m.objLen a))) ∨
    (typeOf (m (a - 8)) = fCodeObj ∧ ∃ k n, CodeLayout m a k n ∧
      valueSlots m a = (List.range n).map (fun i => a + 8 * (k + 1) + 8 * i) ∧
      exportBody xs m a = .code (m.readBytes a (8 * k)) ((slotWords m a).map (exportValue xs)) []) ∨
    (valueSlots m a = (List.range (m.objLen a)).map (fun i => a + 8 * i) ∧
      ((typeOf (m (a - 8)) = fClosureObj ∧ ∃ n, m.objLen a = n + 1 ∧ (m a).addr ∈ xs ∧
        (m a).isTagged = false ∧ exportBody xs m a = .closure (UInt32.ofNat (position xs (m a).addr))
          ((m.words (a + 8) n).map (exportValue xs))) ∨
      (typeOf (m (a - 8)) = 0#8 ∧
        exportBody xs m a = .ordinary ((slotWords m a).map (exportValue xs))))) := by
  have hobj := h.address ha
  by_cases hbyte : typeOf (m (a - 8)) = fByteObj
  · refine Or.inl ⟨hbyte, ?_, ?_⟩
    · rw [valueSlots, if_pos hbyte]
    · rw [exportBody, if_pos hbyte]
  by_cases hcode : typeOf (m (a - 8)) = fCodeObj
  · obtain ⟨k, n, hl⟩ := h.wf.code a hobj hcode
    have hbytes : a + 8 * (k + 1) - 8 - a = 8 * k := by omega
    refine Or.inr (Or.inl ⟨hcode, k, n, hl, ?_, ?_⟩)
    · rw [valueSlots, if_neg hbyte, if_pos hcode, hl.constSegment]
    · rw [exportBody, if_neg hbyte, if_pos hcode, hl.constSegment, hbytes]
  have hslots : valueSlots m a = (List.range (m.objLen a)).map (fun i => a + 8 * i) := by
    rw [valueSlots, if_neg hbyte, if_neg hcode]
  refine Or.inr (Or.inr ⟨hslots, ?_⟩)
  by_cases hclosure : typeOf (m (a - 8)) = fClosureObj
  · obtain ⟨hpos, htag⟩ := h.wf.closures a hobj hclosure
    obtain ⟨n, hn⟩ : ∃ n, m.objLen a = n + 1 := ⟨m.objLen a - 1, by omega⟩
    have hfirst : a ∈ valueSlots m a := by
      rw [hslots, List.mem_map]
      exact ⟨0, List.mem_range.2 hpos, by omega⟩
    refine Or.inl ⟨hclosure, n, hn, h.target ha hfirst htag, htag, ?_⟩
    rw [exportBody, if_neg hbyte, if_neg hcode, if_pos hclosure,
      SnapshotBuilder.slotWords_words hbyte hcode, hn, SnapshotBuilder.words_succ, List.tail_cons]
  · refine Or.inr ⟨?_, ?_⟩
    · rcases typeOf_cases (m (a - 8)) with h0 | h1 | h2 | h3
      · exact h0
      · exact absurd h1 hbyte
      · exact absurd h2 hcode
      · exact absurd h3 hclosure
    · rw [exportBody, if_neg hbyte, if_neg hcode, if_neg hclosure]

theorem length_slotWords (m : Mem) (a : Nat) : (slotWords m a).length = (valueSlots m a).length :=
  List.length_map ..

/-- An exported object takes as many words as the original. -/
theorem bodyWordCount_exportBody (h : Snapshotted m objs r xs image) {a : Nat} (ha : a ∈ xs) :
    bodyWordCount (exportBody xs m a) = m.objLen a := by
  rcases h.exportBody_cases ha with ⟨-, -, hbody⟩ | ⟨-, k, n, hl, hslots, hbody⟩ |
    ⟨hslots, ⟨-, n, hn, -, -, hbody⟩ | ⟨-, hbody⟩⟩
  · rw [hbody, bodyWordCount, Mem.length_readBytes]
    unfold wordsFor wordBytes
    omega
  · rw [hbody, bodyWordCount, List.length_map, length_slotWords, hslots, List.length_map,
      List.length_range, Mem.length_readBytes, hl.length]
    unfold wordsFor wordBytes
    omega
  · rw [hbody, bodyWordCount, List.length_map, Mem.length_words, hn, Nat.add_comm]
  · rw [hbody, bodyWordCount, List.length_map, length_slotWords, hslots, List.length_map,
      List.length_range]

/-- The values of an exported object are those of its slots. -/
theorem slotValues_exportBody (h : Snapshotted m objs r xs image) {a : Nat} (ha : a ∈ xs) :
    slotValues (exportBody xs m a) = (slotWords m a).map (exportValue xs) := by
  rcases h.exportBody_cases ha with ⟨-, hslots, hbody⟩ | ⟨-, k, n, hl, -, hbody⟩ |
    ⟨hslots, ⟨-, n, hn, hmem, htag, hbody⟩ | ⟨-, hbody⟩⟩
  · rw [hbody, slotWords, hslots]
    rfl
  · rw [hbody]
    rfl
  · have hwords : slotWords m a = m a :: m.words (a + 8) n := by
      rw [slotWords, hslots, List.map_map, hn]
      exact SnapshotBuilder.words_succ m a n
    have hfirst : exportValue xs (m a) = .ref (UInt32.ofNat (position xs (m a).addr)) := by
      rw [exportValue, htag]
      rfl
    rw [hbody, hwords, List.map_cons, hfirst]
    rfl
  · rw [hbody]
    rfl

/-- What an exported value can be. -/
theorem exportValue_cases (h : Snapshotted m objs r xs image) {a : Nat} (ha : a ∈ xs) {v : Value}
    (hv : v ∈ (slotWords m a).map (exportValue xs)) :
    (∃ w : PolyWord, w.isTagged = true ∧ v = .tagged (Int64.ofInt w.untag)) ∨
      ∃ t ∈ xs, v = .ref (UInt32.ofNat (position xs t)) := by
  obtain ⟨w, hw, rfl⟩ := List.mem_map.1 hv
  obtain ⟨s, hs, rfl⟩ := List.mem_map.1 hw
  unfold exportValue
  cases htag : (m s).isTagged with
  | true => exact Or.inl ⟨m s, htag, rfl⟩
  | false => exact Or.inr ⟨(m s).addr, h.target ha hs htag, rfl⟩

theorem toInt_untag {w : PolyWord} (h : w.isTagged = true) : (Int64.ofInt w.untag).toInt = w.untag := by
  obtain ⟨hlo, hhi, -⟩ := PolyWord.tagged_untag h
  unfold PolyWord.minTagged at hlo
  unfold PolyWord.maxTagged at hhi
  exact Int64.toInt_ofInt_of_le (by omega) (by omega)

theorem taggedFitsHost_untag {w : PolyWord} (h : w.isTagged = true) :
    taggedFitsHost (Int64.ofInt w.untag) = true := by
  obtain ⟨hlo, hhi, -⟩ := PolyWord.tagged_untag h
  rw [taggedFitsHost, toInt_untag h]
  exact decide_eq_true ⟨hlo, hhi⟩

/-- The loader accepts the image. -/
theorem loadable (h : Snapshotted m objs r xs image) (env : LoadEnv) : Loadable env image := by
  refine ⟨?_, Or.inl (by rw [h.wordSize]; rfl), fun obj hobj id hid => ?_,
    fun _ obj hobj n hn => ?_⟩
  · have hroot := position_lt ((h.mem r).2 .root)
    rw [h.imageRoot, h.length]
    exact Nat.lt_of_le_of_lt (Nat.zero_le _) hroot
  · obtain ⟨a, ha, rfl⟩ := h.object_cases hobj
    have hv : Value.ref id ∈ (slotWords m a).map (exportValue xs) :=
      h.slotValues_exportBody ha ▸ hid
    rcases h.exportValue_cases ha hv with ⟨w, -, heq⟩ | ⟨t, ht, heq⟩
    · cases heq
    · obtain rfl := Value.ref.inj heq
      exact h.id_lt ht
  · obtain ⟨a, ha, rfl⟩ := h.object_cases hobj
    have hv : Value.tagged n ∈ (slotWords m a).map (exportValue xs) :=
      h.slotValues_exportBody ha ▸ Prepared.tagged_mem_slotValues.2 hn
    rcases h.exportValue_cases ha hv with ⟨w, htag, heq⟩ | ⟨t, -, heq⟩
    · obtain rfl := Value.tagged.inj heq
      exact taggedFitsHost_untag htag
    · cases heq

/-- Both readers accept the image they are given back. -/
theorem fits (h : Snapshotted m objs r xs image) : image.Fits := by
  have hsmall := h.small
  refine ⟨by rw [h.length]; omega, fun obj hobj => ?_⟩
  obtain ⟨a, ha, rfl⟩ := h.object_cases hobj
  have hlen : m.objLen a < 0x100000000000000 := lengthOf_lt _
  have hcount := h.bodyWordCount_exportBody ha
  show (exportBody xs m a).Fits
  rcases h.exportBody_cases ha with ⟨-, -, hbody⟩ | ⟨-, k, n, hl, -, hbody⟩ |
    ⟨-, ⟨-, n, hn, -, -, hbody⟩ | ⟨-, hbody⟩⟩
  · rw [hbody, ObjectBody.Fits, Mem.length_readBytes]
    omega
  · rw [hbody, bodyWordCount] at hcount
    have hk := hl.length
    rw [hbody]
    refine ⟨?_, by omega, by decide⟩
    rw [Mem.length_readBytes]
    omega
  · rw [hbody, bodyWordCount] at hcount
    rw [hbody, ObjectBody.Fits]
    omega
  · rw [hbody, bodyWordCount] at hcount
    rw [hbody, ObjectBody.Fits]
    omega

theorem printable (h : Snapshotted m objs r xs image) (hsmall : xs.length < 2 ^ 32) :
    Pexport.Printable image := by
  have hn : (UInt32.ofNat image.objects.length).toNat = image.objects.length := by
    rw [UInt32.toNat_ofNat', h.length, Nat.mod_eq_of_lt hsmall]
  refine ⟨by rw [h.length]; exact hsmall, fun obj hobj => ?_, by rw [h.arch]; trivial⟩
  have hfits := h.fits.bodies obj hobj
  obtain ⟨a, ha, rfl⟩ := h.object_cases hobj
  have hvalues : ∀ v ∈ slotValues (exportBody xs m a),
      Pexport.ValueOk (UInt32.ofNat image.objects.length) v := by
    intro v hv
    rw [h.slotValues_exportBody ha] at hv
    rcases h.exportValue_cases ha hv with ⟨w, -, rfl⟩ | ⟨t, ht, rfl⟩
    · trivial
    · rw [Pexport.ValueOk, hn]
      exact h.id_lt ht
  have hlen : m.objLen a < 0x100000000000000 := lengthOf_lt _
  have hcount := h.bodyWordCount_exportBody ha
  show Pexport.BodyOk _ (exportBody xs m a)
  have hfits : (exportBody xs m a).Fits := hfits
  rcases h.exportBody_cases ha with ⟨-, -, hbody⟩ | ⟨-, k, n, hl, -, hbody⟩ |
    ⟨-, ⟨-, n, hlen', -, -, hbody⟩ | ⟨-, hbody⟩⟩
  · rw [hbody] at hfits ⊢
    exact hfits
  · rw [hbody] at hfits hvalues ⊢
    exact ⟨hfits.1, hfits.2.1, hvalues, by simp⟩
  · rw [hbody] at hvalues ⊢
    rw [hbody, bodyWordCount] at hcount
    obtain ⟨hcode, hrest⟩ := List.forall_mem_cons.1 hvalues
    exact ⟨hcode, by omega, hrest⟩
  · rw [hbody] at hfits hvalues ⊢
    exact ⟨hfits, hvalues⟩

/-- What was written is read back, up to the number of objects the format holds. -/
theorem deserialize_serialize (h : Snapshotted m objs r xs image) {fmt : Format}
    (hcount : xs.length ≤ fmt.maxObjects) :
    fmt.deserialize (fmt.serialize image) = some image := by
  cases fmt with
  | text =>
    have hsmall : xs.length < 2 ^ 32 := by
      rw [Format.maxObjects] at hcount
      omega
    have hascii : Pexport.AsciiArch image.arch := by
      rw [h.arch]
      exact fun c hc => by cases hc
    show (Image.parse image.write).toOption = _
    rw [Pexport.parse_write (h.printable hsmall) hascii]
    rfl
  | bic =>
    have hreadable : Bic.Readable image.arch := by
      rw [h.arch]
      rfl
    show (Image.readBic image.writeBic).toOption = _
    rw [Bic.readBic_written hreadable h.fits]
    rfl

end Snapshotted

/-- The ids of a finished snapshot: one for each object reached, 0 for the root. -/
structure OneIdEach (m : Mem) (r : Nat) (byAddr : List (Nat × ObjectId)) : Prop where
  exact : ∀ a, Reached m r a ↔ ∃ id, byAddr.lookup a = some id
  injective : ∀ a a' id, byAddr.lookup a = some id → byAddr.lookup a' = some id → a = a'
  root : byAddr.lookup r = some 0

/-! ## The end of the walk -/

namespace SnapshotBuilder

variable {m : Mem} {objs : List Nat} {r : Nat} {xs : List Nat} {b : SnapshotBuilder}

theorem Inv.snapshotted (hwf : WellFormed m objs) (hr : r ∈ objs)
    (h : Inv m r xs b) (hnil : b.pending = []) (hsmall : xs.length ≤ 2 ^ 32) :
    Snapshotted m objs r xs
      { root := 0, arch := .interpreted, wordSize := .bits64, objects := b.objects } where
  wf := hwf
  root := hr
  nodup := h.nodup
  mem := h.mem hnil
  rootPosition := h.root.2
  imageRoot := rfl
  arch := rfl
  wordSize := rfl
  length := h.has.objects
  small := hsmall
  built a ha := h.built hsmall a ha (by rw [hnil]; exact List.not_mem_nil)

/-- As long as the ids fit, they are the positions. -/
theorem Inv.oneIdEach (h : Inv m r xs b) (hnil : b.pending = [])
    (hsmall : xs.length ≤ 2 ^ 32) : OneIdEach m r b.byAddr := by
  have hlookup : ∀ {a : Nat} {id : ObjectId}, b.byAddr.lookup a = some id →
      a ∈ xs ∧ id.toNat = position xs a := by
    intro a id hid
    rw [h.has.byAddr, lookup_idTable] at hid
    split at hid
    · rename_i ha
      have hlt := position_lt ha
      rw [← Option.some.inj hid, UInt32.toNat_ofNat', Nat.mod_eq_of_lt (by omega)]
      exact ⟨ha, rfl⟩
    · cases hid
  refine ⟨fun a => ?_, fun a a' id ha ha' => ?_, ?_⟩
  · rw [← h.mem hnil, h.has.byAddr, lookup_idTable]
    split <;> simp [*]
  · obtain ⟨hmem, hpos⟩ := hlookup ha
    obtain ⟨hmem', hpos'⟩ := hlookup ha'
    exact position_inj hmem hmem' (hpos.symm.trans hpos')
  · rw [h.has.byAddr, lookup_idTable, if_pos h.root.1, h.root.2]
    rfl

/-- The object in position 2^32 has the id of the root. -/
theorem Inv.not_oneIdEach (h : Inv m r xs b) (hlarge : 2 ^ 32 < xs.length) :
    ¬OneIdEach m r b.byAddr := by
  intro hids
  obtain ⟨a, ha, hpos⟩ := position_surj h.nodup hlarge
  have hid : b.byAddr.lookup a = some 0 := by
    rw [h.has.byAddr, lookup_idTable, if_pos ha, hpos]
    rfl
  have hroot := h.root.2
  obtain rfl := hids.injective _ _ _ hid hids.root
  rw [hpos] at hroot
  exact absurd hroot (by decide)

theorem Inv.ncard_reached (h : Inv m r xs b) (hnil : b.pending = []) :
    {a | Reached m r a}.ncard = xs.length := by
  have hset : {a | Reached m r a} = ↑xs.toFinset := by
    ext a
    simp [h.mem hnil]
  rw [hset, Set.ncard_coe_finset, List.toFinset_card_of_nodup h.nodup]

end SnapshotBuilder

end Image
