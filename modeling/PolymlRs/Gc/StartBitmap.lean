import Mathlib.Algebra.BigOperators.Group.List.Basic
import Mathlib.Data.List.Pairwise
import PolymlRs.Gc.HeapGraph

set_option autoImplicit false

/-! # The start bitmap

The pre-pass walks every space by its length words and marks the body starts, in one run of bits per
sorted range. `startCollection_table` is what the collector later relies on: below any address inside
an object, the bit of a word is set exactly when an object's body starts there (`StartTable`). -/

/-- Two distinct spaces of a pool do not overlap. Empty storage has no address of its own, so two
spaces with equal starts are allowed when neither has capacity. -/
def MemorySpace.Apart (s t : MemorySpace) : Prop :=
  (s.limit ≤ t.start ∨ t.limit ≤ s.start) ∧ (s.start = t.start → s.capacity = t.capacity)

instance : Std.Symm MemorySpace.Apart := ⟨fun _ _ h => ⟨h.1.symm, fun he => (h.2 he.symm).symm⟩⟩

/-- The objects of a space, walked by their length words. -/
def objectsFrom (m : Mem) (e : Nat) : Nat → Nat → List Nat
  | 0, _ => []
  | fuel + 1, a =>
    if a + 8 + 8 * lengthOf (m a) ≤ e then
      (a + 8) :: objectsFrom m e fuel (a + 8 + 8 * lengthOf (m a))
    else []

def objectsOf (m : Mem) (s : MemorySpace) : List Nat :=
  objectsFrom m (s.start + 8 * s.used) s.used s.start

/-- A pool of spaces as one heap. -/
def poolView (m : Mem) (spaces : List MemorySpace) : HeapView :=
  { mem := m, objs := spaces.flatMap (objectsOf m) }

/-- A space holds nothing but objects: valid length words with their bodies. -/
structure SpaceOk (m : Mem) (s : MemorySpace) : Prop where
  usedLe : s.used ≤ s.capacity
  aligned : s.start % 8 = 0
  addressable : s.limit ≤ 0x8000000000000000
  parsed : ObjectsIn m s.start (objectsOf m s) (s.start + 8 * s.used)
  /-- No zero-length object ends exactly at the space's capacity. -/
  inside : ∀ b ∈ objectsOf m s, b < s.limit
  valid : ∀ b ∈ objectsOf m s, isTombstone (m (b - 8)) = false

/-- A pool of well-formed spaces. -/
structure PoolOk (m : Mem) (spaces : List MemorySpace) : Prop where
  apart : spaces.Pairwise MemorySpace.Apart
  spaceOk : ∀ s ∈ spaces, SpaceOk m s

/-! ## Layouts -/

theorem objectsFrom_eq {m : Mem} {a e : Nat} {objs : List Nat} (h : ObjectsIn m a objs e) :
    ∀ fuel, objs.length ≤ fuel → objectsFrom m e fuel a = objs := by
  induction h with
  | nil a =>
    intro fuel _
    cases fuel with
    | zero => rfl
    | succ fuel =>
      rw [objectsFrom, if_neg]
      omega
  | cons a objs e rest ih =>
    intro fuel hfuel
    cases fuel with
    | zero => simp at hfuel
    | succ fuel =>
      have hle := rest.le
      rw [objectsFrom, if_pos hle, ih fuel (by simpa using hfuel)]

theorem ObjectsIn.length_le {m : Mem} {a e : Nat} {objs : List Nat} (h : ObjectsIn m a objs e) :
    a + 8 * objs.length ≤ e := by
  induction h with
  | nil a => simp
  | cons a objs e _ ih =>
    simp only [List.length_cons]
    omega

/-- Any layout of the used part of a space is the one `objectsOf` computes. -/
theorem objectsOf_eq {m : Mem} {s : MemorySpace} {objs : List Nat}
    (h : ObjectsIn m s.start objs (s.start + 8 * s.used)) : objectsOf m s = objs :=
  objectsFrom_eq h _ (by have := h.length_le; omega)

theorem objectsOf_unused {m : Mem} {s : MemorySpace} (h : s.used = 0) : objectsOf m s = [] := by
  simp [objectsOf, h, objectsFrom]

namespace SpaceOk

variable {m : Mem} {s : MemorySpace}

/-- An object lies in the used part of its space. -/
theorem bounds (h : SpaceOk m s) {b : Nat} (hb : b ∈ objectsOf m s) :
    s.start + 8 ≤ b ∧ b + 8 * m.objLen b ≤ s.start + 8 * s.used := h.parsed.bounds hb

theorem limit_bounds (h : SpaceOk m s) {b : Nat} (hb : b ∈ objectsOf m s) :
    s.start + 8 ≤ b ∧ b < s.limit ∧ b + 8 * m.objLen b ≤ s.limit := by
  have h1 := h.bounds hb
  have h2 := h.inside b hb
  have h3 := h.usedLe
  refine ⟨h1.1, h2, ?_⟩
  rw [MemorySpace.limit, wordBytes]
  omega

end SpaceOk

/-- Body starts are at whole words from the start of the layout. -/
theorem ObjectsIn.aligned {m : Mem} {a e : Nat} {objs : List Nat} (h : ObjectsIn m a objs e)
    {b : Nat} (hb : b ∈ objs) : (b - a) % 8 = 0 := by
  induction h with
  | nil a => simp at hb
  | cons a objs e rest ih =>
    rcases List.mem_cons.1 hb with rfl | hb
    · omega
    · have h1 := ih hb
      have h2 := rest.bounds hb
      omega

/-- An address covered by an object lies in the storage of its space. -/
theorem SpaceOk.covers_bounds {m : Mem} {s : MemorySpace} (h : SpaceOk m s) {b a : Nat}
    (hb : b ∈ objectsOf m s) (ha : m.Covers b a) : s.start + 8 ≤ b ∧ b ≤ a ∧ a < s.limit := by
  have hl := h.limit_bounds hb
  have hal := h.parsed.aligned hb
  obtain ⟨h1, h2⟩ := ha
  simp only [MemorySpace.limit, wordBytes] at hl ⊢
  omega

/-! ## One space -/

theorem Bitmap.set_eq {b : Bitmap} {i : Nat} (h : i < b.size) :
    b.set i = some { b with bit := Function.update b.bit i true } := by
  simp only [set, if_pos h]

/-- The loop over one space sets the bits of its body starts and no other. -/
theorem prepassSpace_spec {m : Mem} (start used bitBase : Nat) :
    ∀ (fuel i : Nat) (objs : List Nat) (bits : Bitmap),
    ObjectsIn m (start + 8 * i) objs (start + 8 * used) → used ≤ i + fuel →
    (∀ b ∈ objs, bitBase + (b - start) / 8 < bits.size) →
    ∃ bits', prepassSpace m start used bitBase fuel i bits = some bits' ∧ bits'.size = bits.size ∧
      ∀ j, bits'.bit j = true ↔
        bits.bit j = true ∨ ∃ i', j = bitBase + i' ∧ start + 8 * i' ∈ objs := by
  intro fuel
  induction fuel with
  | zero =>
    intro i objs bits hobjs hfuel _
    have hnil : objs = [] := by
      have := hobjs.length_le
      exact List.length_eq_zero_iff.1 (by omega)
    subst hnil
    exact ⟨bits, rfl, rfl, by simp⟩
  | succ fuel ih =>
    intro i objs bits hobjs hfuel hsize
    generalize ha : start + 8 * i = a at hobjs
    generalize he : start + 8 * used = e at hobjs
    cases hobjs with
    | nil =>
      have hi : ¬ i < used := by omega
      exact ⟨bits, by rw [prepassSpace, if_neg hi], rfl, by simp⟩
    | cons _ objs _ rest =>
      subst ha he
      have hle := rest.le
      have hi : i < used := by omega
      have hfit : ¬ i + 1 + lengthOf (m (start + wordBytes * i)) > used := by
        simp only [wordBytes]
        omega
      have hbody : (start + 8 * i + 8 - start) / 8 = i + 1 := by omega
      have hset : bitBase + i + 1 < bits.size := by
        have := hsize (start + 8 * i + 8) (List.mem_cons_self ..)
        omega
      have hnext : start + 8 * (i + (1 + lengthOf (m (start + 8 * i)))) =
          start + 8 * i + 8 + 8 * lengthOf (m (start + 8 * i)) := by omega
      obtain ⟨bits', hrun, hsz, hbits⟩ := ih (i + (1 + lengthOf (m (start + 8 * i)))) objs
        { bits with bit := Function.update bits.bit (bitBase + i + 1) true } (by rw [hnext]; exact rest) (by omega)
        (fun b hb => hsize b (List.mem_cons_of_mem _ hb))
      refine ⟨bits', ?_, hsz, fun j => ?_⟩
      · rw [prepassSpace, if_pos hi]
        simp only [if_neg hfit, Bitmap.set_eq hset, Option.bind_eq_bind, Option.bind_some]
        exact hrun
      · rw [hbits j]
        by_cases hj : j = bitBase + i + 1
        · subst hj
          have hmem : start + 8 * (i + 1) ∈ (start + 8 * i + 8) :: objs := by
            rw [show start + 8 * (i + 1) = start + 8 * i + 8 by omega]
            exact List.mem_cons_self ..
          simp only [Function.update_self, true_or, true_iff]
          exact Or.inr ⟨i + 1, by omega, hmem⟩
        · simp only [Function.update_of_ne hj]
          refine or_congr_right ⟨?_, ?_⟩
          · rintro ⟨i', hi', hmem⟩
            exact ⟨i', hi', List.mem_cons_of_mem _ hmem⟩
          · rintro ⟨i', hi', hmem⟩
            rcases List.mem_cons.1 hmem with heq | hmem
            · omega
            · exact ⟨i', hi', hmem⟩

/-! ## The sorted ranges -/

theorem rangeBitBases_total (ranges : List (Nat × Nat × Nat)) (total : Nat) :
    (rangeBitBases ranges total).2 = total + (ranges.map (fun r => r.2.2)).sum := by
  induction ranges generalizing total with
  | nil => rfl
  | cons r rest ih =>
    simp only [rangeBitBases, ih, List.map_cons, List.sum_cons]
    omega

/-- Every run starts at or after the first free bit. -/
theorem le_rangeBitBases (ranges : List (Nat × Nat × Nat)) (total k : Nat)
    (hk : k < ranges.length) : total ≤ (rangeBitBases ranges total).1.getD k 0 := by
  induction ranges generalizing total k with
  | nil => simp at hk
  | cons r rest ih =>
    cases k with
    | zero => exact Nat.le_refl total
    | succ k =>
      have := ih (total + r.2.2) k (by simpa using hk)
      simp only [rangeBitBases, List.getD_cons_succ]
      omega

/-- ... and ends before the last one is full. -/
theorem rangeBitBases_lt (ranges : List (Nat × Nat × Nat)) (total k : Nat) {r : Nat × Nat × Nat}
    (hk : ranges[k]? = some r) :
    (rangeBitBases ranges total).1.getD k 0 + r.2.2 ≤ (rangeBitBases ranges total).2 := by
  induction ranges generalizing total k with
  | nil => simp at hk
  | cons r0 rest ih =>
    have htot := rangeBitBases_total rest (total + r0.2.2)
    cases k with
    | zero =>
      simp only [List.getElem?_cons_zero, Option.some.injEq] at hk
      subst hk
      simp only [rangeBitBases, List.getD_cons_zero]
      omega
    | succ k =>
      rw [List.getElem?_cons_succ] at hk
      exact ih (total + r0.2.2) k hk

instance : Std.Total rangeLe := ⟨fun a b => by unfold rangeLe; omega⟩

instance : IsTrans (Nat × Nat × Nat) rangeLe := ⟨fun a b c => by unfold rangeLe; omega⟩

theorem mem_sortedRanges {spaces : List MemorySpace} {r : Nat × Nat × Nat} :
    r ∈ sortedRanges spaces ↔ ∃ s ∈ spaces, (s.start, s.limit, s.capacity) = r := by
  rw [sortedRanges, List.mem_insertionSort, List.mem_map]

/-- The ranges of a pool are in order and disjoint after sorting. -/
theorem orderedRanges_sorted {spaces : List MemorySpace}
    (h : spaces.Pairwise MemorySpace.Apart) :
    OrderedRanges ((sortedRanges spaces).map (fun r => (r.1, r.2.1))) := by
  have hlimit : ∀ r ∈ sortedRanges spaces, r.1 ≤ r.2.1 := by
    intro r hr
    obtain ⟨s, -, rfl⟩ := mem_sortedRanges.1 hr
    exact Nat.le_add_right ..
  refine ⟨?_, ?_⟩
  · intro r hr
    obtain ⟨r0, hr0, rfl⟩ := List.mem_map.1 hr
    exact hlimit r0 hr0
  · have hsort : (sortedRanges spaces).Pairwise rangeLe := List.pairwise_insertionSort rangeLe _
    have hapart : (sortedRanges spaces).Pairwise
        (fun r s => r.2.1 ≤ s.1 ∨ s.2.1 ≤ r.1) := by
      rw [sortedRanges, (List.perm_insertionSort rangeLe _).pairwise_iff Or.symm,
        List.pairwise_map]
      exact h.imp (fun ha => ha.1)
    rw [List.pairwise_map]
    refine ((hsort.and hapart).imp_of_mem ?_)
    rintro r s hr hs ⟨hle, hd⟩
    have := hlimit r hr
    have := hlimit s hs
    simp only [rangeLe] at hle
    omega

/-- The space found for a sorted range has the layout of every space that starts there. -/
theorem found_space {m : Mem} {spaces : List MemorySpace} (h : PoolOk m spaces)
    {s : MemorySpace} (hs : s ∈ spaces) :
    ∃ t ∈ spaces, spaces.find? (fun u => u.start = s.start) = some t ∧ t.start = s.start ∧
      t.capacity = s.capacity ∧ t.used = s.used ∧ objectsOf m t = objectsOf m s := by
  cases hf : spaces.find? (fun u => u.start = s.start) with
  | none => exact absurd (decide_eq_true rfl) (List.find?_eq_none.1 hf s hs)
  | some t =>
    have ht := List.mem_of_find?_eq_some hf
    have hst : t.start = s.start := by simpa using List.find?_some hf
    refine ⟨t, ht, rfl, hst, ?_⟩
    by_cases hts : t = s
    · subst hts
      exact ⟨rfl, rfl, rfl⟩
    · have hap := h.apart.forall ht hs hts
      have hcap : t.capacity = s.capacity := hap.2 hst
      -- equal starts and disjoint storage leave both spaces without capacity
      have hzero : s.capacity = 0 := by
        have := hap.1
        simp only [MemorySpace.limit, wordBytes] at this
        omega
      have hut := (h.spaceOk t ht).usedLe
      have hus := (h.spaceOk s hs).usedLe
      have ht0 : t.used = 0 := by omega
      have hs0 : s.used = 0 := by omega
      exact ⟨hcap, by omega, by rw [objectsOf_unused ht0, objectsOf_unused hs0]⟩

/-! ## All spaces -/

/-- The pre-pass fills the run of bits of each range from the objects of the space that starts
there, and leaves the bits below the first run alone. -/
theorem prepass_spec {m : Mem} {spaces : List MemorySpace} :
    ∀ (ranges : List (Nat × Nat × Nat)) (total : Nat) (bits : Bitmap),
    (∀ r ∈ ranges, ∃ s, spaces.find? (fun u => u.start = r.1) = some s ∧ SpaceOk m s ∧
      s.capacity = r.2.2 ∧ s.start = r.1) →
    (rangeBitBases ranges total).2 ≤ bits.size →
    ∃ bits', prepass m spaces ranges (rangeBitBases ranges total).1 bits = some bits' ∧
      bits'.size = bits.size ∧ (∀ j < total, bits'.bit j = bits.bit j) ∧
      ∀ k r s, ranges[k]? = some r → spaces.find? (fun u => u.start = r.1) = some s →
        ∀ i < r.2.2, bits'.bit ((rangeBitBases ranges total).1.getD k 0 + i) = true ↔
          bits.bit ((rangeBitBases ranges total).1.getD k 0 + i) = true ∨
          r.1 + 8 * i ∈ objectsOf m s := by
  intro ranges
  induction ranges with
  | nil =>
    intro total bits _ _
    exact ⟨bits, rfl, rfl, fun _ _ => rfl, by simp⟩
  | cons r rest ih =>
    intro total bits hfound hsize
    obtain ⟨s, hs, hok, hcap, hstart⟩ := hfound r (List.mem_cons_self ..)
    have hrest : ∀ r' ∈ rest, _ := fun r' hr' => hfound r' (List.mem_cons_of_mem _ hr')
    have htot := rangeBitBases_total rest (total + r.2.2)
    simp only [rangeBitBases] at hsize ⊢
    have hbit : ∀ b ∈ objectsOf m s, (b - s.start) / 8 < s.capacity := by
      intro b hb
      have h1 := hok.limit_bounds hb
      have h2 := hok.parsed.aligned hb
      simp only [MemorySpace.limit, wordBytes] at h1
      omega
    obtain ⟨bits1, hrun1, hsz1, hb1⟩ := prepassSpace_spec s.start s.used total s.used 0
      (objectsOf m s) bits (by simpa using hok.parsed) (by omega) (fun b hb => by have := hbit b hb; omega)
    obtain ⟨bits2, hrun2, hsz2, hlow2, hb2⟩ := ih (total + r.2.2) bits1 hrest (by omega)
    refine ⟨bits2, ?_, by omega, ?_, ?_⟩
    · simp only [prepass, hs, Option.bind_eq_bind, Option.bind_some, hrun1, hrun2]
    · intro j hj
      rw [hlow2 j (by omega), Bool.eq_iff_iff, hb1 j]
      exact or_iff_left (by rintro ⟨i', hi', -⟩; omega)
    · intro k r' s' hk hs' i hi
      cases k with
      | zero =>
        simp only [List.getElem?_cons_zero, Option.some.injEq] at hk
        subst hk
        have hss : s' = s := Option.some.inj (hs'.symm.trans hs)
        subst hss
        simp only [List.getD_cons_zero]
        rw [hlow2 _ (by omega), hb1, hstart]
        refine or_congr_right ⟨?_, fun hmem => ⟨i, rfl, hmem⟩⟩
        rintro ⟨i', hi', hmem⟩
        have : i' = i := by omega
        exact this ▸ hmem
      | succ k =>
        rw [List.getElem?_cons_succ] at hk
        simp only [List.getD_cons_succ]
        rw [hb2 k r' s' hk hs' i hi, hb1]
        have hbase : total + r.2.2 ≤ (rangeBitBases rest (total + r.2.2)).1.getD k 0 :=
          le_rangeBitBases rest _ k (List.getElem?_eq_some_iff.1 hk).1
        have hnot : ¬ ∃ i', (rangeBitBases rest (total + r.2.2)).1.getD k 0 + i = total + i' ∧
            s.start + 8 * i' ∈ objectsOf m s := by
          rintro ⟨i', hi', hmem⟩
          have := hbit _ hmem
          omega
        rw [or_iff_left hnot]

/-! ## The table the collector uses -/

/-- What the collector `c` knows about where the objects of `h` start: the union of its ranges is
`inSpace`, and the bits of a range mark exactly the body starts in it. -/
structure StartTable (inSpace : Nat → Prop) (h : HeapView) (c : Collector) : Prop where
  inFromSpace : ∀ a, c.inFromSpace a = true ↔ inSpace a
  bits : ∀ a, inSpace a → ∃ k r, rangeAt c.fromRanges a = some (k, r) ∧ r.1 ≤ a ∧
    (∀ t ∈ h.objs, h.mem.Covers t a → r.1 + 8 ≤ t ∧ (t - r.1) % 8 = 0) ∧
    ∀ i, r.1 + 8 * i ≤ a →
      c.startBits.test (c.rangeBitBase.getD k 0 + i) = some (decide (r.1 + 8 * i ∈ h.objs))
  covered : ∀ t ∈ h.objs, ∀ a, h.mem.Covers t a → inSpace a

/-- Only the fields the pre-pass fills matter. -/
theorem StartTable.congr {inSpace : Nat → Prop} {h : HeapView} {c c' : Collector}
    (hc : StartTable inSpace h c) (hr : c'.fromRanges = c.fromRanges)
    (hb : c'.startBits = c.startBits) (hbase : c'.rangeBitBase = c.rangeBitBase) :
    StartTable inSpace h c' := by
  constructor
  · intro a
    rw [← hc.inFromSpace a, Collector.inFromSpace, Collector.inFromSpace, hr]
  · rw [hr, hb, hbase]
    exact hc.bits
  · exact hc.covered

/-- `a` lies in the storage of one of the spaces. -/
def InSpaces (spaces : List MemorySpace) (a : Nat) : Prop :=
  ∃ s ∈ spaces, s.start ≤ a ∧ a < s.limit

theorem mem_poolView {m : Mem} {spaces : List MemorySpace} {b : Nat} :
    b ∈ (poolView m spaces).objs ↔ ∃ s ∈ spaces, b ∈ objectsOf m s := List.mem_flatMap

namespace PoolOk

variable {m : Mem} {spaces : List MemorySpace}

theorem inSpaces (h : PoolOk m spaces) {t a : Nat} (ht : t ∈ (poolView m spaces).objs)
    (ha : m.Covers t a) : InSpaces spaces a := by
  obtain ⟨s, hs, hts⟩ := mem_poolView.1 ht
  have hb := (h.spaceOk s hs).covers_bounds hts ha
  exact ⟨s, hs, by omega, hb.2.2⟩

/-- An address lies in at most one space. -/
theorem space_unique (h : PoolOk m spaces) {s t : MemorySpace} (hs : s ∈ spaces) (ht : t ∈ spaces)
    {a : Nat} (hsa : s.start ≤ a ∧ a < s.limit) (hta : t.start ≤ a ∧ a < t.limit) : s = t := by
  by_contra hne
  have := (h.apart.forall hs ht hne).1
  omega

theorem separate (h : PoolOk m spaces) : (poolView m spaces).Separate := by
  intro b hb c hc
  obtain ⟨s, hs, hbs⟩ := mem_poolView.1 hb
  obtain ⟨t, ht, hct⟩ := mem_poolView.1 hc
  by_cases hst : s = t
  · subst hst
    exact (h.spaceOk s hs).parsed.separate hbs hct
  · have h1 := (h.spaceOk s hs).limit_bounds hbs
    have h2 := (h.spaceOk t ht).limit_bounds hct
    have h3 := (h.apart.forall hs ht hst).1
    simp only [poolView]
    omega

theorem pos (h : PoolOk m spaces) : ∀ b ∈ (poolView m spaces).objs, 8 ≤ b := by
  intro b hb
  obtain ⟨s, hs, hbs⟩ := mem_poolView.1 hb
  have := (h.spaceOk s hs).limit_bounds hbs
  omega

end PoolOk

/-- The pre-pass of a well-formed pool succeeds, and its bitmap is a start table. -/
theorem prepass_table {m : Mem} {spaces : List MemorySpace} (h : PoolOk m spaces) :
    ∃ bits, prepass m spaces (sortedRanges spaces) (rangeBitBases (sortedRanges spaces) 0).1
        (Bitmap.ofBits (rangeBitBases (sortedRanges spaces) 0).2) = some bits ∧
      ∀ c : Collector, c.fromRanges = (sortedRanges spaces).map (fun r => (r.1, r.2.1)) →
        c.rangeBitBase = (rangeBitBases (sortedRanges spaces) 0).1 → c.startBits = bits →
        StartTable (InSpaces spaces) (poolView m spaces) c := by
  have hfound : ∀ r ∈ sortedRanges spaces, ∃ s, spaces.find? (fun u => u.start = r.1) = some s ∧
      SpaceOk m s ∧ s.capacity = r.2.2 ∧ s.start = r.1 := by
    intro r hr
    obtain ⟨s, hs, rfl⟩ := mem_sortedRanges.1 hr
    obtain ⟨t, ht, hf, hstart, hcap, -, -⟩ := found_space h hs
    exact ⟨t, hf, h.spaceOk t ht, hcap, hstart⟩
  have hsize : (rangeBitBases (sortedRanges spaces) 0).2 ≤
      (Bitmap.ofBits (rangeBitBases (sortedRanges spaces) 0).2).size := by
    simp only [Bitmap.ofBits]
    omega
  obtain ⟨bits, hrun, hsz, -, hbits⟩ := prepass_spec (sortedRanges spaces) 0 _ hfound hsize
  refine ⟨bits, hrun, fun c hr hbase hsb => ⟨fun a => ?_, ?_, fun t ht a => h.inSpaces ht⟩⟩
  · rw [Collector.inFromSpace, hr, rangeAt_isSome (orderedRanges_sorted h.apart)]
    constructor
    · rintro ⟨r, hr, hlo, hhi⟩
      obtain ⟨r0, hr0, rfl⟩ := List.mem_map.1 hr
      obtain ⟨s, hs, rfl⟩ := mem_sortedRanges.1 hr0
      exact ⟨s, hs, hlo, hhi⟩
    · rintro ⟨s, hs, hlo, hhi⟩
      exact ⟨_, List.mem_map_of_mem (mem_sortedRanges.2 ⟨s, hs, rfl⟩), hlo, hhi⟩
  · rintro a ⟨s, hs, hin⟩
    obtain ⟨k, hk⟩ := List.getElem?_of_mem (mem_sortedRanges.2 ⟨s, hs, rfl⟩)
    have hk' : ((sortedRanges spaces).map (fun r => (r.1, r.2.1)))[k]? =
        some (s.start, s.limit) := by
      rw [List.getElem?_map, hk]
      rfl
    refine ⟨k, (s.start, s.limit), ?_, hin.1, fun t ht hcov => ?_, fun i hi => ?_⟩
    · rw [hr]
      exact rangeAt_of_mem (orderedRanges_sorted h.apart) hk' hin.1 hin.2
    · obtain ⟨v, hv, htv⟩ := mem_poolView.1 ht
      have hb := (h.spaceOk v hv).covers_bounds htv hcov
      obtain rfl : v = s := h.space_unique hv hs (by omega) hin
      exact ⟨hb.1, (h.spaceOk v hv).parsed.aligned htv⟩
    · obtain ⟨u, hu, hf, hstart, hcap, -, hobjs⟩ := found_space h hs
      have hicap : i < s.capacity := by
        simp only [MemorySpace.limit, wordBytes] at hin
        omega
      have hbit := hbits k _ u hk hf i hicap
      have hlt := rangeBitBases_lt (sortedRanges spaces) 0 k hk
      simp only at hlt
      have hmem : s.start + 8 * i ∈ objectsOf m u ↔
          s.start + 8 * i ∈ (poolView m spaces).objs := by
        rw [hobjs]
        refine ⟨fun hm => mem_poolView.2 ⟨s, hs, hm⟩, fun hm => ?_⟩
        obtain ⟨v, hv, hmv⟩ := mem_poolView.1 hm
        have hbv := (h.spaceOk v hv).limit_bounds hmv
        have : v = s := h.space_unique hv hs (a := s.start + 8 * i) (by omega) (by omega)
        exact this ▸ hmv
      rw [hsb, hbase, Bitmap.test, if_pos (by omega)]
      simp only [Bitmap.ofBits, Bool.false_eq_true, false_or] at hbit
      rw [Option.some.injEq, Bool.eq_iff_iff, hbit, hmem, decide_eq_true_iff]
