import Mathlib.Algebra.Order.BigOperators.Group.List
import Mathlib.Algebra.Order.Group.Nat
import Mathlib.Data.List.Perm.Subperm
import PolymlRs.Gc.StartBitmap

set_option autoImplicit false

/-! # Forwarding one word

`Copies` says which objects have been copied and where (`copied`, in copy order, and `φ`), and
`CheneyInv` is the state of from-space and to-space at any moment of a serial trace: it adds which
slots of the copies have been rewritten already (`done`, named by their from-space address).
`forwardImpl_spec` says what forwarding one word does to it: the word is relocated, and at most one
object, its target, is added to the copied ones. -/

/-- The objects a trace may meet: those below `live`, a set closed under traced slots. -/
structure HeapOk (inSpace : Nat → Prop) (h : HeapView) (live : Nat → Prop) : Prop where
  separate : h.Separate
  pos : ∀ b ∈ h.objs, 8 ≤ b
  inHeader : ∀ b ∈ h.objs, inSpace (b - 8)
  inStart : ∀ b ∈ h.objs, inSpace b
  inBody : ∀ b ∈ h.objs, ∀ i < h.mem.objLen b, inSpace (b + 8 * i)
  addressable : ∀ a, inSpace a → a < 0x8000000000000000
  valid : ∀ b ∈ h.objs, isTombstone (h.mem (b - 8)) = false
  liveMem : ∀ b, live b → b ∈ h.objs
  code : ∀ b, live b → typeOf (h.mem (b - 8)) = fCodeObj → h.CodeOk b
  liveSlot : ∀ b a t, live b → IsSlot h.mem b a → h.target true (h.mem a) = some t → live t

/-- The words of to-space. -/
def Collector.InScratch (c : Collector) (a : Nat) : Prop :=
  c.toStart ≤ a ∧ a < c.toStart + 8 * c.toLen

/-- The scratch buffer is apart from every from-space, addressable, and large enough. -/
structure ScratchOk (inSpace : Nat → Prop) (h : HeapView) (c : Collector) : Prop where
  apart : ∀ a, c.InScratch a → ¬ inSpace a
  addressable : c.toStart + 8 * c.toLen < 0x8000000000000000
  room : (h.objs.map (fun b => 1 + h.mem.objLen b)).sum ≤ c.toLen

/-- The fields no step of the trace changes. -/
structure SameFrame (c c' : Collector) : Prop where
  fromRanges : c'.fromRanges = c.fromRanges
  toStart : c'.toStart = c.toStart
  toLen : c'.toLen = c.toLen
  startBits : c'.startBits = c.startBits
  rangeBitBase : c'.rangeBitBase = c.rangeBitBase

theorem SameFrame.refl (c : Collector) : SameFrame c c := ⟨rfl, rfl, rfl, rfl, rfl⟩

theorem SameFrame.trans {a b c : Collector} (h : SameFrame a b) (h' : SameFrame b c) :
    SameFrame a c :=
  ⟨h'.fromRanges.trans h.fromRanges, h'.toStart.trans h.toStart, h'.toLen.trans h.toLen,
    h'.startBits.trans h.startBits, h'.rangeBitBase.trans h.rangeBitBase⟩

theorem SameFrame.inScratch {c c' : Collector} (h : SameFrame c c') (a : Nat) :
    c'.InScratch a ↔ c.InScratch a := by
  rw [Collector.InScratch, Collector.InScratch, h.toStart, h.toLen]

theorem SameFrame.scratchOk {inSpace : Nat → Prop} {h : HeapView} {c c' : Collector}
    (hf : SameFrame c c') (hs : ScratchOk inSpace h c) : ScratchOk inSpace h c' := by
  refine ⟨fun a ha => hs.apart a ((hf.inScratch a).1 ha), ?_, ?_⟩
  · rw [hf.toStart, hf.toLen]
    exact hs.addressable
  · rw [hf.toLen]
    exact hs.room

/-- The objects `copied` have been copied to `φ`: their copies fill to-space, and a tombstone in
from-space leads to each of them. -/
structure Copies (inSpace : Nat → Prop) (h : HeapView) (copied : List Nat) (φ : Nat → Nat)
    (c : Collector) : Prop where
  table : StartTable inSpace h c
  scratch : ScratchOk inSpace h c
  nodup : copied.Nodup
  objs : ∀ b ∈ copied, b ∈ h.objs
  /-- To-space is filled with the copies, in copy order. -/
  laid : ObjectsIn c.mem c.toStart (copied.map φ) (c.toStart + 8 * c.toUsed)
  headerFree : ∀ b ∈ h.objs, b ∉ copied → c.mem (b - 8) = h.mem (b - 8)
  headerFwd : ∀ b ∈ copied, c.mem (b - 8) = tombstone (φ b)
  copyHeader : ∀ b ∈ copied, c.mem (φ b - 8) = h.mem (b - 8)

/-- The trace has copied the objects `copied` to `φ` and rewritten the slots `done`. -/
structure CheneyInv (inSpace : Nat → Prop) (h : HeapView) (live : Nat → Prop)
    (copied : List Nat) (φ : Nat → Nat) (done : Nat → Prop) (c : Collector) : Prop
    extends Copies inSpace h copied φ c where
  live : ∀ b ∈ copied, live b
  body : ∀ b ∈ h.objs, ∀ i < h.mem.objLen b, c.mem (b + 8 * i) = h.mem (b + 8 * i)
  todo : ∀ b ∈ copied, ∀ i < h.mem.objLen b, ¬ done (b + 8 * i) →
    c.mem (φ b + 8 * i) = h.mem (b + 8 * i)
  rewritten : ∀ b ∈ copied, ∀ i < h.mem.objLen b, done (b + 8 * i) →
    c.mem (φ b + 8 * i) = h.relocate φ true (h.mem (b + 8 * i))
  /-- Only slots of copied objects are rewritten. -/
  doneSlot : ∀ b ∈ h.objs, ∀ i < h.mem.objLen b, done (b + 8 * i) →
    b ∈ copied ∧ IsSlot h.mem b (b + 8 * i)
  doneTarget : ∀ b ∈ copied, ∀ i < h.mem.objLen b, done (b + 8 * i) →
    ∀ t, h.target true (h.mem (b + 8 * i)) = some t → t ∈ copied

/-- More objects have been copied; the earlier ones stay where they are. -/
structure Extends (copied : List Nat) (φ : Nat → Nat) (copied' : List Nat) (φ' : Nat → Nat) :
    Prop where
  grows : copied <+: copied'
  keeps : ∀ b ∈ copied, φ' b = φ b

theorem Extends.refl (copied : List Nat) (φ : Nat → Nat) : Extends copied φ copied φ :=
  ⟨List.prefix_rfl, fun _ _ => rfl⟩

theorem Extends.mem {copied copied' : List Nat} {φ φ' : Nat → Nat}
    (h : Extends copied φ copied' φ') {b : Nat} (hb : b ∈ copied) : b ∈ copied' :=
  h.grows.subset hb

theorem Extends.trans {c₁ c₂ c₃ : List Nat} {φ₁ φ₂ φ₃ : Nat → Nat} (h : Extends c₁ φ₁ c₂ φ₂)
    (h' : Extends c₂ φ₂ c₃ φ₃) : Extends c₁ φ₁ c₃ φ₃ :=
  ⟨h.grows.trans h'.grows, fun b hb => (h'.keeps b (h.mem hb)).trans (h.keeps b hb)⟩

section Trace

variable {inSpace : Nat → Prop} {h : HeapView} {live : Nat → Prop}
variable {copied : List Nat} {φ : Nat → Nat} {done : Nat → Prop} {c : Collector}

/-- A duplicate-free selection of objects is no larger than all of them. -/
theorem sum_map_le_of_subset {f : Nat → Nat} {xs ys : List Nat} (hx : xs.Nodup)
    (hsub : ∀ x ∈ xs, x ∈ ys) : (xs.map f).sum ≤ (ys.map f).sum := by
  obtain ⟨zs, hperm, hsl⟩ := hx.subperm hsub
  rw [← (hperm.map f).sum_eq]
  exact (hsl.map f).sum_le_sum (fun _ _ => Nat.zero_le _)

namespace Copies

theorem objLen_copy (hi : Copies inSpace h copied φ c) {b : Nat} (hb : b ∈ copied) :
    c.mem.objLen (φ b) = h.mem.objLen b := by
  simp only [Mem.objLen, wordBytes, hi.copyHeader b hb]

/-- A copy lies in the used part of to-space. -/
theorem copy_bounds (hi : Copies inSpace h copied φ c) {b : Nat} (hb : b ∈ copied) :
    c.toStart + 8 ≤ φ b ∧ φ b + 8 * h.mem.objLen b ≤ c.toStart + 8 * c.toUsed := by
  have := hi.laid.bounds (List.mem_map_of_mem hb)
  rwa [hi.objLen_copy hb] at this

/-- The copies of two objects do not overlap. -/
theorem copy_separate (hi : Copies inSpace h copied φ c) {b b' : Nat}
    (hb : b ∈ copied) (hb' : b' ∈ copied) (hne : b ≠ b') :
    φ b + 8 * h.mem.objLen b + 8 ≤ φ b' ∨ φ b' + 8 * h.mem.objLen b' + 8 ≤ φ b := by
  have hsep := hi.laid.separate (List.mem_map_of_mem hb) (List.mem_map_of_mem hb')
  rw [hi.objLen_copy hb, hi.objLen_copy hb'] at hsep
  rcases hsep with heq | hsep
  · exact absurd (List.inj_on_of_nodup_map hi.laid.nodup hb hb' heq) hne
  · exact hsep

/-- The used words of to-space are the sizes of the copied objects. -/
theorem toUsed_eq (hi : Copies inSpace h copied φ c) :
    c.toUsed = (copied.map (fun b => 1 + h.mem.objLen b)).sum := by
  have hsize := hi.laid.size
  have hmap : (copied.map φ).map (fun b => 1 + c.mem.objLen b) =
      copied.map (fun b => 1 + h.mem.objLen b) := by
    rw [List.map_map]
    exact List.map_congr_left (fun b hb => by
      simp only [Function.comp_apply, hi.objLen_copy hb])
  rw [hmap] at hsize
  omega

/-- There is room in to-space for every object that has not been copied yet. -/
theorem room (hi : Copies inSpace h copied φ c) {t : Nat} (ht : t ∈ h.objs) (hnew : t ∉ copied) :
    c.toUsed + 1 + h.mem.objLen t ≤ c.toLen := by
  have hnd : (t :: copied).Nodup := List.nodup_cons.2 ⟨hnew, hi.nodup⟩
  have hsum := sum_map_le_of_subset (f := fun b => 1 + h.mem.objLen b) hnd (fun x hx => by
    rcases List.mem_cons.1 hx with rfl | hx
    · exact ht
    · exact hi.objs x hx)
  have hroom := hi.scratch.room
  have hused := hi.toUsed_eq
  simp only [List.map_cons, List.sum_cons] at hsum
  omega

/-- To-space never overflows. -/
theorem toUsed_le (hi : Copies inSpace h copied φ c) : c.toUsed ≤ c.toLen := by
  have hsum := sum_map_le_of_subset (f := fun b => 1 + h.mem.objLen b) hi.nodup hi.objs
  have hroom := hi.scratch.room
  have hused := hi.toUsed_eq
  omega

/-- Addresses of copies are small enough for a tombstone. -/
theorem copy_lt (hi : Copies inSpace h copied φ c) {b : Nat} (hb : b ∈ copied) :
    φ b < 0x8000000000000000 := by
  have h1 := hi.copy_bounds hb
  have h2 := hi.scratch.addressable
  have h3 := hi.toUsed_le
  omega

/-- A collector with the same spaces, whose memory differs away from them only. -/
theorem congr (hi : Copies inSpace h copied φ c) (hok : HeapOk inSpace h live) {c' : Collector}
    (hf : SameFrame c c') (hu : c'.toUsed = c.toUsed)
    (hm : ∀ a, inSpace a ∨ c.InScratch a → c'.mem a = c.mem a) :
    Copies inSpace h copied φ c' := by
  have hhdr : ∀ b ∈ copied, c'.mem (φ b - 8) = c.mem (φ b - 8) := by
    intro b hb
    have h1 := hi.copy_bounds hb
    have h2 := hi.toUsed_le
    exact hm _ (Or.inr ⟨by omega, by omega⟩)
  refine ⟨hi.table.congr hf.fromRanges hf.startBits hf.rangeBitBase, hf.scratchOk hi.scratch,
    hi.nodup, hi.objs, ?_, fun b hb hn => ?_, fun b hb => ?_, fun b hb => ?_⟩
  · rw [hf.toStart, hu]
    refine hi.laid.congr (fun q hq => ?_)
    obtain ⟨b, hb, rfl⟩ := List.mem_map.1 hq
    exact hhdr b hb
  · rw [hm _ (Or.inl (hok.inHeader b hb))]
    exact hi.headerFree b hb hn
  · rw [hm _ (Or.inl (hok.inHeader b (hi.objs b hb)))]
    exact hi.headerFwd b hb
  · rw [hhdr b hb]
    exact hi.copyHeader b hb

/-- One more object at the end of to-space: its header is copied and its tombstone left behind. -/
theorem add (hi : Copies inSpace h copied φ c) {t p : Nat}
    (ht : t ∈ h.objs) (hnew : t ∉ copied) (hp : p = c.toStart + 8 * (c.toUsed + 1))
    {c' : Collector} (hf : SameFrame c c') (hu : c'.toUsed = c.toUsed + 1 + h.mem.objLen t)
    (hold : c'.mem (t - 8) = tombstone p) (hcopy : c'.mem (p - 8) = h.mem (t - 8))
    (hfree : ∀ b ∈ h.objs, b ≠ t → c'.mem (b - 8) = c.mem (b - 8))
    (hlow : ∀ b ∈ copied, c'.mem (φ b - 8) = c.mem (φ b - 8)) :
    Copies inSpace h (copied ++ [t]) (Function.update φ t p) c' := by
  have hφ : ∀ b ∈ copied, Function.update φ t p b = φ b := fun b hb =>
    Function.update_of_ne (ne_of_mem_of_not_mem hb hnew) _ _
  have hφt : Function.update φ t p t = p := Function.update_self ..
  refine ⟨hi.table.congr hf.fromRanges hf.startBits hf.rangeBitBase, hf.scratchOk hi.scratch,
    ?_, ?_, ?_, ?_, ?_, ?_⟩
  · exact List.nodup_append.2 ⟨hi.nodup, List.nodup_singleton t, by
      intro a ha b hb
      rintro rfl
      exact hnew (List.mem_singleton.1 hb ▸ ha)⟩
  · intro b hb
    rcases List.mem_append.1 hb with hb | hb
    · exact hi.objs b hb
    · exact List.mem_singleton.1 hb ▸ ht
  · rw [List.map_append, List.map_congr_left hφ, List.map_singleton, hφt, hf.toStart, hu]
    refine (hi.laid.congr ?_).append ?_
    · intro q hq
      obtain ⟨b, hb, rfl⟩ := List.mem_map.1 hq
      exact hlow b hb
    · have hlen : lengthOf (c'.mem (c.toStart + 8 * c.toUsed)) = h.mem.objLen t := by
        rw [show c.toStart + 8 * c.toUsed = p - 8 by omega, hcopy]
        rfl
      have hcons := ObjectsIn.cons (m := c'.mem) (c.toStart + 8 * c.toUsed) [] _ (.nil _)
      rw [hlen] at hcons
      rw [show p = c.toStart + 8 * c.toUsed + 8 by omega]
      convert hcons using 1
      omega
  · intro b hb hnb
    rw [List.mem_append, not_or, List.mem_singleton] at hnb
    rw [hfree b hb hnb.2]
    exact hi.headerFree b hb hnb.1
  · intro b hb
    rcases List.mem_append.1 hb with hb | hb
    · rw [hφ b hb, hfree b (hi.objs b hb) (ne_of_mem_of_not_mem hb hnew)]
      exact hi.headerFwd b hb
    · rw [List.mem_singleton.1 hb, hφt, hold]
  · intro b hb
    rcases List.mem_append.1 hb with hb | hb
    · rw [hφ b hb, hlow b hb]
      exact hi.copyHeader b hb
    · rw [List.mem_singleton.1 hb, hφt, hcopy]

end Copies

/-- A collector with the same spaces, whose memory differs away from them only. -/
theorem CheneyInv.congr (hi : CheneyInv inSpace h live copied φ done c)
    (hok : HeapOk inSpace h live) {c' : Collector} (hf : SameFrame c c') (hu : c'.toUsed = c.toUsed)
    (hm : ∀ a, inSpace a ∨ c.InScratch a → c'.mem a = c.mem a) :
    CheneyInv inSpace h live copied φ done c' := by
  have hcopy : ∀ b ∈ copied, ∀ i < h.mem.objLen b, c'.mem (φ b + 8 * i) = c.mem (φ b + 8 * i) := by
    intro b hb i hil
    have h1 := hi.copy_bounds hb
    have h2 := hi.toUsed_le
    exact hm _ (Or.inr ⟨by omega, by omega⟩)
  refine ⟨hi.toCopies.congr hok hf hu hm, hi.live, fun b hb i hil => ?_, fun b hb i hil hn => ?_,
    fun b hb i hil hd => ?_, hi.doneSlot, hi.doneTarget⟩
  · rw [hm _ (Or.inl (hok.inBody b hb i hil))]
    exact hi.body b hb i hil
  · rw [hcopy b hb i hil]
    exact hi.todo b hb i hil hn
  · rw [hcopy b hb i hil]
    exact hi.rewritten b hb i hil hd

/-! ## Finding the containing object -/

/-- The length of an object is read correctly whether or not it has been forwarded. -/
theorem objectLenViaHeader_eq (hok : HeapOk inSpace h live)
    (hi : Copies inSpace h copied φ c) {t : Nat} (ht : t ∈ h.objs) :
    Collector.objectLenViaHeader c.mem t = h.mem.objLen t := by
  simp only [Collector.objectLenViaHeader, wordBytes]
  by_cases hc : t ∈ copied
  · rw [hi.headerFwd t hc, if_pos (isTombstone_tombstone _), forwardPtr_tombstone (hi.copy_lt hc),
      hi.copyHeader t hc]
    rfl
  · rw [hi.headerFree t ht hc, if_neg (by rw [hok.valid t ht]; simp)]
    rfl

/-- The backward scan stops at the object that covers the address. -/
theorem scanBack_eq {bits : Bitmap} {m : Mem} {rangeStart bitBase addr t : Nat}
    (hsep : h.Separate) (ht : t ∈ h.objs) (hcov : t ≤ addr ∧ addr < t + 8 * h.mem.objLen t)
    (hlow : rangeStart + 8 ≤ t) (hal : (t - rangeStart) % 8 = 0) (haddr : addr < usizeMax)
    (hlen : Collector.objectLenViaHeader m t = h.mem.objLen t)
    (hbits : ∀ i, rangeStart + 8 * i ≤ addr →
      bits.test (bitBase + i) = some (decide (rangeStart + 8 * i ∈ h.objs))) :
    ∀ k, (t - rangeStart) / 8 < k → rangeStart + 8 * k ≤ addr + 8 →
      Collector.scanBack bits m rangeStart bitBase addr k = some (some t) := by
  intro k
  induction k with
  | zero => intro hk; omega
  | succ k ih =>
    intro hk hle
    rw [Collector.scanBack, hbits k (by omega)]
    have htk : rangeStart + 8 * ((t - rangeStart) / 8) = t := by omega
    by_cases hkt : k = (t - rangeStart) / 8
    · have hmem : rangeStart + 8 * k ∈ h.objs := by rw [hkt, htk]; exact ht
      have hstart : rangeStart + k * wordBytes = t := by rw [wordBytes]; omega
      have hend : addr < saturatingAdd t (saturatingMul (h.mem.objLen t) wordBytes) := by
        simp only [saturatingAdd, saturatingMul, wordBytes, usizeMax] at haddr ⊢
        omega
      simp only [decide_eq_true hmem, hstart, hlen, if_pos hend]
    · have hnot : rangeStart + 8 * k ∉ h.objs := by
        intro hmem
        rcases hsep t ht _ hmem with heq | hlt | hlt <;> omega
      simp only [decide_eq_false hnot]
      exact ih (by omega) (by omega)

/-- The backward scan of an address that no object covers finds nothing. -/
theorem scanBack_none {bits : Bitmap} {m : Mem} {rangeStart bitBase addr : Nat}
    (hfree : ∀ t ∈ h.objs, ¬ h.mem.Covers t addr)
    (hlen : ∀ t ∈ h.objs, Collector.objectLenViaHeader m t = h.mem.objLen t)
    (hbits : ∀ i, rangeStart + 8 * i ≤ addr →
      bits.test (bitBase + i) = some (decide (rangeStart + 8 * i ∈ h.objs))) :
    ∀ k, rangeStart + 8 * k ≤ addr + 8 →
      Collector.scanBack bits m rangeStart bitBase addr k = some none := by
  intro k
  induction k with
  | zero => exact fun _ => rfl
  | succ k ih =>
    intro hle
    rw [Collector.scanBack, hbits k (by omega)]
    by_cases hmem : rangeStart + 8 * k ∈ h.objs
    · have hstart : rangeStart + k * wordBytes = rangeStart + 8 * k := by rw [wordBytes]; omega
      have hnot : rangeStart + 8 * k + 8 * max 1 (h.mem.objLen (rangeStart + 8 * k)) ≤ addr := by
        by_contra hlt
        exact hfree _ hmem ⟨by omega, by omega⟩
      have hend : ¬ addr < saturatingAdd (rangeStart + 8 * k)
          (saturatingMul (h.mem.objLen (rangeStart + 8 * k)) wordBytes) := by
        simp only [saturatingAdd, saturatingMul, wordBytes, usizeMax]
        omega
      simp only [decide_eq_true hmem, hstart, hlen _ hmem, if_neg hend]
      split
      · rfl
      · exact ih (by omega)
    · simp only [decide_eq_false hmem]
      exact ih (by omega)

/-- A collector whose table is right finds the object that covers an address. -/
theorem StartTable.findBodyStart {c : Collector} (ht : StartTable inSpace h c) (hsep : h.Separate) {b a : Nat} (hb : b ∈ h.objs)
    (hcov : h.mem.Covers b a) (ha : a < usizeMax)
    (hlen : Collector.objectLenViaHeader c.mem b = h.mem.objLen b) :
    c.findBodyStart a = some (some b) := by
  obtain ⟨k, r, hr, hra, hstart, hbits⟩ := ht.bits a (ht.covered b hb a hcov)
  obtain ⟨hlow, hal⟩ := hstart b hb hcov
  have hword : r.1 + 8 * ((a - r.1) / 8) ≤ a := by omega
  simp only [Collector.findBodyStart, hr, wordBytes, hbits _ hword]
  obtain ⟨hle, hlt⟩ := hcov
  by_cases hmem : r.1 + 8 * ((a - r.1) / 8) ∈ h.objs
  · have heq : r.1 + 8 * ((a - r.1) / 8) = b := by
      rcases hsep b hb _ hmem with heq | hlt' | hlt' <;> omega
    simp only [decide_eq_true hmem, Nat.mul_comm _ 8]
    rw [heq]
  · simp only [decide_eq_false hmem]
    have hne : b ≠ r.1 + 8 * ((a - r.1) / 8) := fun he => hmem (he ▸ hb)
    exact scanBack_eq hsep hb ⟨hle, by omega⟩ hlow hal ha hlen hbits _ (by omega) (by omega)

/-- The bitmap resolves every address that an object covers to that object, and no other. -/
theorem findBodyStart_eq (hok : HeapOk inSpace h live)
    (hi : Copies inSpace h copied φ c) {a : Nat} (ha : inSpace a) :
    c.findBodyStart a = some (h.container a) := by
  have haddr : a < usizeMax := by
    have := hok.addressable a ha
    rw [usizeMax]
    omega
  cases hc : h.container a with
  | some t =>
    have ht := HeapView.container_mem hc
    exact hi.table.findBodyStart hok.separate ht (HeapView.container_covers hc) haddr
      (objectLenViaHeader_eq hok hi ht)
  | none =>
    have hfree : ∀ t ∈ h.objs, ¬ h.mem.Covers t a := by
      intro t ht hcov
      rw [(HeapView.container_eq_some hok.separate hok.pos).2 ⟨ht, hcov⟩] at hc
      cases hc
    obtain ⟨k, r, hr, hra, -, hbits⟩ := hi.table.bits a ha
    have hword : r.1 + 8 * ((a - r.1) / 8) ≤ a := by omega
    -- no object starts in the word the address lies in
    have hmem : r.1 + 8 * ((a - r.1) / 8) ∉ h.objs := fun hm => hfree _ hm ⟨hword, by omega⟩
    simp only [Collector.findBodyStart, hr, wordBytes, hbits _ hword, decide_eq_false hmem]
    exact scanBack_none hfree (fun t ht => objectLenViaHeader_eq hok hi ht) hbits _ (by omega)

/-! ## Copying one object -/

/-- The memory after `t` has been copied to `p`. -/
def copiedMem (m : Mem) (t p n : Nat) (header : PolyWord) : Mem :=
  Function.update (Mem.copyWords (Function.update m (p - 8) header) t p n) (t - 8) (tombstone p)

theorem copiedMem_old (m : Mem) (t p n : Nat) (header : PolyWord) :
    copiedMem m t p n header (t - 8) = tombstone p := Function.update_self ..

theorem copiedMem_header {m : Mem} {t p n : Nat} {header : PolyWord} (hp : 8 ≤ p)
    (hne : p - 8 ≠ t - 8) : copiedMem m t p n header (p - 8) = header := by
  rw [copiedMem, Function.update_of_ne hne, Mem.copyWords_outside _ _ _ _ (Or.inl (by omega)),
    Function.update_self]

theorem copiedMem_body {m : Mem} {t p n i : Nat} {header : PolyWord} (hi : i < n)
    (hne : p + 8 * i ≠ t - 8) (hsrc : t + 8 * i ≠ p - 8) :
    copiedMem m t p n header (p + 8 * i) = m (t + 8 * i) := by
  rw [copiedMem, Function.update_of_ne hne, Mem.copyWords_inside _ _ _ _ hi,
    Function.update_of_ne hsrc]

theorem copiedMem_other {m : Mem} {t p n a : Nat} {header : PolyWord} (hold : a ≠ t - 8)
    (hcopy : a + 8 ≤ p ∨ p + 8 * n ≤ a) (hp : a ≠ p - 8) :
    copiedMem m t p n header a = m a := by
  rw [copiedMem, Function.update_of_ne hold, Mem.copyWords_outside _ _ _ _ (by omega),
    Function.update_of_ne hp]

/-- `forwardObject` on an object that has not been copied. -/
theorem forwardObject_new {t : Nat} (hlw : isTombstone (c.mem (t - 8)) = false)
    (hroom : c.toUsed + 1 + lengthOf (c.mem (t - 8)) ≤ c.toLen) :
    c.forwardObject t = some
      ({ c with
          toUsed := c.toUsed + 1 + lengthOf (c.mem (t - 8))
          mem := copiedMem c.mem t (c.toStart + 8 * (c.toUsed + 1)) (lengthOf (c.mem (t - 8)))
            (c.mem (t - 8)) },
        c.toStart + 8 * (c.toUsed + 1)) := by
  simp only [Collector.forwardObject, wordBytes, hlw, Bool.false_eq_true, if_false,
    Collector.bumpTo, if_pos hroom, Option.bind_eq_bind, Option.bind_some, Collector.write,
    makeLengthWord_lengthOf_flagsOf, copiedMem]

/-- Copying `t` to the end of to-space keeps the invariant. -/
theorem CheneyInv.copy (hok : HeapOk inSpace h live)
    (hi : CheneyInv inSpace h live copied φ done c) {t : Nat} (hlive : live t) (hnew : t ∉ copied)
    {c' : Collector} (hc' : c' = { c with
      toUsed := c.toUsed + 1 + h.mem.objLen t
      mem := copiedMem c.mem t (c.toStart + 8 * (c.toUsed + 1)) (h.mem.objLen t)
        (h.mem (t - 8)) }) :
    CheneyInv inSpace h live (copied ++ [t])
      (Function.update φ t (c.toStart + 8 * (c.toUsed + 1))) done c' := by
  have ht := hok.liveMem t hlive
  have hroom := hi.room ht hnew
  have hdone : ∀ i < h.mem.objLen t, ¬ done (t + 8 * i) :=
    fun i hil hd => hnew (hi.doneSlot t ht i hil hd).1
  obtain ⟨p, hp⟩ : ∃ p, p = c.toStart + 8 * (c.toUsed + 1) := ⟨_, rfl⟩
  rw [← hp] at hc' ⊢
  have hframe : SameFrame c c' := by
    rw [hc']
    exact ⟨rfl, rfl, rfl, rfl, rfl⟩
  have hused : c'.toUsed = c.toUsed + 1 + h.mem.objLen t := by rw [hc']
  have hmem : c'.mem = copiedMem c.mem t p (h.mem.objLen t) (h.mem (t - 8)) := by rw [hc']
  -- from-space and to-space are apart
  have hfrom : ∀ a, inSpace a → a < c.toStart ∨ c.toStart + 8 * c.toLen ≤ a := by
    intro a ha
    by_contra hcon
    exact hi.scratch.apart a ⟨by omega, by omega⟩ ha
  have htH := hfrom _ (hok.inHeader t ht)
  have hfree : ∀ a, inSpace a → a ≠ t - 8 → c'.mem a = c.mem a := by
    intro a ha hne
    have := hfrom a ha
    rw [hmem]
    exact copiedMem_other hne (by omega) (by omega)
  have hlow : ∀ a, c.toStart ≤ a → a + 8 ≤ c.toStart + 8 * c.toUsed → c'.mem a = c.mem a := by
    intro a h1 h2
    rw [hmem]
    exact copiedMem_other (by omega) (by omega) (by omega)
  have hφ : ∀ b ∈ copied, Function.update φ t p b = φ b := by
    intro b hb
    exact Function.update_of_ne (ne_of_mem_of_not_mem hb hnew) _ _
  have hφt : Function.update φ t p t = p := Function.update_self ..
  have hpB : ∀ i < h.mem.objLen t, c'.mem (p + 8 * i) = h.mem (t + 8 * i) := by
    intro i hil
    have hb := hfrom _ (hok.inBody t ht i hil)
    rw [hmem, copiedMem_body hil (by omega) (by omega)]
    exact hi.body t ht i hil
  refine ⟨hi.toCopies.add ht hnew hp hframe hused ?_ ?_ (fun b hb hne => ?_)
    (fun b hb => ?_), ?_, ?_, ?_, ?_, ?_, ?_⟩
  · rw [hmem]
    exact copiedMem_old ..
  · rw [hmem]
    exact copiedMem_header (by omega) (by omega)
  · have h1 := hok.pos b hb
    have h2 := hok.pos t ht
    exact hfree _ (hok.inHeader b hb) (by omega)
  · have hcb := hi.copy_bounds hb
    exact hlow _ (by omega) (by omega)
  · intro b hb
    rcases List.mem_append.1 hb with hb | hb
    · exact hi.live b hb
    · exact List.mem_singleton.1 hb ▸ hlive
  · intro b hb i hil
    have hne : b + 8 * i ≠ t - 8 := by
      have := hok.pos t ht
      rcases hok.separate b hb t ht with rfl | hlt | hlt <;> omega
    rw [hfree _ (hok.inBody b hb i hil) hne]
    exact hi.body b hb i hil
  · intro b hb i hil hnd
    rcases List.mem_append.1 hb with hb | hb
    · have hcb := hi.copy_bounds hb
      rw [hφ b hb, hlow _ (by omega) (by omega)]
      exact hi.todo b hb i hil hnd
    · obtain rfl := List.mem_singleton.1 hb
      rw [hφt]
      exact hpB i hil
  · intro b hb i hil hd
    rcases List.mem_append.1 hb with hb | hb
    · have hcb := hi.copy_bounds hb
      rw [hφ b hb, hlow _ (by omega) (by omega), hi.rewritten b hb i hil hd]
      exact (HeapView.relocate_congr (fun u hu => hφ u (hi.doneTarget b hb i hil hd u hu))).symm
    · exact absurd (List.mem_singleton.1 hb ▸ hd) (hdone i (List.mem_singleton.1 hb ▸ hil))
  · intro b hb i hil hd
    have hs := hi.doneSlot b hb i hil hd
    exact ⟨List.mem_append_left _ hs.1, hs.2⟩
  · intro b hb i hil hd u hu
    rcases List.mem_append.1 hb with hb | hb
    · exact List.mem_append_left _ (hi.doneTarget b hb i hil hd u hu)
    · exact absurd (List.mem_singleton.1 hb ▸ hd) (hdone i (List.mem_singleton.1 hb ▸ hil))

/-! ## Forwarding a word -/

/-- Away from from-space and to-space the trace writes nothing, and it moves no boundary. -/
structure TraceStep (inSpace : Nat → Prop) (c c' : Collector) : Prop where
  frame : SameFrame c c'
  untracked : c.untrackedAddrs <+: c'.untrackedAddrs
  outside : ∀ a, ¬ inSpace a → ¬ c.InScratch a → c'.mem a = c.mem a

theorem TraceStep.refl (inSpace : Nat → Prop) (c : Collector) : TraceStep inSpace c c :=
  ⟨SameFrame.refl c, List.prefix_rfl, fun _ _ _ => rfl⟩

theorem TraceStep.trans {c₁ c₂ c₃ : Collector} (h : TraceStep inSpace c₁ c₂)
    (h' : TraceStep inSpace c₂ c₃) : TraceStep inSpace c₁ c₃ := by
  refine ⟨h.frame.trans h'.frame, h.untracked.trans h'.untracked, fun a hs ha => ?_⟩
  rw [h'.outside a hs (fun hc => ha ((h.frame.inScratch a).1 hc)), h.outside a hs ha]

/-- The list of untracked addresses grows exactly when one of its two extensions does. -/
theorem TraceStep.untracked_iff {c₁ c₂ c₃ : Collector} (h : TraceStep inSpace c₁ c₂)
    (h' : TraceStep inSpace c₂ c₃) : c₃.untrackedAddrs = c₁.untrackedAddrs ↔
      c₂.untrackedAddrs = c₁.untrackedAddrs ∧ c₃.untrackedAddrs = c₂.untrackedAddrs := by
  constructor
  · intro heq
    have h12 := h.untracked
    have h23 := h'.untracked
    rw [heq] at h23
    have := h12.eq_of_length (Nat.le_antisymm h12.length_le h23.length_le)
    exact ⟨this.symm, heq.trans this⟩
  · rintro ⟨h12, h23⟩
    exact h23.trans h12

/-- The word `w` passes the collector's checks: a tag or its address rules it out, or it points into
an object. -/
def Tracked (inSpace : Nat → Prop) (h : HeapView) (taggedFilter : Bool) (w : PolyWord) : Prop :=
  h.target taggedFilter w = none → (taggedFilter && w.isTagged) = true ∨ ¬ inSpace w.addr

/-- Forwarding the body of a live object returns the place of its copy. -/
theorem forwardObject_spec (hok : HeapOk inSpace h live)
    (hi : CheneyInv inSpace h live copied φ done c) {t : Nat} (hlive : live t) :
    ∃ c' copied' φ', c.forwardObject t = some (c', φ' t) ∧
      CheneyInv inSpace h live copied' φ' done c' ∧ Extends copied φ copied' φ' ∧
      TraceStep inSpace c c' ∧ c'.weakObjects = c.weakObjects ∧ t ∈ copied' ∧
      c'.untrackedAddrs = c.untrackedAddrs := by
  have ht := hok.liveMem t hlive
  by_cases hc : t ∈ copied
  · refine ⟨c, copied, φ, ?_, hi, Extends.refl _ _, TraceStep.refl _ _, rfl, hc, rfl⟩
    simp only [Collector.forwardObject, wordBytes, hi.headerFwd t hc, isTombstone_tombstone,
      if_true, forwardPtr_tombstone (hi.copy_lt hc)]
  · have hhdr := hi.headerFree t ht hc
    have hroom := hi.room ht hc
    have hnew := forwardObject_new (c := c) (t := t) (by rw [hhdr]; exact hok.valid t ht)
      (by rw [hhdr]; exact hroom)
    rw [hhdr] at hnew
    refine ⟨_, copied ++ [t], Function.update φ t (c.toStart + 8 * (c.toUsed + 1)), ?_,
      CheneyInv.copy hok hi hlive hc rfl, ⟨List.prefix_append _ _, ?_⟩,
      ⟨⟨rfl, rfl, rfl, rfl, rfl⟩, List.prefix_rfl, ?_⟩, rfl, by simp, rfl⟩
    · rw [Function.update_self]
      exact hnew
    · intro b hb
      exact Function.update_of_ne (ne_of_mem_of_not_mem hb hc) _ _
    · intro a hs ha
      have hH := hok.inHeader t ht
      refine copiedMem_other ?_ ?_ ?_
      · rintro rfl
        exact hs hH
      · by_contra hcon
        exact ha ⟨by omega, by omega⟩
      · rintro rfl
        exact ha ⟨by omega, by omega⟩

/-- Forwarding a word relocates it, copies its target if that has not happened yet, and records the
word as untracked exactly when it is. -/
theorem forwardImpl_spec (hok : HeapOk inSpace h live)
    (hi : CheneyInv inSpace h live copied φ done c) {tf : Bool} {w : PolyWord}
    (hlive : ∀ t, h.target tf w = some t → live t) :
    ∃ c' copied' φ', c.forwardImpl w tf = some (c', h.relocate φ' tf w) ∧
      CheneyInv inSpace h live copied' φ' done c' ∧ Extends copied φ copied' φ' ∧
      TraceStep inSpace c c' ∧ c'.weakObjects = c.weakObjects ∧
      (∀ t, h.target tf w = some t → t ∈ copied') ∧
      (c'.untrackedAddrs = c.untrackedAddrs ↔ Tracked inSpace h tf w) := by
  cases htg : h.target tf w with
  | none =>
    rw [Tracked, htg]
    have hrel : ∀ ψ, h.relocate ψ tf w = w := fun ψ => HeapView.relocate_of_target_none htg
    by_cases htag : (tf && w.isTagged) = true
    · refine ⟨c, copied, φ, ?_, hi, Extends.refl _ _, TraceStep.refl _ _, rfl, by simp, ?_⟩
      · rw [hrel, Collector.forwardImpl, if_pos htag]
      · simp [htag]
    by_cases hin : inSpace w.addr
    · have hfs := (hi.table.inFromSpace _).2 hin
      have hfind : c.findBodyStart w.addr = some none := by
        rw [findBodyStart_eq hok hi.toCopies hin]
        simpa only [HeapView.target, htag, Bool.false_eq_true, if_false] using congrArg some htg
      refine ⟨{ c with untrackedAddrs := c.untrackedAddrs ++ [w.addr] }, copied, φ, ?_, ?_,
        Extends.refl _ _, ⟨⟨rfl, rfl, rfl, rfl, rfl⟩, List.prefix_append _ _, fun _ _ _ => rfl⟩, rfl,
        by simp, ?_⟩
      · rw [hrel, Collector.forwardImpl, if_neg htag]
        simp [hfs, hfind]
      · exact hi.congr hok ⟨rfl, rfl, rfl, rfl, rfl⟩ rfl (fun _ _ => rfl)
      · simp [htag, hin]
    · have hfs : c.inFromSpace w.addr = false :=
        Bool.eq_false_iff.2 (fun hc => hin ((hi.table.inFromSpace _).1 hc))
      refine ⟨c, copied, φ, ?_, hi, Extends.refl _ _, TraceStep.refl _ _, rfl, by simp, ?_⟩
      · rw [hrel, Collector.forwardImpl, if_neg htag]
        simp [hfs]
      · simp [hin]
  | some t =>
    have hcon := HeapView.target_container htg
    obtain ⟨c', copied', φ', hfo, hi', hext, hstep, hweak, hmem, hunt⟩ :=
      forwardObject_spec hok hi (hlive t htg)
    refine ⟨c', copied', φ', ?_, hi', hext, hstep, hweak, fun u hu => ?_, ?_⟩
    · have htag : (tf && w.isTagged) = false := by
        by_contra hcon'
        rw [Bool.not_eq_false] at hcon'
        simp [HeapView.target, hcon'] at htg
      have hsp := hi.table.covered t (HeapView.container_mem hcon) _ (HeapView.container_covers hcon)
      have hin : c.inFromSpace w.addr = true := (hi.table.inFromSpace _).2 hsp
      simp only [Collector.forwardImpl, htag, hin, findBodyStart_eq hok hi.toCopies hsp, hcon, hfo,
        HeapView.relocate_of_target htg, Bool.false_eq_true, if_false, Bool.not_true,
        Option.bind_eq_bind, Option.bind_some]
    · rw [Option.some.inj hu] at hmem
      exact hmem
    · exact iff_of_true hunt (fun hnone => by rw [htg] at hnone; cases hnone)

end Trace
