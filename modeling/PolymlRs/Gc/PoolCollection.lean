import PolymlRs.Gc.SerialCollection
import PolymlRs.Gc.Weak

set_option autoImplicit false

/-! # A collection with all its roots

The collection of a pool under roots outside the heap, roots in permanent mutable objects, and weak
objects in both places. `Promoted` says what the heap is afterwards, in terms of the objects that
were copied and where; `collectPool_spec` proves it of every collection that returns, and that a
collection returns unless some word it forwards points into a from-space but at no object. -/

/-- The links of a weak object: what each may hold, and where a permanent SOME cell may lie. -/
def WeakLinkWf (m : Mem) (spaces : List MemorySpace) (imageWeak : List Nat) (start len : Nat)
    (w : PolyWord) : Prop :=
  w.isTagged = true ∨
  (¬ InSpaces spaces w.addr ∧ ¬ (start ≤ w.addr ∧ w.addr < start + 8 * len) ∧
    (∀ p ∈ imageWeak, w.addr ≠ p - 8 ∧ ¬ LinkOf p (m.objLen p) w.addr) ∧
    RefOk (InSpaces spaces) (poolView m spaces) (m w.addr)) ∨
  (w.addr ∈ (poolView m spaces).objs ∧ (IsSomeCell (poolView m spaces) w.addr →
    RefOk (InSpaces spaces) (poolView m spaces) (m w.addr)))

/-- A heap that is ready for a collection: the pool, the regions `images` of permanent mutable
objects, the roots `ws`, a closed set `live` of objects that holds everything the roots denote, and
the scratch buffer. -/
structure PoolReady (m : Mem) (spaces : List MemorySpace) (images : List (Nat × Nat))
    (ws : List RootWord) (live : Nat → Prop) (start len : Nat) : Prop where
  pool : PoolOk m spaces
  liveMem : ∀ b, live b → b ∈ (poolView m spaces).objs
  code : ∀ b, live b → typeOf (m (b - 8)) = fCodeObj → (poolView m spaces).CodeOk b
  liveSlot : ∀ b a t, live b → IsSlot m b a → (poolView m spaces).target true (m a) = some t →
    live t
  roots : ∀ p ∈ ws, ∀ t, (poolView m spaces).target p.1 p.2 = some t → live t
  laid : ∀ r ∈ images, ObjectsIn m r.1 (imageObjects m r) (r.1 + 8 * r.2)
  imageApart : ∀ r ∈ images, ∀ a, r.1 ≤ a → a < r.1 + 8 * r.2 → ¬ InSpaces spaces a ∧
    ¬ (start ≤ a ∧ a < start + 8 * len)
  imageSeparate : images.Pairwise RegionApart
  imageOk : ∀ r ∈ images, ImageOk (poolView m spaces) live (imageObjects m r)
  /-- The word behind the scratch buffer is in no from-space either: the body of an empty object
  may start there. -/
  apart : ∀ a, start ≤ a → a < start + 8 * len + 8 → ¬ InSpaces spaces a
  aligned : start % 8 = 0
  addressable : start + 8 * len < 0x8000000000000000
  links : ∀ p, (p ∈ weakAmong (poolView m spaces) (regionObjects m images) ∨
      live p ∧ isWeakWordObj (m (p - 8)) = true) → ∀ a, LinkOf p (m.objLen p) a →
    WeakLinkWf m spaces (weakAmong (poolView m spaces) (regionObjects m images)) start len (m a)

theorem PoolReady.heapOk {m : Mem} {spaces : List MemorySpace} {images : List (Nat × Nat)}
    {ws : List RootWord} {live : Nat → Prop} {start len : Nat}
    (h : PoolReady m spaces images ws live start len) :
    HeapOk (InSpaces spaces) (poolView m spaces) live :=
  h.pool.heapOk h.liveMem h.code h.liveSlot

/-- A word that stood for `w`: it is relocated, its target has been copied, and it leads out of
every from-space. -/
structure Relocated (inSpace : Nat → Prop) (h : HeapView) (copied : List Nat) (φ : Nat → Nat)
    (tf : Bool) (w w' : PolyWord) : Prop where
  eq : w' = h.relocate φ tf w
  target : ∀ t, h.target tf w = some t → t ∈ copied
  outside : (tf && w'.isTagged) = true ∨ ¬ inSpace w'.addr

/-- A weak link that held `w`: it is kept, emptied, or follows its cell, and leads out of every
from-space. -/
structure Relinked (inSpace : Nat → Prop) (copied : List Nat) (φ : Nat → Nat)
    (w w' : PolyWord) : Prop where
  linked : Linked copied φ w w'
  outside : Outside inSpace w'

/-- The heap `m'`, `spaces'` is what a collection has made of `m`, `spaces`: the objects `copied` of
the old heap live on at `φ`. -/
structure Promoted (m : Mem) (spaces : List MemorySpace) (images : List (Nat × Nat))
    (copied : List Nat) (φ : Nat → Nat) (m' : Mem) (spaces' : List MemorySpace) : Prop where
  /-- The new heap consists of the copies. -/
  objs : (poolView m' spaces').objs = copied.map φ
  once : copied.Nodup
  old : ∀ b ∈ copied, b ∈ (poolView m spaces).objs
  header : ∀ b ∈ copied, m' (φ b - 8) = m (b - 8)
  /-- Copies are aligned, and addressable to their end. -/
  placed : ∀ b ∈ copied, φ b % 8 = 0 ∧ 8 ≤ φ b ∧ φ b + 8 * m.objLen b < 0x8000000000000000
  /-- An address in an object denotes, moved along, the copy of the object. -/
  denotes : ∀ b ∈ copied, ∀ a, m.Covers b a →
    (poolView m' spaces').container (φ b + (a - b)) = some (φ b) ∧
      ¬ InSpaces spaces (φ b + (a - b))
  slots : ∀ b ∈ copied, ∀ i < m.objLen b, IsSlot m b (b + 8 * i) →
    Relocated (InSpaces spaces) (poolView m spaces) copied φ true (m (b + 8 * i))
      (m' (φ b + 8 * i))
  links : ∀ b ∈ copied, isWeakWordObj (m (b - 8)) = true → ∀ i < m.objLen b,
    Relinked (InSpaces spaces) copied φ (m (b + 8 * i)) (m' (φ b + 8 * i))
  others : ∀ b ∈ copied, isWeakWordObj (m (b - 8)) = false → ∀ i < m.objLen b,
    ¬ IsSlot m b (b + 8 * i) → m' (φ b + 8 * i) = m (b + 8 * i)
  imageSlots : ∀ a, SlotAmong (poolView m spaces) (regionObjects m images) a →
    Relocated (InSpaces spaces) (poolView m spaces) copied φ true (m a) (m' a)
  imageLinks : ∀ p ∈ weakAmong (poolView m spaces) (regionObjects m images), ∀ a,
    LinkOf p (m.objLen p) a → Relinked (InSpaces spaces) copied φ (m a) (m' a)

/-! ## The visits and the trace -/

/-- The roots outside the heap, then the permanent mutable objects. -/
def visitAll {ρ : Type} (visit : Collector → Option (Collector × ρ)) (images : List (Nat × Nat))
    (c : Collector) : Option (Collector × ρ) := do
  let (c, r) ← visit c
  let c ← c.walkImages images
  some (c, r)

section Trace

variable {m : Mem} {primary : MemorySpace} {others : List MemorySpace}
variable {images : List (Nat × Nat)} {ws : List RootWord} {live : Nat → Prop}

/-- The state of a collection after the trace: everything strongly reachable is in `copied`. -/
structure Traced {ρ : Type} (m : Mem) (spaces : List MemorySpace) (images : List (Nat × Nat))
    (ws : List RootWord) (live : Nat → Prop) (out : (Nat → Nat) → ρ) (start len : Nat)
    (r : ρ) (copied : List Nat) (φ : Nat → Nat) (c : Collector) : Prop where
  inv : CheneyInv (InSpaces spaces) (poolView m spaces) live copied φ
    (fun a => ∃ b ∈ copied, IsSlot m b a) c
  image : ImageInv (InSpaces spaces) (poolView m spaces) copied φ
    (SlotAmong (poolView m spaces) (regionObjects m images)) c
  start : c.toStart = start
  len : c.toLen = len
  weak : c.weakObjects = weakAmong (poolView m spaces) (regionObjects m images) ++
    (copied.filter (fun b => isWeakWordObj (m (b - 8)))).map φ
  targets : ∀ p ∈ ws, ∀ t, (poolView m spaces).target p.1 p.2 = some t → t ∈ copied
  result : ∀ ψ, (∀ b ∈ copied, ψ b = φ b) → r = out ψ
  tracked : c.untrackedAddrs = [] ↔
    (∀ p ∈ ws, Tracked (InSpaces spaces) (poolView m spaces) p.1 p.2) ∧
    AllTracked (InSpaces spaces) (poolView m spaces) (regionObjects m images) ∧
    ∀ b ∈ copied, SlotsTracked (InSpaces spaces) (poolView m spaces) b

theorem trace_spec {ρ : Type} (env : GcEnv) {visit : Collector → Option (Collector × ρ)}
    {out : (Nat → Nat) → ρ}
    (hready : PoolReady m (primary :: others) images ws live
      (takeScratch env primary (totalCapacity primary others) m).1
      (takeScratch env primary (totalCapacity primary others) m).2.1)
    (hvisit : Visits (InSpaces (primary :: others)) (poolView m (primary :: others)) live visit ws
      out) :
    ∃ c₀ reuse c r copied φ, startCollection env m primary others = some (c₀, reuse) ∧
      traceRoots c₀ (visitAll visit images) = some (c, r) ∧
      Traced m (primary :: others) images ws live out
        (takeScratch env primary (totalCapacity primary others) m).1
        (takeScratch env primary (totalCapacity primary others) m).2.1 r copied φ c := by
  have hok := hready.heapOk
  obtain ⟨c₀, reuse, hstart, hts, htl, hw₀, hu₀, hmem₀, hi₀⟩ := startCollection_spec env hready.pool
    hok ⟨fun a h1 h2 => hready.apart a h1 (by omega), hready.addressable⟩
  have him₀ : ImageInv (InSpaces (primary :: others)) (poolView m (primary :: others)) [] id
      (fun _ => False) c₀ := ⟨fun _ h => h.elim, fun a _ ha _ => hmem₀ a ha, fun _ h => h.elim,
    fun _ h => h.elim⟩
  obtain ⟨c₁, copied₁, φ₁, hrun₁, hi₁, hext₁, hstep₁, hweak₁, htgt₁, hunt₁, hout₁⟩ :=
    hvisit [] id _ c₀ hi₀ hready.roots
  have hregions : RegionsOk (InSpaces (primary :: others)) (poolView m (primary :: others)) live c₁
      images := by
    refine ⟨hready.laid, fun r hr a h1 h2 => ?_, hready.imageSeparate, hready.imageOk⟩
    have hap := hready.imageApart r hr a h1 h2
    refine ⟨hap.1, fun hc => hap.2 ?_⟩
    rw [← hts, ← htl]
    exact (hstep₁.frame.inScratch a).1 hc
  obtain ⟨c₂, copied₂, φ₂, hrun₂, hw₂⟩ := walkImages_spec hok images copied₁ φ₁ _ c₁ hi₁
    (him₀.trace hext₁ hstep₁) hregions (fun _ _ _ _ _ h => h)
  have hscan₂ : ScanInv (InSpaces (primary :: others)) (poolView m (primary :: others)) live
      (weakAmong (poolView m (primary :: others)) (regionObjects m images)) [] copied₂ φ₂ 0 c₂ :=
    ⟨hw₂.inv.congrDone (by simp), .nil _, by rw [hw₂.weak, hweak₁, hw₀]; simp [poolView]⟩
  obtain ⟨c, copied, φ, scan, hrun, hscan, hext, hstep, hunt⟩ :=
    cheneyScan_spec hok c₂.toLen [] copied₂ φ₂ 0 c₂ hscan₂ (by omega)
  rw [List.nil_append] at hscan hext
  have hinv := hscan.inv
  rw [List.append_nil] at hinv
  have hframe := (hstep₁.frame.trans hw₂.frame).trans hstep.frame
  refine ⟨c₀, reuse, c, out φ₁, copied, φ, hstart, ?_, hinv, ?_, by rw [hframe.toStart, hts],
    by rw [hframe.toLen, htl], hscan.registered, fun p hp t ht =>
      hext.mem (hw₂.ext.mem (htgt₁ p hp t ht)), fun ψ hψ => ?_, ?_⟩
  · simp only [traceRoots, visitAll, hrun₁, hrun₂, hrun, Option.bind_eq_bind, Option.bind_some]
  · exact (hw₂.image.trace hext hstep).congrVisited (fun a => by simp [poolView])
  · refine (hout₁ ψ (fun b hb => ?_)).symm
    have hb₂ := hw₂.ext.mem hb
    rw [hψ b (hext.mem hb₂), hext.keeps b hb₂, hw₂.ext.keeps b hb]
  · have h12 := hstep₁.untracked
    have h23 := hw₂.untracked
    have h34 := hstep.untracked
    rw [hu₀] at hunt₁
    have hsplit : c.untrackedAddrs = [] ↔ c₁.untrackedAddrs = [] ∧
        c₂.untrackedAddrs = c₁.untrackedAddrs ∧ c.untrackedAddrs = c₂.untrackedAddrs := by
      constructor
      · intro hnil
        rw [hnil, List.prefix_nil] at h34
        rw [h34, List.prefix_nil] at h23
        exact ⟨h23, h34.trans h23.symm, hnil.trans h34.symm⟩
      · rintro ⟨e1, e2, e3⟩
        rw [e3, e2, e1]
    rw [hsplit, hunt₁, hw₂.tracked_iff, hunt]
    rfl

end Trace

/-! ## Permanent objects -/

section Regions

variable {m : Mem} {spaces : List MemorySpace} {images : List (Nat × Nat)} {ws : List RootWord}
variable {live : Nat → Prop} {start len : Nat}

/-- A permanent object lies, length word included, inside one region. -/
theorem PoolReady.region_bounds (h : PoolReady m spaces images ws live start len) {b : Nat}
    (hb : b ∈ regionObjects m images) : ∃ r ∈ images, b ∈ imageObjects m r ∧ r.1 + 8 ≤ b ∧
      b + 8 * m.objLen b ≤ r.1 + 8 * r.2 := by
  obtain ⟨r, hr, hbr⟩ := List.mem_flatMap.1 hb
  exact ⟨r, hr, hbr, (h.laid r hr).bounds hbr⟩

/-- Two permanent objects are the same or do not overlap. -/
theorem PoolReady.region_separate (h : PoolReady m spaces images ws live start len) {b c : Nat}
    (hb : b ∈ regionObjects m images) (hc : c ∈ regionObjects m images) :
    b = c ∨ b + 8 * m.objLen b + 8 ≤ c ∨ c + 8 * m.objLen c + 8 ≤ b := by
  obtain ⟨r, hr, hbr, hb1, hb2⟩ := h.region_bounds hb
  obtain ⟨s, hs, hcs, hc1, hc2⟩ := h.region_bounds hc
  by_cases hrs : r = s
  · subst hrs
    exact (h.laid r hr).separate hbr hcs
  · have hsep := h.imageSeparate.forall hr hs hrs
    rw [RegionApart] at hsep
    omega

theorem PoolReady.region_nodup (h : PoolReady m spaces images ws live start len) :
    (regionObjects m images).Nodup := by
  refine List.nodup_flatMap.2 ⟨fun r hr => (h.laid r hr).nodup, ?_⟩
  refine h.imageSeparate.imp_of_mem ?_
  intro r s hr hs hsep b hbr hbs
  have h1 := (h.laid r hr).bounds hbr
  have h2 := (h.laid s hs).bounds hbs
  rw [RegionApart] at hsep
  omega

end Regions

/-! ## The weak fixup of a traced heap -/

section Fixup

variable {ρ : Type} {m : Mem} {spaces : List MemorySpace} {images : List (Nat × Nat)}
variable {ws : List RootWord} {live : Nat → Prop} {out : (Nat → Nat) → ρ} {start len : Nat}
variable {r : ρ} {copied : List Nat} {φ : Nat → Nat} {c : Collector}

/-- The links of the weak objects, permanent ones and copies. -/
def WeakLink (m : Mem) (spaces : List MemorySpace) (images : List (Nat × Nat))
    (copied : List Nat) (φ : Nat → Nat) (a : Nat) : Prop :=
  (∃ p ∈ weakAmong (poolView m spaces) (regionObjects m images), LinkOf p (m.objLen p) a) ∨
  ∃ b ∈ copied, isWeakWordObj (m (b - 8)) = true ∧ LinkOf (φ b) (m.objLen b) a

/-- Where a permanent SOME cell may be: not at the length word of a permanent weak object. -/
def permCells (m : Mem) (spaces : List MemorySpace) (images : List (Nat × Nat)) (c : Collector)
    (a : Nat) : Prop :=
  ¬ c.InScratch a ∧ ∀ p ∈ weakAmong (poolView m spaces) (regionObjects m images), a ≠ p - 8

theorem mem_weakAmong {h : HeapView} {objs : List Nat} {p : Nat} :
    p ∈ weakAmong h objs ↔ p ∈ objs ∧ 0 < h.mem.objLen p ∧ isWeakWordObj (h.mem (p - 8)) = true := by
  simp [weakAmong]

/-- A word of a permanent weak object, length word included, is no visited slot. -/
theorem PoolReady.weak_unvisited (h : PoolReady m spaces images ws live start len) {p a : Nat}
    (hp : p ∈ weakAmong (poolView m spaces) (regionObjects m images)) (h1 : p ≤ a + 8)
    (h2 : a < p + 8 * m.objLen p) :
    ¬ SlotAmong (poolView m spaces) (regionObjects m images) a := by
  obtain ⟨hpo, -, hweak⟩ := mem_weakAmong.1 hp
  rintro ⟨b, hb, hpos, hs⟩
  obtain ⟨q, hq, hbq⟩ := List.mem_flatMap.1 hb
  have hno := slotRange_of_weak hweak
  obtain ⟨i, hi, rfl⟩ := hs.body ((h.imageOk q hq).code b hbq hpos)
  simp only [poolView] at hi
  rcases h.region_separate hpo hb with rfl | hlt | hlt
  · exact hno _ hs
  · omega
  · omega

/-- A word of a permanent weak object is in no from-space and not in the scratch buffer. -/
theorem PoolReady.weak_apart (h : PoolReady m spaces images ws live start len) {p a : Nat}
    (hp : p ∈ weakAmong (poolView m spaces) (regionObjects m images)) (h1 : p ≤ a + 8)
    (h2 : a < p + 8 * m.objLen p) :
    ¬ InSpaces spaces a ∧ ¬ (start ≤ a ∧ a < start + 8 * len) := by
  obtain ⟨hpo, -, -⟩ := mem_weakAmong.1 hp
  obtain ⟨q, hq, -, h3, h4⟩ := h.region_bounds hpo
  exact h.imageApart q hq a (by omega) (by omega)

variable (hready : PoolReady m spaces images ws live start len)
variable (ht : Traced m spaces images ws live out start len r copied φ c)

include hready ht

/-- A word of a permanent weak object is as it was. -/
theorem Traced.weak_mem {p a : Nat}
    (hp : p ∈ weakAmong (poolView m spaces) (regionObjects m images)) (h1 : p ≤ a + 8)
    (h2 : a < p + 8 * m.objLen p) :
    c.mem a = m a ∧ ¬ InSpaces spaces a ∧ ¬ c.InScratch a := by
  have hap := hready.weak_apart hp h1 h2
  have hscr : ¬ c.InScratch a := by
    rw [Collector.InScratch, ht.start, ht.len]
    exact hap.2
  exact ⟨ht.image.kept a hap.1 hscr (hready.weak_unvisited hp h1 h2), hap.1, hscr⟩

omit hready in
/-- A link of a copied weak object holds the word that was copied. -/
theorem Traced.link_mem {b i : Nat} (hb : b ∈ copied) (hweak : isWeakWordObj (m (b - 8)) = true)
    (hi : i < m.objLen b) : c.mem (φ b + 8 * i) = m (b + 8 * i) ∧ c.InScratch (φ b + 8 * i) ∧
      φ b + 8 * i < c.toStart + 8 * c.toUsed := by
  have hcb := ht.inv.copy_bounds hb
  have hused := ht.inv.toUsed_le
  simp only [poolView] at hcb
  refine ⟨ht.inv.todo b hb i hi (fun hd => ?_), ⟨by omega, by omega⟩, by omega⟩
  exact slotRange_of_weak hweak _ (ht.inv.doneSlot b (ht.inv.objs b hb) i hi hd).2

theorem Traced.slotsOk : SlotsOk (InSpaces spaces) (poolView m spaces) copied φ c
    (WeakLink m spaces images copied φ) ∧
    ∀ a, WeakLink m spaces images copied φ a → c.InScratch a →
      a < c.toStart + 8 * c.toUsed := by
  constructor
  · rintro a (⟨p, hp, i, hi, rfl⟩ | ⟨b, hb, hweak, i, hi, rfl⟩)
    · have hm := ht.weak_mem hready hp (a := p + 8 * i) (by omega) (by omega)
      exact ⟨hm.2.1, fun hc => absurd hc hm.2.2⟩
    · have hm := ht.link_mem hb hweak hi
      exact ⟨ht.inv.scratch.apart _ hm.2.1, fun _ => ⟨b, hb, i, hi, rfl⟩⟩
  · rintro a (⟨p, hp, i, hi, rfl⟩ | ⟨b, hb, hweak, i, hi, rfl⟩) hc
    · exact absurd hc (ht.weak_mem hready hp (a := p + 8 * i) (by omega) (by omega)).2.2
    · exact (ht.link_mem hb hweak hi).2.2

theorem Traced.scratchApart : c.ScratchApart (InSpaces spaces) := by
  rw [Collector.ScratchApart, ht.start, ht.len]
  exact hready.apart

/-- What a weak link may hold, after the trace. -/
theorem Traced.linkOk {w : PolyWord}
    (hw : WeakLinkWf m spaces (weakAmong (poolView m spaces) (regionObjects m images)) start len w) :
    LinkOk (InSpaces spaces) (poolView m spaces) (WeakLink m spaces images copied φ)
      (permCells m spaces images c) c w := by
  have hscr : ∀ a, c.InScratch a ↔ start ≤ a ∧ a < start + 8 * len := by
    intro a
    rw [Collector.InScratch, ht.start, ht.len]
  rcases hw with htag | ⟨hin, hout, hhdr, href⟩ | hobj
  · exact Or.inl htag
  · have hns := (not_congr (hscr w.addr)).2 hout
    refine Or.inr (Or.inl ⟨⟨hns, fun p hp => (hhdr p hp).1⟩, hin, hns, ?_, ?_⟩)
    · rintro (⟨p, hp, hl⟩ | ⟨b, hb, hweak, i, hi, he⟩)
      · exact (hhdr p hp).2 hl
      · exact hns (he ▸ (ht.link_mem hb hweak hi).2.1)
    · by_cases hv : SlotAmong (poolView m spaces) (regionObjects m images) w.addr
      · -- a visited slot has been relocated already
        have hmoved := ht.image.moved _ hv
        have htgt := ht.image.targets _ hv
        rw [hmoved]
        left
        cases htag : (m w.addr).isTagged with
        | true =>
          have hnone : (poolView m spaces).target true (m w.addr) = none := by
            simp [HeapView.target, htag]
          have hrel : (poolView m spaces).relocate φ true ((poolView m spaces).mem w.addr) =
            m w.addr := HeapView.relocate_of_target_none hnone
          rw [hrel]
          exact Or.inl htag
        | false =>
          rcases href with ho | hobj
          · have hno : ¬ InSpaces spaces (m w.addr).addr := ho.resolve_left (by simp [htag])
            have hrel : (poolView m spaces).relocate φ true ((poolView m spaces).mem w.addr) =
              m w.addr := HeapView.relocate_of_target_none
                (relocate_permanent ht.inv.toCopies hno)
            rw [hrel]
            exact Or.inr hno
          · have hb : (poolView m spaces).target true (m w.addr) = some (m w.addr).addr ∧
                (poolView m spaces).relocate φ true (m w.addr) =
                  PolyWord.fromAddr (φ (m w.addr).addr) :=
              relocate_body hready.heapOk htag hobj
            have hrel : (poolView m spaces).relocate φ true ((poolView m spaces).mem w.addr) =
              PolyWord.fromAddr (φ (m w.addr).addr) := hb.2
            rw [hrel]
            exact ht.inv.outside_copy (ht.scratchApart hready) (htgt _ hb.1)
      · rw [ht.image.kept _ hin hns hv]
        exact href
  · exact Or.inr (Or.inr hobj)

omit hready in
/-- The length word of a copy is that of the object. -/
theorem Traced.objLen_copy {b : Nat} (hb : b ∈ copied) : c.mem.objLen (φ b) = m.objLen b :=
  ht.inv.toCopies.objLen_copy hb

/-- The length word of a permanent weak object is as it was. -/
theorem Traced.objLen_weak {p : Nat}
    (hp : p ∈ weakAmong (poolView m spaces) (regionObjects m images)) :
    c.mem.objLen p = m.objLen p := by
  obtain ⟨hpo, hpos, -⟩ := mem_weakAmong.1 hp
  obtain ⟨q, hq, -, h3, -⟩ := hready.region_bounds hpo
  simp only [poolView] at hpos
  have hm := (ht.weak_mem hready hp (a := p - 8) (by omega) (by omega)).1
  simp only [Mem.objLen, wordBytes, hm]

/-- The registered objects are in order for the fixup. -/
theorem Traced.weakOk : WeakOk (InSpaces spaces) (poolView m spaces)
    (WeakLink m spaces images copied φ) (permCells m spaces images c) c c.weakObjects := by
  have hcopy : ∀ q ∈ (copied.filter (fun b => isWeakWordObj (m (b - 8)))).map φ,
      ∃ b ∈ copied, isWeakWordObj (m (b - 8)) = true ∧ φ b = q := by
    intro q hq
    obtain ⟨b, hb, rfl⟩ := List.mem_map.1 hq
    exact ⟨b, (List.mem_filter.1 hb).1, (List.mem_filter.1 hb).2, rfl⟩
  rw [ht.weak]
  refine ⟨List.pairwise_append.2 ⟨?_, ?_, ?_⟩, ?_, ?_⟩
  · refine (hready.region_nodup.filter _).pairwise_of_forall_ne ?_
    rintro p hp q hq hne a ⟨i, hi, rfl⟩ ⟨j, hj, he⟩
    rw [ht.objLen_weak hready hp] at hi
    rw [ht.objLen_weak hready hq] at hj
    rcases hready.region_separate (mem_weakAmong.1 hp).1 (mem_weakAmong.1 hq).1 with heq | hlt | hlt
    · exact hne heq
    · omega
    · omega
  · rw [List.pairwise_map]
    refine (ht.inv.nodup.filter _).pairwise_of_forall_ne ?_
    rintro b hb b' hb' hne a ⟨i, hi, rfl⟩ ⟨j, hj, he⟩
    have hbc := (List.mem_filter.1 hb).1
    have hbc' := (List.mem_filter.1 hb').1
    rw [ht.objLen_copy hbc] at hi
    rw [ht.objLen_copy hbc'] at hj
    have hsep := ht.inv.copy_separate hbc hbc' hne
    simp only [poolView] at hsep
    omega
  · rintro p hp q hq a ⟨i, hi, rfl⟩ ⟨j, hj, he⟩
    obtain ⟨b, hb, hweak, rfl⟩ := hcopy q hq
    rw [ht.objLen_weak hready hp] at hi
    rw [ht.objLen_copy hb] at hj
    have h1 := (ht.weak_mem hready hp (a := p + 8 * i) (by omega) (by omega)).2.2
    exact h1 (he ▸ (ht.link_mem hb hweak hj).2.1)
  · intro p hp
    rcases List.mem_append.1 hp with hp | hp
    · obtain ⟨hpo, hpos, -⟩ := mem_weakAmong.1 hp
      obtain ⟨q, hq, -, h3, -⟩ := hready.region_bounds hpo
      simp only [poolView] at hpos
      have hm := ht.weak_mem hready hp (a := p - 8) (by omega) (by omega)
      refine ⟨hm.2.1, ?_, fun hc => hc.2 p hp rfl, fun hc => absurd hc hm.2.2⟩
      rintro (⟨p', hp', i, hi, he⟩ | ⟨b, hb, hweak, i, hi, he⟩)
      · rcases hready.region_separate hpo (mem_weakAmong.1 hp').1 with heq | hlt | hlt
        · subst heq
          omega
        · omega
        · omega
      · exact hm.2.2 (he ▸ (ht.link_mem hb hweak hi).2.1)
    · obtain ⟨b, hb, hweak, rfl⟩ := hcopy p hp
      have hcb := ht.inv.copy_bounds hb
      have hused := ht.inv.toUsed_le
      have hscr : c.InScratch (φ b - 8) := ⟨by omega, by omega⟩
      refine ⟨ht.inv.scratch.apart _ hscr, ?_, fun hc => hc.1 hscr, fun _ => by omega⟩
      rintro (⟨p', hp', i, hi, he⟩ | ⟨b', hb', hweak', i, hi, he⟩)
      · have h1 := (ht.weak_mem hready hp' (a := p' + 8 * i) (by omega) (by omega)).2.2
        exact h1 (he ▸ hscr)
      · by_cases hne : b = b'
        · subst hne
          omega
        · have hsep := ht.inv.copy_separate hb hb' hne
          simp only [poolView] at hsep
          omega
  · intro p hp a ha
    rcases List.mem_append.1 hp with hp | hp
    · rw [ht.objLen_weak hready hp] at ha
      obtain ⟨i, hi, rfl⟩ := ha
      have hm := ht.weak_mem hready hp (a := p + 8 * i) (by omega) (by omega)
      refine ⟨Or.inl ⟨p, hp, i, hi, rfl⟩, ?_⟩
      rw [hm.1]
      exact ht.linkOk hready (hready.links p (Or.inl hp) _ ⟨i, hi, rfl⟩)
    · obtain ⟨b, hb, hweak, rfl⟩ := hcopy p hp
      rw [ht.objLen_copy hb] at ha
      obtain ⟨i, hi, rfl⟩ := ha
      refine ⟨Or.inr ⟨b, hb, hweak, i, hi, rfl⟩, ?_⟩
      rw [(ht.link_mem hb hweak hi).1]
      exact ht.linkOk hready (hready.links b (Or.inr ⟨ht.inv.live b hb, hweak⟩) _ ⟨i, hi, rfl⟩)

/-- The fixup settles every link, in whichever order the weak objects were recorded, and keeps what
its steps keep. -/
theorem Traced.fixup {P : (Nat → Prop) → List Nat → (Nat → Nat) → Collector → Prop}
    (hP : KeptBySteps (InSpaces spaces) (poolView m spaces) (WeakLink m spaces images copied φ)
      (permCells m spaces images c) { c with weakObjects := [] } copied φ P)
    (hp₀ : P (fun _ => False) copied φ { c with weakObjects := [] }) {bodies : List Nat}
    (hperm : bodies.Perm c.weakObjects) :
    ∃ c' copied' φ', ({ c with weakObjects := bodies } : Collector).weakFixup = some c' ∧
      WeakInv (InSpaces spaces) (poolView m spaces) (WeakLink m spaces images copied φ)
        (permCells m spaces images c) { c with weakObjects := [] } copied φ copied' φ'
        (WeakLink m spaces images copied φ) c' ∧
      P (WeakLink m spaces images copied φ) copied' φ' c' := by
  have hs : SlotsOk (InSpaces spaces) (poolView m spaces) copied φ { c with weakObjects := [] }
      (WeakLink m spaces images copied φ) := (ht.slotsOk hready).1
  have hsc₀ := ht.scratchApart hready
  have hsc : ({ c with weakObjects := [] } : Collector).ScratchApart (InSpaces spaces) := hsc₀
  have hi₀ : WeakInv (InSpaces spaces) (poolView m spaces) (WeakLink m spaces images copied φ)
      (permCells m spaces images c) { c with weakObjects := [] } copied φ copied φ
      (fun _ => False) { c with weakObjects := [] } :=
    ⟨ht.inv.toCopies.congr hready.heapOk ⟨rfl, rfl, rfl, rfl, rfl⟩ rfl (fun _ _ => rfl),
      SameFrame.refl _, Nat.le_refl _, rfl, Extends.refl _ _,
      fun b hb _ hcell => Or.inl (ht.inv.body b hb 0 (by have := hcell.1; omega)),
      fun _ _ _ _ => rfl, fun _ _ _ _ => Or.inl rfl, fun _ _ _ => rfl, fun _ h => h.elim,
      fun _ h => h.elim, fun b hb hn => absurd hb hn⟩
  have hweak : WeakOk (InSpaces spaces) (poolView m spaces) (WeakLink m spaces images copied φ)
      (permCells m spaces images c) { c with weakObjects := [] } bodies := by
    have hw := (ht.weakOk hready).perm hperm
    exact ⟨hw.disjoint, hw.header, hw.link⟩
  obtain ⟨c', copied', φ', hrun, hi, hp⟩ := weakFixupLoop_spec hready.heapOk hs
    (ht.slotsOk hready).2 hsc hP bodies _ copied φ _ hi₀ hp₀ hweak (fun _ _ _ _ h => h)
  have hall : (fun x => False ∨ ∃ p ∈ bodies,
      LinkOf p (({ c with weakObjects := [] } : Collector).mem.objLen p) x) =
      WeakLink m spaces images copied φ := by
    refine funext (fun a => propext ⟨?_, fun ha => Or.inr ?_⟩)
    · rintro (h | ⟨p, hp, ha⟩)
      · exact h.elim
      · exact (hweak.link p hp a ha).1
    · have hmem : ∀ p ∈ c.weakObjects, p ∈ bodies := fun p hp => hperm.symm.subset hp
      rw [ht.weak] at hmem
      rcases ha with ⟨p, hp, hl⟩ | ⟨b, hb, hwk, hl⟩
      · refine ⟨p, hmem _ (List.mem_append_left _ hp), ?_⟩
        rwa [ht.objLen_weak hready hp]
      · refine ⟨φ b, hmem _ (List.mem_append_right _
          (List.mem_map_of_mem (List.mem_filter.2 ⟨hb, hwk⟩))), ?_⟩
        rwa [ht.objLen_copy hb]
  rw [hall] at hi hp
  exact ⟨c', copied', φ', hrun, hi, hp⟩

/-- The weak links of the copied objects and of the permanent ones are settled. -/
theorem Traced.linked {copied' : List Nat} {φ' : Nat → Nat} {c' : Collector}
    (hi : WeakInv (InSpaces spaces) (poolView m spaces) (WeakLink m spaces images copied φ)
      (permCells m spaces images c) { c with weakObjects := [] } copied φ copied' φ'
      (WeakLink m spaces images copied φ) c') :
    (∀ b ∈ copied', isWeakWordObj (m (b - 8)) = true → ∀ i < m.objLen b,
      Relinked (InSpaces spaces) copied' φ' (m (b + 8 * i)) (c'.mem (φ' b + 8 * i))) ∧
    ∀ p ∈ weakAmong (poolView m spaces) (regionObjects m images), ∀ a, LinkOf p (m.objLen p) a →
      Relinked (InSpaces spaces) copied' φ' (m a) (c'.mem a) := by
  constructor
  · intro b hb hweak i hil
    by_cases hc : b ∈ copied
    · have hl := hi.link (φ b + 8 * i) (Or.inr ⟨b, hc, hweak, i, hil, rfl⟩)
      have hm : ({ c with weakObjects := [] } : Collector).mem (φ b + 8 * i) = m (b + 8 * i) :=
        (ht.link_mem hc hweak hil).1
      rw [hm] at hl
      rw [hi.ext.keeps b hc]
      exact ⟨hl.1, hl.2⟩
    · obtain ⟨hcell, -, hout, hl, -⟩ := hi.someCells b hb hc
      have hlen := hcell.1
      simp only [poolView] at hlen
      obtain rfl : i = 0 := by omega
      exact ⟨hl, hout⟩
  · rintro p hp a ⟨i, hil, rfl⟩
    have hl := hi.link (p + 8 * i) (Or.inl ⟨p, hp, i, hil, rfl⟩)
    have hm : ({ c with weakObjects := [] } : Collector).mem (p + 8 * i) = m (p + 8 * i) :=
      (ht.weak_mem hready hp (by omega) (by omega)).1
    rw [hm] at hl
    exact ⟨hl.1, hl.2⟩

omit hready ht in
/-- The word of an ordinary one-word object is a slot. -/
theorem isSlot_someCell {b : Nat} (hcell : IsSomeCell (poolView m spaces) b)
    (hweak : isWeakWordObj (m (b - 8)) = false) : IsSlot m b (b + 8 * 0) := by
  obtain ⟨hlen, htype⟩ := hcell
  simp only [poolView] at hlen htype
  have hne : (0#8 : BitVec 8) ≠ fByteObj ∧ (0#8 : BitVec 8) ≠ fCodeObj ∧
    (0#8 : BitVec 8) ≠ fClosureObj := by decide
  have hnw : isWeak (m (b - 8)) = false := by
    simpa [isWeakWordObj, htype, hne.1, hne.2.1, hne.2.2] using hweak
  have hrange : slotRange m b = (b, 1) := by
    simp only [Mem.objLen, wordBytes] at hlen
    simp [slotRange, wordBytes, htype, hne.1, hne.2.1, hne.2.2, hnw, hlen]
  exact ⟨0, by rw [hrange]; exact Nat.one_pos, by rw [hrange]⟩

/-- The words of the copies after the fixup. -/
theorem Traced.copied_words {copied' : List Nat} {φ' : Nat → Nat} {c' : Collector}
    (hi : WeakInv (InSpaces spaces) (poolView m spaces) (WeakLink m spaces images copied φ)
      (permCells m spaces images c) { c with weakObjects := [] } copied φ copied' φ'
      (WeakLink m spaces images copied φ) c')
    (htracked : ∀ b ∈ copied, SlotsTracked (InSpaces spaces) (poolView m spaces) b) :
    (∀ b ∈ copied', ∀ i < m.objLen b, IsSlot m b (b + 8 * i) →
      Relocated (InSpaces spaces) (poolView m spaces) copied' φ' true (m (b + 8 * i))
        (c'.mem (φ' b + 8 * i))) ∧
    ∀ b ∈ copied', isWeakWordObj (m (b - 8)) = false → ∀ i < m.objLen b,
      ¬ IsSlot m b (b + 8 * i) → c'.mem (φ' b + 8 * i) = m (b + 8 * i) := by
  -- a word of an ordinary copy is left alone by the fixup
  have hkept : ∀ b ∈ copied, isWeakWordObj (m (b - 8)) = false → ∀ i < m.objLen b,
      c'.mem (φ' b + 8 * i) = c.mem (φ b + 8 * i) := by
    intro b hb hweak i hil
    have hcb := ht.inv.copy_bounds hb
    have hused := ht.inv.toUsed_le
    simp only [poolView] at hcb
    rw [hi.ext.keeps b hb]
    refine hi.kept _ ⟨by dsimp only; omega, by dsimp only; omega⟩ (by dsimp only; omega) ?_
    rintro (⟨p, hp, j, hj, he⟩ | ⟨b', hb', hweak', j, hj, he⟩)
    · have hscr := (ht.weak_mem hready hp (a := p + 8 * j) (by omega) (by omega)).2.2
      exact hscr (he ▸ ⟨by omega, by omega⟩)
    · by_cases hne : b = b'
      · subst hne
        rw [hweak] at hweak'
        cases hweak'
      · have hsep := ht.inv.copy_separate hb hb' hne
        simp only [poolView] at hsep
        omega
  constructor
  · intro b hb i hil hs
    by_cases hc : b ∈ copied
    · have hweak : isWeakWordObj (m (b - 8)) = false :=
        Bool.eq_false_iff.2 (fun hw => slotRange_of_weak hw _ hs)
      have htgt := ht.inv.doneTarget b hc i hil ⟨b, hc, hs⟩
      have hrel : c.mem (φ b + 8 * i) = (poolView m spaces).relocate φ true (m (b + 8 * i)) :=
        ht.inv.rewritten b hc i hil ⟨b, hc, hs⟩
      have heq : c'.mem (φ' b + 8 * i) = (poolView m spaces).relocate φ' true (m (b + 8 * i)) := by
        rw [hkept b hc hweak i hil, hrel]
        exact (HeapView.relocate_congr (fun t h => hi.ext.keeps t (htgt t h))).symm
      refine ⟨heq, fun t h => hi.ext.mem (htgt t h), ?_⟩
      rw [hkept b hc hweak i hil, hrel]
      exact ht.inv.relocate_outside (ht.scratchApart hready) htgt (htracked b hc _ hs)
    · obtain ⟨hcell, hrel, hout, -, htgt⟩ := hi.someCells b hb hc
      have hlen := hcell.1
      simp only [poolView] at hlen
      obtain rfl : i = 0 := by omega
      exact ⟨hrel, htgt, hout⟩
  · intro b hb hweak i hil hs
    by_cases hc : b ∈ copied
    · rw [hkept b hc hweak i hil]
      exact ht.inv.todo b hc i hil (fun hd =>
        hs (ht.inv.doneSlot b (ht.inv.objs b hc) i hil hd).2)
    · have hcell := (hi.someCells b hb hc).1
      have hlen := hcell.1
      simp only [poolView] at hlen
      obtain rfl : i = 0 := by omega
      exact absurd (isSlot_someCell hcell hweak) hs

/-- The permanent slots after the fixup. -/
theorem Traced.image_slots {copied' : List Nat} {φ' : Nat → Nat} {c' : Collector}
    (hi : WeakInv (InSpaces spaces) (poolView m spaces) (WeakLink m spaces images copied φ)
      (permCells m spaces images c) { c with weakObjects := [] } copied φ copied' φ'
      (WeakLink m spaces images copied φ) c')
    (htracked : AllTracked (InSpaces spaces) (poolView m spaces) (regionObjects m images)) {a : Nat}
    (ha : SlotAmong (poolView m spaces) (regionObjects m images) a) :
    Relocated (InSpaces spaces) (poolView m spaces) copied' φ' true (m a) (c'.mem a) := by
  have hap := ht.image.apart a ha
  have htgt := ht.image.targets a ha
  have hmoved := ht.image.moved a ha
  obtain ⟨b, hb, hpos, hs⟩ := ha
  have hout := ht.inv.relocate_outside (ht.scratchApart hready) htgt (htracked b hb hpos a hs)
  have hns : ¬ WeakLink m spaces images copied φ a := by
    rintro (⟨p, hp, j, hj, rfl⟩ | ⟨b', hb', hweak', j, hj, rfl⟩)
    · exact hready.weak_unvisited hp (by omega) (by omega) ⟨b, hb, hpos, hs⟩
    · exact hap.2 (ht.link_mem hb' hweak' hj).2.1
  have hsame : c'.mem a = c.mem a := by
    refine (hi.outer a hap.1 hap.2 hns).resolve_right (fun hcon => hcon.2.1 ?_)
    rw [← hmoved, Bool.true_and] at hout
    exact hout
  rw [hsame, hmoved]
  refine ⟨?_, fun t h => hi.ext.mem (htgt t h), hout⟩
  exact (HeapView.relocate_congr (fun t h => hi.ext.keeps t (htgt t h))).symm

end Fixup

/-! ## The collection -/

section Collection

variable {ρ : Type} {m : Mem} {primary : MemorySpace} {others : List MemorySpace}
variable {images : List (Nat × Nat)} {ws : List RootWord} {live : Nat → Prop}
variable {visit : Collector → Option (Collector × ρ)} {out : (Nat → Nat) → ρ}

/-- Every word a collection forwards is an integer, denotes an object, or leads out of every
from-space. -/
structure AllWordsTracked (m : Mem) (spaces : List MemorySpace) (images : List (Nat × Nat))
    (ws : List RootWord) (live : Nat → Prop) : Prop where
  roots : ∀ p ∈ ws, Tracked (InSpaces spaces) (poolView m spaces) p.1 p.2
  images : AllTracked (InSpaces spaces) (poolView m spaces) (regionObjects m images)
  live : ∀ b, live b → SlotsTracked (InSpaces spaces) (poolView m spaces) b

/-- A collection of a heap that is ready for it returns when every word is tracked, and whenever it
returns, every root has followed its object and the heap has been promoted. -/
theorem collectPool_spec (env : GcEnv)
    (hready : PoolReady m (primary :: others) images ws live
      (takeScratch env primary (totalCapacity primary others) m).1
      (takeScratch env primary (totalCapacity primary others) m).2.1)
    (hvisit : Visits (InSpaces (primary :: others)) (poolView m (primary :: others)) live visit ws
      out) :
    (AllWordsTracked m (primary :: others) images ws live →
      collectPool env m primary others (visitAll visit images) ≠ none) ∧
    ∀ res r, collectPool env m primary others (visitAll visit images) = some (res, r) →
      ∃ copied φ, r = out φ ∧
        (∀ p ∈ ws, Relocated (InSpaces (primary :: others)) (poolView m (primary :: others)) copied φ
          p.1 p.2 ((poolView m (primary :: others)).relocate φ p.1 p.2)) ∧
        Promoted m (primary :: others) images copied φ res.mem res.spaces := by
  obtain ⟨c₀, reuse, c, r, copied, φ, hstart, htrace, ht⟩ := trace_spec env hready hvisit
  obtain ⟨c', copied', φ', hfix, hi, -⟩ := ht.fixup hready (P := fun _ _ _ _ => True)
    (fun _ _ _ _ _ _ _ _ _ _ _ _ _ _ => trivial) trivial (List.Perm.refl _)
  have hunt : c'.untrackedAddrs = c.untrackedAddrs := hi.untracked
  have hrun : collectPool env m primary others (visitAll visit images) =
      (promote c' reuse primary others).bind (fun res => some (res, r)) := by
    simp only [collectPool, hstart, htrace, hfix, Option.bind_eq_bind, Option.bind_some]
  constructor
  · intro hall
    have hnil : c'.untrackedAddrs = [] := by
      rw [hunt, ht.tracked]
      exact ⟨hall.roots, hall.images, fun b hb => hall.live b (ht.inv.live b hb)⟩
    simp [hrun, promote, hnil]
  · intro res r' hres
    have hnil : c'.untrackedAddrs = [] := by
      by_contra hne
      simp [hrun, promote, hne] at hres
    rw [hunt, ht.tracked] at hnil
    obtain ⟨hroots, himages, hslots⟩ := hnil
    have hsc₀ := ht.scratchApart hready
    have hsc' : c'.ScratchApart (InSpaces (primary :: others)) :=
      hi.frame.scratchApart hsc₀
    have hobjs : poolView c'.mem (primary.replaceStoragePingpong c'.toStart c'.toLen c'.toUsed
        reuse :: others.map MemorySpace.resetEmpty) = { mem := c'.mem, objs := copied'.map φ' } :=
      poolView_promoted hi.laid
    have hres' : res.mem = c'.mem ∧ poolView res.mem res.spaces =
        { mem := c'.mem, objs := copied'.map φ' } ∧ r' = r := by
      have hnil' : c'.untrackedAddrs = [] := by
        rw [hunt, ht.tracked]
        exact ⟨hroots, himages, hslots⟩
      simp only [hrun, promote, hnil', ne_eq, not_true_eq_false, if_false, Option.bind_some,
        Option.some.injEq, Prod.mk.injEq] at hres
      obtain ⟨rfl, rfl⟩ := hres
      exact ⟨rfl, hobjs, rfl⟩
    obtain ⟨hmem, hview, rfl⟩ := hres'
    have hlink := ht.linked hready hi
    have hwords := ht.copied_words hready hi hslots
    refine ⟨copied', φ', ht.result φ' hi.ext.keeps, fun p hp => ⟨rfl, fun t h =>
      hi.ext.mem (ht.targets p hp t h), hi.relocate_outside hsc' (fun t h =>
        hi.ext.mem (ht.targets p hp t h)) (hroots p hp)⟩, ?_⟩
    refine ⟨by rw [hview], hi.nodup, hi.objs, fun b hb => by rw [hmem]; exact hi.copyHeader b hb, ?_,
      ?_, ?_, ?_, ?_, ?_, ?_⟩
    · intro b hb
      have hal := hi.laid.aligned (List.mem_map_of_mem hb)
      have hstart : c'.toStart % 8 = 0 := by
        rw [hi.frame.toStart, show ({ c with weakObjects := [] } : Collector).toStart = c.toStart
          from rfl, ht.start]
        exact hready.aligned
      have hcb := hi.toCopies.copy_bounds hb
      have hused := hi.toCopies.toUsed_le
      have hadd := hi.scratch.addressable
      simp only [poolView] at hcb
      exact ⟨by omega, by omega, by omega⟩
    · intro b hb a hcov
      have hoff : a - b < 8 * max 1 (m.objLen b) := by
        have h1 := hcov.1
        have h2 := hcov.2
        omega
      have hlen : ({ mem := c'.mem, objs := copied'.map φ' } : HeapView).mem.objLen (φ' b) =
          m.objLen b := hi.toCopies.objLen_copy hb
      refine ⟨?_, (hi.addr_outside hsc' hb hoff).2⟩
      rw [hview]
      refine (HeapView.container_eq_some (fun p hp q hq => hi.laid.separate hp hq) (fun p hp => ?_)).2
        ⟨List.mem_map_of_mem hb, by omega, ?_⟩
      · have := (hi.laid.bounds hp).1
        omega
      · rw [hlen]
        omega
    · rw [hmem]
      exact hwords.1
    · rw [hmem]
      exact hlink.1
    · rw [hmem]
      exact hwords.2
    · intro a ha
      rw [hmem]
      exact ht.image_slots hready hi himages ha
    · rw [hmem]
      exact hlink.2

end Collection

/-! ## A collection seen from outside -/

/-- The heaps before and after a collection, the retired from-spaces, the survivors, and where each
of them has gone. -/
structure Motion where
  before : HeapView
  after : HeapView
  retired : Nat → Prop
  survivors : List Nat
  place : Nat → Nat

/-- A slot that held `w` holds `w'` now: it denotes the copy of the object it denoted, at the same
offset, and leads into no retired space. -/
structure Motion.Follows (μ : Motion) (tf : Bool) (w w' : PolyWord) : Prop where
  denotes : ∀ t, μ.before.target tf w = some t → t ∈ μ.survivors ∧
    μ.after.target tf w' = some (μ.place t) ∧ w'.addr = μ.place t + (w.addr - t)
  kept : μ.before.target tf w = none → w' = w
  outside : (tf && w'.isTagged) = true ∨ ¬ μ.retired w'.addr

section Motion

variable {m m' : Mem} {spaces spaces' : List MemorySpace} {images : List (Nat × Nat)}
variable {copied : List Nat} {φ : Nat → Nat}

/-- The collection of `m`, `spaces` that has moved the objects `copied` to `φ`. -/
def motion (m : Mem) (spaces : List MemorySpace) (copied : List Nat) (φ : Nat → Nat) (m' : Mem)
    (spaces' : List MemorySpace) : Motion :=
  { before := poolView m spaces, after := poolView m' spaces', retired := InSpaces spaces
    survivors := copied, place := φ }

theorem Promoted.follows (hp : Promoted m spaces images copied φ m' spaces')
    (haligned : ∀ b ∈ (poolView m spaces).objs, b % 8 = 0) {tf : Bool} {w w' : PolyWord}
    (hr : Relocated (InSpaces spaces) (poolView m spaces) copied φ tf w w') :
    (motion m spaces copied φ m' spaces').Follows tf w w' := by
  refine ⟨fun t ht => ?_, fun hnone => ?_, hr.outside⟩
  · have ht' : (poolView m spaces).target tf w = some t := ht
    have htc := hr.target t ht'
    have hcov : m.Covers t w.addr := HeapView.container_covers (HeapView.target_container ht')
    have hplaced := hp.placed t htc
    have hlo := hcov.1
    have hhi := hcov.2
    have haddr : w'.addr = φ t + (w.addr - t) := by
      rw [hr.eq, HeapView.relocate_of_target ht']
      exact PolyWord.addr_fromAddr (by omega)
    refine ⟨htc, ?_, haddr⟩
    have htag : (tf && w'.isTagged) = false := by
      have hw : (tf && w.isTagged) = false := by
        by_contra hcon
        rw [Bool.not_eq_false] at hcon
        rw [HeapView.target, if_pos hcon] at ht'
        cases ht'
      cases tf with
      | false => rfl
      | true =>
        rw [Bool.true_and, PolyWord.isTagged_eq, decide_eq_false_iff_not] at hw ⊢
        have hal := haligned t (HeapView.target_mem ht')
        omega
    simp only [HeapView.target, motion, htag, Bool.false_eq_true, if_false, haddr]
    exact (hp.denotes t htc w.addr hcov).1
  · rw [hr.eq]
    exact HeapView.relocate_of_target_none hnone

end Motion
