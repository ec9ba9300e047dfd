import PolymlRs.Gc.Forward

set_option autoImplicit false

/-! # Looking up body starts

What the start bitmap is for: in a pool whose spaces have been filled by allocations, of any lengths,
every address of an object leads back to its body. One object has no address in its space: one
without words, allocated when only the word for its length word is left (`startsResolve_iff`). -/

namespace MemorySpace

/-- `s` after the allocations `objs`, each given by its body and its length. -/
inductive Allocated : MemorySpace → List (Nat × Nat) → Prop
  | empty (s : MemorySpace) (hused : s.used = 0) : Allocated s []
  | alloc {s s' : MemorySpace} {objs : List (Nat × Nat)} (n b : Nat) (h : Allocated s objs)
      (ha : s.tryAlloc n = some (s', b)) : Allocated s' (objs ++ [(b, n)])

theorem tryAlloc_eq_some {s s' : MemorySpace} {n b : Nat} (h : s.tryAlloc n = some (s', b)) :
    s' = { s with used := s.used + 1 + n } ∧ b = s.start + 8 * s.used + 8 ∧
      s.used + 1 + n ≤ s.capacity := by
  unfold tryAlloc at h
  simp only [wordBytes] at h
  split at h
  · cases h
  · rename_i hroom
    simp only [Option.some.injEq, Prod.mk.injEq] at h
    exact ⟨h.1.symm, by rw [← h.2, Nat.mul_succ, Nat.add_assoc], Nat.le_of_not_lt hroom⟩

namespace Allocated

variable {s : MemorySpace} {objs : List (Nat × Nat)}

theorem used_le (h : Allocated s objs) : s.used ≤ s.capacity := by
  induction h with
  | empty s hused => simp [hused]
  | alloc n b _ ha _ =>
    obtain ⟨rfl, -, hroom⟩ := tryAlloc_eq_some ha
    exact hroom

/-- The objects fill the used part of the space. -/
theorem objectsIn (h : Allocated s objs) {m : Mem}
    (hm : ∀ o ∈ objs, lengthOf (m (o.1 - 8)) = o.2) :
    ObjectsIn m s.start (objs.map Prod.fst) (s.start + 8 * s.used) := by
  induction h with
  | empty s hused =>
    rw [hused]
    exact .nil _
  | @alloc s s' objs n b _ ha ih =>
    obtain ⟨rfl, rfl, -⟩ := tryAlloc_eq_some ha
    have hlast : lengthOf (m (s.start + 8 * s.used)) = n :=
      hm (s.start + 8 * s.used + 8, n) (by simp)
    have hone : ObjectsIn m (s.start + 8 * s.used) [s.start + 8 * s.used + 8]
        (s.start + 8 * (s.used + 1 + n)) := by
      have hnil := ObjectsIn.nil (m := m)
        (s.start + 8 * s.used + 8 + 8 * lengthOf (m (s.start + 8 * s.used)))
      have hend : s.start + 8 * s.used + 8 + 8 * lengthOf (m (s.start + 8 * s.used)) =
          s.start + 8 * (s.used + 1 + n) := by
        rw [hlast]
        omega
      exact .cons _ _ _ (hend ▸ hnil)
    rw [List.map_append]
    exact (ih (fun o ho => hm o (List.mem_append_left _ ho))).append hone

end Allocated

end MemorySpace

/-- `a` is an address of the object: of its body, or its very start. -/
def AddressOf (o : Nat × Nat) (a : Nat) : Prop := o.1 ≤ a ∧ (a < o.1 + 8 * o.2 ∨ a = o.1)

/-- A pool of spaces with what has been allocated in each; `m` holds the length words. -/
structure AllocatedPool (m : Mem) (pool : List (MemorySpace × List (Nat × Nat))) : Prop where
  apart : (pool.map Prod.fst).Pairwise MemorySpace.Apart
  aligned : ∀ p ∈ pool, p.1.start % 8 = 0
  addressable : ∀ p ∈ pool, p.1.limit ≤ 0x8000000000000000
  allocated : ∀ p ∈ pool, p.1.Allocated p.2
  lengths : ∀ p ∈ pool, ∀ o ∈ p.2, lengthOf (m (o.1 - 8)) = o.2
  valid : ∀ p ∈ pool, ∀ o ∈ p.2, isTombstone (m (o.1 - 8)) = false

/-! ## The lookup of the parallel collector -/

/-- The header of an object that a worker has claimed and not published yet. -/
def busy : PolyWord := tombBits

/-- `object_len_via_header_atomic`: `loads` are the words that the loads of the header give, one
after the other. Nothing while the header is busy. -/
def objectLenAtomic (m : Mem) : List PolyWord → Option Nat
  | [] => none
  | w :: loads =>
    if isTombstone w = false then some (lengthOf w)
    else if w ≠ busy then some (lengthOf (m (forwardPtr w - wordBytes)))
    else objectLenAtomic m loads

/-- What the loads of the header of an object of length `n` may give: the length word, as long as
nobody has claimed the object; busy; the address of the copy. -/
inductive HeaderLoads (m : Mem) (n : Nat) : List PolyWord → Prop
  | free (w : PolyWord) (loads : List PolyWord) (hw : isTombstone w = false)
      (hn : lengthOf w = n) : HeaderLoads m n (w :: loads)
  | claimed (loads : List PolyWord) (h : HeaderLoads m n loads) : HeaderLoads m n (busy :: loads)
  | forwarded (p : Nat) (loads : List PolyWord) (hp : 0 < p) (hlt : p < 0x8000000000000000)
      (hn : lengthOf (m (p - 8)) = n) : HeaderLoads m n (tombstone p :: loads)

theorem tombstone_ne_busy {p : Nat} (hp : 0 < p) (hlt : p < 0x8000000000000000) :
    tombstone p ≠ busy := by
  intro h
  have hfwd := forwardPtr_tombstone hlt
  rw [h] at hfwd
  have hzero : forwardPtr busy = 0 := by decide
  exact Nat.ne_of_gt hp (hfwd.symm.trans hzero)

theorem HeaderLoads.settled {m : Mem} {n : Nat} {loads : List PolyWord} (h : HeaderLoads m n loads) :
    objectLenAtomic m loads = some n := by
  induction h with
  | free w loads hw hn => simp [objectLenAtomic, hw, hn]
  | claimed loads _ ih =>
    have htomb : isTombstone busy = true := by decide
    simpa [objectLenAtomic, htomb] using ih
  | forwarded p loads hp hlt hn =>
    simp [objectLenAtomic, isTombstone_tombstone, tombstone_ne_busy hp hlt, forwardPtr_tombstone hlt,
      wordBytes, hn]

namespace Collector

/-- `scanBack` with the length of the object at each start bit given by `len`. -/
def scanBackAtomic (bits : Bitmap) (len : Nat → Option Nat) (rangeStart bitBase addr : Nat) :
    Nat → Option (Option Nat)
  | 0 => some none
  | k + 1 =>
    match bits.test (bitBase + k) with
    | none => none
    | some false => scanBackAtomic bits len rangeStart bitBase addr k
    | some true =>
      let start := rangeStart + k * wordBytes
      match len start with
      | none => none
      | some n =>
        if addr < saturatingAdd start (saturatingMul n wordBytes) then some (some start)
        else if n > 0 then some none
        else scanBackAtomic bits len rangeStart bitBase addr k

/-- The parallel `find_body_start`; `loads` gives what the loads of each header see. -/
def findBodyStartAtomic (c : Collector) (loads : Nat → List PolyWord) (addr : Nat) :
    Option (Option Nat) :=
  match rangeAt c.fromRanges addr with
  | none => some none
  | some (k, rangeStart, _) =>
    let bitBase := c.rangeBitBase.getD k 0
    let wordIdx := (addr - rangeStart) / wordBytes
    match c.startBits.test (bitBase + wordIdx) with
    | none => none
    | some true => some (some (rangeStart + wordIdx * wordBytes))
    | some false =>
      scanBackAtomic c.startBits (fun start => objectLenAtomic c.mem (loads start)) rangeStart bitBase
        addr wordIdx

/-- Where the loads of every header see the length of the object in `m`, so does the serial scan. -/
theorem scanBackAtomic_eq {bits : Bitmap} {m : Mem} {len : Nat → Option Nat}
    {rangeStart bitBase addr : Nat} :
    ∀ k, (∀ i < k, bits.test (bitBase + i) = some true →
      len (rangeStart + i * wordBytes) = some (objectLenViaHeader m (rangeStart + i * wordBytes))) →
    scanBackAtomic bits len rangeStart bitBase addr k = scanBack bits m rangeStart bitBase addr k := by
  intro k
  induction k with
  | zero => exact fun _ => rfl
  | succ k ih =>
    intro hlen
    have ih := ih (fun i hi => hlen i (Nat.lt_succ_of_lt hi))
    have hk := hlen k (Nat.lt_succ_self k)
    rw [scanBackAtomic, scanBack]
    cases hbit : bits.test (bitBase + k) with
    | none => rfl
    | some b =>
      cases b with
      | false => exact ih
      | true => simp only [hk hbit, ih]

end Collector

/-- A worker finds the same body start, when the loads of the headers see the lengths in `m`. -/
theorem StartTable.findBodyStartAtomic_eq {inSpace : Nat → Prop} {h : HeapView} {c : Collector}
    (ht : StartTable inSpace h c) {loads : Nat → List PolyWord} {m : Mem}
    (hlen : ∀ b ∈ h.objs, objectLenAtomic c.mem (loads b) = some (Collector.objectLenViaHeader m b))
    {a : Nat} (ha : inSpace a) :
    c.findBodyStartAtomic loads a = ({ c with mem := m } : Collector).findBodyStart a := by
  obtain ⟨k, r, hr, hra, -, hbits⟩ := ht.bits a ha
  have hword : r.1 + 8 * ((a - r.1) / 8) ≤ a := by omega
  simp only [Collector.findBodyStartAtomic, Collector.findBodyStart, hr, wordBytes, hbits _ hword]
  by_cases hmem : r.1 + 8 * ((a - r.1) / 8) ∈ h.objs
  · simp only [decide_eq_true hmem]
  · simp only [decide_eq_false hmem]
    refine Collector.scanBackAtomic_eq _ (fun i hi hbit => ?_)
    rw [hbits i (by omega), Option.some.injEq, decide_eq_true_iff] at hbit
    rw [wordBytes, Nat.mul_comm i 8]
    exact hlen _ hbit

/-! ## Allocated pools -/

/-- Objects without words stay clear of the end of their space. -/
def BodiesInside (pool : List (MemorySpace × List (Nat × Nat))) : Prop :=
  ∀ p ∈ pool, ∀ o ∈ p.2, o.2 = 0 → o.1 ≠ p.1.limit

/-- The tables of the collector `c` are those of the pre-pass over `spaces`. -/
structure Tables (spaces : List MemorySpace) (bits : Bitmap) (c : Collector) : Prop where
  fromRanges : c.fromRanges = (sortedRanges spaces).map (fun r => (r.1, r.2.1))
  rangeBitBase : c.rangeBitBase = (rangeBitBases (sortedRanges spaces) 0).1
  startBits : c.startBits = bits

/-- The pre-pass over each space sets only bits of its own run, whatever bits are set already, and
reads only words in use. -/
structure PrepassInside (m : Mem) (spaces : List MemorySpace) : Prop where
  bits : ∀ k r, (sortedRanges spaces)[k]? = some r → ∀ s, spaces.find? (fun u => u.start = r.1) = some s →
    ∀ bits : Bitmap, (rangeBitBases (sortedRanges spaces) 0).2 ≤ bits.size →
    ∃ bits', prepassSpace m s.start s.used ((rangeBitBases (sortedRanges spaces) 0).1.getD k 0) s.used 0
        bits = some bits' ∧ ∀ j, bits'.bit j = true → bits.bit j = true ∨
          (rangeBitBases (sortedRanges spaces) 0).1.getD k 0 ≤ j ∧
            j < (rangeBitBases (sortedRanges spaces) 0).1.getD k 0 + r.2.2
  words : ∀ s ∈ spaces, ∀ m' : Mem, (∀ i < s.used, m' (s.start + 8 * i) = m (s.start + 8 * i)) →
    ∀ base bits, prepassSpace m' s.start s.used base s.used 0 bits =
      prepassSpace m s.start s.used base s.used 0 bits

/-- The pre-pass stays inside the bitmap and the spaces, and its bitmap leads from every address of
an object to the object, in its space: in every state of a serial collection, which finds the length
of the object in its header or at its copy, and in every state of a parallel one, whose workers may
find the header busy. -/
structure StartsResolve (m : Mem) (pool : List (MemorySpace × List (Nat × Nat))) : Prop where
  inside : PrepassInside m (pool.map Prod.fst)
  resolve : ∃ bits, prepass m (pool.map Prod.fst) (sortedRanges (pool.map Prod.fst))
      (rangeBitBases (sortedRanges (pool.map Prod.fst)) 0).1
      (Bitmap.ofBits (rangeBitBases (sortedRanges (pool.map Prod.fst)) 0).2) = some bits ∧
    ∀ c, Tables (pool.map Prod.fst) bits c → ∀ p ∈ pool, ∀ o ∈ p.2, ∀ a, AddressOf o a →
      (∃ k, rangeAt c.fromRanges a = some (k, p.1.start, p.1.limit)) ∧
      ((∀ q ∈ pool, ∀ u ∈ q.2, Collector.objectLenViaHeader c.mem u.1 = u.2) →
        c.findBodyStart a = some (some o.1)) ∧
      ∀ loads : Nat → List PolyWord, (∀ q ∈ pool, ∀ u ∈ q.2, HeaderLoads c.mem u.2 (loads u.1)) →
        c.findBodyStartAtomic loads a = some (some o.1)

/-- The walk reads no word behind the ones in use. -/
theorem prepassSpace_congr {m m' : Mem} {start used base : Nat}
    (h : ∀ i < used, m' (start + 8 * i) = m (start + 8 * i)) :
    ∀ fuel i bits, prepassSpace m' start used base fuel i bits = prepassSpace m start used base fuel i
      bits := by
  intro fuel
  induction fuel with
  | zero => exact fun _ _ => rfl
  | succ fuel ih =>
    intro i bits
    simp only [prepassSpace, wordBytes]
    by_cases hi : i < used
    · simp only [h i hi, ih]
    · simp only [if_neg hi]

namespace AllocatedPool

variable {m : Mem} {pool : List (MemorySpace × List (Nat × Nat))}

theorem objects (h : AllocatedPool m pool) {p : MemorySpace × List (Nat × Nat)} (hp : p ∈ pool) :
    objectsOf m p.1 = p.2.map Prod.fst :=
  objectsOf_eq ((h.allocated p hp).objectsIn (h.lengths p hp))

theorem mem_objects (h : AllocatedPool m pool) {p : MemorySpace × List (Nat × Nat)} (hp : p ∈ pool)
    {o : Nat × Nat} (ho : o ∈ p.2) : o.1 ∈ objectsOf m p.1 := by
  rw [h.objects hp]
  exact List.mem_map_of_mem ho

theorem objLen (h : AllocatedPool m pool) {p : MemorySpace × List (Nat × Nat)} (hp : p ∈ pool)
    {o : Nat × Nat} (ho : o ∈ p.2) : m.objLen o.1 = o.2 := h.lengths p hp o ho

/-- An object ends where its space does, or earlier. -/
theorem bounds (h : AllocatedPool m pool) {p : MemorySpace × List (Nat × Nat)} (hp : p ∈ pool)
    {o : Nat × Nat} (ho : o ∈ p.2) : p.1.start + 8 ≤ o.1 ∧ o.1 + 8 * o.2 ≤ p.1.limit := by
  have hin := (h.allocated p hp).objectsIn (h.lengths p hp)
  have hb := hin.bounds (List.mem_map_of_mem ho)
  have hused := (h.allocated p hp).used_le
  rw [h.objLen hp ho] at hb
  refine ⟨hb.1, hb.2.trans ?_⟩
  simp only [MemorySpace.limit, wordBytes]
  exact Nat.add_le_add_left (Nat.mul_le_mul_left 8 hused) _

theorem poolOk (h : AllocatedPool m pool) (hin : BodiesInside pool) : PoolOk m (pool.map Prod.fst) := by
  refine ⟨h.apart, fun s hs => ?_⟩
  obtain ⟨p, hp, rfl⟩ := List.mem_map.1 hs
  have hobj : ∀ b ∈ objectsOf m p.1, ∃ o ∈ p.2, o.1 = b := by
    intro b hb
    rw [h.objects hp] at hb
    exact List.mem_map.1 hb
  refine
    { usedLe := (h.allocated p hp).used_le
      aligned := h.aligned p hp
      addressable := h.addressable p hp
      parsed := ?_
      inside := ?_
      valid := ?_ }
  · rw [h.objects hp]
    exact (h.allocated p hp).objectsIn (h.lengths p hp)
  · intro b hb
    obtain ⟨o, ho, rfl⟩ := hobj b hb
    have hbounds := h.bounds hp ho
    by_cases hzero : o.2 = 0
    · exact Nat.lt_of_le_of_ne (Nat.le_of_add_right_le hbounds.2) (hin p hp o ho hzero)
    · omega
  · intro b hb
    obtain ⟨o, ho, rfl⟩ := hobj b hb
    exact h.valid p hp o ho

end AllocatedPool

/-- The pre-pass of a well-formed pool stays inside. -/
theorem prepassInside_of_ok {m : Mem} {spaces : List MemorySpace} (h : PoolOk m spaces) :
    PrepassInside m spaces := by
  constructor
  · intro k r hk s hs bits hsize
    obtain ⟨u, hu, rfl⟩ := mem_sortedRanges.1 (List.mem_of_getElem? hk)
    obtain ⟨t, ht, hf, hstart, hcap, -, -⟩ := found_space h hu
    obtain rfl : t = s := Option.some.inj (hf.symm.trans hs)
    have hok := h.spaceOk t ht
    have hlt := rangeBitBases_lt (sortedRanges spaces) 0 k hk
    have hbit : ∀ b ∈ objectsOf m t, (b - t.start) / 8 < u.capacity := by
      intro b hb
      have h1 := hok.limit_bounds hb
      have h2 := hok.parsed.aligned hb
      simp only [MemorySpace.limit, wordBytes] at h1
      omega
    obtain ⟨bits', hrun, -, hbits⟩ := prepassSpace_spec t.start t.used
      ((rangeBitBases (sortedRanges spaces) 0).1.getD k 0) t.used 0 (objectsOf m t) bits
      (by simpa using hok.parsed) (by simp) (fun b hb => by have := hbit b hb; simp only at hlt; omega)
    refine ⟨bits', hrun, fun j hj => ((hbits j).1 hj).imp id ?_⟩
    rintro ⟨i, rfl, hi⟩
    have := hbit _ hi
    exact ⟨Nat.le_add_right .., by simp only; omega⟩
  · exact fun s _ m' hm base bits => prepassSpace_congr hm _ _ _

/-- Every address of every object is resolved, unless an object without words ends with its space. -/
theorem startsResolve_iff {m : Mem} {pool : List (MemorySpace × List (Nat × Nat))}
    (h : AllocatedPool m pool) : StartsResolve m pool ↔ BodiesInside pool := by
  constructor
  · intro hres p hp o ho hzero hlimit
    obtain ⟨bits, -, hall⟩ := hres.resolve
    -- any collector with the tables of the pre-pass: the range of the object does not reach it
    have hc : Tables (pool.map Prod.fst) bits
        { fromRanges := (sortedRanges (pool.map Prod.fst)).map (fun r => (r.1, r.2.1))
          rangeBitBase := (rangeBitBases (sortedRanges (pool.map Prod.fst)) 0).1
          startBits := bits, toStart := 0, toLen := 0, toUsed := 0, weakObjects := []
          untrackedAddrs := [], mem := m } := ⟨rfl, rfl, rfl⟩
    obtain ⟨⟨k, hk⟩, -⟩ := hall _ hc p hp o ho o.1 ⟨Nat.le_refl _, Or.inr rfl⟩
    have hlt := (rangeAt_eq_some hk).2.2
    rw [hlimit] at hlt
    exact Nat.lt_irrefl _ hlt
  · intro hin
    have hok := h.poolOk hin
    obtain ⟨bits, hrun, htable⟩ := prepass_table hok
    refine ⟨prepassInside_of_ok hok, bits, hrun, fun c hc p hp o ho a ha => ?_⟩
    have ht := htable c hc.fromRanges hc.rangeBitBase hc.startBits
    have hs : p.1 ∈ pool.map Prod.fst := List.mem_map_of_mem hp
    have hmem : o.1 ∈ (poolView m (pool.map Prod.fst)).objs := mem_poolView.2 ⟨p.1, hs, h.mem_objects hp ho⟩
    have hcov : m.Covers o.1 a := by
      refine ⟨ha.1, ?_⟩
      rw [h.objLen hp ho]
      rcases ha.2 with hlt | rfl
      · omega
      · omega
    have hbounds := (hok.spaceOk p.1 hs).covers_bounds (h.mem_objects hp ho) hcov
    have hmax : a < usizeMax := by
      have haddr := h.addressable p hp
      simp only [usizeMax]
      omega
    have hlens : ∀ b ∈ (poolView m (pool.map Prod.fst)).objs, ∃ q ∈ pool, ∃ u ∈ q.2, u.1 = b := by
      intro b hb
      obtain ⟨s, hs, hbs⟩ := mem_poolView.1 hb
      obtain ⟨q, hq, rfl⟩ := List.mem_map.1 hs
      rw [h.objects hq] at hbs
      obtain ⟨u, hu, rfl⟩ := List.mem_map.1 hbs
      exact ⟨q, hq, u, hu, rfl⟩
    have hheader : ∀ q ∈ pool, ∀ u ∈ q.2, Collector.objectLenViaHeader m u.1 = u.2 := by
      intro q hq u hu
      simp only [Collector.objectLenViaHeader, wordBytes, h.valid q hq u hu]
      exact h.lengths q hq u hu
    refine ⟨?_, fun hkept => ?_, fun loads hloads => ?_⟩
    · obtain ⟨k, hk⟩ := List.getElem?_of_mem (mem_sortedRanges.2 ⟨p.1, hs, rfl⟩)
      have hk' : ((sortedRanges (pool.map Prod.fst)).map (fun r => (r.1, r.2.1)))[k]? =
          some (p.1.start, p.1.limit) := by
        rw [List.getElem?_map, hk]
        rfl
      rw [hc.fromRanges]
      exact ⟨k, rangeAt_of_mem (orderedRanges_sorted h.apart) hk' (by omega) hbounds.2.2⟩
    · exact ht.findBodyStart hok.separate hmem hcov hmax
        ((hkept p hp o ho).trans (h.objLen hp ho).symm)
    · rw [ht.findBodyStartAtomic_eq (m := m) (fun b hb => ?_) (ht.covered _ hmem a hcov)]
      · have htm := htable { c with mem := m } hc.fromRanges hc.rangeBitBase hc.startBits
        exact htm.findBodyStart hok.separate hmem hcov hmax
          ((hheader p hp o ho).trans (h.objLen hp ho).symm)
      · obtain ⟨q, hq, u, hu, rfl⟩ := hlens b hb
        rw [hheader q hq u hu]
        exact (hloads q hq u hu).settled

/-- Two full spaces, one behind the other; the first holds an object without words and one of two. -/
def adjacentPool : List (MemorySpace × List (Nat × Nat)) :=
  [({ start := 4096, capacity := 4, used := 4, spare := none }, [(4104, 0), (4112, 2)]),
    ({ start := 4128, capacity := 2, used := 2, spare := none }, [(4136, 1)])]

def adjacentMem : Mem := fun a => if a = 4104 then 2#64 else if a = 4128 then 1#64 else 0#64

theorem startsResolve_iff_adjacent : StartsResolve adjacentMem adjacentPool := by
  have hfirst : MemorySpace.Allocated { start := 4096, capacity := 4, used := 4, spare := none }
      [(4104, 0), (4112, 2)] :=
    .alloc 2 4112 (.alloc 0 4104
      (.empty { start := 4096, capacity := 4, used := 0, spare := none } rfl) rfl) rfl
  have hsecond : MemorySpace.Allocated { start := 4128, capacity := 2, used := 2, spare := none }
      [(4136, 1)] :=
    .alloc 1 4136 (.empty { start := 4128, capacity := 2, used := 0, spare := none } rfl) rfl
  have hpool : AllocatedPool adjacentMem adjacentPool := by
    refine ⟨?_, by decide, by decide, ?_, by decide, by decide⟩
    · simp [adjacentPool, MemorySpace.Apart, MemorySpace.limit, wordBytes]
    · simp [adjacentPool, hfirst, hsecond]
  exact (startsResolve_iff hpool).2 (by unfold BodiesInside; decide)

/-- A space of 64 words that ends with an object without words. -/
def fullPool : List (MemorySpace × List (Nat × Nat)) :=
  [({ start := 4096, capacity := 64, used := 64, spare := none }, [(4104, 62), (4608, 0)])]

def fullMem : Mem := fun a => if a = 4096 then 62#64 else 0#64

/-- The bit of the object is past the bitmap: the pre-pass panics. -/
theorem not_startsResolve : AllocatedPool fullMem fullPool ∧
    prepass fullMem (fullPool.map Prod.fst) (sortedRanges (fullPool.map Prod.fst))
      (rangeBitBases (sortedRanges (fullPool.map Prod.fst)) 0).1
      (Bitmap.ofBits (rangeBitBases (sortedRanges (fullPool.map Prod.fst)) 0).2) = none ∧
    ¬ StartsResolve fullMem fullPool := by
  have hfull : MemorySpace.Allocated { start := 4096, capacity := 64, used := 64, spare := none }
      [(4104, 62), (4608, 0)] :=
    .alloc 0 4608 (.alloc 62 4104
      (.empty { start := 4096, capacity := 64, used := 0, spare := none } rfl) rfl) rfl
  have hnone : prepass fullMem (fullPool.map Prod.fst) (sortedRanges (fullPool.map Prod.fst))
      (rangeBitBases (sortedRanges (fullPool.map Prod.fst)) 0).1
      (Bitmap.ofBits (rangeBitBases (sortedRanges (fullPool.map Prod.fst)) 0).2) = none := by
    rfl
  refine ⟨⟨?_, by decide, by decide, ?_, by decide, by decide⟩, hnone, fun h => ?_⟩
  · simp [fullPool]
  · simp [fullPool, hfull]
  · obtain ⟨bits, hbits, -⟩ := h.resolve
    rw [hnone] at hbits
    cases hbits
