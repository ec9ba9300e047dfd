import PolymlRs.Gc.Forward

set_option autoImplicit false

/-! # The Cheney loop

Scanning a copied object forwards exactly the traced slots of the object it is a copy of; the loop
over to-space scans every copied object once, in copy order, and stops when it has caught up. The
invariant of the loop is a split of the copied objects into those scanned (all their slots are
rewritten) and those still to be scanned (none is). -/

/-! ## Traced slots -/

section Slots

variable {h : HeapView} {b : Nat}

/-- The constants of a code object are those of its copy, moved along. -/
theorem constSegmentForCode_shift {m' : Mem} {p : Nat} (hc : h.CodeOk b)
    (hh : m' (p - 8) = h.mem (b - 8))
    (hlast : m' (p + 8 * (h.mem.objLen b - 1)) = h.mem (b + 8 * (h.mem.objLen b - 1)))
    (hcount : m' ((constSegmentForCode h.mem b).1 - b + p - 8) =
      h.mem ((constSegmentForCode h.mem b).1 - 8)) :
    constSegmentForCode m' p =
      ((constSegmentForCode h.mem b).1 - b + p, (constSegmentForCode h.mem b).2) := by
  obtain ⟨hlen, hcp, -, -⟩ := hc
  have hfst : (constSegmentForCode m' p).1 = (constSegmentForCode h.mem b).1 - b + p := by
    simp only [constSegmentForCode, wordBytes, hh]
    simp only [constSegmentForCode, wordBytes] at hcp ⊢
    simp only [Mem.objLen, wordBytes] at hlast
    rw [hlast]
    omega
  have hsnd : (constSegmentForCode m' p).2 = (constSegmentForCode h.mem b).2 := by
    have : (constSegmentForCode m' p).2 = (m' ((constSegmentForCode m' p).1 - wordBytes)).toNat :=
      rfl
    rw [this, hfst, wordBytes, hcount]
    rfl
  exact Prod.ext hfst hsnd

/-- Slots lie in the body, at word boundaries, and so does the whole traced range. -/
theorem slotRange_body (hc : typeOf (h.mem (b - 8)) = fCodeObj → h.CodeOk b) :
    ∃ k, (slotRange h.mem b).1 = b + 8 * k ∧ k + (slotRange h.mem b).2 ≤ h.mem.objLen b := by
  simp only [slotRange, Mem.objLen, wordBytes]
  split
  · exact ⟨0, by simp⟩
  · split
    · rename_i hcode
      obtain ⟨hlen, hcp, hal, hle⟩ := hc hcode
      simp only [Mem.objLen, wordBytes] at hlen hle
      exact ⟨((constSegmentForCode h.mem b).1 - b) / 8, by omega, by omega⟩
    · split
      · exact ⟨0, by simp⟩
      · split
        · exact ⟨0, by simp⟩
        · exact ⟨0, by simp⟩

theorem IsSlot.body (hc : typeOf (h.mem (b - 8)) = fCodeObj → h.CodeOk b) {a : Nat}
    (hs : IsSlot h.mem b a) : ∃ i < h.mem.objLen b, a = b + 8 * i := by
  obtain ⟨j, hj, rfl⟩ := hs
  obtain ⟨k, hk, hle⟩ := slotRange_body hc
  exact ⟨k + j, by omega, by omega⟩

/-- The traced range depends on nothing but the length word and the words that are not traced. -/
theorem slotRange_shift {m' : Mem} {p : Nat}
    (hc : typeOf (h.mem (b - 8)) = fCodeObj → h.CodeOk b) (hh : m' (p - 8) = h.mem (b - 8))
    (hbody : ∀ i < h.mem.objLen b, ¬ IsSlot h.mem b (b + 8 * i) →
      m' (p + 8 * i) = h.mem (b + 8 * i)) :
    slotRange m' p = ((slotRange h.mem b).1 - b + p, (slotRange h.mem b).2) := by
  by_cases hbyte : typeOf (h.mem (b - 8)) = fByteObj
  · simp only [slotRange, wordBytes, hh, if_pos hbyte, Nat.sub_self, Nat.zero_add]
  by_cases hcode : typeOf (h.mem (b - 8)) = fCodeObj
  · have hrange : slotRange h.mem b = constSegmentForCode h.mem b := by
      simp only [slotRange, wordBytes, if_neg hbyte, if_pos hcode]
    obtain ⟨hlen, hcp, hal, hle⟩ := hc hcode
    -- neither the last word nor the count word is a constant
    have hnot : ∀ i, (∀ j < (constSegmentForCode h.mem b).2,
        b + 8 * i ≠ (constSegmentForCode h.mem b).1 + 8 * j) → ¬ IsSlot h.mem b (b + 8 * i) := by
      rintro i hne ⟨j, hj, he⟩
      rw [hrange] at hj he
      exact hne j hj he
    rw [hrange]
    simp only [slotRange, wordBytes, hh, if_neg hbyte, if_pos hcode]
    refine constSegmentForCode_shift (hc hcode) hh ?_ ?_
    · refine hbody _ (by omega) (hnot _ (fun j hj => ?_))
      omega
    · obtain ⟨i, hi⟩ : ∃ i, (constSegmentForCode h.mem b).1 - 8 = b + 8 * i :=
        ⟨((constSegmentForCode h.mem b).1 - 8 - b) / 8, by omega⟩
      rw [hi, show (constSegmentForCode h.mem b).1 - b + p - 8 = p + 8 * i by omega]
      refine hbody _ (by omega) (hnot _ (fun j hj => ?_))
      omega
  · simp only [slotRange, wordBytes, hh, if_neg hbyte, if_neg hcode]
    split
    · simp
    · split <;> simp

/-- The traced slots of a copy are the slots of the object, moved along. -/
theorem isSlot_shift_iff {m' : Mem} {p : Nat}
    (hc : typeOf (h.mem (b - 8)) = fCodeObj → h.CodeOk b) (hh : m' (p - 8) = h.mem (b - 8))
    (hbody : ∀ i < h.mem.objLen b, ¬ IsSlot h.mem b (b + 8 * i) →
      m' (p + 8 * i) = h.mem (b + 8 * i)) {a : Nat} :
    IsSlot m' p a ↔ ∃ i < h.mem.objLen b, a = p + 8 * i ∧ IsSlot h.mem b (b + 8 * i) := by
  obtain ⟨k, hk, hle⟩ := slotRange_body hc
  simp only [IsSlot, slotRange_shift hc hh hbody, hk]
  constructor
  · rintro ⟨j, hj, he⟩
    exact ⟨k + j, by omega, by omega, j, hj, by omega⟩
  · rintro ⟨i, hi, he, j, hj, he'⟩
    exact ⟨j, hj, by omega⟩

theorem isSlot_shift {m' : Mem} {p : Nat}
    (hc : typeOf (h.mem (b - 8)) = fCodeObj → h.CodeOk b) (hh : m' (p - 8) = h.mem (b - 8))
    (hbody : ∀ i < h.mem.objLen b, ¬ IsSlot h.mem b (b + 8 * i) →
      m' (p + 8 * i) = h.mem (b + 8 * i)) (i : Nat) :
    IsSlot m' p (p + 8 * i) ↔ IsSlot h.mem b (b + 8 * i) := by
  rw [isSlot_shift_iff hc hh hbody]
  constructor
  · rintro ⟨j, -, he, hs⟩
    rwa [show i = j by omega]
  · intro hs
    obtain ⟨j, hj, he⟩ := hs.body hc
    exact ⟨i, by omega, rfl, hs⟩

end Slots

section Trace

variable {inSpace : Nat → Prop} {h : HeapView} {live : Nat → Prop}
variable {copied : List Nat} {φ : Nat → Nat} {done : Nat → Prop} {c : Collector}

/-- Every traced slot of `b` passes the collector's checks. -/
def SlotsTracked (inSpace : Nat → Prop) (h : HeapView) (b : Nat) : Prop :=
  ∀ a, IsSlot h.mem b a → Tracked inSpace h true (h.mem a)

/-! ## Rewriting one slot of a copy -/

/-- A slot of a copy receives the relocated word. -/
theorem CheneyInv.rewrite (hok : HeapOk inSpace h live)
    (hi : CheneyInv inSpace h live copied φ done c) {b i : Nat} (hb : b ∈ copied)
    (hil : i < h.mem.objLen b) (hslot : IsSlot h.mem b (b + 8 * i))
    (htgt : ∀ t, h.target true (h.mem (b + 8 * i)) = some t → t ∈ copied) :
    CheneyInv inSpace h live copied φ (fun a => done a ∨ a = b + 8 * i)
      (c.write (φ b + 8 * i) (h.relocate φ true (h.mem (b + 8 * i)))) := by
  have hcb := hi.copy_bounds hb
  have hused := hi.toUsed_le
  have hbo := hok.liveMem b (hi.live b hb)
  have hfrom : ∀ a, inSpace a → a ≠ φ b + 8 * i := by
    rintro a ha rfl
    exact hi.scratch.apart _ ⟨by omega, by omega⟩ ha
  have hhdr : ∀ b' ∈ copied, φ b' - 8 ≠ φ b + 8 * i := by
    intro b' hb'
    have hcb' := hi.copy_bounds hb'
    by_cases he : b' = b
    · subst he
      omega
    · have := hi.copy_separate hb' hb he
      omega
  have hword : ∀ b' ∈ copied, ∀ j < h.mem.objLen b', b' + 8 * j ≠ b + 8 * i →
      φ b' + 8 * j ≠ φ b + 8 * i := by
    intro b' hb' j hj hne
    by_cases he : b' = b
    · subst he
      omega
    · have := hi.copy_separate hb' hb he
      omega
  have hother : ∀ a, a ≠ φ b + 8 * i →
      (c.write (φ b + 8 * i) (h.relocate φ true (h.mem (b + 8 * i)))).mem a = c.mem a :=
    fun a ha => Function.update_of_ne ha _ _
  have hsame : ∀ b' ∈ h.objs, ∀ j < h.mem.objLen b', b' + 8 * j = b + 8 * i → b' = b ∧ j = i := by
    intro b' hb' j hj he
    rcases hok.separate b' hb' b hbo with rfl | hlt | hlt <;> omega
  refine ⟨⟨hi.table.congr rfl rfl rfl, SameFrame.scratchOk (c := c) ⟨rfl, rfl, rfl, rfl, rfl⟩
    hi.scratch, hi.nodup, hi.objs, ?_, ?_, ?_, ?_⟩, hi.live, ?_, ?_, ?_, ?_, ?_⟩
  · refine hi.laid.congr (fun q hq => ?_)
    obtain ⟨b', hb', rfl⟩ := List.mem_map.1 hq
    exact hother _ (hhdr b' hb')
  · intro b' hb' hn
    rw [hother _ (hfrom _ (hok.inHeader b' hb'))]
    exact hi.headerFree b' hb' hn
  · intro b' hb'
    rw [hother _ (hfrom _ (hok.inHeader b' (hi.objs b' hb')))]
    exact hi.headerFwd b' hb'
  · intro b' hb'
    rw [hother _ (hhdr b' hb')]
    exact hi.copyHeader b' hb'
  · intro b' hb' j hj
    rw [hother _ (hfrom _ (hok.inBody b' hb' j hj))]
    exact hi.body b' hb' j hj
  · intro b' hb' j hj hn
    rw [not_or] at hn
    rw [hother _ (hword b' hb' j hj hn.2)]
    exact hi.todo b' hb' j hj hn.1
  · intro b' hb' j hj hd
    by_cases he : b' + 8 * j = b + 8 * i
    · obtain ⟨rfl, rfl⟩ := hsame b' (hok.liveMem b' (hi.live b' hb')) j hj he
      exact Function.update_self ..
    · rw [hother _ (hword b' hb' j hj he)]
      exact hi.rewritten b' hb' j hj (hd.resolve_right he)
  · intro b' hb' j hj hd
    rcases hd with hd | he
    · exact hi.doneSlot b' hb' j hj hd
    · obtain ⟨rfl, rfl⟩ := hsame b' hb' j hj he
      exact ⟨hb, hslot⟩
  · intro b' hb' j hj hd
    rcases hd with hd | he
    · exact hi.doneTarget b' hb' j hj hd
    · obtain ⟨rfl, rfl⟩ := hsame b' (hok.liveMem b' (hi.live b' hb')) j hj he
      exact htgt

/-- Which slots count as rewritten matters only up to equivalence. -/
theorem CheneyInv.congrDone {done' : Nat → Prop} (hi : CheneyInv inSpace h live copied φ done c)
    (heq : ∀ a, done a ↔ done' a) : CheneyInv inSpace h live copied φ done' c := by
  rwa [show done' = done from funext (fun a => propext (heq a).symm)]

theorem forwardSlot_spec (hok : HeapOk inSpace h live)
    (hi : CheneyInv inSpace h live copied φ done c) {b i : Nat} (hb : b ∈ copied)
    (hil : i < h.mem.objLen b) (hslot : IsSlot h.mem b (b + 8 * i)) (hnd : ¬ done (b + 8 * i)) :
    ∃ c' copied' φ', c.forwardSlot (φ b + 8 * i) = some c' ∧
      CheneyInv inSpace h live copied' φ' (fun a => done a ∨ a = b + 8 * i) c' ∧
      Extends copied φ copied' φ' ∧ TraceStep inSpace c c' ∧ c'.weakObjects = c.weakObjects ∧
      (c'.untrackedAddrs = c.untrackedAddrs ↔ Tracked inSpace h true (h.mem (b + 8 * i))) := by
  obtain ⟨c₁, copied', φ', hf, hi', hext, hstep, hweak, htgt, hunt⟩ :=
    forwardImpl_spec hok hi (fun t ht => hok.liveSlot b _ t (hi.live b hb) hslot ht)
  have hcb := hi.copy_bounds hb
  have hused := hi.toUsed_le
  have hread := hi.todo b hb i hil hnd
  refine ⟨c₁.write (φ b + 8 * i) (h.relocate φ' true (h.mem (b + 8 * i))), copied', φ', ?_, ?_,
    hext, hstep.trans ⟨⟨rfl, rfl, rfl, rfl, rfl⟩, List.prefix_rfl, fun a _ ha => ?_⟩, hweak, hunt⟩
  · rw [Collector.forwardSlot, hread, Collector.forward, hf]
    rfl
  · rw [← hext.keeps b hb]
    exact hi'.rewrite hok (hext.mem hb) hil hslot htgt
  · refine Function.update_of_ne ?_ _ _
    rintro rfl
    exact ha ((hstep.frame.inScratch _).2 ⟨by omega, by omega⟩)

theorem forwardSlots_spec (hok : HeapOk inSpace h live)
    (hi : CheneyInv inSpace h live copied φ done c) {b k : Nat} (hb : b ∈ copied) (n : Nat)
    (hbody : k + n ≤ h.mem.objLen b) (hslot : ∀ j < n, IsSlot h.mem b (b + 8 * (k + j)))
    (hnd : ∀ j < n, ¬ done (b + 8 * (k + j))) :
    ∃ c' copied' φ', c.forwardSlots (φ b + 8 * k) n = some c' ∧
      CheneyInv inSpace h live copied' φ' (fun a => done a ∨ ∃ j < n, a = b + 8 * (k + j)) c' ∧
      Extends copied φ copied' φ' ∧ TraceStep inSpace c c' ∧ c'.weakObjects = c.weakObjects ∧
      (c'.untrackedAddrs = c.untrackedAddrs ↔
        ∀ j < n, Tracked inSpace h true (h.mem (b + 8 * (k + j)))) := by
  induction n with
  | zero =>
    exact ⟨c, copied, φ, rfl, hi.congrDone (by simp), Extends.refl _ _, TraceStep.refl _ _, rfl,
      by simp⟩
  | succ n ih =>
    obtain ⟨c₁, copied₁, φ₁, hf₁, hi₁, hext₁, hstep₁, hweak₁, hunt₁⟩ :=
      ih (by omega) (fun j hj => hslot j (by omega)) (fun j hj => hnd j (by omega))
    have hnd₁ : ¬ (done (b + 8 * (k + n)) ∨ ∃ j < n, b + 8 * (k + n) = b + 8 * (k + j)) := by
      rintro (hd | ⟨j, hj, he⟩)
      · exact hnd n (by omega) hd
      · omega
    obtain ⟨c₂, copied₂, φ₂, hf₂, hi₂, hext₂, hstep₂, hweak₂, hunt₂⟩ :=
      forwardSlot_spec hok hi₁ (hext₁.mem hb) (by omega) (hslot n (by omega)) hnd₁
    refine ⟨c₂, copied₂, φ₂, ?_, hi₂.congrDone (fun a => ?_), hext₁.trans hext₂,
      hstep₁.trans hstep₂, hweak₂.trans hweak₁, ?_⟩
    · rw [hext₁.keeps b hb] at hf₂
      rw [Collector.forwardSlots, hf₁, Option.bind_eq_bind, Option.bind_some, wordBytes,
        show φ b + 8 * k + 8 * n = φ b + 8 * (k + n) by omega]
      exact hf₂
    · constructor
      · rintro ((hd | ⟨j, hj, he⟩) | he)
        · exact Or.inl hd
        · exact Or.inr ⟨j, by omega, he⟩
        · exact Or.inr ⟨n, by omega, he⟩
      · rintro (hd | ⟨j, hj, he⟩)
        · exact Or.inl (Or.inl hd)
        · rcases Nat.lt_succ_iff_lt_or_eq.1 hj with hj | rfl
          · exact Or.inl (Or.inr ⟨j, hj, he⟩)
          · exact Or.inr he
    · rw [hstep₁.untracked_iff hstep₂, hunt₁, hunt₂, Nat.forall_lt_succ_right]

/-! ## Scanning one object -/

/-- The four kinds of scan are one loop over the traced range, and the registration of weak word
objects. -/
theorem scanObject_eq (c : Collector) (obj : Nat) :
    c.scanObject obj =
      if isWeakWordObj (c.mem (obj - 8)) then
        some { c with weakObjects := c.weakObjects ++ [obj] }
      else c.forwardSlots (slotRange c.mem obj).1 (slotRange c.mem obj).2 := by
  simp only [Collector.scanObject, isWeakWordObj, slotRange, wordBytes]
  by_cases hbyte : typeOf (c.mem (obj - 8)) = fByteObj
  · simp [hbyte, Collector.forwardSlots]
  by_cases hcode : typeOf (c.mem (obj - 8)) = fCodeObj
  · have hne : fCodeObj ≠ fByteObj := by decide
    simp [hcode, hne]
  by_cases hclo : typeOf (c.mem (obj - 8)) = fClosureObj
  · have hne : fClosureObj ≠ fByteObj ∧ fClosureObj ≠ fCodeObj := by decide
    simp [hclo, hne]
  by_cases hweak : isWeak (c.mem (obj - 8)) = true
  · simp [hbyte, hcode, hclo, hweak]
  · simp [hbyte, hcode, hclo, hweak]

theorem slotRange_of_weak {m : Mem} {b : Nat} (hw : isWeakWordObj (m (b - 8)) = true) (a : Nat) :
    ¬ IsSlot m b a := by
  simp only [isWeakWordObj, Bool.and_eq_true, decide_eq_true_eq] at hw
  rintro ⟨i, hi, -⟩
  simp [slotRange, wordBytes, hw.1.1, hw.1.2.1, hw.1.2.2, hw.2] at hi

theorem scanObject_spec (hok : HeapOk inSpace h live)
    (hi : CheneyInv inSpace h live copied φ done c) {b : Nat} (hb : b ∈ copied)
    (hnd : ∀ a, IsSlot h.mem b a → ¬ done a) :
    ∃ c' copied' φ', c.scanObject (φ b) = some c' ∧
      CheneyInv inSpace h live copied' φ' (fun a => done a ∨ IsSlot h.mem b a) c' ∧
      Extends copied φ copied' φ' ∧ TraceStep inSpace c c' ∧
      c'.weakObjects =
        (c.weakObjects ++ if isWeakWordObj (h.mem (b - 8)) then [φ b] else []) ∧
      (c'.untrackedAddrs = c.untrackedAddrs ↔ SlotsTracked inSpace h b) := by
  have hcode := hok.code b (hi.live b hb)
  rw [scanObject_eq, hi.copyHeader b hb]
  by_cases hweak : isWeakWordObj (h.mem (b - 8)) = true
  · rw [if_pos hweak, if_pos hweak]
    refine ⟨_, copied, φ, rfl, ?_, Extends.refl _ _,
      ⟨⟨rfl, rfl, rfl, rfl, rfl⟩, List.prefix_rfl, fun _ _ _ => rfl⟩, rfl, iff_of_true rfl
        (fun a ha => absurd ha (slotRange_of_weak hweak a))⟩
    refine CheneyInv.congrDone ?_
      (fun a => show done a ↔ done a ∨ IsSlot h.mem b a from ?_)
    · exact hi.congr hok ⟨rfl, rfl, rfl, rfl, rfl⟩ rfl (fun _ _ => rfl)
    · exact ⟨Or.inl, fun hd => hd.resolve_right (slotRange_of_weak hweak a)⟩
  · rw [if_neg hweak, if_neg hweak, List.append_nil]
    obtain ⟨k, hk, hle⟩ := slotRange_body hcode
    have hslot : ∀ j < (slotRange h.mem b).2, IsSlot h.mem b (b + 8 * (k + j)) :=
      fun j hj => ⟨j, hj, by omega⟩
    have hrange : slotRange c.mem (φ b) =
        ((slotRange h.mem b).1 - b + φ b, (slotRange h.mem b).2) :=
      slotRange_shift hcode (hi.copyHeader b hb) (fun i hil hns => hi.todo b hb i hil
        (fun hd => hns (hi.doneSlot b (hok.liveMem b (hi.live b hb)) i hil hd).2))
    obtain ⟨c', copied', φ', hf, hi', hext, hstep, hw, hunt⟩ :=
      forwardSlots_spec hok hi hb (slotRange h.mem b).2 hle hslot (fun j hj => hnd _ (hslot j hj))
    refine ⟨c', copied', φ', ?_, hi'.congrDone (fun a => ?_), hext, hstep, hw, hunt.trans ?_⟩
    · rw [hrange]
      simp only [hk, show b + 8 * k - b + φ b = φ b + 8 * k by omega]
      exact hf
    · refine or_congr_right ⟨?_, ?_⟩
      · rintro ⟨j, hj, rfl⟩
        exact hslot j hj
      · rintro ⟨j, hj, he⟩
        exact ⟨j, hj, by omega⟩
    · constructor
      · rintro ht a ⟨j, hj, rfl⟩
        rw [show (slotRange h.mem b).1 + 8 * j = b + 8 * (k + j) by omega]
        exact ht j hj
      · exact fun ht j hj => ht _ (hslot j hj)

/-! ## The loop -/

/-- The scan pointer is at word `scan`: the copies of `pre` before it have been scanned, those of
`post` after it have not. -/
structure ScanInv (inSpace : Nat → Prop) (h : HeapView) (live : Nat → Prop) (weak : List Nat)
    (pre post : List Nat) (φ : Nat → Nat) (scan : Nat) (c : Collector) : Prop where
  inv : CheneyInv inSpace h live (pre ++ post) φ (fun a => ∃ b ∈ pre, IsSlot h.mem b a) c
  scanned : ObjectsIn c.mem c.toStart (pre.map φ) (c.toStart + 8 * scan)
  registered : c.weakObjects =
    weak ++ (pre.filter (fun b => isWeakWordObj (h.mem (b - 8)))).map φ

variable {weak pre post : List Nat} {scan : Nat}

/-- The next object to scan is the copy of the head of `post`. -/
theorem ScanInv.next {b : Nat} (hi : ScanInv inSpace h live weak pre (b :: post) φ scan c) :
    φ b = c.toStart + 8 * (scan + 1) := by
  have hlaid := hi.inv.laid
  rw [List.map_append, List.map_cons] at hlaid
  obtain ⟨f, hpre, hpost⟩ := hlaid.split
  have hf := hi.scanned.end_unique hpre
  generalize φ b = q at hpost ⊢
  cases hpost
  omega

/-- The loop ends exactly when nothing is left to scan. -/
theorem ScanInv.lt_toUsed (hi : ScanInv inSpace h live weak pre post φ scan c) :
    scan < c.toUsed ↔ post ≠ [] := by
  have hlaid := hi.inv.laid
  rw [List.map_append] at hlaid
  obtain ⟨f, hpre, hpost⟩ := hlaid.split
  have hf := hi.scanned.end_unique hpre
  cases hp : post with
  | nil =>
    subst hp
    have := hi.scanned.end_unique (by simpa using hi.inv.laid)
    simp only [ne_eq, not_true, iff_false, not_lt]
    omega
  | cons b post' =>
    have hb := hpost.bounds (List.mem_map_of_mem (f := φ) (hp ▸ List.mem_cons_self))
    simp only [ne_eq, reduceCtorEq, not_false_eq_true, iff_true]
    omega

/-- One round of the loop. -/
theorem ScanInv.step (hok : HeapOk inSpace h live) {b : Nat}
    (hi : ScanInv inSpace h live weak pre (b :: post) φ scan c) :
    ∃ c' post' φ', c.scanObject (c.toStart + 8 * (scan + 1)) = some c' ∧
      ScanInv inSpace h live weak (pre ++ [b]) post' φ' (scan + (1 + h.mem.objLen b)) c' ∧
      Extends (pre ++ b :: post) φ (pre ++ [b] ++ post') φ' ∧ TraceStep inSpace c c' ∧
      (c'.untrackedAddrs = c.untrackedAddrs ↔ SlotsTracked inSpace h b) := by
  have hb : b ∈ pre ++ b :: post := by simp
  have hbpre : b ∉ pre := fun hmem =>
    (List.nodup_append.1 hi.inv.nodup).2.2 b hmem b List.mem_cons_self rfl
  have hlive := hi.inv.live b hb
  have hbo := hok.liveMem b hlive
  have hnd : ∀ a, IsSlot h.mem b a → ¬ ∃ b' ∈ pre, IsSlot h.mem b' a := by
    rintro a ha ⟨b', hb', ha'⟩
    have hlive' := hi.inv.live b' (List.mem_append_left _ hb')
    obtain ⟨i, hil, rfl⟩ := ha.body (hok.code b hlive)
    obtain ⟨j, hjl, he⟩ := ha'.body (hok.code b' hlive')
    rcases hok.separate b hbo b' (hok.liveMem b' hlive') with rfl | hlt | hlt
    · exact hbpre hb'
    · omega
    · omega
  obtain ⟨c', copied', φ', hscan, hi', hext, hstep, hweak, hunt⟩ :=
    scanObject_spec hok hi.inv hb hnd
  obtain ⟨more, hmore⟩ := hext.grows
  have hsplit : copied' = pre ++ [b] ++ (post ++ more) := by simp [← hmore]
  subst hsplit
  have hkeep : ∀ b' ∈ pre ++ [b], φ' b' = φ b' := by
    intro b' hb'
    refine hext.keeps b' ?_
    rcases List.mem_append.1 hb' with hb' | hb'
    · exact List.mem_append_left _ hb'
    · exact List.mem_singleton.1 hb' ▸ hb
  refine ⟨c', post ++ more, φ', hi.next ▸ hscan, ⟨hi'.congrDone (fun a => ?_), ?_, ?_⟩, hext, hstep,
    hunt⟩
  · constructor
    · rintro (⟨b', hb', ha⟩ | ha)
      · exact ⟨b', List.mem_append_left _ hb', ha⟩
      · exact ⟨b, by simp, ha⟩
    · rintro ⟨b', hb', ha⟩
      rcases List.mem_append.1 hb' with hb' | hb'
      · exact Or.inl ⟨b', hb', ha⟩
      · exact Or.inr (List.mem_singleton.1 hb' ▸ ha)
  · -- the scan pointer moves to the end of the copy of `b`
    have hlaid := hi'.laid
    rw [List.map_append] at hlaid
    obtain ⟨f, hpre, -⟩ := hlaid.split
    have hsize := hpre.size
    have hold := hi.scanned.size
    have hsum : ((pre ++ [b]).map φ').map (fun q => 1 + c'.mem.objLen q) =
        (pre.map φ).map (fun q => 1 + c.mem.objLen q) ++ [1 + h.mem.objLen b] := by
      rw [List.map_map, List.map_map, List.map_append, List.map_singleton]
      congr 1
      · refine List.map_congr_left (fun b' hb' => ?_)
        rw [Function.comp_apply, Function.comp_apply,
          hi'.objLen_copy (List.mem_append_left _ (List.mem_append_left _ hb')),
          hi.inv.objLen_copy (List.mem_append_left _ hb')]
      · rw [Function.comp_apply, hi'.objLen_copy (by simp)]
    rw [hsum, List.sum_append, List.sum_singleton] at hsize
    rw [hstep.frame.toStart] at hpre hsize ⊢
    rwa [show c.toStart + 8 * (scan + (1 + h.mem.objLen b)) = f by omega]
  · have hmap : (pre.filter (fun b => isWeakWordObj (h.mem (b - 8)))).map φ' =
        (pre.filter (fun b => isWeakWordObj (h.mem (b - 8)))).map φ :=
      List.map_congr_left (fun b' hb' =>
        hkeep b' (List.mem_append_left _ (List.mem_of_mem_filter hb')))
    rw [hweak, hi.registered, List.filter_append, List.map_append, hmap, List.append_assoc]
    congr 2
    by_cases hw : isWeakWordObj (h.mem (b - 8)) = true
    · simp [hw, hkeep b (by simp)]
    · simp [hw]

/-- The loop copies everything its scanned objects lead to, and never runs out of fuel. -/
theorem cheneyScan_spec (hok : HeapOk inSpace h live) (fuel : Nat) :
    ∀ (pre post : List Nat) (φ : Nat → Nat) (scan : Nat) (c : Collector),
      ScanInv inSpace h live weak pre post φ scan c → c.toLen ≤ scan + fuel →
      ∃ c' post' φ' scan', c.cheneyScan fuel scan = some c' ∧
        ScanInv inSpace h live weak (pre ++ post') [] φ' scan' c' ∧
        Extends (pre ++ post) φ (pre ++ post') φ' ∧ TraceStep inSpace c c' ∧
        (c'.untrackedAddrs = c.untrackedAddrs ↔ ∀ b ∈ post', SlotsTracked inSpace h b) := by
  have hstop : ∀ (pre post : List Nat) (φ : Nat → Nat) (scan fuel : Nat) (c : Collector),
      ScanInv inSpace h live weak pre post φ scan c → ¬ scan < c.toUsed →
      c.cheneyScan fuel scan = some c ∧ post = [] := by
    intro pre post φ scan fuel c hi hend
    refine ⟨by cases fuel <;> rw [Collector.cheneyScan, if_neg hend], ?_⟩
    by_contra hne
    exact hend (hi.lt_toUsed.2 hne)
  induction fuel with
  | zero =>
    intro pre post φ scan c hi hfuel
    have hused := hi.inv.toUsed_le
    obtain ⟨hrun, rfl⟩ := hstop pre post φ scan 0 c hi (by omega)
    refine ⟨c, [], φ, scan, hrun, ?_, Extends.refl _ _, TraceStep.refl _ _, by simp⟩
    rwa [List.append_nil]
  | succ fuel ih =>
    intro pre post φ scan c hi hfuel
    by_cases hlt : scan < c.toUsed
    · cases post with
      | nil => exact absurd rfl (hi.lt_toUsed.1 hlt)
      | cons b post =>
        obtain ⟨c₁, post₁, φ₁, hscan, hi₁, hext₁, hstep₁, hunt₁⟩ := hi.step hok
        obtain ⟨c', post', φ', scan', hrun, hi', hext, hstep, hunt⟩ :=
          ih _ _ _ _ c₁ hi₁ (by rw [hstep₁.frame.toLen]; omega)
        have happ : pre ++ [b] ++ post' = pre ++ b :: post' := by simp
        rw [happ] at hi' hext
        refine ⟨c', b :: post', φ', scan', ?_, hi', hext₁.trans hext, hstep₁.trans hstep, ?_⟩
        · have hlen : lengthOf (c.mem (c.toStart + 8 * scan)) = h.mem.objLen b := by
            have hnext := hi.next
            have hcopy := hi.inv.copyHeader b (by simp)
            rw [show φ b - 8 = c.toStart + 8 * scan by omega] at hcopy
            rw [hcopy]
            rfl
          rw [Collector.cheneyScan, if_pos hlt]
          simp only [wordBytes, hlen, hscan, Option.bind_eq_bind, Option.bind_some]
          exact hrun
        · rw [hstep₁.untracked_iff hstep, hunt₁, hunt, List.forall_mem_cons]
    · obtain ⟨hrun, rfl⟩ := hstop pre post φ scan (fuel + 1) c hi hlt
      refine ⟨c, [], φ, scan, hrun, ?_, Extends.refl _ _, TraceStep.refl _ _, by simp⟩
      rwa [List.append_nil]

end Trace
