import PolymlRs.Gc.Cheney

set_option autoImplicit false

/-! # The weak fixup

After the trace every weak link is either empty, points at a SOME cell that moves with it, or is
emptied. `WeakInv` is the state between two links: which SOME cells have been copied on top of the
traced objects, which links are settled, and that nothing else has changed. `weakFixup_spec` runs it
over all registered objects. -/

/-- A word that is no pointer into a from-space. -/
def Outside (inSpace : Nat → Prop) (w : PolyWord) : Prop := w.isTagged = true ∨ ¬ inSpace w.addr

/-- The reference in a SOME cell is missing, permanent, or the body of an object. -/
def RefOk (inSpace : Nat → Prop) (h : HeapView) (r : PolyWord) : Prop :=
  Outside inSpace r ∨ r.addr ∈ h.objs

/-- A SOME cell is an ordinary object of one word. -/
def IsSomeCell (h : HeapView) (b : Nat) : Prop :=
  h.mem.objLen b = 1 ∧ typeOf (h.mem (b - 8)) = 0#8

/-- What a weak link may hold when the fixup starts: NONE, one of the permanent SOME cells `cells`,
or an object; the cell holds a reference. -/
def LinkOk (inSpace : Nat → Prop) (h : HeapView) (slots cells : Nat → Prop) (c₀ : Collector)
    (w : PolyWord) : Prop :=
  w.isTagged = true ∨
  (cells w.addr ∧ ¬ inSpace w.addr ∧ ¬ c₀.InScratch w.addr ∧ ¬ slots w.addr ∧
    RefOk inSpace h (c₀.mem w.addr)) ∨
  (w.addr ∈ h.objs ∧ (IsSomeCell h w.addr → RefOk inSpace h (h.mem w.addr)))

/-- Weak links lie in permanent objects or in copies. -/
def SlotsOk (inSpace : Nat → Prop) (h : HeapView) (copied₀ : List Nat) (φ₀ : Nat → Nat)
    (c₀ : Collector) (slots : Nat → Prop) : Prop :=
  ∀ a, slots a → ¬ inSpace a ∧
    (c₀.InScratch a → ∃ b ∈ copied₀, ∃ i < h.mem.objLen b, a = φ₀ b + 8 * i)

/-- `w'` is the word `w`, its target forwarded, or NONE. -/
def Linked (copied : List Nat) (φ : Nat → Nat) (w w' : PolyWord) : Prop :=
  w' = w ∨ w' = PolyWord.tagged 0 ∨ (w.addr ∈ copied ∧ w' = PolyWord.fromAddr (φ w.addr))

theorem Linked.extend {copied copied' : List Nat} {φ φ' : Nat → Nat} {w w' : PolyWord}
    (h : Linked copied φ w w') (hext : Extends copied φ copied' φ') : Linked copied' φ' w w' := by
  rcases h with h | h | ⟨hc, h⟩
  · exact Or.inl h
  · exact Or.inr (Or.inl h)
  · exact Or.inr (Or.inr ⟨hext.mem hc, by rw [hext.keeps _ hc]; exact h⟩)

/-- The fixup of the collector `c₀`, in which the trace had copied `copied₀` to `φ₀`, has reached
`c`: the links `settled` are done. -/
structure WeakInv (inSpace : Nat → Prop) (h : HeapView) (slots cells : Nat → Prop) (c₀ : Collector)
    (copied₀ : List Nat) (φ₀ : Nat → Nat) (copied : List Nat) (φ : Nat → Nat)
    (settled : Nat → Prop) (c : Collector) : Prop extends Copies inSpace h copied φ c where
  frame : SameFrame c₀ c
  used : c₀.toUsed ≤ c.toUsed
  untracked : c.untrackedAddrs = c₀.untrackedAddrs
  ext : Extends copied₀ φ₀ copied φ
  /-- A SOME cell left in from-space holds its reference, unless it has been emptied. -/
  cell : ∀ b ∈ h.objs, b ∉ copied → IsSomeCell h b →
    c.mem b = h.mem b ∨ c.mem b = PolyWord.tagged 0
  /-- Copies made by the trace change in their weak links only. -/
  kept : ∀ a, c₀.InScratch a → a < c₀.toStart + 8 * c₀.toUsed → ¬ slots a → c.mem a = c₀.mem a
  /-- Permanent words change only in SOME cells, and only where they pointed into a from-space. -/
  outer : ∀ a, ¬ inSpace a → ¬ c₀.InScratch a → ¬ slots a → c.mem a = c₀.mem a ∨
    cells a ∧ ¬ Outside inSpace (c₀.mem a) ∧ Linked copied φ (c₀.mem a) (c.mem a)
  unsettled : ∀ a, slots a → ¬ settled a → c.mem a = c₀.mem a
  link : ∀ a, settled a → Linked copied φ (c₀.mem a) (c.mem a) ∧ Outside inSpace (c.mem a)
  settledSlot : ∀ a, settled a → slots a
  /-- The cells copied by the fixup hold their forwarded reference. -/
  someCells : ∀ b ∈ copied, b ∉ copied₀ → IsSomeCell h b ∧
    c.mem (φ b) = h.relocate φ true (h.mem b) ∧ Outside inSpace (c.mem (φ b)) ∧
    Linked copied φ (h.mem b) (c.mem (φ b)) ∧
    ∀ t, h.target true (h.mem b) = some t → t ∈ copied

section Weak

variable {inSpace : Nat → Prop} {h : HeapView} {live slots cells settled : Nat → Prop}
variable {c₀ c : Collector} {copied₀ copied : List Nat} {φ₀ φ : Nat → Nat}

/-- The scratch buffer and the word behind it, where the body of an empty copy may start, are apart
from every from-space. -/
def Collector.ScratchApart (inSpace : Nat → Prop) (c : Collector) : Prop :=
  ∀ a, c.toStart ≤ a → a < c.toStart + 8 * c.toLen + 8 → ¬ inSpace a

theorem SameFrame.scratchApart {c' : Collector} (hf : SameFrame c c')
    (hs : c.ScratchApart inSpace) : c'.ScratchApart inSpace := by
  rw [Collector.ScratchApart, hf.toStart, hf.toLen]
  exact hs

/-- No address of a copy lies in a from-space. -/
theorem Copies.addr_outside (hi : Copies inSpace h copied φ c) (hsc : c.ScratchApart inSpace)
    {b off : Nat} (hb : b ∈ copied) (hoff : off < 8 * max 1 (h.mem.objLen b)) :
    (PolyWord.fromAddr (φ b + off)).addr = φ b + off ∧ ¬ inSpace (φ b + off) := by
  have hcb := hi.copy_bounds hb
  have hused := hi.toUsed_le
  have hadd := hi.scratch.addressable
  exact ⟨PolyWord.addr_fromAddr (by omega), hsc _ (by omega) (by omega)⟩

theorem Copies.outside_copy (hi : Copies inSpace h copied φ c) (hsc : c.ScratchApart inSpace)
    {b : Nat} (hb : b ∈ copied) : Outside inSpace (PolyWord.fromAddr (φ b)) := by
  have hout : (PolyWord.fromAddr (φ b + 0)).addr = φ b + 0 ∧ ¬ inSpace (φ b + 0) :=
    hi.addr_outside hsc hb (by omega)
  rw [Nat.add_zero] at hout
  exact Or.inr (by rw [hout.1]; exact hout.2)

/-- A relocated word leads out of every from-space. -/
theorem Copies.relocate_outside (hi : Copies inSpace h copied φ c) (hsc : c.ScratchApart inSpace)
    {tf : Bool} {w : PolyWord} (htgt : ∀ t, h.target tf w = some t → t ∈ copied)
    (hw : Tracked inSpace h tf w) :
    (tf && (h.relocate φ tf w).isTagged) = true ∨ ¬ inSpace (h.relocate φ tf w).addr := by
  cases ht : h.target tf w with
  | none =>
    rw [HeapView.relocate_of_target_none ht]
    exact hw ht
  | some t =>
    have hcov := HeapView.container_covers (HeapView.target_container ht)
    have hoff : w.addr - t < 8 * max 1 (h.mem.objLen t) := by
      have h1 := hcov.1
      have h2 := hcov.2
      omega
    have hout := hi.addr_outside hsc (htgt t ht) hoff
    rw [HeapView.relocate_of_target ht, hout.1]
    exact Or.inr hout.2

namespace WeakInv

/-- The address `a` of a weak link or a permanent word is neither the header of a copy nor the word
of a cell the fixup has copied. -/
theorem ne_copy (hi : WeakInv inSpace h slots cells c₀ copied₀ φ₀ copied φ settled c)
    (hslots : SlotsOk inSpace h copied₀ φ₀ c₀ slots) {a : Nat}
    (ha : slots a ∨ ¬ c₀.InScratch a) {b : Nat} (hb : b ∈ copied) :
    a ≠ φ b - 8 ∧ (b ∉ copied₀ → IsSomeCell h b → a ≠ φ b) := by
  have hcb := hi.copy_bounds hb
  have hused := hi.toUsed_le
  have hscr : ¬ c₀.InScratch a → a ≠ φ b - 8 ∧ (b ∉ copied₀ → IsSomeCell h b → a ≠ φ b) := by
    intro hout
    have hout' : ¬ c.InScratch a := fun hc => hout ((hi.frame.inScratch a).1 hc)
    refine ⟨?_, fun _ hcell => ?_⟩
    · rintro rfl
      exact hout' ⟨by omega, by omega⟩
    · rintro rfl
      have := hcell.1
      exact hout' ⟨by omega, by omega⟩
  rcases ha with ha | ha
  · by_cases hin : c₀.InScratch a
    · obtain ⟨b', hb', i, hil, rfl⟩ := (hslots a ha).2 hin
      have hb'c := hi.ext.mem hb'
      rw [← hi.ext.keeps b' hb']
      have hcb' := hi.copy_bounds hb'c
      by_cases he : b = b'
      · subst he
        exact ⟨by omega, fun hn => absurd hb' hn⟩
      · have := hi.copy_separate hb hb'c he
        refine ⟨by omega, fun _ hcell => ?_⟩
        have := hcell.1
        omega
    · exact hscr hin
  · exact hscr ha

/-- Writing a weak link or a permanent word. -/
theorem write (hok : HeapOk inSpace h live)
    (hi : WeakInv inSpace h slots cells c₀ copied₀ φ₀ copied φ settled c)
    (hslots : SlotsOk inSpace h copied₀ φ₀ c₀ slots) {a : Nat} {w : PolyWord}
    (hin : ¬ inSpace a) (ha : slots a ∨ ¬ c₀.InScratch a)
    (hlink : Linked copied φ (c₀.mem a) w) (hout : Outside inSpace w)
    (hperm : ¬ slots a → cells a ∧ ¬ Outside inSpace (c₀.mem a)) :
    WeakInv inSpace h slots cells c₀ copied₀ φ₀ copied φ (fun x => settled x ∨ (x = a ∧ slots a))
      (c.write a w) := by
  have hsame : ∀ x, x ≠ a → (c.write a w).mem x = c.mem x := fun x hx =>
    Function.update_of_ne hx _ _
  have hself : (c.write a w).mem a = w := Function.update_self ..
  have hfrom : ∀ x, inSpace x → (c.write a w).mem x = c.mem x := by
    intro x hx
    refine hsame x ?_
    rintro rfl
    exact hin hx
  have hhdr : ∀ b ∈ copied, (c.write a w).mem (φ b - 8) = c.mem (φ b - 8) := fun b hb =>
    hsame _ (hi.ne_copy hslots ha hb).1.symm
  have hcopies : Copies inSpace h copied φ (c.write a w) := by
    refine ⟨hi.table.congr rfl rfl rfl, SameFrame.scratchOk (c := c) ⟨rfl, rfl, rfl, rfl, rfl⟩
      hi.scratch, hi.nodup, hi.objs, ?_, fun b hb hn => ?_, fun b hb => ?_, fun b hb => ?_⟩
    · refine hi.laid.congr (fun q hq => ?_)
      obtain ⟨b, hb, rfl⟩ := List.mem_map.1 hq
      exact hhdr b hb
    · rw [hfrom _ (hok.inHeader b hb)]
      exact hi.headerFree b hb hn
    · rw [hfrom _ (hok.inHeader b (hi.objs b hb))]
      exact hi.headerFwd b hb
    · rw [hhdr b hb]
      exact hi.copyHeader b hb
  refine ⟨hcopies, hi.frame.trans ⟨rfl, rfl, rfl, rfl, rfl⟩, hi.used, hi.untracked, hi.ext,
    ?_, ?_, ?_, ?_, ?_, ?_, ?_⟩
  · intro b hb hn hcell
    rw [hfrom _ (hok.inStart b hb)]
    exact hi.cell b hb hn hcell
  · intro x hx hlt hns
    rw [hsame x ?_]
    · exact hi.kept x hx hlt hns
    · rintro rfl
      exact ha.elim hns (fun hout => hout hx)
  · intro x hx hscr hns
    by_cases he : x = a
    · subst he
      rw [hself]
      exact Or.inr ⟨(hperm hns).1, (hperm hns).2, hlink⟩
    · rw [hsame x he]
      exact hi.outer x hx hscr hns
  · intro x hs hns
    rw [not_or] at hns
    rw [hsame x (fun he => hns.2 ⟨he, he ▸ hs⟩)]
    exact hi.unsettled x hs hns.1
  · intro x hx
    by_cases he : x = a
    · subst he
      rw [hself]
      exact ⟨hlink, hout⟩
    · rw [hsame x he]
      exact hi.link x (hx.resolve_right (fun hc => he hc.1))
  · rintro x (hx | ⟨rfl, hs⟩)
    · exact hi.settledSlot x hx
    · exact hs
  · intro b hb hn
    have hc := hi.someCells b hb hn
    rw [hsame _ ((hi.ne_copy hslots ha hb).2 hn hc.1).symm]
    exact hc

/-- Emptying a dead SOME cell in from-space. -/
theorem clear (hok : HeapOk inSpace h live)
    (hi : WeakInv inSpace h slots cells c₀ copied₀ φ₀ copied φ settled c)
    (hslots : SlotsOk inSpace h copied₀ φ₀ c₀ slots) {t : Nat} (ht : t ∈ h.objs)
    (hcell : IsSomeCell h t) :
    WeakInv inSpace h slots cells c₀ copied₀ φ₀ copied φ settled
      (c.write t (PolyWord.tagged 0)) := by
  have hin := hok.inStart t ht
  have hsame : ∀ x, x ≠ t → (c.write t (PolyWord.tagged 0)).mem x = c.mem x := fun x hx =>
    Function.update_of_ne hx _ _
  have hout : ∀ x, ¬ inSpace x → (c.write t (PolyWord.tagged 0)).mem x = c.mem x := by
    intro x hx
    refine hsame x ?_
    rintro rfl
    exact hx hin
  have hscr : ∀ x, c.InScratch x → (c.write t (PolyWord.tagged 0)).mem x = c.mem x := fun x hx =>
    hout x (hi.scratch.apart x hx)
  have hhdr : ∀ b ∈ copied, (c.write t (PolyWord.tagged 0)).mem (φ b - 8) = c.mem (φ b - 8) := by
    intro b hb
    have hcb := hi.copy_bounds hb
    have hused := hi.toUsed_le
    exact hscr _ ⟨by omega, by omega⟩
  have hold : ∀ b ∈ h.objs, (c.write t (PolyWord.tagged 0)).mem (b - 8) = c.mem (b - 8) := by
    intro b hb
    have hpos := hok.pos b hb
    have hlen := hcell.1
    refine hsame _ ?_
    rcases hok.separate b hb t ht with rfl | hlt | hlt <;> omega
  have hcopies : Copies inSpace h copied φ (c.write t (PolyWord.tagged 0)) := by
    refine ⟨hi.table.congr rfl rfl rfl, SameFrame.scratchOk (c := c) ⟨rfl, rfl, rfl, rfl, rfl⟩
      hi.scratch, hi.nodup, hi.objs, ?_, fun b hb hn => ?_, fun b hb => ?_, fun b hb => ?_⟩
    · refine hi.laid.congr (fun q hq => ?_)
      obtain ⟨b, hb, rfl⟩ := List.mem_map.1 hq
      exact hhdr b hb
    · rw [hold b hb]
      exact hi.headerFree b hb hn
    · rw [hold b (hi.objs b hb)]
      exact hi.headerFwd b hb
    · rw [hhdr b hb]
      exact hi.copyHeader b hb
  refine ⟨hcopies, hi.frame.trans ⟨rfl, rfl, rfl, rfl, rfl⟩, hi.used, hi.untracked, hi.ext,
    ?_, ?_, ?_, ?_, ?_, hi.settledSlot, ?_⟩
  · intro b hb hn hc
    by_cases he : b = t
    · subst he
      exact Or.inr (Function.update_self ..)
    · rw [hsame b he]
      exact hi.cell b hb hn hc
  · intro x hx hlt hns
    rw [hscr x ((hi.frame.inScratch x).2 hx)]
    exact hi.kept x hx hlt hns
  · intro x hx hs hns
    rw [hout x hx]
    exact hi.outer x hx hs hns
  · intro x hs hns
    rw [hout x (hslots x hs).1]
    exact hi.unsettled x hs hns
  · intro x hx
    rw [hout x (hslots x (hi.settledSlot x hx)).1]
    exact hi.link x hx
  · intro b hb hn
    have hc := hi.someCells b hb hn
    have hcb := hi.copy_bounds hb
    have hlen := hc.1.1
    have hused := hi.toUsed_le
    rw [hscr (φ b) ⟨by omega, by omega⟩]
    exact hc

/-- Copying a SOME cell whose reference has survived. -/
theorem copyCell (hok : HeapOk inSpace h live)
    (hi : WeakInv inSpace h slots cells c₀ copied₀ φ₀ copied φ settled c)
    (hslots : SlotsOk inSpace h copied₀ φ₀ c₀ slots)
    (hused₀ : ∀ a, slots a → c₀.InScratch a → a < c₀.toStart + 8 * c₀.toUsed) {t p : Nat}
    (ht : t ∈ h.objs) (hnew : t ∉ copied) (hcell : IsSomeCell h t)
    (hp : p = c.toStart + 8 * (c.toUsed + 1))
    (hout : Outside inSpace (h.relocate φ true (h.mem t)))
    (hlinked : Linked copied φ (h.mem t) (h.relocate φ true (h.mem t)))
    (htgt : ∀ u, h.target true (h.mem t) = some u → u ∈ copied) {c' : Collector}
    (hc' : c' = { c with
      toUsed := c.toUsed + 2
      mem := Function.update (Function.update (Function.update c.mem (p - 8) (h.mem (t - 8)))
        p (h.relocate φ true (h.mem t))) (t - 8) (tombstone p) }) :
    WeakInv inSpace h slots cells c₀ copied₀ φ₀ (copied ++ [t]) (Function.update φ t p) settled c' := by
  have hroom := hi.room ht hnew
  have hlen := hcell.1
  have hframe : SameFrame c c' := by
    rw [hc']
    exact ⟨rfl, rfl, rfl, rfl, rfl⟩
  have hmem : c'.mem = Function.update (Function.update (Function.update c.mem (p - 8)
    (h.mem (t - 8))) p (h.relocate φ true (h.mem t))) (t - 8) (tombstone p) := by rw [hc']
  have hfrom : ∀ a, inSpace a → a ≠ p - 8 ∧ a ≠ p := by
    intro a ha
    refine ⟨?_, ?_⟩
    · rintro rfl
      exact hi.scratch.apart _ ⟨by omega, by omega⟩ ha
    · rintro rfl
      exact hi.scratch.apart _ ⟨by omega, by omega⟩ ha
  have htH := hfrom _ (hok.inHeader t ht)
  have hother : ∀ a, a ≠ p - 8 → a ≠ p → a ≠ t - 8 → c'.mem a = c.mem a := by
    intro a h1 h2 h3
    rw [hmem, Function.update_of_ne h3, Function.update_of_ne h2, Function.update_of_ne h1]
  have hword : c'.mem p = h.relocate φ true (h.mem t) := by
    rw [hmem, Function.update_of_ne htH.2.symm, Function.update_self]
  -- the old part of to-space, and everything outside from-space and to-space, is unchanged
  have hlow : ∀ a, ¬ inSpace a → (c.InScratch a → a < c.toStart + 8 * c.toUsed) →
      c'.mem a = c.mem a := by
    intro a ha hlt
    have hsc : ∀ x, c.toStart + 8 * c.toUsed ≤ x → x < c.toStart + 8 * c.toLen → a ≠ x := by
      rintro x h1 h2 rfl
      have := hlt ⟨by omega, by omega⟩
      omega
    refine hother a (hsc _ (by omega) (by omega)) (hsc _ (by omega) (by omega)) ?_
    rintro rfl
    exact ha (hok.inHeader t ht)
  have hlow' : ∀ a, c.toStart ≤ a → a + 8 ≤ c.toStart + 8 * c.toUsed → c'.mem a = c.mem a := by
    intro a h1 h2
    exact hlow a (hi.scratch.apart a ⟨by omega, by omega⟩) (fun _ => by omega)
  have hφ : ∀ b ∈ copied, Function.update φ t p b = φ b := fun b hb =>
    Function.update_of_ne (ne_of_mem_of_not_mem hb hnew) _ _
  have hext : Extends copied φ (copied ++ [t]) (Function.update φ t p) :=
    ⟨List.prefix_append _ _, hφ⟩
  have hused₁ : c₀.toStart + 8 * c₀.toUsed ≤ c.toStart + 8 * c.toUsed := by
    have h1 := hi.used
    have h2 := hi.frame.toStart
    omega
  have hcopies : Copies inSpace h (copied ++ [t]) (Function.update φ t p) c' := by
    refine hi.toCopies.add ht hnew hp hframe (by rw [hc', hlen]) ?_ ?_ (fun b hb hne => ?_)
      (fun b hb => ?_)
    · rw [hmem, Function.update_self]
    · rw [hmem, Function.update_of_ne htH.1.symm, Function.update_of_ne (by omega),
        Function.update_self]
    · have h1 := hfrom _ (hok.inHeader b hb)
      have h2 := hok.pos b hb
      have h3 := hok.pos t ht
      exact hother _ h1.1 h1.2 (by omega)
    · have hcb := hi.copy_bounds hb
      exact hlow' _ (by omega) (by omega)
  refine ⟨hcopies, hi.frame.trans hframe, by rw [hc']; have := hi.used; dsimp only; omega,
    by rw [hc']; exact hi.untracked, hi.ext.trans hext, ?_, ?_, ?_, ?_, ?_, hi.settledSlot, ?_⟩
  · intro b hb hn hc
    rw [List.mem_append, not_or, List.mem_singleton] at hn
    have h1 := hfrom _ (hok.inStart b hb)
    rw [hother b h1.1 h1.2 ?_]
    · exact hi.cell b hb hn.1 hc
    · have h2 := hok.pos t ht
      have h3 := hok.pos b hb
      have h4 := hc.1
      rcases hok.separate b hb t ht with rfl | hlt | hlt <;> omega
  · intro a ha hlt hns
    rw [hlow a (hi.scratch.apart a ((hi.frame.inScratch a).2 ha)) (fun _ => by omega)]
    exact hi.kept a ha hlt hns
  · intro a ha hs hns
    rw [hlow a ha (fun hc => absurd ((hi.frame.inScratch a).1 hc) hs)]
    exact (hi.outer a ha hs hns).imp_right (fun hl => ⟨hl.1, hl.2.1, hl.2.2.extend hext⟩)
  · intro a hs hns
    rw [hlow a (hslots a hs).1 (fun hc => by
      have := hused₀ a hs ((hi.frame.inScratch a).1 hc)
      omega)]
    exact hi.unsettled a hs hns
  · intro a ha
    have hs := hi.settledSlot a ha
    rw [hlow a (hslots a hs).1 (fun hc => by
      have := hused₀ a hs ((hi.frame.inScratch a).1 hc)
      omega)]
    exact ⟨(hi.link a ha).1.extend hext, (hi.link a ha).2⟩
  · intro b hb hn
    rcases List.mem_append.1 hb with hb | hb
    · obtain ⟨hc, hw, ho, hl, hu⟩ := hi.someCells b hb hn
      have hcb := hi.copy_bounds hb
      have hlen' := hc.1
      rw [hφ b hb, hlow' _ (by omega) (by omega)]
      refine ⟨hc, ?_, ho, hl.extend hext, fun u htu => hext.mem (hu u htu)⟩
      rw [hw]
      exact (HeapView.relocate_congr (fun u htu => hφ u (hu u htu))).symm
    · obtain rfl := List.mem_singleton.1 hb
      rw [Function.update_self, hword]
      refine ⟨hcell, ?_, hout, hlinked.extend hext, fun u htu => hext.mem (htgt u htu)⟩
      exact (HeapView.relocate_congr (fun u htu => hφ u (htgt u htu))).symm

end WeakInv

/-! ## One link -/

theorem WeakInv.congrSettled {settled' : Nat → Prop}
    (hi : WeakInv inSpace h slots cells c₀ copied₀ φ₀ copied φ settled c)
    (heq : ∀ a, settled a ↔ settled' a) :
    WeakInv inSpace h slots cells c₀ copied₀ φ₀ copied φ settled' c := by
  rwa [show settled' = settled from funext (fun a => propext (heq a).symm)]

theorem isTombstone_iff (hok : HeapOk inSpace h live) (hi : Copies inSpace h copied φ c) {b : Nat}
    (hb : b ∈ h.objs) : isTombstone (c.mem (b - 8)) = true ↔ b ∈ copied := by
  by_cases hc : b ∈ copied
  · simp [hc, hi.headerFwd b hc, isTombstone_tombstone]
  · simp [hc, hi.headerFree b hb hc, hok.valid b hb]

/-- A reference that is the body of a copied object is relocated to the start of the copy. -/
theorem relocate_body (hok : HeapOk inSpace h live) {r : PolyWord} (htag : r.isTagged = false)
    (hr : r.addr ∈ h.objs) :
    h.target true r = some r.addr ∧ h.relocate φ true r = PolyWord.fromAddr (φ r.addr) := by
  have hcon : h.container r.addr = some r.addr :=
    (HeapView.container_eq_some hok.separate hok.pos).2 ⟨hr, Nat.le_refl _, by omega⟩
  have htgt : h.target true r = some r.addr := by
    simp only [HeapView.target, htag, Bool.and_false, Bool.false_eq_true, if_false, hcon]
  refine ⟨htgt, ?_⟩
  rw [HeapView.relocate_of_target htgt, Nat.sub_self, Nat.add_zero]

/-- A permanent reference has no target. -/
theorem relocate_permanent (hi : Copies inSpace h copied φ c) {r : PolyWord}
    (hout : ¬ inSpace r.addr) : h.target true r = none := by
  cases ht : h.target true r with
  | none => rfl
  | some t =>
    have hcon := HeapView.target_container ht
    exact absurd (hi.table.covered t (HeapView.container_mem hcon) _
      (HeapView.container_covers hcon)) hout

theorem outside_tagged_zero : Outside inSpace (PolyWord.tagged 0) := Or.inl (by decide)

section Link

variable {s : Nat} (hok : HeapOk inSpace h live) (hslots : SlotsOk inSpace h copied₀ φ₀ c₀ slots)
variable (hi : WeakInv inSpace h slots cells c₀ copied₀ φ₀ copied φ settled c) (hs : slots s)

include hok hslots hi hs

/-- The link is rewritten. -/
theorem WeakInv.settle {w : PolyWord} (hlink : Linked copied φ (c₀.mem s) w)
    (hout : Outside inSpace w) :
    WeakInv inSpace h slots cells c₀ copied₀ φ₀ copied φ (fun x => settled x ∨ x = s) (c.write s w) := by
  have hw := hi.write hok hslots (hslots s hs).1 (Or.inl hs) hlink hout (fun hn => absurd hs hn)
  rwa [show (fun x => settled x ∨ (x = s ∧ slots s)) = fun x => settled x ∨ x = s from
    funext (fun x => by simp [hs])] at hw

/-- The link is emptied. -/
theorem WeakInv.demote :
    WeakInv inSpace h slots cells c₀ copied₀ φ₀ copied φ (fun x => settled x ∨ x = s)
      (c.write s (PolyWord.tagged 0)) :=
  hi.settle hok hslots hs (Or.inr (Or.inl rfl)) outside_tagged_zero

/-- The link stays as it is. -/
theorem WeakInv.keep (hm : c.mem s = c₀.mem s) (hout : Outside inSpace (c₀.mem s)) :
    WeakInv inSpace h slots cells c₀ copied₀ φ₀ copied φ (fun x => settled x ∨ x = s) c := by
  have hw := hi.settle hok hslots hs (Or.inl rfl) hout
  rwa [Collector.write, ← hm, Function.update_eq_self] at hw

/-- The link follows its cell. -/
theorem WeakInv.follow (hsc : c.ScratchApart inSpace) (hc : (c₀.mem s).addr ∈ copied) :
    WeakInv inSpace h slots cells c₀ copied₀ φ₀ copied φ (fun x => settled x ∨ x = s)
      (c.write s (PolyWord.fromAddr (φ (c₀.mem s).addr))) :=
  hi.settle hok hslots hs (Or.inr (Or.inr ⟨hc, rfl⟩)) (hi.outside_copy hsc hc)

end Link

/-- What the fixup of the link `s` does: the collector `c`, in which `copied` have gone to `φ`,
becomes another one, in which one more SOME cell may have been copied. -/
inductive WeakStep (inSpace : Nat → Prop) (h : HeapView) (c₀ : Collector) (copied : List Nat)
    (φ : Nat → Nat) (c : Collector) (s : Nat) : List Nat → (Nat → Nat) → Collector → Prop
  | empty (htag : (c₀.mem s).isTagged = true) : WeakStep inSpace h c₀ copied φ c s copied φ c
  /-- A permanent cell that was found dead before. -/
  | permEmptied (htag : (c₀.mem s).isTagged = false) (hperm : ¬ inSpace (c₀.mem s).addr)
      (htagR : (c.mem (c₀.mem s).addr).isTagged = true) :
      WeakStep inSpace h c₀ copied φ c s copied φ (c.write s (PolyWord.tagged 0))
  | permKept (htag : (c₀.mem s).isTagged = false) (hperm : ¬ inSpace (c₀.mem s).addr)
      (htagR : (c.mem (c₀.mem s).addr).isTagged = false)
      (hout : ¬ inSpace (c.mem (c₀.mem s).addr).addr) : WeakStep inSpace h c₀ copied φ c s copied φ c
  | permForwarded (htag : (c₀.mem s).isTagged = false) (hperm : ¬ inSpace (c₀.mem s).addr)
      (hsame : c.mem (c₀.mem s).addr = c₀.mem (c₀.mem s).addr)
      (htagR : (c₀.mem (c₀.mem s).addr).isTagged = false)
      (hin : inSpace (c₀.mem (c₀.mem s).addr).addr)
      (hc : (c₀.mem (c₀.mem s).addr).addr ∈ copied) :
      WeakStep inSpace h c₀ copied φ c s copied φ
        (c.write (c₀.mem s).addr (PolyWord.fromAddr (φ (c₀.mem (c₀.mem s).addr).addr)))
  | permCleared (htag : (c₀.mem s).isTagged = false) (hperm : ¬ inSpace (c₀.mem s).addr)
      (hsame : c.mem (c₀.mem s).addr = c₀.mem (c₀.mem s).addr)
      (htagR : (c₀.mem (c₀.mem s).addr).isTagged = false)
      (hin : inSpace (c₀.mem (c₀.mem s).addr).addr)
      (hc : (c₀.mem (c₀.mem s).addr).addr ∉ copied) :
      WeakStep inSpace h c₀ copied φ c s copied φ
        ((c.write (c₀.mem s).addr (PolyWord.tagged 0)).write s (PolyWord.tagged 0))
  | followed (htag : (c₀.mem s).isTagged = false) (hc : (c₀.mem s).addr ∈ copied) :
      WeakStep inSpace h c₀ copied φ c s copied φ
        (c.write s (PolyWord.fromAddr (φ (c₀.mem s).addr)))
  | noCell (htag : (c₀.mem s).isTagged = false) (ht : (c₀.mem s).addr ∈ h.objs)
      (hnew : (c₀.mem s).addr ∉ copied) (hcell : ¬ IsSomeCell h (c₀.mem s).addr) :
      WeakStep inSpace h c₀ copied φ c s copied φ (c.write s (PolyWord.tagged 0))
  /-- A cell that was found dead before. -/
  | emptied (htag : (c₀.mem s).isTagged = false) (ht : (c₀.mem s).addr ∈ h.objs)
      (hnew : (c₀.mem s).addr ∉ copied) (hcell : IsSomeCell h (c₀.mem s).addr)
      (htagR : (c.mem (c₀.mem s).addr).isTagged = true) :
      WeakStep inSpace h c₀ copied φ c s copied φ (c.write s (PolyWord.tagged 0))
  | cleared (htag : (c₀.mem s).isTagged = false) (ht : (c₀.mem s).addr ∈ h.objs)
      (hnew : (c₀.mem s).addr ∉ copied) (hcell : IsSomeCell h (c₀.mem s).addr)
      (htagR : (h.mem (c₀.mem s).addr).isTagged = false)
      (hin : inSpace (h.mem (c₀.mem s).addr).addr)
      (hc : (h.mem (c₀.mem s).addr).addr ∉ copied) :
      WeakStep inSpace h c₀ copied φ c s copied φ
        ((c.write (c₀.mem s).addr (PolyWord.tagged 0)).write s (PolyWord.tagged 0))
  | moved (htag : (c₀.mem s).isTagged = false) (ht : (c₀.mem s).addr ∈ h.objs)
      (hnew : (c₀.mem s).addr ∉ copied) (hcell : IsSomeCell h (c₀.mem s).addr)
      (htagR : (h.mem (c₀.mem s).addr).isTagged = false)
      (hc : inSpace (h.mem (c₀.mem s).addr).addr → (h.mem (c₀.mem s).addr).addr ∈ copied)
      {p : Nat} (hp : p = c.toStart + 8 * (c.toUsed + 1)) {c' : Collector}
      (hc' : c' = { c with
        toUsed := c.toUsed + 2
        mem := Function.update (Function.update (Function.update c.mem (p - 8)
          (h.mem ((c₀.mem s).addr - 8))) p (h.relocate φ true (h.mem (c₀.mem s).addr)))
            ((c₀.mem s).addr - 8) (tombstone p) }) :
      WeakStep inSpace h c₀ copied φ c s (copied ++ [(c₀.mem s).addr])
        (Function.update φ (c₀.mem s).addr p) (c'.write s (PolyWord.fromAddr p))

section Link

variable {s : Nat} (hok : HeapOk inSpace h live) (hslots : SlotsOk inSpace h copied₀ φ₀ c₀ slots)
variable (hi : WeakInv inSpace h slots cells c₀ copied₀ φ₀ copied φ settled c) (hs : slots s)

include hok hslots hi hs

omit hslots in
/-- A link to a permanent SOME cell: the cell's reference decides. -/
theorem weakSlot_permanent (hsc : c.ScratchApart inSpace) (hns : ¬ settled s)
    (htag : (c₀.mem s).isTagged = false) (hperm : ¬ inSpace (c₀.mem s).addr)
    (hscr : ¬ c₀.InScratch (c₀.mem s).addr) (hcell : ¬ slots (c₀.mem s).addr)
    (hr : RefOk inSpace h (c₀.mem (c₀.mem s).addr)) :
    ∃ c', c.weakSlot s = some c' ∧ WeakStep inSpace h c₀ copied φ c s copied φ c' := by
  have hread := hi.unsettled s hs hns
  have hfs : ∀ a, c.inFromSpace a = true ↔ inSpace a := hi.table.inFromSpace
  have hfsw : c.inFromSpace (c₀.mem s).addr = false :=
    Bool.eq_false_iff.2 (fun hc => hperm ((hfs _).1 hc))
  -- a reference into from-space has not been touched yet
  have href : Outside inSpace (c.mem (c₀.mem s).addr) ∨
      c.mem (c₀.mem s).addr = c₀.mem (c₀.mem s).addr ∧
        (c.mem (c₀.mem s).addr).addr ∈ h.objs := by
    rcases hi.outer (c₀.mem s).addr hperm hscr hcell with he | ⟨-, -, hl⟩
    · rw [he]
      exact hr.imp_right (fun hm => ⟨rfl, hm⟩)
    · rcases hl with he | he | ⟨hc, he⟩
      · rw [he]
        exact hr.imp_right (fun hm => ⟨rfl, hm⟩)
      · rw [he]
        exact Or.inl outside_tagged_zero
      · rw [he]
        exact Or.inl (hi.outside_copy hsc hc)
  by_cases htagR : (c.mem (c₀.mem s).addr).isTagged = true
  · refine ⟨_, ?_, .permEmptied htag hperm htagR⟩
    simp [Collector.weakSlot, hread, htag, hfsw, htagR]
  rw [Bool.not_eq_true] at htagR
  by_cases hinR : inSpace (c.mem (c₀.mem s).addr).addr
  · obtain ⟨hsame, hobj⟩ := href.resolve_left (fun ho => ho.elim (by simp [htagR]) (absurd hinR))
    rw [hsame] at htagR hinR hobj
    have hfsR := (hfs _).2 hinR
    by_cases hc : (c₀.mem (c₀.mem s).addr).addr ∈ copied
    · refine ⟨_, ?_, .permForwarded htag hperm hsame htagR hinR hc⟩
      simp [Collector.weakSlot, hread, htag, hfsw, hsame, htagR, hfsR, wordBytes,
          hi.headerFwd _ hc, isTombstone_tombstone, forwardPtr_tombstone (hi.copy_lt hc)]
    · have hdead : isTombstone (c.mem ((c₀.mem (c₀.mem s).addr).addr - 8)) = false :=
        Bool.eq_false_iff.2 (fun ht => hc ((isTombstone_iff hok hi.toCopies hobj).1 ht))
      refine ⟨_, ?_, .permCleared htag hperm hsame htagR hinR hc⟩
      simp [Collector.weakSlot, hread, htag, hfsw, hsame, htagR, hfsR, wordBytes, hdead]
  · have hfsR : c.inFromSpace (c.mem (c₀.mem s).addr).addr = false :=
      Bool.eq_false_iff.2 (fun hc => hinR ((hfs _).1 hc))
    refine ⟨c, ?_, .permKept htag hperm htagR hinR⟩
    simp [Collector.weakSlot, hread, htag, hfsw, htagR, hfsR]

omit hslots in
/-- A link to an object: it follows a copied one, a SOME cell with a surviving reference is copied
now, and every other link is emptied. -/
theorem weakSlot_object (hns : ¬ settled s) (htag : (c₀.mem s).isTagged = false)
    (hmem : (c₀.mem s).addr ∈ h.objs)
    (hr : IsSomeCell h (c₀.mem s).addr → RefOk inSpace h (h.mem (c₀.mem s).addr)) :
    ∃ c' copied' φ', c.weakSlot s = some c' ∧
      WeakStep inSpace h c₀ copied φ c s copied' φ' c' := by
  have hread := hi.unsettled s hs hns
  have hfs : ∀ a, c.inFromSpace a = true ↔ inSpace a := hi.table.inFromSpace
  have hfst : c.inFromSpace (c₀.mem s).addr = true := (hfs _).2 (hok.inStart _ hmem)
  by_cases hc : (c₀.mem s).addr ∈ copied
  · refine ⟨_, copied, φ, ?_, .followed htag hc⟩
    simp [Collector.weakSlot, hread, htag, hfst, wordBytes, hi.headerFwd _ hc,
      isTombstone_tombstone, forwardPtr_tombstone (hi.copy_lt hc)]
  have hhdr := hi.headerFree _ hmem hc
  have hvalid := hok.valid _ hmem
  by_cases hcell : IsSomeCell h (c₀.mem s).addr
  swap
  · refine ⟨_, copied, φ, ?_, .noCell htag hmem hc hcell⟩
    have hshape : lengthOf (h.mem ((c₀.mem s).addr - 8)) ≠ 1 ∨
        typeOf (h.mem ((c₀.mem s).addr - 8)) ≠ 0#8 := by
      by_contra hcon
      rw [not_or, not_not, not_not] at hcon
      exact hcell hcon
    simp only [Collector.weakSlot, hread, htag, hfst, wordBytes, hhdr, hvalid, if_pos hshape,
      Bool.false_eq_true, if_false, Bool.not_true]
  have hshape : ¬ (lengthOf (h.mem ((c₀.mem s).addr - 8)) ≠ 1 ∨
      typeOf (h.mem ((c₀.mem s).addr - 8)) ≠ 0#8) := by
    rw [not_or, not_not, not_not]
    exact hcell
  by_cases htagR : (c.mem (c₀.mem s).addr).isTagged = true
  · refine ⟨_, copied, φ, ?_, .emptied htag hmem hc hcell htagR⟩
    simp only [Collector.weakSlot, hread, htag, hfst, wordBytes, hhdr, hvalid, if_neg hshape,
      htagR, Bool.false_eq_true, if_false, Bool.not_true, if_true]
  have hsame : c.mem (c₀.mem s).addr = h.mem (c₀.mem s).addr :=
    (hi.cell _ hmem hc hcell).resolve_right (fun he => by
      rw [he] at htagR
      exact htagR (by decide))
  rw [Bool.not_eq_true, hsame] at htagR
  by_cases hdead : inSpace (h.mem (c₀.mem s).addr).addr ∧ (h.mem (c₀.mem s).addr).addr ∉ copied
  · obtain ⟨hinR, hcR⟩ := hdead
    have hobj : (h.mem (c₀.mem s).addr).addr ∈ h.objs :=
      (hr hcell).resolve_left (fun ho => ho.elim (by simp [htagR]) (absurd hinR))
    have hnot : isTombstone (c.mem ((h.mem (c₀.mem s).addr).addr - 8)) = false :=
      Bool.eq_false_iff.2 (fun ht => hcR ((isTombstone_iff hok hi.toCopies hobj).1 ht))
    refine ⟨_, copied, φ, ?_, .cleared htag hmem hc hcell htagR hinR hcR⟩
    simp [Collector.weakSlot, hread, htag, hfst, wordBytes, hhdr, hvalid, if_neg hshape,
      hsame, htagR, (hfs _).2 hinR, hnot]
  -- the reference survives
  have hlive : inSpace (h.mem (c₀.mem s).addr).addr → (h.mem (c₀.mem s).addr).addr ∈ copied := by
    intro hinR
    by_contra hcon
    exact hdead ⟨hinR, hcon⟩
  have hroom := hi.room hmem hc
  have hlen := hcell.1
  have hlen' : lengthOf (h.mem ((c₀.mem s).addr - 8)) = 1 := hlen
  have hbump : c.bumpTo 1 = some ({ c with toUsed := c.toUsed + 2 },
      c.toStart + 8 * (c.toUsed + 1)) := by
    simp only [Collector.bumpTo, wordBytes]
    rw [if_pos (by omega)]
  have hheader : makeLengthWord 1 (flagsOf (h.mem ((c₀.mem s).addr - 8))) =
      h.mem ((c₀.mem s).addr - 8) := by
    rw [← hlen', makeLengthWord_lengthOf_flagsOf]
  have hnewRef : (if c.inFromSpace (h.mem (c₀.mem s).addr).addr then
        PolyWord.fromAddr (forwardPtr (c.mem ((h.mem (c₀.mem s).addr).addr - 8)))
      else h.mem (c₀.mem s).addr) = h.relocate φ true (h.mem (c₀.mem s).addr) := by
    by_cases hinR : inSpace (h.mem (c₀.mem s).addr).addr
    · have hcR := hlive hinR
      rw [if_pos ((hfs _).2 hinR), hi.headerFwd _ hcR, forwardPtr_tombstone (hi.copy_lt hcR),
        (relocate_body hok htagR (hi.objs _ hcR)).2]
    · rw [if_neg (fun hcon => hinR ((hfs _).1 hcon)),
        HeapView.relocate_of_target_none (relocate_permanent hi.toCopies hinR)]
  have halive : (c.inFromSpace (h.mem (c₀.mem s).addr).addr &&
      !isTombstone (c.mem ((h.mem (c₀.mem s).addr).addr - 8))) = false := by
    by_cases hinR : inSpace (h.mem (c₀.mem s).addr).addr
    · rw [hi.headerFwd _ (hlive hinR), isTombstone_tombstone, Bool.not_true, Bool.and_false]
    · rw [Bool.eq_false_iff.2 (fun hcon => hinR ((hfs _).1 hcon)), Bool.false_and]
  refine ⟨_, _, _, ?_, .moved htag hmem hc hcell htagR hlive rfl rfl⟩
  simp only [Collector.weakSlot, hread, htag, hfst, wordBytes, hhdr, hvalid, if_neg hshape,
    hsame, htagR, halive, hbump, hheader, hnewRef, Bool.false_eq_true, if_false, Bool.not_true,
    Option.bind_eq_bind, Option.bind_some, Collector.write]

omit hslots in
/-- The fixup of one link takes a step. -/
theorem weakSlot_step (hsc : c.ScratchApart inSpace) (hns : ¬ settled s)
    (hl : LinkOk inSpace h slots cells c₀ (c₀.mem s)) :
    ∃ c' copied' φ', c.weakSlot s = some c' ∧
      WeakStep inSpace h c₀ copied φ c s copied' φ' c' := by
  cases htag : (c₀.mem s).isTagged with
  | true =>
    refine ⟨c, copied, φ, ?_, .empty htag⟩
    simp only [Collector.weakSlot, hi.unsettled s hs hns, htag, if_true]
  | false =>
    rcases hl with hl | ⟨-, hperm, hscr, hcell, hr⟩ | ⟨hmem, hr⟩
    · rw [htag] at hl
      cases hl
    · obtain ⟨c', hrun, hstep⟩ :=
        weakSlot_permanent hok hi hs hsc hns htag hperm hscr hcell hr
      exact ⟨c', copied, φ, hrun, hstep⟩
    · exact weakSlot_object hok hi hs hns htag hmem hr

omit hslots hs in
/-- A reference that survives leads, relocated, out of every from-space. -/
theorem WeakInv.survivor (hsc : c.ScratchApart inSpace) {r : PolyWord}
    (htag : r.isTagged = false) (hc : inSpace r.addr → r.addr ∈ copied) :
    Outside inSpace (h.relocate φ true r) ∧ Linked copied φ r (h.relocate φ true r) ∧
      ∀ u, h.target true r = some u → u ∈ copied := by
  by_cases hin : inSpace r.addr
  · have hcR := hc hin
    have hrel : h.target true r = some r.addr ∧
        h.relocate φ true r = PolyWord.fromAddr (φ r.addr) :=
      relocate_body hok htag (hi.objs _ hcR)
    rw [hrel.2]
    refine ⟨hi.outside_copy hsc hcR, Or.inr (Or.inr ⟨hcR, rfl⟩), fun u hu => ?_⟩
    rw [hrel.1] at hu
    exact Option.some.inj hu ▸ hcR
  · have hnone := relocate_permanent hi.toCopies hin
    rw [HeapView.relocate_of_target_none hnone]
    refine ⟨Or.inr hin, Or.inl rfl, fun u hu => ?_⟩
    rw [hnone] at hu
    cases hu

/-- A step settles its link. -/
theorem WeakStep.inv (hused₀ : ∀ a, slots a → c₀.InScratch a → a < c₀.toStart + 8 * c₀.toUsed)
    (hsc : c.ScratchApart inSpace) (hns : ¬ settled s)
    (hl : LinkOk inSpace h slots cells c₀ (c₀.mem s)) {copied' : List Nat} {φ' : Nat → Nat}
    {c' : Collector} (hstep : WeakStep inSpace h c₀ copied φ c s copied' φ' c') :
    WeakInv inSpace h slots cells c₀ copied₀ φ₀ copied' φ' (fun x => settled x ∨ x = s) c' := by
  have hread := hi.unsettled s hs hns
  -- a permanent cell is no link, so writing it settles nothing
  have hpermCell : (c₀.mem s).isTagged = false → ¬ inSpace (c₀.mem s).addr →
      cells (c₀.mem s).addr ∧ ¬ c₀.InScratch (c₀.mem s).addr ∧ ¬ slots (c₀.mem s).addr := by
    intro htag hperm
    rcases hl with hl | ⟨hcl, -, hscr, hcell, -⟩ | ⟨hmem, -⟩
    · rw [htag] at hl
      cases hl
    · exact ⟨hcl, hscr, hcell⟩
    · exact absurd (hok.inStart _ hmem) hperm
  have hwrite : ∀ {w : PolyWord}, (c₀.mem s).isTagged = false → ¬ inSpace (c₀.mem s).addr →
      (c₀.mem (c₀.mem s).addr).isTagged = false → inSpace (c₀.mem (c₀.mem s).addr).addr →
      Linked copied φ (c₀.mem (c₀.mem s).addr) w → Outside inSpace w →
      WeakInv inSpace h slots cells c₀ copied₀ φ₀ copied φ settled
        (c.write (c₀.mem s).addr w) := by
    intro w htag hperm htagR hin hlink hout
    obtain ⟨hcl, hscr, hcell⟩ := hpermCell htag hperm
    have hin₀ : ¬ Outside inSpace (c₀.mem (c₀.mem s).addr) :=
      fun ho => ho.elim (by simp [htagR]) (absurd hin)
    have hwr := hi.write hok hslots hperm (Or.inr hscr) hlink hout (fun _ => ⟨hcl, hin₀⟩)
    exact hwr.congrSettled (fun x => by simp [hcell])
  cases hstep with
  | empty htag => exact hi.keep hok hslots hs hread (Or.inl htag)
  | permEmptied => exact hi.demote hok hslots hs
  | permKept htag hperm => exact hi.keep hok hslots hs hread (Or.inr hperm)
  | permForwarded htag hperm hsame htagR hin hc =>
    have hwr := hwrite htag hperm htagR hin (Or.inr (Or.inr ⟨hc, rfl⟩)) (hi.outside_copy hsc hc)
    refine hwr.keep hok hslots hs ?_ (Or.inr hperm)
    have hne : s ≠ (c₀.mem s).addr := fun he => (hpermCell htag hperm).2.2 (he ▸ hs)
    exact (Function.update_of_ne hne _ _).trans hread
  | permCleared htag hperm hsame htagR hin hc =>
    have hwr := hwrite htag hperm htagR hin (Or.inr (Or.inl rfl)) outside_tagged_zero
    exact hwr.demote hok hslots hs
  | followed htag hc => exact hi.follow hok hslots hs hsc hc
  | noCell => exact hi.demote hok hslots hs
  | emptied => exact hi.demote hok hslots hs
  | cleared htag ht hnew hcell htagR hin hc =>
    exact (hi.clear hok hslots ht hcell).demote hok hslots hs
  | @moved htag ht hnew hcell htagR hc p hp c₁ hc' =>
    obtain ⟨hout, hlinked, htgt⟩ := hi.survivor hok hsc htagR hc
    have hcopy := hi.copyCell hok hslots hused₀ ht hnew hcell hp hout hlinked htgt hc'
    have hframe : SameFrame c c₁ := by
      rw [hc']
      exact ⟨rfl, rfl, rfl, rfl, rfl⟩
    have hfollow := hcopy.follow hok hslots hs (hframe.scratchApart hsc) (by simp)
    rwa [Function.update_self] at hfollow

end Link

/-! ## All links -/

/-- The word `a` is a link of the weak object at `body`, which has `n` of them. -/
def LinkOf (body n a : Nat) : Prop := ∃ i < n, a = body + 8 * i

/-- A property of the settled links, the copied objects and the collector that every step of the
fixup keeps. -/
def KeptBySteps (inSpace : Nat → Prop) (h : HeapView) (slots cells : Nat → Prop) (c₀ : Collector)
    (copied₀ : List Nat) (φ₀ : Nat → Nat)
    (P : (Nat → Prop) → List Nat → (Nat → Nat) → Collector → Prop) : Prop :=
  ∀ settled copied φ c s copied' φ' c',
    WeakInv inSpace h slots cells c₀ copied₀ φ₀ copied φ settled c → slots s → ¬ settled s →
    LinkOk inSpace h slots cells c₀ (c₀.mem s) → P settled copied φ c →
    WeakStep inSpace h c₀ copied φ c s copied' φ' c' →
    P (fun x => settled x ∨ x = s) copied' φ' c'

section Loop

variable {P : (Nat → Prop) → List Nat → (Nat → Nat) → Collector → Prop}
variable (hok : HeapOk inSpace h live) (hslots : SlotsOk inSpace h copied₀ φ₀ c₀ slots)
variable (hused₀ : ∀ a, slots a → c₀.InScratch a → a < c₀.toStart + 8 * c₀.toUsed)
variable (hsc : c₀.ScratchApart inSpace)
variable (hP : KeptBySteps inSpace h slots cells c₀ copied₀ φ₀ P)

include hok hslots hused₀ hsc hP

theorem weakSlots_spec {body n : Nat}
    (hi : WeakInv inSpace h slots cells c₀ copied₀ φ₀ copied φ settled c)
    (hp : P settled copied φ c)
    (hlink : ∀ a, LinkOf body n a →
      slots a ∧ ¬ settled a ∧ LinkOk inSpace h slots cells c₀ (c₀.mem a)) :
    ∃ c' copied' φ', c.weakSlots body n = some c' ∧
      WeakInv inSpace h slots cells c₀ copied₀ φ₀ copied' φ'
        (fun x => settled x ∨ LinkOf body n x) c' ∧
      P (fun x => settled x ∨ LinkOf body n x) copied' φ' c' := by
  induction n with
  | zero =>
    have hsame : (fun x => settled x ∨ LinkOf body 0 x) = settled :=
      funext (fun x => by simp [LinkOf])
    rw [hsame]
    exact ⟨c, copied, φ, rfl, hi, hp⟩
  | succ n ih =>
    obtain ⟨c₁, copied₁, φ₁, hrun₁, hi₁, hp₁⟩ :=
      ih (fun a ⟨i, hil, he⟩ => hlink a ⟨i, by omega, he⟩)
    obtain ⟨hs, hns, hl⟩ := hlink (body + 8 * n) ⟨n, by omega, rfl⟩
    have hns₁ : ¬ (settled (body + 8 * n) ∨ LinkOf body n (body + 8 * n)) := by
      rintro (hd | ⟨i, hil, he⟩)
      · exact hns hd
      · omega
    have hsc₁ := hi₁.frame.scratchApart hsc
    obtain ⟨c', copied', φ', hrun, hstep⟩ := weakSlot_step hok hi₁ hs hsc₁ hns₁ hl
    have hsame : (fun x => (settled x ∨ LinkOf body n x) ∨ x = body + 8 * n) =
        fun x => settled x ∨ LinkOf body (n + 1) x := by
      refine funext (fun x => propext ⟨?_, ?_⟩)
      · rintro ((hd | ⟨i, hil, he⟩) | he)
        · exact Or.inl hd
        · exact Or.inr ⟨i, by omega, he⟩
        · exact Or.inr ⟨n, by omega, he⟩
      · rintro (hd | ⟨i, hil, he⟩)
        · exact Or.inl (Or.inl hd)
        · rcases Nat.lt_succ_iff_lt_or_eq.1 hil with hil | rfl
          · exact Or.inl (Or.inr ⟨i, hil, he⟩)
          · exact Or.inr he
    refine ⟨c', copied', φ', ?_, ?_, ?_⟩
    · rw [Collector.weakSlots, hrun₁, Option.bind_eq_bind, Option.bind_some, wordBytes]
      exact hrun
    · rw [← hsame]
      exact hstep.inv hok hslots hi₁ hs hused₀ hsc₁ hns₁ hl
    · rw [← hsame]
      exact hP _ _ _ _ _ _ _ _ hi₁ hs hns₁ hl hp₁ hstep

end Loop

/-- What the fixup may be given: the bodies it visits do not overlap, their length words are no
links and no SOME cells, and their links are good. -/
structure WeakOk (inSpace : Nat → Prop) (h : HeapView) (slots cells : Nat → Prop) (c₀ : Collector)
    (bodies : List Nat) : Prop where
  disjoint : bodies.Pairwise (fun p q => ∀ a, LinkOf p (c₀.mem.objLen p) a →
    ¬ LinkOf q (c₀.mem.objLen q) a)
  header : ∀ p ∈ bodies, ¬ inSpace (p - 8) ∧ ¬ slots (p - 8) ∧ ¬ cells (p - 8) ∧
    (c₀.InScratch (p - 8) → p - 8 < c₀.toStart + 8 * c₀.toUsed)
  link : ∀ p ∈ bodies, ∀ a, LinkOf p (c₀.mem.objLen p) a →
    slots a ∧ LinkOk inSpace h slots cells c₀ (c₀.mem a)

/-- The order of the bodies does not matter. -/
theorem WeakOk.perm {bodies bodies' : List Nat} (hw : WeakOk inSpace h slots cells c₀ bodies)
    (hperm : bodies'.Perm bodies) : WeakOk inSpace h slots cells c₀ bodies' := by
  refine ⟨(hperm.pairwise_iff ?_).2 hw.disjoint, fun p hp => hw.header p (hperm.subset hp),
    fun p hp => hw.link p (hperm.subset hp)⟩
  intro p q hpq a hq hp
  exact hpq a hp hq

/-- A length word of a weak object is never rewritten. -/
theorem WeakInv.objLen_eq {bodies : List Nat}
    (hi : WeakInv inSpace h slots cells c₀ copied₀ φ₀ copied φ settled c)
    (hw : WeakOk inSpace h slots cells c₀ bodies) {p : Nat} (hp : p ∈ bodies) :
    c.mem.objLen p = c₀.mem.objLen p := by
  obtain ⟨hin, hns, hnc, hused⟩ := hw.header p hp
  have hsame : c.mem (p - 8) = c₀.mem (p - 8) := by
    by_cases hscr : c₀.InScratch (p - 8)
    · exact hi.kept _ hscr (hused hscr) hns
    · exact (hi.outer _ hin hscr hns).resolve_right (fun hc => hnc hc.1)
  simp only [Mem.objLen, wordBytes, hsame]

/-- The fixup settles the links of all bodies, and keeps what its steps keep. -/
theorem weakFixupLoop_spec {P : (Nat → Prop) → List Nat → (Nat → Nat) → Collector → Prop}
    (hok : HeapOk inSpace h live) (hslots : SlotsOk inSpace h copied₀ φ₀ c₀ slots)
    (hused₀ : ∀ a, slots a → c₀.InScratch a → a < c₀.toStart + 8 * c₀.toUsed)
    (hsc : c₀.ScratchApart inSpace) (hP : KeptBySteps inSpace h slots cells c₀ copied₀ φ₀ P)
    (bodies : List Nat) :
    ∀ (settled : Nat → Prop) (copied : List Nat) (φ : Nat → Nat) (c : Collector),
      WeakInv inSpace h slots cells c₀ copied₀ φ₀ copied φ settled c → P settled copied φ c →
      WeakOk inSpace h slots cells c₀ bodies →
      (∀ p ∈ bodies, ∀ a, LinkOf p (c₀.mem.objLen p) a → ¬ settled a) →
      ∃ c' copied' φ', c.weakFixupLoop bodies = some c' ∧
        WeakInv inSpace h slots cells c₀ copied₀ φ₀ copied' φ'
          (fun x => settled x ∨ ∃ p ∈ bodies, LinkOf p (c₀.mem.objLen p) x) c' ∧
        P (fun x => settled x ∨ ∃ p ∈ bodies, LinkOf p (c₀.mem.objLen p) x) copied' φ' c' := by
  induction bodies with
  | nil =>
    intro settled copied φ c hi hp _ _
    have hsame : (fun x => settled x ∨ ∃ p ∈ [], LinkOf p (c₀.mem.objLen p) x) = settled :=
      funext (fun x => by simp)
    rw [hsame]
    exact ⟨c, copied, φ, rfl, hi, hp⟩
  | cons p bodies ih =>
    intro settled copied φ c hi hp hw hns
    obtain ⟨hdis, hdis'⟩ := List.pairwise_cons.1 hw.disjoint
    have hlen := hi.objLen_eq hw List.mem_cons_self
    obtain ⟨c₁, copied₁, φ₁, hrun₁, hi₁, hp₁⟩ := weakSlots_spec (n := c₀.mem.objLen p) hok hslots
      hused₀ hsc hP hi hp (fun a ha => ⟨(hw.link p List.mem_cons_self a ha).1,
        hns p List.mem_cons_self a ha, (hw.link p List.mem_cons_self a ha).2⟩)
    have hw' : WeakOk inSpace h slots cells c₀ bodies :=
      ⟨hdis', fun q hq => hw.header q (List.mem_cons_of_mem _ hq),
        fun q hq => hw.link q (List.mem_cons_of_mem _ hq)⟩
    obtain ⟨c', copied', φ', hrun, hi', hp'⟩ := ih _ copied₁ φ₁ c₁ hi₁ hp₁ hw' (by
      rintro q hq a ha (hs | hp)
      · exact hns q (List.mem_cons_of_mem _ hq) a ha hs
      · exact hdis q hq a hp ha)
    have hsame : (fun x => (settled x ∨ LinkOf p (c₀.mem.objLen p) x) ∨
        ∃ q ∈ bodies, LinkOf q (c₀.mem.objLen q) x) =
        fun x => settled x ∨ ∃ q ∈ p :: bodies, LinkOf q (c₀.mem.objLen q) x :=
      funext (fun x => propext (by simp only [List.exists_mem_cons_iff, or_assoc]))
    rw [hsame] at hi' hp'
    refine ⟨c', copied', φ', ?_, hi', hp'⟩
    have hlen' : lengthOf (c.mem (p - wordBytes)) = c₀.mem.objLen p := hlen
    rw [Collector.weakFixupLoop, hlen', hrun₁, Option.bind_eq_bind, Option.bind_some]
    exact hrun

end Weak
