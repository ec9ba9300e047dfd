import PolymlRs.Gc.Weak

set_option autoImplicit false

/-! # What the weak fixup decides

In a well-typed heap a weak link holds NONE or a SOME cell, the cell holds a reference, and
references are mutable objects while SOME cells are not. Then the cells that the fixup copies are
never mistaken for survivors of the trace, and `WeakExact` can say of each settled link which of the
two it has become: NONE when the reference is dead, the moved cell when it is not. That depends on
the trace alone, and so not on the order of the links. -/

/-- The reference leads to an object that the trace has not copied. -/
def Dead (inSpace : Nat → Prop) (copied₀ : List Nat) (r : PolyWord) : Prop :=
  inSpace r.addr ∧ r.addr ∉ copied₀

/-- A SOME cell: an ordinary immutable object of one word. -/
structure SomeCell (h : HeapView) (t : Nat) : Prop where
  shape : IsSomeCell h t
  immutable : isMutable (h.mem (t - 8)) = false
  strong : isWeak (h.mem (t - 8)) = false

/-- A reference leads out of every from-space or to a mutable object. -/
def IsRef (inSpace : Nat → Prop) (h : HeapView) (r : PolyWord) : Prop :=
  r.isTagged = false ∧
    (¬ inSpace r.addr ∨ r.addr ∈ h.objs ∧ isMutable (h.mem (r.addr - 8)) = true)

/-- The link holds NONE or a SOME cell with a reference. -/
def TypedLink (inSpace : Nat → Prop) (h : HeapView) (m₀ : Mem) (w : PolyWord) : Prop :=
  w.isTagged = true ∨ (¬ inSpace w.addr ∧ IsRef inSpace h (m₀ w.addr)) ∨
    (w.addr ∈ h.objs ∧ SomeCell h w.addr ∧ IsRef inSpace h (h.mem w.addr))

/-- The cell of some link. -/
def LinkCell (slots : Nat → Prop) (c₀ : Collector) (t : Nat) : Prop :=
  ∃ s, slots s ∧ (c₀.mem s).isTagged = false ∧ (c₀.mem s).addr = t

/-- A well-typed heap after the trace: its links, the SOME cells that were traced, and where the
copies lie. -/
structure WeakTyped (inSpace : Nat → Prop) (h : HeapView) (slots cells : Nat → Prop)
    (c₀ : Collector) (copied₀ : List Nat) (φ₀ : Nat → Nat) : Prop where
  link : ∀ s, slots s → LinkOk inSpace h slots cells c₀ (c₀.mem s)
  typed : ∀ s, slots s → TypedLink inSpace h c₀.mem (c₀.mem s)
  closed : ∀ t ∈ copied₀, SomeCell h t → IsRef inSpace h (h.mem t) →
    ¬ Dead inSpace copied₀ (h.mem t)
  even : ∀ b ∈ copied₀, (PolyWord.fromAddr (φ₀ b)).isTagged = false

/-- What is known of the links `settled` so far. -/
structure WeakExact (inSpace : Nat → Prop) (h : HeapView) (slots : Nat → Prop) (c₀ : Collector)
    (copied₀ : List Nat) (φ₀ : Nat → Nat) (settled : Nat → Prop) (copied : List Nat)
    (φ : Nat → Nat) (c : Collector) : Prop where
  /-- The fixup copies SOME cells of links whose reference is alive, and nothing else. -/
  fresh : ∀ b ∈ copied, b ∉ copied₀ → SomeCell h b ∧ ¬ Dead inSpace copied₀ (h.mem b) ∧
    LinkCell slots c₀ b
  emptied : ∀ b ∈ h.objs, b ∉ copied → IsSomeCell h b →
    c.mem b = h.mem b ∨ Dead inSpace copied₀ (h.mem b)
  /-- Permanent words change only where they are the cell of a link. -/
  permanent : ∀ a, ¬ inSpace a → ¬ c₀.InScratch a → ¬ slots a → c.mem a = c₀.mem a ∨
    (LinkCell slots c₀ a ∧ ((Dead inSpace copied₀ (c₀.mem a) ∧ c.mem a = PolyWord.tagged 0) ∨
      (inSpace (c₀.mem a).addr ∧ (c₀.mem a).addr ∈ copied₀ ∧
        c.mem a = PolyWord.fromAddr (φ₀ (c₀.mem a).addr))))
  none : ∀ a, settled a → (c₀.mem a).isTagged = true → c.mem a = c₀.mem a
  permLink : ∀ a, settled a → (c₀.mem a).isTagged = false → ¬ inSpace (c₀.mem a).addr →
    (Dead inSpace copied₀ (c₀.mem (c₀.mem a).addr) ∧ c.mem a = PolyWord.tagged 0 ∧
      c.mem (c₀.mem a).addr = PolyWord.tagged 0) ∨
    (¬ Dead inSpace copied₀ (c₀.mem (c₀.mem a).addr) ∧ c.mem a = c₀.mem a ∧
      c.mem (c₀.mem a).addr = h.relocate φ₀ true (c₀.mem (c₀.mem a).addr))
  objLink : ∀ a, settled a → (c₀.mem a).isTagged = false → (c₀.mem a).addr ∈ h.objs →
    (Dead inSpace copied₀ (h.mem (c₀.mem a).addr) ∧ c.mem a = PolyWord.tagged 0) ∨
    (¬ Dead inSpace copied₀ (h.mem (c₀.mem a).addr) ∧ (c₀.mem a).addr ∈ copied ∧
      c.mem a = PolyWord.fromAddr (φ (c₀.mem a).addr))

section Exact

variable {inSpace : Nat → Prop} {h : HeapView} {live slots cells settled : Nat → Prop}
variable {c₀ c c' : Collector} {copied₀ copied copied' : List Nat} {φ₀ φ φ' : Nat → Nat} {s : Nat}

/-- A step writes its link, the cell, the length word the cell leaves behind, and two words at the
end of to-space. -/
theorem WeakStep.mem_eq (hstep : WeakStep inSpace h c₀ copied φ c s copied' φ' c') {a : Nat}
    (hs : a ≠ s) (hcell : (c₀.mem s).isTagged = false → a ≠ (c₀.mem s).addr)
    (hobj : (c₀.mem s).addr ∈ h.objs → a ≠ (c₀.mem s).addr - 8)
    (hi : WeakInv inSpace h slots cells c₀ copied₀ φ₀ copied φ settled c)
    (hlow : c.InScratch a → a < c.toStart + 8 * c.toUsed) : c'.mem a = c.mem a := by
  have hwrite : ∀ {d : Collector} {x : Nat} {w : PolyWord}, a ≠ x → (d.write x w).mem a = d.mem a :=
    fun hne => Function.update_of_ne hne _ _
  cases hstep with
  | empty => rfl
  | permEmptied => exact hwrite hs
  | permKept => rfl
  | permForwarded htag => exact hwrite (hcell htag)
  | permCleared htag => rw [hwrite hs, hwrite (hcell htag)]
  | followed => exact hwrite hs
  | noCell => exact hwrite hs
  | emptied => exact hwrite hs
  | cleared htag => rw [hwrite hs, hwrite (hcell htag)]
  | @moved htag ht hnew hsc htagR hc p hp c₁ hc' =>
    have hroom := hi.room ht hnew
    have hlen := hsc.1
    have hfar : ∀ x, c.toStart + 8 * c.toUsed ≤ x → x < c.toStart + 8 * c.toLen → a ≠ x := by
      rintro x h1 h2 rfl
      have := hlow ⟨by omega, h2⟩
      omega
    rw [hwrite hs, hc']
    dsimp only
    rw [Function.update_of_ne (hobj ht), Function.update_of_ne (hfar p (by omega) (by omega)),
      Function.update_of_ne (hfar (p - 8) (by omega) (by omega))]

theorem WeakStep.extends (hstep : WeakStep inSpace h c₀ copied φ c s copied' φ' c') :
    Extends copied φ copied' φ' := by
  cases hstep with
  | moved _ _ hnew =>
    exact ⟨List.prefix_append _ _, fun b hb =>
      Function.update_of_ne (ne_of_mem_of_not_mem hb hnew) _ _⟩
  | _ => exact Extends.refl _ _

namespace WeakTyped

variable (hw : WeakTyped inSpace h slots cells c₀ copied₀ φ₀) (hs : slots s)
variable (htag : (c₀.mem s).isTagged = false)

include hw hs htag

/-- A permanent cell of a link. -/
theorem permCell (hok : HeapOk inSpace h live) (hperm : ¬ inSpace (c₀.mem s).addr) :
    ¬ c₀.InScratch (c₀.mem s).addr ∧ ¬ slots (c₀.mem s).addr ∧
      IsRef inSpace h (c₀.mem (c₀.mem s).addr) := by
  have hnobj : (c₀.mem s).addr ∉ h.objs := fun hm => hperm (hok.inStart _ hm)
  have hplace : ¬ c₀.InScratch (c₀.mem s).addr ∧ ¬ slots (c₀.mem s).addr := by
    rcases hw.link s hs with hl | ⟨-, -, hscr, hcell, -⟩ | ⟨hm, -⟩
    · rw [htag] at hl
      cases hl
    · exact ⟨hscr, hcell⟩
    · exact absurd hm hnobj
  rcases hw.typed s hs with ht | ⟨-, hr⟩ | ⟨hm, -⟩
  · rw [htag] at ht
    cases ht
  · exact ⟨hplace.1, hplace.2, hr⟩
  · exact absurd hm hnobj

/-- A cell of a link in from-space. -/
theorem objCell (hok : HeapOk inSpace h live) (hobj : (c₀.mem s).addr ∈ h.objs) :
    SomeCell h (c₀.mem s).addr ∧ IsRef inSpace h (h.mem (c₀.mem s).addr) := by
  rcases hw.typed s hs with ht | ⟨hperm, -⟩ | ⟨-, hcell⟩
  · rw [htag] at ht
    cases ht
  · exact absurd (hok.inStart _ hobj) hperm
  · exact hcell

/-- A cell of a link is either permanent or an object. -/
theorem cell_cases : ¬ inSpace (c₀.mem s).addr ∨ (c₀.mem s).addr ∈ h.objs := by
  rcases hw.typed s hs with ht | ⟨hperm, -⟩ | ⟨hm, -⟩
  · rw [htag] at ht
    cases ht
  · exact Or.inl hperm
  · exact Or.inr hm

/-- A link is no cell of a link. -/
theorem link_ne_cell (hok : HeapOk inSpace h live)
    (hslots : SlotsOk inSpace h copied₀ φ₀ c₀ slots) {a : Nat} (ha : slots a) :
    a ≠ (c₀.mem s).addr := by
  rintro rfl
  rcases hw.cell_cases hs htag with hperm | hm
  · exact (hw.permCell hs htag hok hperm).2.1 ha
  · exact (hslots _ ha).1 (hok.inStart _ hm)

end WeakTyped

variable (he : WeakExact inSpace h slots c₀ copied₀ φ₀ settled copied φ c)
variable (hw : WeakTyped inSpace h slots cells c₀ copied₀ φ₀)

include he hw

/-- The reference in a SOME cell that the trace or the fixup has copied is alive. -/
theorem WeakExact.alive_of_copied {t : Nat} (ht : t ∈ copied) (hcell : SomeCell h t)
    (hr : IsRef inSpace h (h.mem t)) : ¬ Dead inSpace copied₀ (h.mem t) := by
  by_cases hc : t ∈ copied₀
  · exact hw.closed t hc hcell hr
  · exact (he.fresh t ht hc).2.1

/-- A permanent cell that holds an integer has been emptied. -/
theorem WeakExact.dead_of_tagged {a : Nat} (hin : ¬ inSpace a) (hscr : ¬ c₀.InScratch a)
    (hns : ¬ slots a) (hr : IsRef inSpace h (c₀.mem a)) (htag : (c.mem a).isTagged = true) :
    Dead inSpace copied₀ (c₀.mem a) ∧ c.mem a = PolyWord.tagged 0 := by
  rcases he.permanent a hin hscr hns with heq | ⟨-, hd | ⟨-, hc, heq⟩⟩
  · rw [heq, hr.1] at htag
    cases htag
  · exact hd
  · rw [heq, hw.even _ hc] at htag
    cases htag

variable (hi : WeakInv inSpace h slots cells c₀ copied₀ φ₀ copied φ settled c)

include hi

omit hw in
/-- A reference has been copied exactly if the trace has copied it. -/
theorem WeakExact.copied_iff {r : PolyWord} (hr : IsRef inSpace h r) (hin : inSpace r.addr) :
    r.addr ∈ copied ↔ r.addr ∈ copied₀ := by
  refine ⟨fun hc => ?_, hi.ext.mem⟩
  by_contra hn
  have hmut := (hr.2.resolve_left (fun hout => hout hin)).2
  have himm := (he.fresh _ hc hn).1.immutable
  rw [himm] at hmut
  cases hmut

omit hw in
theorem WeakExact.dead_iff {r : PolyWord} (hr : IsRef inSpace h r) :
    Dead inSpace copied₀ r ↔ inSpace r.addr ∧ r.addr ∉ copied :=
  and_congr_right (fun hin => not_congr (he.copied_iff hi hr hin).symm)

variable (hok : HeapOk inSpace h live)

include hok

omit he hw in
/-- A reference to a traced object is relocated to the start of the copy. -/
theorem WeakInv.relocate_traced {r : PolyWord} (hr : IsRef inSpace h r) (hc : r.addr ∈ copied₀) :
    h.relocate φ₀ true r = PolyWord.fromAddr (φ₀ r.addr) :=
  (relocate_body hok hr.1 (hi.objs _ (hi.ext.mem hc))).2

omit hw in
/-- A permanent cell that holds a pointer out of every from-space has a live reference. -/
theorem WeakExact.alive_of_outside {a : Nat} (hin : ¬ inSpace a) (hscr : ¬ c₀.InScratch a)
    (hns : ¬ slots a) (hr : IsRef inSpace h (c₀.mem a)) (htag : (c.mem a).isTagged = false)
    (hout : ¬ inSpace (c.mem a).addr) :
    ¬ Dead inSpace copied₀ (c₀.mem a) ∧ c.mem a = h.relocate φ₀ true (c₀.mem a) := by
  rcases he.permanent a hin hscr hns with heq | ⟨-, ⟨-, heq⟩ | ⟨-, hc, heq⟩⟩
  · rw [heq] at hout
    refine ⟨fun hd => hout hd.1, ?_⟩
    rw [heq, HeapView.relocate_of_target_none (relocate_permanent hi.toCopies hout)]
  · rw [heq] at htag
    exact absurd htag (by decide)
  · exact ⟨fun hd => hd.2 hc, by rw [heq, hi.relocate_traced hok hr hc]⟩

variable (hs : slots s)
variable (hstep : WeakStep inSpace h c₀ copied φ c s copied' φ' c')

include hs hstep

/-- What a step does to a link to a permanent cell. -/
theorem WeakExact.step_permLink (hns : ¬ settled s) (htag : (c₀.mem s).isTagged = false)
    (hperm : ¬ inSpace (c₀.mem s).addr) :
    (Dead inSpace copied₀ (c₀.mem (c₀.mem s).addr) ∧ c'.mem s = PolyWord.tagged 0 ∧
      c'.mem (c₀.mem s).addr = PolyWord.tagged 0) ∨
    (¬ Dead inSpace copied₀ (c₀.mem (c₀.mem s).addr) ∧ c'.mem s = c₀.mem s ∧
      c'.mem (c₀.mem s).addr = h.relocate φ₀ true (c₀.mem (c₀.mem s).addr)) := by
  have hread := hi.unsettled s hs hns
  have hnobj : (c₀.mem s).addr ∉ h.objs := fun hm => hperm (hok.inStart _ hm)
  obtain ⟨hscr, hcell, hr⟩ := hw.permCell hs htag hok hperm
  have hne : s ≠ (c₀.mem s).addr := fun heq => hcell (heq ▸ hs)
  have hself : ∀ {d : Collector} {x : Nat} {w : PolyWord}, (d.write x w).mem x = w :=
    Function.update_self ..
  have hwrite : ∀ {d : Collector} {w : PolyWord}, (d.write s w).mem (c₀.mem s).addr =
      d.mem (c₀.mem s).addr := Function.update_of_ne hne.symm _ _
  cases hstep with
  | empty ht =>
    rw [htag] at ht
    cases ht
  | permEmptied _ _ htagR =>
    obtain ⟨hd, hzero⟩ := he.dead_of_tagged hw hperm hscr hcell hr htagR
    exact Or.inl ⟨hd, hself, hwrite.trans hzero⟩
  | permKept _ _ htagR hout =>
    obtain ⟨hd, hmoved⟩ := he.alive_of_outside hi hok hperm hscr hcell hr htagR hout
    exact Or.inr ⟨hd, hread, hmoved⟩
  | permForwarded _ _ _ _ hin hc =>
    have hc₀ := (he.copied_iff hi hr hin).1 hc
    refine Or.inr ⟨fun hd => hd.2 hc₀, (Function.update_of_ne hne _ _).trans hread, ?_⟩
    rw [hself, hi.relocate_traced hok hr hc₀, hi.ext.keeps _ hc₀]
  | permCleared _ _ _ _ hin hc =>
    exact Or.inl ⟨(he.dead_iff hi hr).2 ⟨hin, hc⟩, hself, hwrite.trans hself⟩
  | followed _ hc => exact absurd (hi.objs _ hc) hnobj
  | noCell _ ht => exact absurd ht hnobj
  | emptied _ ht => exact absurd ht hnobj
  | cleared _ ht => exact absurd ht hnobj
  | moved _ ht => exact absurd ht hnobj

/-- What a step does to a link to an object. -/
theorem WeakExact.step_objLink (htag : (c₀.mem s).isTagged = false)
    (hobj : (c₀.mem s).addr ∈ h.objs) :
    (Dead inSpace copied₀ (h.mem (c₀.mem s).addr) ∧ c'.mem s = PolyWord.tagged 0) ∨
    (¬ Dead inSpace copied₀ (h.mem (c₀.mem s).addr) ∧ (c₀.mem s).addr ∈ copied' ∧
      c'.mem s = PolyWord.fromAddr (φ' (c₀.mem s).addr)) := by
  have hin : inSpace (c₀.mem s).addr := hok.inStart _ hobj
  obtain ⟨hcell, hr⟩ := hw.objCell hs htag hok hobj
  have hself : ∀ {d : Collector} {x : Nat} {w : PolyWord}, (d.write x w).mem x = w :=
    Function.update_self ..
  cases hstep with
  | empty ht =>
    rw [htag] at ht
    cases ht
  | permEmptied _ hperm => exact absurd hin hperm
  | permKept _ hperm => exact absurd hin hperm
  | permForwarded _ hperm => exact absurd hin hperm
  | permCleared _ hperm => exact absurd hin hperm
  | followed _ hc => exact Or.inr ⟨he.alive_of_copied hw hc hcell hr, hc, hself⟩
  | noCell _ _ _ hno => exact absurd hcell.shape hno
  | emptied _ _ hnew _ htagR =>
    refine Or.inl ⟨(he.emptied _ hobj hnew hcell.shape).resolve_left (fun heq => ?_), hself⟩
    rw [heq, hr.1] at htagR
    cases htagR
  | cleared _ _ _ _ _ hinR hc => exact Or.inl ⟨(he.dead_iff hi hr).2 ⟨hinR, hc⟩, hself⟩
  | moved _ _ _ _ _ hc =>
    refine Or.inr ⟨fun hd => ?_, by simp, by rw [hself, Function.update_self]⟩
    obtain ⟨hinR, hnc⟩ := (he.dead_iff hi hr).1 hd
    exact hnc (hc hinR)

omit hi in
/-- What a step does to a permanent word that is no link. -/
theorem WeakExact.step_permanent {a : Nat} (hin : ¬ inSpace a) (hscr : ¬ c₀.InScratch a)
    (hns : ¬ slots a) (hi : WeakInv inSpace h slots cells c₀ copied₀ φ₀ copied φ settled c) :
    c'.mem a = c₀.mem a ∨ (LinkCell slots c₀ a ∧
      ((Dead inSpace copied₀ (c₀.mem a) ∧ c'.mem a = PolyWord.tagged 0) ∨
        (inSpace (c₀.mem a).addr ∧ (c₀.mem a).addr ∈ copied₀ ∧
          c'.mem a = PolyWord.fromAddr (φ₀ (c₀.mem a).addr)))) := by
  have hne : a ≠ s := fun heq => hns (heq ▸ hs)
  have hscrOut : ¬ c.InScratch a := fun hc => hscr ((hi.frame.inScratch a).1 hc)
  by_cases hcell : (c₀.mem s).isTagged = false ∧ a = (c₀.mem s).addr
  · obtain ⟨htag, rfl⟩ := hcell
    have hnobj : (c₀.mem s).addr ∉ h.objs := fun hm => hin (hok.inStart _ hm)
    have hr := (hw.permCell hs htag hok hin).2.2
    have hwrite : ∀ {d : Collector} {w : PolyWord}, (d.write s w).mem (c₀.mem s).addr =
        d.mem (c₀.mem s).addr := Function.update_of_ne hne _ _
    have hself : ∀ {d : Collector} {x : Nat} {w : PolyWord}, (d.write x w).mem x = w :=
      Function.update_self ..
    cases hstep with
    | empty => exact he.permanent _ hin hscr hns
    | permEmptied =>
      rw [hwrite]
      exact he.permanent _ hin hscr hns
    | permKept => exact he.permanent _ hin hscr hns
    | permForwarded _ _ _ _ hinR hc =>
      have hc₀ := (he.copied_iff hi hr hinR).1 hc
      rw [hself, hi.ext.keeps _ hc₀]
      exact Or.inr ⟨⟨s, hs, htag, rfl⟩, Or.inr ⟨hinR, hc₀, rfl⟩⟩
    | permCleared _ _ _ _ hinR hc =>
      rw [hwrite, hself]
      exact Or.inr ⟨⟨s, hs, htag, rfl⟩, Or.inl ⟨(he.dead_iff hi hr).2 ⟨hinR, hc⟩, rfl⟩⟩
    | followed _ hc => exact absurd (hi.objs _ hc) hnobj
    | noCell _ ht => exact absurd ht hnobj
    | emptied _ ht => exact absurd ht hnobj
    | cleared _ ht => exact absurd ht hnobj
    | moved _ ht => exact absurd ht hnobj
  · have hsame : c'.mem a = c.mem a := by
      refine hstep.mem_eq hne (fun htag heq => hcell ⟨htag, heq⟩) (fun ht heq => ?_) hi
        (fun hc => absurd ((hi.frame.inScratch a).1 hc) hscr)
      exact hin (heq ▸ hok.inHeader _ ht)
    rw [hsame]
    exact he.permanent a hin hscr hns

variable (hslots : SlotsOk inSpace h copied₀ φ₀ c₀ slots)
variable (hused₀ : ∀ a, slots a → c₀.InScratch a → a < c₀.toStart + 8 * c₀.toUsed)

include hslots hused₀

omit he in
/-- A step leaves the other links alone. -/
theorem WeakStep.link_eq {a : Nat} (ha : slots a) (hne : a ≠ s) : c'.mem a = c.mem a := by
  refine hstep.mem_eq hne (fun htag => hw.link_ne_cell hs htag hok hslots ha) (fun ht heq => ?_) hi
    (fun hc => ?_)
  · exact (hslots a ha).1 (heq ▸ hok.inHeader _ ht)
  · have h1 := hused₀ a ha ((hi.frame.inScratch a).1 hc)
    have h2 := hi.used
    have h3 := hi.frame.toStart
    omega

/-- A step keeps what is known of the links, and settles one more. -/
theorem WeakExact.step (hns : ¬ settled s) :
    WeakExact inSpace h slots c₀ copied₀ φ₀ (fun x => settled x ∨ x = s) copied' φ' c' := by
  have hext := hstep.extends
  have hold : ∀ a, settled a → c'.mem a = c.mem a := fun a ha =>
    hstep.link_eq hw hi hok hs hslots hused₀ (hi.settledSlot a ha) (fun heq => hns (heq ▸ ha))
  refine ⟨fun b hb hn => ?_, fun b hb hn hcell => ?_, fun a hin hscr hslot => ?_,
    fun a ha htag => ?_, fun a ha htag hperm => ?_, fun a ha htag hobj => ?_⟩
  · by_cases hc : b ∈ copied
    · exact he.fresh b hc hn
    · cases hstep with
      | moved htag ht _ _ _ hcR =>
        obtain rfl : b = (c₀.mem s).addr := by
          simpa [hc] using hb
        obtain ⟨hcell, hr⟩ := hw.objCell hs htag hok ht
        refine ⟨hcell, fun hd => ?_, s, hs, htag, rfl⟩
        obtain ⟨hinR, hnc⟩ := (he.dead_iff hi hr).1 hd
        exact hnc (hcR hinR)
      | _ => exact absurd hb hc
  · have hn' : b ∉ copied := fun hc => hn (hext.mem hc)
    by_cases hlink : (c₀.mem s).isTagged = false ∧ b = (c₀.mem s).addr
    · obtain ⟨htag, rfl⟩ := hlink
      rcases he.step_objLink hw hi hok hs hstep htag hb with ⟨hd, -⟩ | ⟨-, hc, -⟩
      · exact Or.inr hd
      · exact absurd hc hn
    · have hsame : c'.mem b = c.mem b := by
        have hin := hok.inStart b hb
        refine hstep.mem_eq ?_ (fun htag heq => hlink ⟨htag, heq⟩) (fun ht => ?_) hi
          (fun hc => absurd hin (hi.scratch.apart b hc))
        · rintro rfl
          exact (hslots b hs).1 hin
        · have h1 := hok.pos _ ht
          have h2 := hok.pos b hb
          have h3 := hcell.1
          rcases hok.separate b hb _ ht with heq | hlt | hlt <;> omega
      rw [hsame]
      exact he.emptied b hb hn' hcell
  · exact he.step_permanent hw hok hs hstep hin hscr hslot hi
  · rcases ha with ha | rfl
    · rw [hold a ha]
      exact he.none a ha htag
    · cases hstep with
      | empty => exact hi.unsettled a hs hns
      | _ => simp_all
  · rcases ha with ha | rfl
    · rw [hold a ha]
      have hsa := hi.settledSlot a ha
      obtain ⟨hscr, hcell, -⟩ := hw.permCell hsa htag hok hperm
      have hlink := he.permLink a ha htag hperm
      by_cases hsame : (c₀.mem s).isTagged = false ∧ (c₀.mem a).addr = (c₀.mem s).addr
      · -- another link to the same cell: both agree on it
        obtain ⟨htagS, haddr⟩ := hsame
        rw [haddr] at hlink hperm ⊢
        have hlinkS := he.step_permLink hw hi hok hs hstep hns htagS hperm
        rcases hlink with ⟨hd, heq, -⟩ | ⟨hd, heq, -⟩
        · exact Or.inl ⟨hd, heq, (hlinkS.resolve_right (fun hr => hr.1 hd)).2.2⟩
        · exact Or.inr ⟨hd, heq, (hlinkS.resolve_left (fun hl => hd hl.1)).2.2⟩
      · rw [hstep.mem_eq (a := (c₀.mem a).addr) (fun heq => hcell (heq ▸ hs))
          (fun htagS heq => hsame ⟨htagS, heq⟩) (fun ht heq => hperm (heq ▸ hok.inHeader _ ht)) hi
          (fun hc => absurd ((hi.frame.inScratch _).1 hc) hscr)]
        exact hlink
    · exact he.step_permLink hw hi hok hs hstep hns htag hperm
  · rcases ha with ha | rfl
    · rw [hold a ha]
      rcases he.objLink a ha htag hobj with hd | ⟨hd, hc, heq⟩
      · exact Or.inl hd
      · exact Or.inr ⟨hd, hext.mem hc, by rw [heq, hext.keeps _ hc]⟩
    · exact he.step_objLink hw hi hok hs hstep htag hobj

end Exact
