import PolymlRs.Gc.PoolCollection
import PolymlRs.Gc.WeakExact

set_option autoImplicit false

/-! # The outcome of the weak fixup

What the fixup makes of a well-typed heap, in terms of the heap before the collection. A link becomes
NONE exactly if the reference in its SOME cell was not strongly reachable; otherwise it follows the
cell, of which there is one copy for all its links. `WeakOutcome` says so for one order of the weak
objects, and `SameOutcome` compares two orders: they differ only in where the cells that nothing but
weak links reached have been put. -/

/-- Reached from the roots `ws` and from the permanent mutable objects through traced slots. -/
inductive StronglyReached (m : Mem) (spaces : List MemorySpace) (images : List (Nat × Nat))
    (ws : List RootWord) : Nat → Prop
  | root {p : RootWord} {b : Nat} (hp : p ∈ ws)
      (ht : (poolView m spaces).target p.1 p.2 = some b) : StronglyReached m spaces images ws b
  | image {a b : Nat} (ha : SlotAmong (poolView m spaces) (regionObjects m images) a)
      (ht : (poolView m spaces).target true (m a) = some b) : StronglyReached m spaces images ws b
  | slot {b a t : Nat} (hb : StronglyReached m spaces images ws b) (ha : IsSlot m b a)
      (ht : (poolView m spaces).target true (m a) = some t) : StronglyReached m spaces images ws t

/-- The reference is strongly reachable. A permanent object always is: the collector never frees
one. -/
def Alive (m : Mem) (spaces : List MemorySpace) (images : List (Nat × Nat)) (ws : List RootWord)
    (r : PolyWord) : Prop :=
  ¬ InSpaces spaces r.addr ∨ StronglyReached m spaces images ws r.addr

/-- Every link of every weak object that is permanent or strongly reachable is well typed. -/
def WeakWellTyped (m : Mem) (spaces : List MemorySpace) (images : List (Nat × Nat))
    (ws : List RootWord) : Prop :=
  ∀ p, (p ∈ weakAmong (poolView m spaces) (regionObjects m images) ∨
      StronglyReached m spaces images ws p ∧ isWeakWordObj (m (p - 8)) = true) →
    ∀ a, LinkOf p (m.objLen p) a → TypedLink (InSpaces spaces) (poolView m spaces) m (m a)

instance (spaces : List MemorySpace) (a : Nat) : Decidable (InSpaces spaces a) := by
  unfold InSpaces
  infer_instance

/-- Where the SOME cell `t` is after the collection: a permanent one stays. -/
def cellPlace (spaces : List MemorySpace) (φ : Nat → Nat) (t : Nat) : Nat :=
  if InSpaces spaces t then φ t else t

/-- What a link that held `w` has become, in the memory `m'`, when it holds `w'`. -/
structure Decided (m : Mem) (spaces : List MemorySpace) (images : List (Nat × Nat))
    (ws : List RootWord) (φ : Nat → Nat) (m' : Mem) (w w' : PolyWord) : Prop where
  none : w.isTagged = true → w' = w
  none_iff : w.isTagged = false →
    (w' = PolyWord.tagged 0 ↔ ¬ Alive m spaces images ws (m w.addr))
  cell : w.isTagged = false → Alive m spaces images ws (m w.addr) →
    w' = PolyWord.fromAddr (cellPlace spaces φ w.addr) ∧
    m' (cellPlace spaces φ w.addr) = (poolView m spaces).relocate φ true (m w.addr)
  outside : Outside (InSpaces spaces) w'
  cellOutside : w.isTagged = false → Alive m spaces images ws (m w.addr) →
    Outside (InSpaces spaces) (m' (cellPlace spaces φ w.addr))

/-- The fixup has turned the collector `c`, in which the trace had copied `copied` to `φ`, into
`c'`. -/
structure WeakOutcome (m : Mem) (spaces : List MemorySpace) (images : List (Nat × Nat))
    (ws : List RootWord) (copied : List Nat) (φ : Nat → Nat) (c : Collector)
    (copied' : List Nat) (φ' : Nat → Nat) (c' : Collector) : Prop where
  links : ∀ a, WeakLink m spaces images copied φ a →
    Decided m spaces images ws φ' c'.mem (c.mem a) (c'.mem a)
  /-- Nothing is resurrected: the fixup adds the SOME cells of the links with a live reference. -/
  cells : ∀ b, b ∈ copied' ↔ b ∈ copied ∨ (b ∈ (poolView m spaces).objs ∧
    Alive m spaces images ws (m b) ∧ LinkCell (WeakLink m spaces images copied φ) c b)
  /-- Different cells have different copies, each with the length word of the cell. -/
  distinct : ∀ b ∈ copied', ∀ b' ∈ copied', φ' b = φ' b' → b = b'
  header : ∀ b ∈ copied', c'.mem (φ' b - 8) = m (b - 8)
  keeps : ∀ b ∈ copied, φ' b = φ b
  slots : ∀ b ∈ copied', ∀ i < m.objLen b, IsSlot m b (b + 8 * i) →
    Outside (InSpaces spaces) (c'.mem (φ' b + 8 * i))
  imageSlots : ∀ a, SlotAmong (poolView m spaces) (regionObjects m images) a →
    Outside (InSpaces spaces) (c'.mem a)

/-- The outcomes `c₁` and `c₂` of two fixups of the collector `c` differ at most in the places of the
cells that they have copied. -/
structure SameOutcome (m : Mem) (spaces : List MemorySpace) (images : List (Nat × Nat))
    (copied : List Nat) (φ : Nat → Nat) (c : Collector)
    (copied₁ : List Nat) (φ₁ : Nat → Nat) (c₁ : Collector)
    (copied₂ : List Nat) (φ₂ : Nat → Nat) (c₂ : Collector) : Prop where
  cells : copied₁.Perm copied₂
  used : c₁.toUsed = c₂.toUsed
  links : ∀ a, WeakLink m spaces images copied φ a → c₁.mem a = c₂.mem a ∨
    ∃ b ∈ copied₁, b ∉ copied ∧ c₁.mem a = PolyWord.fromAddr (φ₁ b) ∧
      c₂.mem a = PolyWord.fromAddr (φ₂ b)
  contents : ∀ b ∈ copied₁, b ∉ copied → c₁.mem (φ₁ b) = c₂.mem (φ₂ b)
  /-- All other words outside the from-spaces, up to the end of what the trace copied, are equal. -/
  others : ∀ a, ¬ InSpaces spaces a → ¬ WeakLink m spaces images copied φ a →
    (c.InScratch a → a < c.toStart + 8 * c.toUsed) → c₁.mem a = c₂.mem a

section Outcome

variable {ρ : Type} {m : Mem} {spaces : List MemorySpace} {images : List (Nat × Nat)}
variable {ws : List RootWord} {out : (Nat → Nat) → ρ} {start len : Nat}
variable {r : ρ} {copied : List Nat} {φ : Nat → Nat} {c : Collector}
variable (hready : PoolReady m spaces images ws (StronglyReached m spaces images ws) start len)
variable (ht : Traced m spaces images ws (StronglyReached m spaces images ws) out start len r copied
  φ c)

include hready ht

/-- The trace has copied exactly what is strongly reachable. -/
theorem Traced.copied_iff {b : Nat} : b ∈ copied ↔ StronglyReached m spaces images ws b := by
  refine ⟨ht.inv.live b, fun hb => ?_⟩
  induction hb with
  | root hp htgt => exact ht.targets _ hp _ htgt
  | image ha htgt => exact ht.image.targets _ ha _ htgt
  | slot hb ha htgt ih =>
    obtain ⟨i, hil, rfl⟩ := ha.body (h := poolView m spaces) (hready.code _ hb)
    exact ht.inv.doneTarget _ ih i hil ⟨_, ih, ha⟩ _ htgt

theorem Traced.dead_iff {r : PolyWord} :
    Dead (InSpaces spaces) copied r ↔ ¬ Alive m spaces images ws r := by
  rw [Dead, Alive, ht.copied_iff hready, not_or, not_not]

/-- A link holds, after the trace, what it held in the weak object. -/
theorem Traced.slot_word {a : Nat} (ha : WeakLink m spaces images copied φ a) :
    ∃ p a₀, (p ∈ weakAmong (poolView m spaces) (regionObjects m images) ∨
      StronglyReached m spaces images ws p ∧ isWeakWordObj (m (p - 8)) = true) ∧
      LinkOf p (m.objLen p) a₀ ∧ c.mem a = m a₀ := by
  rcases ha with ⟨p, hp, i, hi, rfl⟩ | ⟨b, hb, hweak, i, hi, rfl⟩
  · exact ⟨p, p + 8 * i, Or.inl hp, ⟨i, hi, rfl⟩,
      (ht.weak_mem hready hp (by omega) (by omega)).1⟩
  · exact ⟨b, b + 8 * i, Or.inr ⟨ht.inv.live b hb, hweak⟩, ⟨i, hi, rfl⟩, (ht.link_mem hb hweak hi).1⟩

theorem Traced.even {b : Nat} (hb : b ∈ copied) : (PolyWord.fromAddr (φ b)).isTagged = false := by
  have hal := ht.inv.laid.aligned (List.mem_map_of_mem hb)
  have hstart := hready.aligned
  have hcb := ht.inv.copy_bounds hb
  have hlt := ht.inv.copy_lt hb
  rw [ht.start] at hal hcb
  rw [PolyWord.isTagged_fromAddr (by omega)]
  exact decide_eq_false (by omega)

/-- A word that the walk over the permanent objects has visited leads out of every from-space. -/
theorem Traced.visited_outside {a : Nat}
    (ha : SlotAmong (poolView m spaces) (regionObjects m images) a)
    (hr : IsRef (InSpaces spaces) (poolView m spaces) (m a)) :
    (c.mem a).isTagged = false ∧ ¬ InSpaces spaces (c.mem a).addr := by
  have hmoved : c.mem a = (poolView m spaces).relocate φ true (m a) := ht.image.moved a ha
  by_cases hin : InSpaces spaces (m a).addr
  · have hobj := (hr.2.resolve_left (fun hout => hout hin)).1
    have hbody : (poolView m spaces).target true (m a) = some (m a).addr ∧
        (poolView m spaces).relocate φ true (m a) = PolyWord.fromAddr (φ (m a).addr) :=
      relocate_body hready.heapOk hr.1 hobj
    have hc := ht.image.targets a ha _ hbody.1
    have heven := ht.even hready hc
    rw [hmoved, hbody.2]
    refine ⟨heven, ?_⟩
    exact (ht.inv.outside_copy (ht.scratchApart hready) hc).resolve_left (by simp [heven])
  · rw [hmoved, HeapView.relocate_of_target_none (relocate_permanent ht.inv.toCopies hin)]
    exact ⟨hr.1, hin⟩

/-- A permanent cell of a link. -/
theorem Traced.permCell_mem (htyped : WeakWellTyped m spaces images ws) {a : Nat}
    (ha : WeakLink m spaces images copied φ a) (htag : (c.mem a).isTagged = false)
    (hperm : ¬ InSpaces spaces (c.mem a).addr) :
    IsRef (InSpaces spaces) (poolView m spaces) (m (c.mem a).addr) ∧
      (SlotAmong (poolView m spaces) (regionObjects m images) (c.mem a).addr ∨
        c.mem (c.mem a).addr = m (c.mem a).addr) := by
  obtain ⟨p, a₀, hp, hl, hword⟩ := ht.slot_word hready ha
  rw [hword] at htag hperm ⊢
  have hnobj : (m a₀).addr ∉ (poolView m spaces).objs := fun hm =>
    hperm (hready.heapOk.inStart _ hm)
  have hr : IsRef (InSpaces spaces) (poolView m spaces) (m (m a₀).addr) := by
    rcases htyped p hp a₀ hl with h | ⟨-, hr⟩ | ⟨hm, -⟩
    · rw [htag] at h
      cases h
    · exact hr
    · exact absurd hm hnobj
  refine ⟨hr, ?_⟩
  by_cases hv : SlotAmong (poolView m spaces) (regionObjects m images) (m a₀).addr
  · exact Or.inl hv
  · refine Or.inr (ht.image.kept _ hperm (fun hscr => ?_) hv)
    rcases hready.links p hp a₀ hl with h | ⟨-, hout, -⟩ | ⟨hm, -⟩
    · rw [htag] at h
      cases h
    · rw [Collector.InScratch, ht.start, ht.len] at hscr
      exact hout hscr
    · exact absurd hm hnobj

/-- The reference in a permanent cell is dead after the trace exactly if it was not alive, and
relocating it again changes nothing. -/
theorem Traced.permCell_ref (htyped : WeakWellTyped m spaces images ws) {a : Nat}
    (ha : WeakLink m spaces images copied φ a) (htag : (c.mem a).isTagged = false)
    (hperm : ¬ InSpaces spaces (c.mem a).addr) :
    (Dead (InSpaces spaces) copied (c.mem (c.mem a).addr) ↔
      ¬ Alive m spaces images ws (m (c.mem a).addr)) ∧
    (poolView m spaces).relocate φ true (c.mem (c.mem a).addr) =
      (poolView m spaces).relocate φ true (m (c.mem a).addr) := by
  obtain ⟨hr, hv | hsame⟩ := ht.permCell_mem hready htyped ha htag hperm
  · obtain ⟨-, hout⟩ := ht.visited_outside hready hv hr
    constructor
    · refine iff_of_false (fun hd => hout hd.1) (fun hna => hna ?_)
      by_cases hin : InSpaces spaces (m (c.mem a).addr).addr
      · have hobj := (hr.2.resolve_left (fun h => h hin)).1
        exact Or.inr (.image hv (relocate_body (φ := φ) hready.heapOk hr.1 hobj).1)
      · exact Or.inl hin
    · rw [HeapView.relocate_of_target_none (relocate_permanent ht.inv.toCopies hout)]
      exact ht.image.moved _ hv
  · rw [hsame]
    exact ⟨ht.dead_iff hready, rfl⟩

/-- The heap after the trace is well typed for the fixup. -/
theorem Traced.weakTyped (htyped : WeakWellTyped m spaces images ws) :
    WeakTyped (InSpaces spaces) (poolView m spaces) (WeakLink m spaces images copied φ)
      (permCells m spaces images c) { c with weakObjects := [] } copied φ := by
  refine ⟨fun a ha => ?_, fun a ha => ?_, fun t hc hcell hr hd => ?_, fun b hb => ht.even hready hb⟩
  · obtain ⟨p, a₀, hp, hl, hword⟩ := ht.slot_word hready ha
    have hlink := ht.linkOk hready (hready.links p hp a₀ hl)
    rw [← hword] at hlink
    exact hlink
  · obtain ⟨p, a₀, hp, hl, hword⟩ := ht.slot_word hready ha
    cases htag : (c.mem a).isTagged with
    | true => exact Or.inl htag
    | false =>
      by_cases hin : InSpaces spaces (c.mem a).addr
      · rw [hword] at htag hin
        show TypedLink _ _ c.mem (c.mem a)
        rw [hword]
        rcases htyped p hp a₀ hl with h | ⟨hout, -⟩ | h
        · rw [htag] at h
          cases h
        · exact absurd hin hout
        · exact Or.inr (Or.inr h)
      · refine Or.inr (Or.inl ⟨hin, ?_⟩)
        obtain ⟨hr, hv | hsame⟩ := ht.permCell_mem hready htyped ha htag hin
        · obtain ⟨htagR, hout⟩ := ht.visited_outside hready hv hr
          exact ⟨htagR, Or.inl hout⟩
        · show IsRef _ _ (c.mem (c.mem a).addr)
          rw [hsame]
          exact hr
  · -- the reference in a traced cell has been traced
    have hobj := (hr.2.resolve_left (fun h => h hd.1)).1
    have hlen := hcell.shape.1
    have hslot : IsSlot m t (t + 8 * 0) := isSlot_someCell hcell.shape (by
      have hstrong : isWeak (m (t - 8)) = false := hcell.strong
      rw [isWeakWordObj, hstrong, Bool.and_false])
    have htgt : (poolView m spaces).target true (m (t + 8 * 0)) =
        some ((poolView m spaces).mem t).addr :=
      (relocate_body (φ := φ) hready.heapOk hr.1 hobj).1
    exact hd.2 (ht.inv.doneTarget t hc 0 (by omega) ⟨t, hc, hslot⟩ _ htgt)

/-- A live reference goes where the trace has put its target, also after the fixup. -/
theorem Traced.relocate_alive {r : PolyWord} (hr : IsRef (InSpaces spaces) (poolView m spaces) r)
    (hal : Alive m spaces images ws r) {ψ : Nat → Nat} (hψ : ∀ b ∈ copied, ψ b = φ b) :
    (poolView m spaces).relocate ψ true r = (poolView m spaces).relocate φ true r := by
  refine HeapView.relocate_congr (fun t htgt => hψ t ?_)
  by_cases hin : InSpaces spaces r.addr
  · have hobj := (hr.2.resolve_left (fun h => h hin)).1
    rw [(relocate_body (φ := φ) hready.heapOk hr.1 hobj).1] at htgt
    obtain rfl := Option.some.inj htgt
    exact (ht.copied_iff hready).2 (hal.resolve_left (fun h => h hin))
  · rw [relocate_permanent ht.inv.toCopies hin] at htgt
    cases htgt

section Fixed

variable {copied' : List Nat} {φ' : Nat → Nat} {c' : Collector}
variable (htyped : WeakWellTyped m spaces images ws)
variable (hi : WeakInv (InSpaces spaces) (poolView m spaces) (WeakLink m spaces images copied φ)
  (permCells m spaces images c) { c with weakObjects := [] } copied φ copied' φ'
  (WeakLink m spaces images copied φ) c')
variable (he : WeakExact (InSpaces spaces) (poolView m spaces) (WeakLink m spaces images copied φ)
  { c with weakObjects := [] } copied φ (WeakLink m spaces images copied φ) copied' φ' c')

include htyped hi he

/-- A link to a permanent cell. -/
theorem Traced.decided_perm {a : Nat} (ha : WeakLink m spaces images copied φ a)
    (htag : (c.mem a).isTagged = false) (hperm : ¬ InSpaces spaces (c.mem a).addr) :
    Decided m spaces images ws φ' c'.mem (c.mem a) (c'.mem a) := by
  obtain ⟨hdead, hrel⟩ := ht.permCell_ref hready htyped ha htag hperm
  have hr := (ht.permCell_mem hready htyped ha htag hperm).1
  have hplace : cellPlace spaces φ' (c.mem a).addr = (c.mem a).addr := if_neg hperm
  have hout := (hi.link a ha).2
  have hsc := ht.scratchApart hready
  have hsc₀ : ({ c with weakObjects := [] } : Collector).ScratchApart (InSpaces spaces) := hsc
  have hlink : (Dead (InSpaces spaces) copied (c.mem (c.mem a).addr) ∧ c'.mem a = PolyWord.tagged 0 ∧
      c'.mem (c.mem a).addr = PolyWord.tagged 0) ∨
      (¬ Dead (InSpaces spaces) copied (c.mem (c.mem a).addr) ∧ c'.mem a = c.mem a ∧
        c'.mem (c.mem a).addr =
          (poolView m spaces).relocate φ true (c.mem (c.mem a).addr)) :=
    he.permLink a ha htag hperm
  rw [hrel, hdead] at hlink
  rcases hlink with ⟨hna, heq, -⟩ | ⟨hal, heq, hcell⟩
  · exact ⟨fun h => absurd h (by simp [htag]), fun _ => iff_of_true heq hna,
      fun _ hal => absurd hal hna, hout, fun _ hal => absurd hal hna⟩
  · rw [not_not] at hal
    have hcopied : InSpaces spaces (m (c.mem a).addr).addr → (m (c.mem a).addr).addr ∈ copied' := by
      intro hin
      exact hi.ext.mem ((ht.copied_iff hready).2 (hal.resolve_left (fun h => h hin)))
    have hsurv := (hi.survivor hready.heapOk (hi.frame.scratchApart hsc₀) hr.1 hcopied).1
    have hsame : c'.mem (c.mem a).addr =
        (poolView m spaces).relocate φ' true (m (c.mem a).addr) := by
      rw [hcell, ht.relocate_alive hready hr hal hi.ext.keeps]
    refine ⟨fun _ => heq, fun _ => iff_of_false ?_ (not_not.2 hal), fun _ _ => ?_, hout,
      fun _ _ => ?_⟩
    · intro hzero
      rw [heq] at hzero
      rw [hzero] at htag
      exact absurd htag (by decide)
    · rw [hplace]
      exact ⟨heq.trans (PolyWord.fromAddr_addr _).symm, hsame⟩
    · rw [hplace, hsame]
      exact hsurv

/-- A link to a cell in from-space. -/
theorem Traced.decided_obj (htracked : ∀ b ∈ copied, SlotsTracked (InSpaces spaces)
    (poolView m spaces) b) {a : Nat} (ha : WeakLink m spaces images copied φ a)
    (htag : (c.mem a).isTagged = false) (hobj : (c.mem a).addr ∈ (poolView m spaces).objs) :
    Decided m spaces images ws φ' c'.mem (c.mem a) (c'.mem a) := by
  have hout := (hi.link a ha).2
  obtain ⟨hcell, -⟩ : SomeCell (poolView m spaces) (c.mem a).addr ∧
      IsRef (InSpaces spaces) (poolView m spaces) (m (c.mem a).addr) :=
    (ht.weakTyped hready htyped).objCell ha htag hready.heapOk hobj
  have hlen := hcell.shape.1
  have hin := hready.heapOk.inStart _ hobj
  have hplace : cellPlace spaces φ' (c.mem a).addr = φ' (c.mem a).addr := if_pos hin
  have hlink : (Dead (InSpaces spaces) copied (m (c.mem a).addr) ∧ c'.mem a = PolyWord.tagged 0) ∨
      (¬ Dead (InSpaces spaces) copied (m (c.mem a).addr) ∧ (c.mem a).addr ∈ copied' ∧
        c'.mem a = PolyWord.fromAddr (φ' (c.mem a).addr)) := he.objLink a ha htag hobj
  rw [ht.dead_iff hready] at hlink
  rcases hlink with ⟨hna, heq⟩ | ⟨hal, hc, heq⟩
  · exact ⟨fun h => absurd h (by simp [htag]), fun _ => iff_of_true heq hna,
      fun _ hal => absurd hal hna, hout, fun _ hal => absurd hal hna⟩
  · rw [not_not] at hal
    -- the copy of the cell is an even address, so the link is not NONE
    have heven : (PolyWord.fromAddr (φ' (c.mem a).addr)).isTagged = false := by
      have hal := hi.laid.aligned (List.mem_map_of_mem hc)
      have hcb := hi.copy_bounds hc
      have hlt := hi.copy_lt hc
      have hstart := hready.aligned
      have hframe : c'.toStart = c.toStart := hi.frame.toStart
      rw [hframe, ht.start] at hal hcb
      rw [PolyWord.isTagged_fromAddr (by omega)]
      exact decide_eq_false (by omega)
    have hslot : IsSlot m (c.mem a).addr ((c.mem a).addr + 8 * 0) :=
      isSlot_someCell hcell.shape (by
        have hstrong : isWeak (m ((c.mem a).addr - 8)) = false := hcell.strong
        rw [isWeakWordObj, hstrong, Bool.and_false])
    have hword : Relocated (InSpaces spaces) (poolView m spaces) copied' φ' true
        (m (c.mem a).addr) (c'.mem (φ' (c.mem a).addr)) :=
      (ht.copied_words hready hi htracked).1 _ hc 0 (by simp only [poolView] at hlen; omega) hslot
    refine ⟨fun h => absurd h (by simp [htag]), fun _ => iff_of_false ?_ (not_not.2 hal),
      fun _ _ => ?_, hout, fun _ _ => ?_⟩
    · intro hzero
      rw [← heq, hzero] at heven
      exact absurd heven (by decide)
    · rw [hplace]
      exact ⟨heq, hword.eq⟩
    · rw [hplace]
      simpa [Outside] using hword.outside

/-- The outcome of the fixup. -/
theorem Traced.weakOutcome (hall : AllWordsTracked m spaces images ws
    (StronglyReached m spaces images ws)) :
    WeakOutcome m spaces images ws copied φ c copied' φ' c' := by
  have htracked : ∀ b ∈ copied, SlotsTracked (InSpaces spaces) (poolView m spaces) b :=
    fun b hb => hall.live b (ht.inv.live b hb)
  refine ⟨fun a ha => ?_, fun b => ⟨fun hb => ?_, ?_⟩, fun b hb b' hb' heq => ?_, hi.copyHeader,
    hi.ext.keeps, fun b hb i hil hs => ?_, fun a ha => ?_⟩
  · cases htag : (c.mem a).isTagged with
    | true =>
      have heq : c'.mem a = c.mem a := he.none a ha htag
      refine ⟨fun _ => heq, ?_, ?_, Or.inl (heq ▸ htag), ?_⟩
      all_goals
        intro h
        rw [htag] at h
        cases h
    | false =>
      rcases (ht.weakTyped hready htyped).cell_cases ha htag with hperm | hobj
      · exact ht.decided_perm hready htyped hi he ha htag hperm
      · exact ht.decided_obj hready htyped hi he htracked ha htag hobj
  · by_cases hc : b ∈ copied
    · exact Or.inl hc
    · obtain ⟨-, hd, hlink⟩ := he.fresh b hb hc
      have hd' : ¬ Dead (InSpaces spaces) copied (m b) := hd
      rw [ht.dead_iff hready, not_not] at hd'
      exact Or.inr ⟨hi.objs b hb, hd', hlink⟩
  · rintro (hb | ⟨hobj, hal, a, ha, htag, rfl⟩)
    · exact hi.ext.mem hb
    · rcases he.objLink a ha htag hobj with ⟨hd, -⟩ | ⟨-, hc, -⟩
      · exact absurd hal ((ht.dead_iff hready).1 hd)
      · exact hc
  · by_contra hne
    have := hi.copy_separate hb hb' hne
    omega
  · have hout := ((ht.copied_words hready hi htracked).1 b hb i hil hs).outside
    simpa [Outside] using hout
  · have hout := (ht.image_slots hready hi hall.images ha).outside
    simpa [Outside] using hout

end Fixed

/-- Two orders of the weak objects have the same outcome. -/
theorem Traced.sameOutcome (htyped : WeakWellTyped m spaces images ws)
    (hall : AllWordsTracked m spaces images ws (StronglyReached m spaces images ws))
    {copied₁ copied₂ : List Nat} {φ₁ φ₂ : Nat → Nat} {c₁ c₂ : Collector}
    (hi₁ : WeakInv (InSpaces spaces) (poolView m spaces) (WeakLink m spaces images copied φ)
      (permCells m spaces images c) { c with weakObjects := [] } copied φ copied₁ φ₁
      (WeakLink m spaces images copied φ) c₁)
    (he₁ : WeakExact (InSpaces spaces) (poolView m spaces) (WeakLink m spaces images copied φ)
      { c with weakObjects := [] } copied φ (WeakLink m spaces images copied φ) copied₁ φ₁ c₁)
    (hi₂ : WeakInv (InSpaces spaces) (poolView m spaces) (WeakLink m spaces images copied φ)
      (permCells m spaces images c) { c with weakObjects := [] } copied φ copied₂ φ₂
      (WeakLink m spaces images copied φ) c₂)
    (he₂ : WeakExact (InSpaces spaces) (poolView m spaces) (WeakLink m spaces images copied φ)
      { c with weakObjects := [] } copied φ (WeakLink m spaces images copied φ) copied₂ φ₂ c₂) :
    SameOutcome m spaces images copied φ c copied₁ φ₁ c₁ copied₂ φ₂ c₂ := by
  have ho₁ := ht.weakOutcome hready htyped hi₁ he₁ hall
  have ho₂ := ht.weakOutcome hready htyped hi₂ he₂ hall
  have hw := ht.weakTyped hready htyped
  have hcells : copied₁.Perm copied₂ := (List.perm_ext_iff_of_nodup hi₁.nodup hi₂.nodup).2
    (fun b => (ho₁.cells b).trans (ho₂.cells b).symm)
  refine ⟨hcells, ?_, fun a ha => ?_, fun b hb hn => ?_, fun a hin hslot hlow => ?_⟩
  · rw [hi₁.toUsed_eq, hi₂.toUsed_eq]
    exact (hcells.map _).sum_eq
  · cases htag : (c.mem a).isTagged with
    | true => exact Or.inl ((he₁.none a ha htag).trans (he₂.none a ha htag).symm)
    | false =>
      rcases hw.cell_cases ha htag with hperm | hobj
      · rcases he₁.permLink a ha htag hperm with ⟨hd, h₁, -⟩ | ⟨hd, h₁, -⟩
        · rcases he₂.permLink a ha htag hperm with ⟨-, h₂, -⟩ | ⟨hd', -⟩
          · exact Or.inl (h₁.trans h₂.symm)
          · exact absurd hd hd'
        · rcases he₂.permLink a ha htag hperm with ⟨hd', -⟩ | ⟨-, h₂, -⟩
          · exact absurd hd' hd
          · exact Or.inl (h₁.trans h₂.symm)
      · rcases he₁.objLink a ha htag hobj with ⟨hd, h₁⟩ | ⟨hd, hc, h₁⟩
        · rcases he₂.objLink a ha htag hobj with ⟨-, h₂⟩ | ⟨hd', -⟩
          · exact Or.inl (h₁.trans h₂.symm)
          · exact absurd hd hd'
        · rcases he₂.objLink a ha htag hobj with ⟨hd', -⟩ | ⟨-, -, h₂⟩
          · exact absurd hd' hd
          · by_cases hstrong : (c.mem a).addr ∈ copied
            · left
              rw [h₁, h₂]
              dsimp only
              rw [ho₁.keeps _ hstrong, ho₂.keeps _ hstrong]
            · exact Or.inr ⟨_, hc, hstrong, h₁, h₂⟩
  · obtain ⟨-, hal, hlink⟩ := ((ho₁.cells b).1 hb).resolve_left hn
    obtain ⟨a, ha, htag, rfl⟩ := hlink
    have hr := (hw.objCell ha htag hready.heapOk (hi₁.objs _ hb)).2
    rw [(hi₁.someCells _ hb hn).2.1, (hi₂.someCells _ (hcells.subset hb) hn).2.1,
      ht.relocate_alive hready hr hal hi₁.ext.keeps, ht.relocate_alive hready hr hal hi₂.ext.keeps]
  · by_cases hscr : c.InScratch a
    · exact (hi₁.kept a hscr (hlow hscr) hslot).trans (hi₂.kept a hscr (hlow hscr) hslot).symm
    · by_cases hlink : LinkCell (WeakLink m spaces images copied φ) { c with weakObjects := [] } a
      · obtain ⟨x, hx, htag, rfl⟩ := hlink
        rcases he₁.permLink x hx htag hin with ⟨hd, -, h₁⟩ | ⟨hd, -, h₁⟩
        · rcases he₂.permLink x hx htag hin with ⟨-, -, h₂⟩ | ⟨hd', -⟩
          · exact h₁.trans h₂.symm
          · exact absurd hd hd'
        · rcases he₂.permLink x hx htag hin with ⟨hd', -⟩ | ⟨-, -, h₂⟩
          · exact absurd hd' hd
          · exact h₁.trans h₂.symm
      · have h₁ := (he₁.permanent a hin hscr hslot).resolve_right (fun hc => hlink hc.1)
        have h₂ := (he₂.permanent a hin hscr hslot).resolve_right (fun hc => hlink hc.1)
        exact h₁.trans h₂.symm

/-- The fixup decides every link, in any order of the recorded weak objects. -/
theorem Traced.fixup_exact (htyped : WeakWellTyped m spaces images ws) {bodies : List Nat}
    (hperm : bodies.Perm c.weakObjects) :
    ∃ c' copied' φ', ({ c with weakObjects := bodies } : Collector).weakFixup = some c' ∧
      WeakInv (InSpaces spaces) (poolView m spaces) (WeakLink m spaces images copied φ)
        (permCells m spaces images c) { c with weakObjects := [] } copied φ copied' φ'
        (WeakLink m spaces images copied φ) c' ∧
      WeakExact (InSpaces spaces) (poolView m spaces) (WeakLink m spaces images copied φ)
        { c with weakObjects := [] } copied φ (WeakLink m spaces images copied φ) copied' φ' c' := by
  have hslots : SlotsOk (InSpaces spaces) (poolView m spaces) copied φ { c with weakObjects := [] }
      (WeakLink m spaces images copied φ) := (ht.slotsOk hready).1
  refine ht.fixup hready ?_ ?_ hperm
  · intro settled copied' φ' d s copied'' φ'' d' hi hs hns _ he hstep
    exact he.step (ht.weakTyped hready htyped) hi hready.heapOk hs hstep hslots
      (ht.slotsOk hready).2 hns
  · exact ⟨fun b hb hn => absurd hb hn, fun b hb _ hcell =>
      Or.inl (ht.inv.body b hb 0 (by have := hcell.1; omega)), fun _ _ _ _ => Or.inl rfl,
      fun _ h => h.elim, fun _ h => h.elim, fun _ h => h.elim⟩

end Outcome

/-- A collection that has traced its roots repairs the weak links as they deserve, whichever order
the weak objects were recorded in. -/
def FixupDecides {ρ : Type} (env : GcEnv) (m : Mem) (primary : MemorySpace)
    (others : List MemorySpace) (images : List (Nat × Nat)) (ws : List RootWord)
    (visit : Collector → Option (Collector × ρ)) : Prop :=
  ∃ c₀ reuse c r copied φ, startCollection env m primary others = some (c₀, reuse) ∧
    traceRoots c₀ (visitAll visit images) = some (c, r) ∧
    (∀ b, b ∈ copied ↔ StronglyReached m (primary :: others) images ws b) ∧
    ∃ c₁ copied₁ φ₁, c.weakFixup = some c₁ ∧
      WeakOutcome m (primary :: others) images ws copied φ c copied₁ φ₁ c₁ ∧
      ∀ bodies, bodies.Perm c.weakObjects → ∃ c₂ copied₂ φ₂,
        ({ c with weakObjects := bodies } : Collector).weakFixup = some c₂ ∧
        WeakOutcome m (primary :: others) images ws copied φ c copied₂ φ₂ c₂ ∧
        SameOutcome m (primary :: others) images copied φ c copied₁ φ₁ c₁ copied₂ φ₂ c₂

theorem weak_fixup_decides {ρ : Type} (env : GcEnv) {m : Mem} {primary : MemorySpace}
    {others : List MemorySpace} {images : List (Nat × Nat)} {ws : List RootWord}
    {visit : Collector → Option (Collector × ρ)} {out : (Nat → Nat) → ρ}
    (hready : PoolReady m (primary :: others) images ws
      (StronglyReached m (primary :: others) images ws)
      (takeScratch env primary (totalCapacity primary others) m).1
      (takeScratch env primary (totalCapacity primary others) m).2.1)
    (hvisit : Visits (InSpaces (primary :: others)) (poolView m (primary :: others))
      (StronglyReached m (primary :: others) images ws) visit ws out)
    (htyped : WeakWellTyped m (primary :: others) images ws)
    (hall : AllWordsTracked m (primary :: others) images ws
      (StronglyReached m (primary :: others) images ws)) :
    FixupDecides env m primary others images ws visit := by
  obtain ⟨c₀, reuse, c, r, copied, φ, hstart, htrace, ht⟩ := trace_spec env hready hvisit
  obtain ⟨c₁, copied₁, φ₁, hrun₁, hi₁, he₁⟩ := ht.fixup_exact hready htyped (List.Perm.refl _)
  refine ⟨c₀, reuse, c, r, copied, φ, hstart, htrace, fun b => ht.copied_iff hready,
    c₁, copied₁, φ₁, hrun₁, ht.weakOutcome hready htyped hi₁ he₁ hall, fun bodies hperm => ?_⟩
  obtain ⟨c₂, copied₂, φ₂, hrun₂, hi₂, he₂⟩ := ht.fixup_exact hready htyped hperm
  exact ⟨c₂, copied₂, φ₂, hrun₂, ht.weakOutcome hready htyped hi₂ he₂ hall,
    ht.sameOutcome hready htyped hall hi₁ he₁ hi₂ he₂⟩

/-! ## Two links

A weak object with a link to a cell whose reference is a root, and one to a cell whose reference
nothing else reaches. -/

def twoLinksMem : Mem := fun a =>
  if a = 0x1000 then makeLengthWord 2 (fMutableBit ||| fWeakBit)
  else if a = 0x1008 then PolyWord.fromAddr 0x1020
  else if a = 0x1010 then PolyWord.fromAddr 0x1030
  else if a = 0x1018 then makeLengthWord 1 0#8
  else if a = 0x1020 then PolyWord.fromAddr 0x1040
  else if a = 0x1028 then makeLengthWord 1 0#8
  else if a = 0x1030 then PolyWord.fromAddr 0x1050
  else if a = 0x1038 then makeLengthWord 1 fMutableBit
  else if a = 0x1040 then PolyWord.tagged 1
  else if a = 0x1048 then makeLengthWord 1 fMutableBit
  else if a = 0x1050 then PolyWord.tagged 2
  else PolyWord.zero

def twoLinksSpace : MemorySpace := { start := 0x1000, capacity := 12, used := 11, spare := none }

def twoLinksEnv : GcEnv := { audit := false, reuseMaxBytes := 0, freshAddr := 0x4000 }

/-- The weak object and the first reference. -/
def twoLinksRoots : List PolyWord := [PolyWord.fromAddr 0x1008, PolyWord.fromAddr 0x1040]

theorem twoLinks_objects : objectsOf twoLinksMem twoLinksSpace =
    [0x1008, 0x1020, 0x1030, 0x1040, 0x1050] := by decide

theorem twoLinks_poolOk : PoolOk twoLinksMem [twoLinksSpace] := by
  refine ⟨List.pairwise_singleton _ _, fun s hs => ?_⟩
  obtain rfl := List.mem_singleton.1 hs
  refine ⟨by decide, by decide, by decide, ?_, ?_, ?_⟩
  · rw [twoLinks_objects]
    exact .cons _ _ _ (.cons _ _ _ (.cons _ _ _ (.cons _ _ _ (.cons _ _ _ (.nil _)))))
  · rw [twoLinks_objects]
    decide
  · rw [twoLinks_objects]
    decide

/-- The first object has no traced slots, and the slot of the fourth holds an integer. -/
theorem twoLinks_slot {b a : Nat} (hb : b = 0x1008 ∨ b = 0x1040) (ha : IsSlot twoLinksMem b a) :
    (poolView twoLinksMem [twoLinksSpace]).target true (twoLinksMem a) = none ∧
      (twoLinksMem a).isTagged = true := by
  obtain ⟨i, hi, rfl⟩ := ha
  rcases hb with rfl | rfl
  · rw [show slotRange twoLinksMem 0x1008 = (0x1008, 0) by decide] at hi
    exact absurd hi (Nat.not_lt_zero _)
  · rw [show slotRange twoLinksMem 0x1040 = (0x1040, 1) by decide] at hi ⊢
    obtain rfl : i = 0 := Nat.lt_one_iff.1 hi
    decide

theorem twoLinks_reached {b : Nat} (hb : StronglyReached twoLinksMem [twoLinksSpace] []
    (twoLinksRoots.map (fun w => (true, w))) b) : b = 0x1008 ∨ b = 0x1040 := by
  induction hb with
  | @root p b hp ht =>
    simp only [twoLinksRoots, List.map_cons, List.map_nil, List.mem_cons, List.not_mem_nil,
      or_false] at hp
    rcases hp with rfl | rfl
    · have htgt : (poolView twoLinksMem [twoLinksSpace]).target true (PolyWord.fromAddr 0x1008) =
        some 0x1008 := by decide
      exact Or.inl (Option.some.inj (ht.symm.trans htgt))
    · have htgt : (poolView twoLinksMem [twoLinksSpace]).target true (PolyWord.fromAddr 0x1040) =
        some 0x1040 := by decide
      exact Or.inr (Option.some.inj (ht.symm.trans htgt))
  | image ha =>
    obtain ⟨b, hb, -⟩ := ha
    cases hb
  | slot _ ha ht ih =>
    rw [(twoLinks_slot ih ha).1] at ht
    cases ht

/-- The links of the only weak object that is reached. -/
theorem twoLinks_link {p a : Nat} (hp : p ∈ weakAmong (poolView twoLinksMem [twoLinksSpace])
      (regionObjects twoLinksMem []) ∨ StronglyReached twoLinksMem [twoLinksSpace] []
        (twoLinksRoots.map (fun w => (true, w))) p ∧ isWeakWordObj (twoLinksMem (p - 8)) = true)
    (ha : LinkOf p (twoLinksMem.objLen p) a) : a = 0x1008 ∨ a = 0x1010 := by
  rcases hp with hp | ⟨hp, hweak⟩
  · cases hp
  · rcases twoLinks_reached hp with rfl | rfl
    · obtain ⟨i, hi, rfl⟩ := ha
      rw [show twoLinksMem.objLen 0x1008 = 2 by decide] at hi
      omega
    · exact absurd hweak (by decide)

theorem twoLinks_inSpaces {a : Nat} (h : InSpaces [twoLinksSpace] a) : 0x1000 ≤ a ∧ a < 0x1060 := by
  obtain ⟨s, hs, hlo, hhi⟩ := h
  obtain rfl := List.mem_singleton.1 hs
  exact ⟨hlo, hhi⟩

theorem twoLinks_ready : PoolReady twoLinksMem [twoLinksSpace] []
    (twoLinksRoots.map (fun w => (true, w)))
    (StronglyReached twoLinksMem [twoLinksSpace] [] (twoLinksRoots.map (fun w => (true, w))))
    (takeScratch twoLinksEnv twoLinksSpace (totalCapacity twoLinksSpace []) twoLinksMem).1
    (takeScratch twoLinksEnv twoLinksSpace (totalCapacity twoLinksSpace []) twoLinksMem).2.1 := by
  have hscratch : (takeScratch twoLinksEnv twoLinksSpace (totalCapacity twoLinksSpace [])
      twoLinksMem).1 = 0x4000 ∧ (takeScratch twoLinksEnv twoLinksSpace
        (totalCapacity twoLinksSpace []) twoLinksMem).2.1 = 12 := by decide
  rw [hscratch.1, hscratch.2]
  refine ⟨twoLinks_poolOk, fun b hb => ?_, fun b hb hcode => ?_, fun b a t hb ha ht => .slot hb ha ht,
    fun p hp t ht => .root hp ht, by simp, by simp, List.Pairwise.nil, by simp, fun a h1 h2 hin => ?_,
    by decide, by decide, fun p hp a ha => ?_⟩
  · rcases twoLinks_reached hb with rfl | rfl <;> decide
  · rcases twoLinks_reached hb with rfl | rfl <;> exact absurd hcode (by decide)
  · have := twoLinks_inSpaces hin
    omega
  · rcases twoLinks_link hp ha with rfl | rfl
    · exact Or.inr (Or.inr ⟨by decide, fun _ => Or.inr (by decide)⟩)
    · exact Or.inr (Or.inr ⟨by decide, fun _ => Or.inr (by decide)⟩)

theorem weak_fixup_decides_twoLinks :
    FixupDecides twoLinksEnv twoLinksMem twoLinksSpace [] []
      (twoLinksRoots.map (fun w => (true, w))) (fun c => forwardRoots c twoLinksRoots) := by
  refine weak_fixup_decides twoLinksEnv twoLinks_ready
    (visits_forwardRoots twoLinks_ready.heapOk twoLinksRoots) (fun p hp a ha => ?_) ⟨?_, ?_, ?_⟩
  · rcases twoLinks_link hp ha with rfl | rfl
    · exact Or.inr (Or.inr ⟨by decide, ⟨⟨by decide, by decide⟩, by decide, by decide⟩, by decide,
        Or.inr (by decide)⟩)
    · exact Or.inr (Or.inr ⟨by decide, ⟨⟨by decide, by decide⟩, by decide, by decide⟩, by decide,
        Or.inr (by decide)⟩)
  · intro p hp hnone
    simp only [twoLinksRoots, List.map_cons, List.map_nil, List.mem_cons, List.not_mem_nil,
      or_false] at hp
    rcases hp with rfl | rfl
    · exact absurd hnone (by decide)
    · exact absurd hnone (by decide)
  · intro b hb
    cases hb
  · intro b hb a ha hnone
    exact Or.inl (by rw [Bool.true_and]; exact (twoLinks_slot (twoLinks_reached hb) ha).2)
