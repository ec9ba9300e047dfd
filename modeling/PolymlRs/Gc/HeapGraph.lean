import PolymlRs.Gc.Collector

set_option autoImplicit false

/-! # The object graph of a heap

What a collection has to preserve, stated without reference to how it works. A `HeapView` is a
memory with the list of its objects; a word points at the object that covers its address, and an
interior pointer at an offset inside it. `GraphIso` relates the graph reached from some roots in one
heap to the graph reached from other roots in another heap: a bijection of the reached objects under
which length words and untraced words agree and traced words agree up to moving the pointers. -/

/-- Address and number of the slots of the object `obj` that the collector traces. -/
def slotRange (m : Mem) (obj : Nat) : Nat × Nat :=
  let lw := m (obj - wordBytes)
  if typeOf lw = fByteObj then (obj, 0)
  else if typeOf lw = fCodeObj then constSegmentForCode m obj
  else if typeOf lw = fClosureObj then (obj, lengthOf lw)
  else if isWeak lw then (obj, 0)
  else (obj, lengthOf lw)

/-- Is the object a weak word object, one whose slots are weak links? -/
def isWeakWordObj (lw : PolyWord) : Bool :=
  decide (typeOf lw ≠ fByteObj ∧ typeOf lw ≠ fCodeObj ∧ typeOf lw ≠ fClosureObj) && isWeak lw

/-- `a` is the address of a traced slot of `obj`. -/
def IsSlot (m : Mem) (obj a : Nat) : Prop :=
  ∃ i < (slotRange m obj).2, a = (slotRange m obj).1 + 8 * i

/-- The object with body `b` covers the address `a`: `a` lies in a word of its body, or in the word
its body would start at, when it has none. -/
def Mem.Covers (m : Mem) (b a : Nat) : Prop := b ≤ a ∧ a < b + 8 * max 1 (m.objLen b)

instance (m : Mem) (b a : Nat) : Decidable (m.Covers b a) := by
  unfold Mem.Covers
  infer_instance

/-- A memory and its objects. -/
structure HeapView where
  mem : Mem
  objs : List Nat

namespace HeapView

variable (h : HeapView)

/-- The object covering an address. -/
def container (a : Nat) : Option Nat := h.objs.find? (fun b => decide (h.mem.Covers b a))

/-- The object a word points at. Words with bit 0 set are integers, except where the filter is off:
a stack word may be a raw code address. -/
def target (taggedFilter : Bool) (w : PolyWord) : Option Nat :=
  if taggedFilter && w.isTagged then none else h.container w.addr

/-- The objects reached from the root words `roots` through traced slots. -/
inductive Reach (roots : List PolyWord) : Nat → Prop
  | root {w : PolyWord} {b : Nat} (hw : w ∈ roots) (ht : h.target true w = some b) : Reach roots b
  | slot {b a c : Nat} (hb : Reach roots b) (ha : IsSlot h.mem b a)
      (ht : h.target true (h.mem a) = some c) : Reach roots c

/-- The word `w` after every object `b` has moved to `φ b`: it keeps its offset. -/
def relocate (φ : Nat → Nat) (taggedFilter : Bool) (w : PolyWord) : PolyWord :=
  match h.target taggedFilter w with
  | none => w
  | some b => PolyWord.fromAddr (φ b + (w.addr - b))

/-- Two objects are the same or their extents, length words included, are disjoint. -/
def Separate : Prop := ∀ b ∈ h.objs, ∀ c ∈ h.objs,
  b = c ∨ b + 8 * h.mem.objLen b + 8 ≤ c ∨ c + 8 * h.mem.objLen c + 8 ≤ b

/-- A code object whose constants lie between its code and its last word, as the loader lays it
out. -/
structure CodeOk (b : Nat) : Prop where
  length : 2 ≤ h.mem.objLen b
  start : b + 8 ≤ (constSegmentForCode h.mem b).1
  aligned : ((constSegmentForCode h.mem b).1 - b) % 8 = 0
  fits : (constSegmentForCode h.mem b).1 + 8 * (constSegmentForCode h.mem b).2 ≤
    b + 8 * (h.mem.objLen b - 1)

variable {h}

theorem container_mem {a b : Nat} (hc : h.container a = some b) : b ∈ h.objs :=
  List.mem_of_find?_eq_some hc

theorem container_covers {a b : Nat} (hc : h.container a = some b) : h.mem.Covers b a := by
  have := List.find?_some (p := fun b => decide (h.mem.Covers b a)) hc
  exact of_decide_eq_true this

theorem container_eq_some (hsep : h.Separate) (hpos : ∀ b ∈ h.objs, 8 ≤ b) {a b : Nat} :
    h.container a = some b ↔ b ∈ h.objs ∧ h.mem.Covers b a := by
  constructor
  · intro hc
    exact ⟨container_mem hc, container_covers hc⟩
  · rintro ⟨hb, hcov⟩
    cases hc : h.container a with
    | none =>
      have := List.find?_eq_none.1 hc b hb
      exact absurd (decide_eq_true hcov) this
    | some c =>
      have hcc := container_covers hc
      have hcm := container_mem hc
      have hb8 := hpos b hb
      rcases hsep b hb c hcm with rfl | hlt | hlt
      · rfl
      · obtain ⟨h1, h2⟩ := hcov
        obtain ⟨h3, h4⟩ := hcc
        omega
      · obtain ⟨h1, h2⟩ := hcov
        obtain ⟨h3, h4⟩ := hcc
        omega

theorem target_container {tf : Bool} {w : PolyWord} {b : Nat} (ht : h.target tf w = some b) :
    h.container w.addr = some b := by
  unfold target at ht
  split at ht
  · simp at ht
  · exact ht

theorem target_mem {tf : Bool} {w : PolyWord} {b : Nat} (ht : h.target tf w = some b) :
    b ∈ h.objs :=
  container_mem (target_container ht)

theorem relocate_of_target_none {φ : Nat → Nat} {tf : Bool} {w : PolyWord}
    (ht : h.target tf w = none) : h.relocate φ tf w = w := by
  simp only [relocate, ht]

theorem relocate_of_target {φ : Nat → Nat} {tf : Bool} {w : PolyWord} {b : Nat}
    (ht : h.target tf w = some b) : h.relocate φ tf w = PolyWord.fromAddr (φ b + (w.addr - b)) := by
  simp only [relocate, ht]

/-- Only the new place of the target matters. -/
theorem relocate_congr {φ ψ : Nat → Nat} {tf : Bool} {w : PolyWord}
    (heq : ∀ b, h.target tf w = some b → ψ b = φ b) : h.relocate ψ tf w = h.relocate φ tf w := by
  cases ht : h.target tf w with
  | none => rw [relocate_of_target_none ht, relocate_of_target_none ht]
  | some b => rw [relocate_of_target ht, relocate_of_target ht, heq b ht]

end HeapView

/-- `φ` is an isomorphism from the graph that `h` has under the roots `ws` to the graph that `h'`
has under the roots `ws'`. -/
structure GraphIso (h : HeapView) (ws : List PolyWord) (h' : HeapView) (ws' : List PolyWord)
    (φ : Nat → Nat) : Prop where
  /-- Reached objects go to reached objects, ... -/
  maps : ∀ b, h.Reach ws b → h'.Reach ws' (φ b)
  /-- ... different ones to different ones (sharing and cycles are kept), ... -/
  injective : ∀ b c, h.Reach ws b → h.Reach ws c → φ b = φ c → b = c
  /-- ... and every reached object is hit. -/
  surjective : ∀ b', h'.Reach ws' b' → ∃ b, h.Reach ws b ∧ φ b = b'
  /-- Length and flags are kept. -/
  header : ∀ b, h.Reach ws b → h'.mem (φ b - 8) = h.mem (b - 8)
  /-- The traced slots are the same ones. -/
  slots : ∀ b, h.Reach ws b → ∀ i < h.mem.objLen b,
    (IsSlot h'.mem (φ b) (φ b + 8 * i) ↔ IsSlot h.mem b (b + 8 * i))
  /-- A traced slot keeps an integer or an outside pointer, and follows an object at its offset. -/
  traced : ∀ b, h.Reach ws b → ∀ i < h.mem.objLen b, IsSlot h.mem b (b + 8 * i) →
    h'.mem (φ b + 8 * i) = h.relocate φ true (h.mem (b + 8 * i))
  /-- Every other word is kept: bytes, code, weak links. -/
  untraced : ∀ b, h.Reach ws b → ∀ i < h.mem.objLen b, ¬ IsSlot h.mem b (b + 8 * i) →
    h'.mem (φ b + 8 * i) = h.mem (b + 8 * i)
  /-- Edges go to the image of the object they went to. -/
  edges : ∀ b, h.Reach ws b → ∀ i < h.mem.objLen b, IsSlot h.mem b (b + 8 * i) →
    h'.target true (h'.mem (φ b + 8 * i)) = (h.target true (h.mem (b + 8 * i))).map φ
  /-- The root slots are rewritten in the same way. -/
  roots : ws' = ws.map (h.relocate φ true)
  rootEdges : ∀ w ∈ ws, h'.target true (h.relocate φ true w) =
    (h.target true w).map φ
