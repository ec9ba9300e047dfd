import PolymlRs.Heap.PolyWord

set_option autoImplicit false

/-! # Bump-allocated spaces

A `MemorySpace` is a block of `capacity` words at address `start`, of which the first `used` hold
objects laid out one after the other: a length word, then the body it announces. `ObjectsIn` is
that layout read off the memory, and the list it carries names the objects by the address of their
first body word. -/

/-- The loop `for i in 0..n` that writes nothing but the words `[dst, dst + n)`: a
`copy_nonoverlapping` of `n` words. -/
def Mem.copyWords (m : Mem) (src dst n : Nat) : Mem := fun a =>
  if dst ≤ a ∧ a < dst + wordBytes * n then m (src + (a - dst)) else m a

/-- `vec![0usize; n]` placed at address `a`. -/
def Mem.fillZero (m : Mem) (dst n : Nat) : Mem := fun a =>
  if dst ≤ a ∧ a < dst + wordBytes * n then PolyWord.zero else m a

theorem Mem.copyWords_outside (m : Mem) (src dst n : Nat) {a : Nat}
    (h : a < dst ∨ dst + 8 * n ≤ a) : m.copyWords src dst n a = m a := by
  have : ¬ (dst ≤ a ∧ a < dst + wordBytes * n) := by
    rw [wordBytes]
    omega
  simp only [copyWords, if_neg this]

theorem Mem.copyWords_inside (m : Mem) (src dst n : Nat) {i : Nat} (h : i < n) :
    m.copyWords src dst n (dst + 8 * i) = m (src + 8 * i) := by
  have : dst ≤ dst + 8 * i ∧ dst + 8 * i < dst + wordBytes * n := by
    rw [wordBytes]
    omega
  simp only [copyWords, if_pos this, Nat.add_sub_cancel_left]

theorem Mem.fillZero_outside (m : Mem) (dst n : Nat) {a : Nat}
    (h : a < dst ∨ dst + 8 * n ≤ a) : m.fillZero dst n a = m a := by
  have : ¬ (dst ≤ a ∧ a < dst + wordBytes * n) := by
    rw [wordBytes]
    omega
  simp only [fillZero, if_neg this]

/-- A fixed-capacity, bump-allocated space. -/
structure MemorySpace where
  /-- Address of the first storage word. -/
  start : Nat
  /-- Storage length in words. -/
  capacity : Nat
  /-- Words handed out so far. -/
  used : Nat
  /-- Retired from-space kept for reuse as the next scratch: address and length. -/
  spare : Option (Nat × Nat)
deriving DecidableEq, Repr

namespace MemorySpace

/-- One past the last storage word. -/
def limit (s : MemorySpace) : Nat := s.start + wordBytes * s.capacity

/-- Bump-allocate `nWords` words plus their length word; the address of the body, or nothing when
the space is exhausted. -/
def tryAlloc (s : MemorySpace) (nWords : Nat) : Option (MemorySpace × Nat) :=
  let bodyIdx := s.used + 1
  let newUsed := bodyIdx + nWords
  if newUsed > s.capacity then none
  else some ({ s with used := newUsed }, s.start + wordBytes * bodyIdx)

/-- Swap in the collector's to-space; the retired storage is kept as the spare or dropped. -/
def replaceStoragePingpong (s : MemorySpace) (newStart newLen newUsed : Nat) (keepSpare : Bool) :
    MemorySpace :=
  { start := newStart, capacity := newLen, used := newUsed,
    spare := if keepSpare then some (s.start, s.capacity) else none }

/-- Rewind the bump pointer of a nursery whose live objects were promoted. -/
def resetEmpty (s : MemorySpace) : MemorySpace := { s with used := 0 }

end MemorySpace

/-- The length, in words, of the object with body `b`. -/
def Mem.objLen (m : Mem) (b : Nat) : Nat := lengthOf (m (b - wordBytes))

/-- The words from address `a` up to address `e` are exactly the objects `objs`, in this order. -/
inductive ObjectsIn (m : Mem) : Nat → List Nat → Nat → Prop
  | nil (a : Nat) : ObjectsIn m a [] a
  | cons (a : Nat) (objs : List Nat) (e : Nat)
      (rest : ObjectsIn m (a + 8 + 8 * lengthOf (m a)) objs e) : ObjectsIn m a ((a + 8) :: objs) e

namespace ObjectsIn

variable {m : Mem}

theorem le {a e : Nat} {objs : List Nat} (h : ObjectsIn m a objs e) : a ≤ e := by
  induction h with
  | nil a => exact Nat.le_refl a
  | cons a objs e _ ih => omega

/-- An object of the layout lies, length word included, between its two ends. -/
theorem bounds {a e : Nat} {objs : List Nat} (h : ObjectsIn m a objs e) {b : Nat} (hb : b ∈ objs) :
    a + 8 ≤ b ∧ b + 8 * m.objLen b ≤ e := by
  induction h with
  | nil a => simp at hb
  | cons a objs e rest ih =>
    rcases List.mem_cons.1 hb with rfl | hb
    · have := rest.le
      simp only [Mem.objLen, wordBytes, Nat.add_sub_cancel]
      omega
    · have := ih hb
      omega

/-- Two objects of one layout are the same or do not overlap. -/
theorem separate {a e : Nat} {objs : List Nat} (h : ObjectsIn m a objs e) {b c : Nat}
    (hb : b ∈ objs) (hc : c ∈ objs) :
    b = c ∨ b + 8 * m.objLen b + 8 ≤ c ∨ c + 8 * m.objLen c + 8 ≤ b := by
  induction h with
  | nil a => simp at hb
  | cons a objs e rest ih =>
    have hlen : m.objLen (a + 8) = lengthOf (m a) := by
      simp only [Mem.objLen, wordBytes, Nat.add_sub_cancel]
    rcases List.mem_cons.1 hb with rfl | hb <;> rcases List.mem_cons.1 hc with rfl | hc
    · exact Or.inl rfl
    · have := rest.bounds hc
      rw [hlen]
      omega
    · have := rest.bounds hb
      rw [hlen]
      omega
    · exact ih hb hc

theorem append {a e f : Nat} {xs ys : List Nat} (h : ObjectsIn m a xs e) (h' : ObjectsIn m e ys f) :
    ObjectsIn m a (xs ++ ys) f := by
  induction h with
  | nil a => exact h'
  | cons a objs e _ ih => exact .cons a _ f (ih h')

theorem split {a e : Nat} {xs ys : List Nat} (h : ObjectsIn m a (xs ++ ys) e) :
    ∃ f, ObjectsIn m a xs f ∧ ObjectsIn m f ys e := by
  induction xs generalizing a with
  | nil => exact ⟨a, .nil a, h⟩
  | cons x xs ih =>
    cases h with
    | cons a _ _ rest =>
      obtain ⟨f, hxs, hys⟩ := ih rest
      exact ⟨f, .cons a xs f hxs, hys⟩

/-- Only the length words decide a layout. -/
theorem congr {m' : Mem} {a e : Nat} {objs : List Nat} (h : ObjectsIn m a objs e)
    (heq : ∀ b ∈ objs, m' (b - 8) = m (b - 8)) : ObjectsIn m' a objs e := by
  induction h with
  | nil a => exact .nil a
  | cons a objs e _ ih =>
    have ha : m' a = m a := by
      have := heq (a + 8) (List.mem_cons_self ..)
      rwa [Nat.add_sub_cancel] at this
    refine .cons a objs e ?_
    rw [ha]
    exact ih (fun b hb => heq b (List.mem_cons_of_mem _ hb))

/-- The total size of a layout, length words included. -/
theorem size {a e : Nat} {objs : List Nat} (h : ObjectsIn m a objs e) :
    e = a + 8 * (objs.map (fun b => 1 + m.objLen b)).sum := by
  induction h with
  | nil a => simp
  | cons a objs e rest ih =>
    have hlen : m.objLen (a + 8) = lengthOf (m a) := by
      simp only [Mem.objLen, wordBytes, Nat.add_sub_cancel]
    simp only [List.map_cons, List.sum_cons, hlen]
    omega

theorem end_unique {a e f : Nat} {objs : List Nat} (h : ObjectsIn m a objs e)
    (h' : ObjectsIn m a objs f) : e = f := h.size.trans h'.size.symm

theorem nodup {a e : Nat} {objs : List Nat} (h : ObjectsIn m a objs e) : objs.Nodup := by
  induction h with
  | nil a => exact List.nodup_nil
  | cons a objs e rest ih =>
    refine List.nodup_cons.2 ⟨fun hmem => ?_, ih⟩
    have := rest.bounds hmem
    omega

end ObjectsIn
