import Mathlib.Data.List.Sort

set_option autoImplicit false

/-! # Lookup in a sorted list of disjoint ranges

A list of half-open ranges `[lo, hi)`, in order and disjoint, answers "which range contains `a`?" by
one partition point: the last range that starts at or before `a` is the only candidate. -/

/-- The number of ranges that start at or before `addr`, on a list sorted by start. -/
def partitionPoint (ranges : List (Nat × Nat)) (addr : Nat) : Nat :=
  (ranges.takeWhile (fun r => decide (r.1 ≤ addr))).length

/-- The range that contains `addr`, with its position. -/
def rangeAt (ranges : List (Nat × Nat)) (addr : Nat) : Option (Nat × Nat × Nat) :=
  match partitionPoint ranges addr with
  | 0 => none
  | k + 1 => match ranges[k]? with
    | none => none
    | some r => if addr < r.2 then some (k, r) else none

/-- Ranges in order: each one ends before the later ones start. -/
def OrderedRanges (ranges : List (Nat × Nat)) : Prop :=
  (∀ r ∈ ranges, r.1 ≤ r.2) ∧ ranges.Pairwise (fun r s => r.2 ≤ s.1)

theorem OrderedRanges.tail {r : Nat × Nat} {rest : List (Nat × Nat)}
    (h : OrderedRanges (r :: rest)) : OrderedRanges rest :=
  ⟨fun s hs => h.1 s (List.mem_cons_of_mem _ hs), (List.pairwise_cons.1 h.2).2⟩

/-- The `k`-th range contains `a`, so exactly the ranges up to it start at or before `a`. -/
theorem partitionPoint_eq {ranges : List (Nat × Nat)} (h : OrderedRanges ranges) {k a : Nat}
    {r : Nat × Nat} (hk : ranges[k]? = some r) (hlo : r.1 ≤ a) (hhi : a < r.2) :
    partitionPoint ranges a = k + 1 := by
  induction ranges generalizing k with
  | nil => simp at hk
  | cons r0 rest ih =>
    have hcons := List.pairwise_cons.1 h.2
    cases k with
    | zero =>
      simp only [List.getElem?_cons_zero, Option.some.injEq] at hk
      subst hk
      have hnil : rest.takeWhile (fun s => decide (s.1 ≤ a)) = [] := by
        cases rest with
        | nil => rfl
        | cons s rest' =>
          have := hcons.1 s (List.mem_cons_self ..)
          exact List.takeWhile_cons_of_neg (by simp; omega)
      rw [partitionPoint, List.takeWhile_cons_of_pos (by simpa using hlo), hnil]
      rfl
    | succ k =>
      rw [List.getElem?_cons_succ] at hk
      have hr : r ∈ rest := List.mem_of_getElem? hk
      have hr0 : r0.1 ≤ a := by
        have h1 := h.1 r0 (List.mem_cons_self ..)
        have h2 := hcons.1 r hr
        omega
      have hrest := ih h.tail hk
      rw [partitionPoint] at hrest
      rw [partitionPoint, List.takeWhile_cons_of_pos (by simpa using hr0), List.length_cons, hrest]

theorem rangeAt_of_mem {ranges : List (Nat × Nat)} (h : OrderedRanges ranges) {k a : Nat}
    {r : Nat × Nat} (hk : ranges[k]? = some r) (hlo : r.1 ≤ a) (hhi : a < r.2) :
    rangeAt ranges a = some (k, r) := by
  simp only [rangeAt, partitionPoint_eq h hk hlo hhi, hk, if_pos hhi]

theorem fst_le_of_lt_partitionPoint {ranges : List (Nat × Nat)} {a k : Nat} {r : Nat × Nat}
    (hk : ranges[k]? = some r) (hlt : k < partitionPoint ranges a) : r.1 ≤ a := by
  induction ranges generalizing k with
  | nil => simp at hk
  | cons r0 rest ih =>
    by_cases h0 : r0.1 ≤ a
    · cases k with
      | zero =>
        simp only [List.getElem?_cons_zero, Option.some.injEq] at hk
        exact hk ▸ h0
      | succ k =>
        rw [List.getElem?_cons_succ] at hk
        rw [partitionPoint, List.takeWhile_cons_of_pos (by simpa using h0), List.length_cons] at hlt
        exact ih hk (Nat.lt_of_succ_lt_succ hlt)
    · rw [partitionPoint, List.takeWhile_cons_of_neg (by simpa using h0)] at hlt
      exact absurd hlt (Nat.not_lt_zero k)

/-- What a successful lookup says. -/
theorem rangeAt_eq_some {ranges : List (Nat × Nat)} {a k : Nat} {r : Nat × Nat}
    (h : rangeAt ranges a = some (k, r)) : ranges[k]? = some r ∧ r.1 ≤ a ∧ a < r.2 := by
  unfold rangeAt at h
  split at h
  · simp at h
  · next k' hp =>
    split at h
    · simp at h
    · next r' hr =>
      split at h
      · next hlt =>
        simp only [Option.some.injEq, Prod.mk.injEq] at h
        obtain ⟨rfl, rfl⟩ := h
        exact ⟨hr, fst_le_of_lt_partitionPoint hr (by omega), hlt⟩
      · simp at h

/-- The lookup succeeds exactly on the union of the ranges. -/
theorem rangeAt_isSome {ranges : List (Nat × Nat)} (h : OrderedRanges ranges) {a : Nat} :
    (rangeAt ranges a).isSome = true ↔ ∃ r ∈ ranges, r.1 ≤ a ∧ a < r.2 := by
  constructor
  · intro hs
    obtain ⟨⟨k, r⟩, hkr⟩ := Option.isSome_iff_exists.1 hs
    obtain ⟨hk, hlo, hhi⟩ := rangeAt_eq_some hkr
    exact ⟨r, List.mem_of_getElem? hk, hlo, hhi⟩
  · rintro ⟨r, hr, hlo, hhi⟩
    obtain ⟨k, hk⟩ := List.getElem?_of_mem hr
    rw [rangeAt_of_mem h hk hlo hhi]
    rfl
