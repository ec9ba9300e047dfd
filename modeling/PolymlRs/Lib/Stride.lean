import Mathlib.Logic.Basic

set_option autoImplicit false

/-! # Walks over variable-length records

A walk over `n` places stands at the first record, and moves on by the length of the record it stands at
until it is past the last. Where it stands are the starts of the records; a walk that goes by other
lengths is on the starts only as long as its lengths are the right ones. -/

namespace Stride

variable {σ : Type} {n : Nat} {len : Nat → Nat}

/-- Records of these lengths that follow each other from `p` lead to a start at `q`. -/
inductive Reaches (n : Nat) (len : Nat → Nat) : Nat → Nat → Prop
  | refl (p : Nat) : Reaches n len p p
  | step {p q : Nat} (hp : p < n) (h : Reaches n len (p + len p) q) : Reaches n len p q

theorem Reaches.le {p q : Nat} (h : Reaches n len p q) : p ≤ q := by
  induction h with
  | refl p => exact Nat.le_refl p
  | step _ _ ih => exact Nat.le_trans (Nat.le_add_right _ _) ih

/-- A walk reads the record at each place, which tells its length or that the walk gives up. It also
    gives up at a record that is empty or not whole. -/
def walk (n : Nat) (visit : Nat → σ → Option (Nat × σ)) (p : Nat) (s : σ) : Option σ :=
  if _h : p < n then
    match visit p s with
    | none => none
    | some (l, s') => if _hl : l = 0 ∨ n < p + l then none else walk n visit (p + l) s'
  else some s
termination_by n - p
decreasing_by omega

variable {visit : Nat → σ → Option (Nat × σ)}

theorem walk_of_le {p : Nat} {s : σ} (h : n ≤ p) : walk n visit p s = some s := by
  rw [walk, dif_neg (Nat.not_lt.2 h)]

theorem walk_visit {p l : Nat} {s s' : σ} (hp : p < n) (hv : visit p s = some (l, s')) (hl : l ≠ 0)
    (hn : p + l ≤ n) : walk n visit p s = walk n visit (p + l) s' := by
  have hgo : ¬ (l = 0 ∨ n < p + l) := by omega
  rw [walk, dif_pos hp, hv]
  exact dif_neg hgo

/-- A walk that does not give up went on from the record it stood at. -/
theorem walk_step {p : Nat} {s t : σ} (hp : p < n) (h : walk n visit p s = some t) :
    ∃ l s', visit p s = some (l, s') ∧ l ≠ 0 ∧ p + l ≤ n ∧ walk n visit (p + l) s' = some t := by
  rw [walk, dif_pos hp] at h
  cases hv : visit p s with
  | none => simp [hv] at h
  | some r =>
    obtain ⟨l, s'⟩ := r
    rw [hv] at h
    by_cases hl : l = 0 ∨ n < p + l
    · simp [hl] at h
    · rw [not_or] at hl
      exact ⟨l, s', rfl, hl.1, Nat.not_lt.1 hl.2, by simpa [hl.1, Nat.not_lt.1 hl.2] using h⟩

/-- What no visit undoes is still there at the end. -/
theorem walk_keeps {P : σ → Prop} (keeps : ∀ p s l s', visit p s = some (l, s') → P s → P s')
    {p : Nat} {s t : σ} (h : walk n visit p s = some t) (hs : P s) : P t := by
  by_cases hp : p < n
  · obtain ⟨l, s', hv, hl, hn, h'⟩ := walk_step hp h
    exact walk_keeps keeps h' (keeps p s l s' hv hs)
  · rw [walk_of_le (Nat.not_lt.1 hp), Option.some.injEq] at h
    exact h ▸ hs
termination_by n - p
decreasing_by omega

/-- What the visit of the record at `q` sets, and no visit undoes, is there at the end of a walk that goes
    by the right lengths as far as `q`. -/
theorem walk_sets {P : σ → Prop} (keeps : ∀ p s l s', visit p s = some (l, s') → P s → P s') {q : Nat}
    (sets : ∀ s l s', visit q s = some (l, s') → P s') (hq : q < n) {p : Nat}
    (hr : Reaches n len p q)
    (right : ∀ r, Reaches n len p r → r < q → ∀ s l s', visit r s = some (l, s') → l = len r)
    {s t : σ} (h : walk n visit p s = some t) : P t := by
  induction hr generalizing s with
  | refl p =>
    obtain ⟨l, s', hv, -, -, h'⟩ := walk_step hq h
    exact walk_keeps keeps h' (sets s l s' hv)
  | @step p q hp hr ih =>
    obtain ⟨l, s', hv, hl, -, h'⟩ := walk_step hp h
    have hle := hr.le
    rcases Nat.eq_or_lt_of_le (Nat.le_trans (Nat.le_add_right p _) hle) with rfl | hlt
    · exact walk_keeps keeps h' (sets s l s' hv)
    · obtain rfl : l = len p := right p (.refl p) hlt s l s' hv
      exact ih sets hq (fun r hr' => right r (.step hp hr')) h'

/-! ## Searches -/

/-- What a search finds at a place: what it looks for, or the length of a record to step over. -/
inductive Look (ρ : Type)
  | found (r : ρ)
  | pass (l : Nat)

/-- A search goes on to the first record that is looked for. It fails where the length of a record is not
    known. -/
def search {ρ : Type} (n : Nat) (look : Nat → Option (Look ρ)) (p : Nat) : Option ρ :=
  if _h : p < n then
    match look p with
    | none => none
    | some (.found r) => some r
    | some (.pass l) => if _hl : l = 0 then none else search n look (p + l)
  else none
termination_by n - p
decreasing_by omega

variable {ρ : Type} {look : Nat → Option (Look ρ)}

theorem search_found {p : Nat} {r : ρ} (hp : p < n) (h : look p = some (.found r)) :
    search n look p = some r := by
  rw [search, dif_pos hp, h]

theorem search_pass {p l : Nat} (hp : p < n) (h : look p = some (.pass l)) (hl : l ≠ 0) :
    search n look p = search n look (p + l) := by
  rw [search, dif_pos hp, h]
  exact dif_neg hl

theorem search_none {p : Nat} (h : look p = none) : search n look p = none := by
  rw [search, h]
  split <;> rfl

/-- What is found stands at the start of a record, when the lengths are the right ones. -/
theorem search_sound (right : ∀ q l, look q = some (.pass l) → len q = l) {p : Nat} {r : ρ}
    (h : search n look p = some r) : ∃ q, Reaches n len p q ∧ look q = some (.found r) := by
  by_cases hp : p < n
  · cases hv : look p with
    | none =>
      rw [search_none hv] at h
      cases h
    | some v =>
      cases v with
      | found r' =>
        rw [search_found hp hv, Option.some.injEq] at h
        exact ⟨p, .refl p, h ▸ hv⟩
      | pass l =>
        by_cases hl : l = 0
        · rw [search, dif_pos hp, hv] at h
          simp [hl] at h
        · rw [search_pass hp hv hl] at h
          obtain ⟨q, hq, hr⟩ := search_sound right h
          exact ⟨q, .step hp (right p l hv ▸ hq), hr⟩
  · rw [search, dif_neg hp] at h
    cases h
termination_by n - p
decreasing_by omega

end Stride
