import Mathlib.Algebra.BigOperators.Ring.Finset
import PolymlRs.Gc.ParallelDrain

set_option autoImplicit false

/-! # What a step of a worker keeps

A part of a copy that has not been scanned is *held*: by a task of the queue, by a chunk of a worker,
or by the range a worker is scanning. A step may hand on what is held, and scan a part, but loses
none. -/

namespace Par

variable {Obj : Type}

/-! ## What is still to be scanned -/

/-- What a scan of an object does: it forwards a slot, or leaves the links of a weak object to the
fixup. -/
inductive Part
  | slot (i : Nat)
  | links

def Object.Has (o : Object Obj) : Part → Prop
  | .slot i => i < o.scanned
  | .links => o.kind = .weak

def Shared.Done (sh : Shared Obj) (o : Obj) : Part → Prop
  | .slot i => sh.forwarded o i = true
  | .links => o ∈ sh.weak

/-- The slots `[lo, hi)`. -/
def Part.Within (lo hi : Nat) : Part → Prop
  | .slot i => lo ≤ i ∧ i < hi
  | .links => False

def Chunk.Holds (c : Chunk Obj) (o : Obj) : Prop := .object o ∈ c.unscanned

def Sweep.Holds (o : Obj) : Sweep Obj → Prop
  | .foreign c => c.Holds o
  | .own | .task => False

def Job.Holds (j : Job Obj) (o : Obj) (i : Part) : Prop :=
  j.sweep.Holds o ∨ j.body = o ∧ i.Within j.lo j.hi

/-- Part `i` of the copy of `o` is still to be scanned by a worker in this phase. -/
def Phase.Holds (o : Obj) (i : Part) : Phase Obj → Prop
  | .sweeping sweep => sweep.Holds o
  | .split j | .scan j | .forward j _ | .claimed j _ | .panicked j _ => j.Holds o i
  | .sealed j _ old => old.Holds o ∨ j.Holds o i
  | .copy j _ slice => (∃ c, slice = some c ∧ c.Holds o) ∨ j.Holds o i
  | .place j slice => slice.Holds o ∨ j.Holds o i
  | .top | .idling | .probing | .loading | .entering | .returned => False

def Worker.Holds (x : Worker Obj) (o : Obj) (i : Part) : Prop :=
  x.cur.Holds o ∨ (∃ c, x.scanning = some c ∧ c.Holds o) ∨ x.phase.Holds o i

def Task.Holds (o : Obj) (i : Part) : Task Obj → Prop
  | .chunk c => c.Holds o
  | .slots body lo hi => body = o ∧ i.Within lo hi

/-- A worker that may still look for tasks. -/
def Phase.active : Phase Obj → Bool
  | .idling | .probing | .loading | .entering | .returned => false
  | _ => true

/-- A worker that `busy` counts. -/
def Phase.counted : Phase Obj → Bool
  | .probing | .loading | .entering | .returned => false
  | _ => true

/-- A phase without anything to scan. -/
def Phase.Free : Phase Obj → Prop
  | .top | .idling | .probing | .loading | .entering | .returned => True
  | _ => False

/-- A worker without anything to scan. -/
structure Worker.Free (x : Worker Obj) : Prop where
  cur : x.cur.unscanned = []
  scanning : x.scanning = none
  phase : x.phase.Free

theorem Worker.Free.not_holds {x : Worker Obj} (h : x.Free) (o : Obj) (i : Part) : ¬ x.Holds o i := by
  rintro (hc | ⟨c, hc, -⟩ | hp)
  · simp [Chunk.Holds, h.cur] at hc
  · simp [h.scanning] at hc
  · have hfree := h.phase
    cases hx : x.phase <;> simp [hx, Phase.Holds, Phase.Free] at hp hfree

@[simp] theorem goto_cur {x : Worker Obj} (p : Phase Obj) : (x.goto p).cur = x.cur := rfl
@[simp] theorem goto_phase {x : Worker Obj} (p : Phase Obj) : (x.goto p).phase = p := rfl

theorem Chunk.holds_push {c : Chunk Obj} {o t : Obj} {need : Nat} :
    (c.push t need).Holds o ↔ c.Holds o ∨ o = t := by
  simp [Chunk.Holds, Chunk.push]

theorem Chunk.holds_plug {c : Chunk Obj} {o : Obj} : c.plug.Holds o ↔ c.Holds o := by
  unfold Chunk.plug
  split <;> simp [Chunk.Holds]

/-- A claim from the frontier fits, or an assertion fails. -/
theorem Shared.claimArena_cases (sh : Shared Obj) (n : Nat) :
    (sh.arenaUsed + n ≤ sh.toLen ∧
      sh.claimArena n = ({ sh with arenaUsed := sh.arenaUsed + n }, some sh.arenaUsed)) ∨
    (¬ sh.arenaUsed + n ≤ sh.toLen ∧
      sh.claimArena n = ({ sh with arenaUsed := sh.arenaUsed + n, overflow := true }, none)) := by
  by_cases h : sh.arenaUsed + n ≤ sh.toLen
  · exact Or.inl ⟨h, if_pos h⟩
  · exact Or.inr ⟨h, if_neg h⟩

/-! ## No step loses a part -/

/-- Part `i` of `o` has been scanned, or is held outside the phase of the worker. -/
def Aside (o : Obj) (i : Part) (sh : Shared Obj) (x : Worker Obj) : Prop :=
  sh.Done o i ∨ (∃ t ∈ sh.steal, t.Holds o i) ∨ x.cur.Holds o ∨
    ∃ c, x.scanning = some c ∧ c.Holds o

/-- Part `i` of `o` has been scanned, or is held. -/
def Kept (o : Obj) (i : Part) (p : Shared Obj × Worker Obj) : Prop :=
  Aside o i p.1 p.2 ∨ p.2.phase.Holds o i

section Step

variable {heap : Obj → Object Obj} {sh : Shared Obj} {x : Worker Obj}
variable {o : Obj} {i : Part} {j : Job Obj}

theorem keepOrShare_aside {c : Chunk Obj} (h : Aside o i sh x ∨ c.Holds o) :
    Aside o i (keepOrShare sh x c).1 (keepOrShare sh x c).2 := by
  unfold keepOrShare
  cases hs : x.scanning with
  | none =>
    rcases h with (hf | ht | hc | ⟨c', hc', -⟩) | hc
    · exact Or.inl hf
    · exact Or.inr (Or.inl ht)
    · exact Or.inr (Or.inr (Or.inl hc))
    · rw [hs] at hc'
      cases hc'
    · exact Or.inr (Or.inr (Or.inr ⟨c, rfl, hc⟩))
  | some c₀ =>
    rcases h with (hf | ⟨t, ht, hh⟩ | hrest) | hc
    · exact Or.inl hf
    · exact Or.inr (Or.inl ⟨t, List.mem_cons_of_mem _ ht, hh⟩)
    · exact Or.inr (Or.inr hrest)
    · exact Or.inr (Or.inl ⟨.chunk c, List.mem_cons_self, hc⟩)

theorem drainTop_kept (h : Aside o i sh x) : Kept o i (drainTop sh x) := by
  unfold drainTop
  cases hs : x.scanning with
  | some sc =>
    rcases h with hf | ht | hc | ⟨c, hc, hh⟩
    · exact Or.inl (Or.inl hf)
    · exact Or.inl (Or.inr (Or.inl ht))
    · exact Or.inl (Or.inr (Or.inr (Or.inl hc)))
    · obtain rfl : sc = c := Option.some.inj (hs.symm.trans hc)
      exact Or.inr hh
  | none =>
    by_cases hcur : x.cur.unscanned = []
    · cases hq : sh.steal with
      | nil =>
        simp only [hcur, ne_eq, not_true_eq_false, if_false]
        exact Or.inl h
      | cons t rest =>
        -- the task that is popped is the worker's own now
        have hpop : Aside o i { sh with steal := rest } x ∨ t.Holds o i := by
          rcases h with hf | ⟨u, hu, hh⟩ | hrest
          · exact Or.inl (Or.inl hf)
          · rw [hq] at hu
            rcases List.mem_cons.1 hu with rfl | hu
            · exact Or.inr hh
            · exact Or.inl (Or.inr (Or.inl ⟨u, hu, hh⟩))
          · exact Or.inl (Or.inr (Or.inr hrest))
        simp only [hcur, ne_eq, not_true_eq_false, if_false]
        cases t with
        | chunk sc => exact hpop
        | slots body lo hi => exact hpop.imp id Or.inr
    · simp only [hcur, ne_eq, not_false_eq_true, if_true]
      exact Or.inl h

theorem Part.within_zero {n : Nat} (hi : (heap o).Has i) (hn : (heap o).scanned = n)
    (hk : (heap o).kind ≠ .weak) : i.Within 0 n := by
  cases i with
  | slot i => exact ⟨Nat.zero_le i, hn ▸ hi⟩
  | links => exact absurd hi hk

/-- The upper half of a range, or the rest of it. -/
theorem Part.within_split {lo hi : Nat} (mid : Nat) (h : i.Within lo hi) :
    i.Within lo mid ∨ i.Within mid hi := by
  cases i with
  | slot i => exact (Nat.lt_or_ge i mid).imp (fun hlt => ⟨h.1, hlt⟩) (fun hge => ⟨hge, h.2⟩)
  | links => exact h.elim

theorem Shared.done_register {o' : Obj} (h : sh.Done o i) :
    ({ sh with weak := sh.weak ++ [o'] } : Shared Obj).Done o i := by
  cases i with
  | slot i => exact h
  | links => exact List.mem_append_left [o'] h

theorem scanObject_kept {sweep : Sweep Obj} {e : Content Obj} (hi : (heap o).Has i)
    (h : Aside o i sh x ∨ sweep.Holds o ∨ e = .object o) :
    Kept o i (scanObject heap sh x sweep e) := by
  cases e with
  | filler n =>
    rcases h with h | h | h
    · exact Or.inl h
    · exact Or.inr h
    · cases h
  | object o' =>
    have hjob (hlen : (heap o').scanned = (heap o').slots.length) (hk : (heap o').kind ≠ .weak) :
        Aside o i sh x ∨
          ({ sweep, body := o', lo := 0, hi := (heap o').slots.length } : Job Obj).Holds o i := by
      rcases h with h | h | h
      · exact Or.inl h
      · exact Or.inr (Or.inl h)
      · obtain rfl : o' = o := by injection h
        exact Or.inr (Or.inr ⟨rfl, Part.within_zero hi hlen hk⟩)
    cases hk : (heap o').kind with
    | bytes =>
      simp only [scanObject, hk]
      rcases h with h | h | h
      · exact Or.inl h
      · exact Or.inr h
      · -- a byte object has no part to keep
        obtain rfl : o' = o := by injection h
        cases i with
        | slot i => simp [Object.Has, Object.scanned, hk] at hi
        | links => simp [Object.Has, hk] at hi
    | weak =>
      simp only [scanObject, hk]
      rcases h with (hf | hrest) | h | h
      · exact Or.inl (Or.inl (Shared.done_register hf))
      · exact Or.inl (Or.inr hrest)
      · exact Or.inr h
      · obtain rfl : o' = o := by injection h
        cases i with
        | slot i => simp [Object.Has, Object.scanned, hk] at hi
        | links => exact Or.inl (Or.inl (List.mem_append_right _ List.mem_cons_self))
    | code =>
      simp only [scanObject, hk]
      exact hjob (by simp [Object.scanned, hk]) (by simp [hk])
    | closure =>
      simp only [scanObject, hk]
      exact hjob (by simp [Object.scanned, hk]) (by simp [hk])
    | word =>
      simp only [scanObject, hk]
      exact hjob (by simp [Object.scanned, hk]) (by simp [hk])

theorem sweepStep_kept {sweep : Sweep Obj} (hi : (heap o).Has i)
    (h : Aside o i sh x ∨ sweep.Holds o) : Kept o i (sweepStep heap sh x sweep) := by
  cases sweep with
  | own =>
    have hcur : Aside o i sh x := h.resolve_right (fun hh => hh)
    cases hc : x.cur.unscanned with
    | nil =>
      simp only [sweepStep, hc]
      exact Or.inl hcur
    | cons e rest =>
      simp only [sweepStep, hc]
      refine scanObject_kept hi ?_
      rcases hcur with hf | ht | hh | hs
      · exact Or.inl (Or.inl hf)
      · exact Or.inl (Or.inr (Or.inl ht))
      · rw [Chunk.Holds, hc] at hh
        rcases List.mem_cons.1 hh with rfl | hh
        · exact Or.inr (Or.inr rfl)
        · exact Or.inl (Or.inr (Or.inr (Or.inl hh)))
      · exact Or.inl (Or.inr (Or.inr (Or.inr hs)))
  | foreign c =>
    cases hc : c.unscanned with
    | nil =>
      simp only [sweepStep, hc]
      rcases h with h | h
      · exact Or.inl h
      · rw [Sweep.Holds, Chunk.Holds, hc] at h
        cases h
    | cons e rest =>
      simp only [sweepStep, hc]
      refine scanObject_kept hi ?_
      rcases h with h | h
      · exact Or.inl h
      · rw [Sweep.Holds, Chunk.Holds, hc] at h
        rcases List.mem_cons.1 h with rfl | h
        · exact Or.inr (Or.inr rfl)
        · exact Or.inr (Or.inl h)
  | task => exact Or.inl (h.resolve_right (fun hh => hh))

theorem splitStep_kept (h : Aside o i sh x ∨ j.Holds o i) : Kept o i (splitStep sh x j) := by
  unfold splitStep
  split
  · rcases h with (hf | ⟨t, ht, hh⟩ | hrest) | hsweep | ⟨rfl, hrange⟩
    · exact Or.inl (Or.inl hf)
    · exact Or.inl (Or.inr (Or.inl ⟨t, List.mem_cons_of_mem _ ht, hh⟩))
    · exact Or.inl (Or.inr (Or.inr hrest))
    · exact Or.inr (Or.inl hsweep)
    · rcases Part.within_split (j.lo + (j.hi - j.lo) / 2) hrange with hlow | hhigh
      · exact Or.inr (Or.inr ⟨rfl, hlow⟩)
      · exact Or.inl (Or.inr (Or.inl ⟨_, List.mem_cons_self, rfl, hhigh⟩))
  · exact h

theorem sealAndReplace_kept {t : Obj} {need : Nat} (h : Aside o i sh x ∨ j.Holds o i) :
    Kept o i (sealAndReplace sh x j t need) := by
  rcases sh.claimArena_cases (max x.nextChunk need) with ⟨-, hclaim⟩ | ⟨-, hclaim⟩
  · simp only [sealAndReplace, hclaim]
    rcases h with (hf | ht | hc | hs) | hj
    · exact Or.inl (Or.inl hf)
    · exact Or.inl (Or.inr (Or.inl ht))
    · exact Or.inr (Or.inl (Chunk.holds_plug.2 hc))
    · exact Or.inl (Or.inr (Or.inr (Or.inr hs)))
    · exact Or.inr (Or.inr hj)
  · simp only [sealAndReplace, hclaim]
    exact h

theorem allocObj_kept {t : Obj} (h : Aside o i sh x ∨ j.Holds o i) :
    Kept o i (allocObj heap sh x j t) := by
  unfold allocObj
  dsimp only
  split
  · rcases sh.claimArena_cases (1 + (heap t).words) with ⟨-, hclaim⟩ | ⟨-, hclaim⟩
    · simp only [hclaim]
      exact h.imp id Or.inr
    · simp only [hclaim]
      exact h
  · split
    · exact sealAndReplace_kept h
    · rcases h with (hf | ht | hc | hs) | hj
      · exact Or.inl (Or.inl hf)
      · exact Or.inl (Or.inr (Or.inl ht))
      · exact Or.inl (Or.inr (Or.inr (Or.inl (Chunk.holds_push.2 (Or.inl hc)))))
      · exact Or.inl (Or.inr (Or.inr (Or.inr hs)))
      · exact Or.inr (Or.inr hj)

theorem sealedStep_kept {t : Obj} {old : Chunk Obj} (h : Aside o i sh x ∨ old.Holds o ∨ j.Holds o i) :
    Kept o i (sealedStep sh x j t old) := by
  unfold sealedStep
  by_cases hold : old.unscanned = []
  · simp only [hold, ne_eq, not_true_eq_false, if_false]
    rcases h with h | h | h
    · exact Or.inl h
    · rw [Chunk.Holds, hold] at h
      cases h
    · exact Or.inr (Or.inr h)
  · simp only [hold, ne_eq, not_false_eq_true, if_true]
    rcases h with h | h | h
    · exact Or.inl (keepOrShare_aside (Or.inl h))
    · exact Or.inl (keepOrShare_aside (Or.inr h))
    · exact Or.inr (Or.inr h)

variable [DecidableEq Obj]

theorem slotDone_done (h : sh.Done o i) : (slotDone sh x j).1.Done o i := by
  cases i with
  | slot i =>
    have hf : sh.forwarded o i = true := h
    by_cases ho : o = j.body
    · subst ho
      by_cases hi : i = j.lo <;> simp [slotDone, Shared.Done, hi, hf]
    · simp [slotDone, Shared.Done, ho, hf]
  | links => exact h

theorem slotDone_kept (h : Aside o i sh x ∨ j.Holds o i) : Kept o i (slotDone sh x j) := by
  rcases h with (hf | hrest) | hsweep | ⟨rfl, hrange⟩
  · exact Or.inl (Or.inl (slotDone_done hf))
  · exact Or.inl (Or.inr hrest)
  · exact Or.inr (Or.inl hsweep)
  · cases i with
    | slot i =>
      rcases Nat.eq_or_lt_of_le hrange.1 with rfl | hlt
      · left; left
        simp [slotDone, Shared.Done]
      · exact Or.inr (Or.inr ⟨rfl, hlt, hrange.2⟩)
    | links => exact hrange.elim

theorem scanStep_kept (h : Aside o i sh x ∨ j.Holds o i) : Kept o i (scanStep heap sh x j) := by
  unfold scanStep
  by_cases hlt : j.lo < j.hi
  · rw [if_pos hlt]
    split
    · exact h
    · exact slotDone_kept h
  · rw [if_neg hlt]
    rcases h with h | h | ⟨-, hrange⟩
    · exact Or.inl h
    · exact Or.inr h
    · cases i with
      | slot i => exact absurd (Nat.lt_of_le_of_lt hrange.1 hrange.2) hlt
      | links => exact hrange.elim

theorem forwardStep_kept {t : Obj} (hp : x.phase = .forward j t)
    (h : Aside o i sh x ∨ j.Holds o i) : Kept o i (forwardStep sh x j t) := by
  unfold forwardStep
  split
  · exact h
  · rw [Kept, hp]
    exact h
  · exact slotDone_kept h

theorem copyStep_kept {t : Obj} {slice : Option (Chunk Obj)}
    (h : Aside o i sh x ∨ (∃ c, slice = some c ∧ c.Holds o) ∨ j.Holds o i) :
    Kept o i (copyStep sh x j t slice) := by
  cases slice with
  | none =>
    refine slotDone_kept ?_
    rcases h with h | ⟨c, hc, -⟩ | h
    · exact Or.inl h
    · cases hc
    · exact Or.inr h
  | some c =>
    rcases h with h | ⟨c', hc', h⟩ | h
    · exact Or.inl h
    · obtain rfl : c = c' := Option.some.inj hc'
      exact Or.inr (Or.inl h)
    · exact Or.inr (Or.inr h)

theorem placeStep_kept {slice : Chunk Obj} (h : Aside o i sh x ∨ slice.Holds o ∨ j.Holds o i) :
    Kept o i (placeStep sh x j slice) := by
  unfold placeStep
  refine slotDone_kept ?_
  rcases h with h | h | h
  · exact Or.inl (keepOrShare_aside (Or.inl h))
  · exact Or.inl (keepOrShare_aside (Or.inr h))
  · exact Or.inr h

/-- A part that has been scanned or is held stays so. -/
theorem Worker.step_kept (hi : (heap o).Has i) (h : Kept o i (sh, x)) :
    Kept o i (x.step heap sh) := by
  have h' : Aside o i sh x ∨ x.phase.Holds o i := h
  cases hp : x.phase with
  | top =>
    rw [hp] at h'
    rw [Worker.step, hp]
    exact drainTop_kept (h'.resolve_right (fun hh => hh))
  | sweeping sweep =>
    rw [hp] at h'
    rw [Worker.step, hp]
    exact sweepStep_kept hi h'
  | split j =>
    rw [hp] at h'
    rw [Worker.step, hp]
    exact splitStep_kept h'
  | scan j =>
    rw [hp] at h'
    rw [Worker.step, hp]
    exact scanStep_kept h'
  | forward j t =>
    rw [hp] at h'
    rw [Worker.step, hp]
    exact forwardStep_kept hp h'
  | claimed j t =>
    rw [hp] at h'
    rw [Worker.step, hp]
    exact allocObj_kept h'
  | sealed j t old =>
    rw [hp] at h'
    rw [Worker.step, hp]
    exact sealedStep_kept h'
  | copy j t slice =>
    rw [hp] at h'
    rw [Worker.step, hp]
    exact copyStep_kept h'
  | place j slice =>
    rw [hp] at h'
    rw [Worker.step, hp]
    exact placeStep_kept h'
  | idling =>
    rw [hp] at h'
    rw [Worker.step, hp]
    exact Or.inl (h'.resolve_right (fun hh => hh))
  | probing =>
    rw [hp] at h'
    rw [Worker.step, hp]
    exact Or.inl (h'.resolve_right (fun hh => hh))
  | loading =>
    rw [hp] at h'
    rw [Worker.step, hp]
    exact Or.inl (h'.resolve_right (fun hh => hh))
  | entering =>
    rw [hp] at h'
    rw [Worker.step, hp]
    exact Or.inl (h'.resolve_right (fun hh => hh))
  | returned =>
    rw [Worker.step, hp]
    exact h
  | panicked j t =>
    rw [Worker.step, hp]
    exact h

end Step

/-! ## What a step changes -/

/-- What is said about the arena. -/
structure Arena where
  toLen : Nat
  arenaUsed : Nat
  chunkWords : Nat
  oversizeWords : Nat
  overflow : Bool

def Shared.arena (sh : Shared Obj) : Arena :=
  { toLen := sh.toLen, arenaUsed := sh.arenaUsed, chunkWords := sh.chunkWords
    oversizeWords := sh.oversizeWords, overflow := sh.overflow }

/-- What a worker has of the arena. -/
structure Ledger where
  start : Nat
  stop : Nat
  alloc : Nat
  nextChunk : Nat
  allocated : Nat
  filled : Nat

def Worker.ledger (x : Worker Obj) : Ledger :=
  { start := x.cur.start, stop := x.cur.stop, alloc := x.cur.alloc, nextChunk := x.nextChunk
    allocated := x.allocated, filled := x.filled }

/-- The object that is claimed and not yet copied. -/
def Phase.pending : Phase Obj → Option Obj
  | .claimed _ t => some t
  | _ => none

/-- A step that allocates nothing, and leaves the worker active. -/
structure Works (sh : Shared Obj) (x : Worker Obj) (p : Shared Obj × Worker Obj) : Prop where
  header : p.1.header = sh.header
  busy : p.1.busy = sh.busy
  arena : p.1.arena = sh.arena
  ledger : p.2.ledger = x.ledger
  active : p.2.phase.active = true
  pending : p.2.phase.pending = none

section Works

variable {heap : Obj → Object Obj} {sh : Shared Obj} {x : Worker Obj} {j : Job Obj}

/-- What a worker adds to `busy`. -/
def Worker.count (x : Worker Obj) : Nat := if x.phase.counted then 1 else 0

theorem Phase.counted_of_active {p : Phase Obj} (h : p.active = true) : p.counted = true := by
  cases p <;> simp_all [Phase.active, Phase.counted]

theorem Worker.count_eq_one (h : x.phase.active = true) : x.count = 1 := by
  simp [Worker.count, Phase.counted_of_active h]

/-- What keeping or sharing a chunk leaves as it is. -/
theorem keepOrShare_same (sh : Shared Obj) (x : Worker Obj) (c : Chunk Obj) :
    (keepOrShare sh x c).1.header = sh.header ∧ (keepOrShare sh x c).1.busy = sh.busy ∧
      (keepOrShare sh x c).1.arena = sh.arena ∧ (keepOrShare sh x c).2.ledger = x.ledger := by
  unfold keepOrShare
  split <;> exact ⟨rfl, rfl, rfl, rfl⟩

theorem scanObject_works (sweep : Sweep Obj) (e : Content Obj) :
    Works sh x (scanObject heap sh x sweep e) := by
  cases e with
  | filler n => exact ⟨rfl, rfl, rfl, rfl, rfl, rfl⟩
  | object o =>
    unfold scanObject
    dsimp only
    split <;> exact ⟨rfl, rfl, rfl, rfl, rfl, rfl⟩

theorem sweepStep_works (sweep : Sweep Obj) : Works sh x (sweepStep heap sh x sweep) := by
  unfold sweepStep
  split
  · split
    · exact ⟨rfl, rfl, rfl, rfl, rfl, rfl⟩
    · obtain ⟨hheader, hbusy, harena, hledger, hactive, hpending⟩ := scanObject_works _ _
      exact ⟨hheader, hbusy, harena, hledger, hactive, hpending⟩
  · split
    · exact ⟨rfl, rfl, rfl, rfl, rfl, rfl⟩
    · exact scanObject_works _ _
  · exact ⟨rfl, rfl, rfl, rfl, rfl, rfl⟩

theorem splitStep_works : Works sh x (splitStep sh x j) := by
  unfold splitStep
  split <;> exact ⟨rfl, rfl, rfl, rfl, rfl, rfl⟩

theorem sealedStep_works (t : Obj) (old : Chunk Obj) : Works sh x (sealedStep sh x j t old) := by
  unfold sealedStep
  by_cases hold : old.unscanned = []
  · simp only [hold, ne_eq, not_true_eq_false, if_false]
    exact ⟨rfl, rfl, rfl, rfl, rfl, rfl⟩
  · simp only [hold, ne_eq, not_false_eq_true, if_true]
    obtain ⟨hheader, hbusy, harena, hledger⟩ := keepOrShare_same sh x old
    exact ⟨hheader, hbusy, harena, hledger, rfl, rfl⟩

/-- The head of the loop finds work, or the worker is free and the queue is empty. -/
theorem drainTop_works (hp : x.phase = .top) : Works sh x (drainTop sh x) ∨
    (x.Free ∧ sh.steal = [] ∧ drainTop sh x = (sh, x.goto .idling)) := by
  unfold drainTop
  cases hs : x.scanning with
  | some sc => exact Or.inl ⟨rfl, rfl, rfl, rfl, rfl, rfl⟩
  | none =>
    by_cases hcur : x.cur.unscanned = []
    · cases hq : sh.steal with
      | nil =>
        simp only [hcur, ne_eq, not_true_eq_false, if_false]
        exact Or.inr ⟨⟨hcur, hs, hp ▸ trivial⟩, trivial, trivial⟩
      | cons t rest =>
        simp only [hcur, ne_eq, not_true_eq_false, if_false]
        cases t <;> exact Or.inl ⟨rfl, rfl, rfl, rfl, rfl, rfl⟩
    · simp only [hcur, ne_eq, not_false_eq_true, if_true]
      exact Or.inl ⟨rfl, rfl, rfl, rfl, rfl, rfl⟩

/-- An allocation touches nothing but the arena. -/
theorem allocObj_same (t : Obj) :
    (allocObj heap sh x j t).1.header = sh.header ∧ (allocObj heap sh x j t).1.busy = sh.busy ∧
      (allocObj heap sh x j t).2.phase.active = true := by
  have hreplace (need : Nat) :
      (sealAndReplace sh x j t need).1.header = sh.header ∧
      (sealAndReplace sh x j t need).1.busy = sh.busy ∧
        (sealAndReplace sh x j t need).2.phase.active = true := by
    rcases sh.claimArena_cases (max x.nextChunk need) with ⟨-, h⟩ | ⟨-, h⟩
    all_goals simp [sealAndReplace, h, Phase.active]
  unfold allocObj
  dsimp only
  split
  · rcases sh.claimArena_cases (1 + (heap t).words) with ⟨-, h⟩ | ⟨-, h⟩
    all_goals simp [h, Phase.active]
  · split
    · exact hreplace _
    · exact ⟨rfl, rfl, rfl⟩

variable [DecidableEq Obj]

theorem scanStep_works : Works sh x (scanStep heap sh x j) := by
  unfold scanStep
  split
  · split <;> exact ⟨rfl, rfl, rfl, rfl, rfl, rfl⟩
  · exact ⟨rfl, rfl, rfl, rfl, rfl, rfl⟩

theorem forwardStep_works {t : Obj} (hp : x.phase = .forward j t) :
    Works sh x (forwardStep sh x j t) ∨
      sh.header t = .normal ∧ forwardStep sh x j t = (sh.setHeader t .busy, x.goto (.claimed j t)) := by
  cases ht : sh.header t with
  | normal => exact Or.inr ⟨rfl, by simp only [forwardStep, ht]⟩
  | busy =>
    simp only [forwardStep, ht]
    exact Or.inl ⟨rfl, rfl, rfl, rfl, by rw [hp]; rfl, by rw [hp]; rfl⟩
  | forwarded =>
    simp only [forwardStep, ht]
    exact Or.inl ⟨rfl, rfl, rfl, rfl, rfl, rfl⟩

theorem copyStep_works (t : Obj) (slice : Option (Chunk Obj)) :
    Works (sh.setHeader t .forwarded) x (copyStep sh x j t slice) := by
  cases slice <;> exact ⟨rfl, rfl, rfl, rfl, rfl, rfl⟩

theorem placeStep_works (slice : Chunk Obj) : Works sh x (placeStep sh x j slice) := by
  obtain ⟨hheader, hbusy, harena, hledger⟩ := keepOrShare_same sh x slice
  exact ⟨hheader, hbusy, harena, hledger, rfl, rfl⟩

/-- What an active worker does. -/
inductive Active (heap : Obj → Object Obj) (sh : Shared Obj) (x : Worker Obj) :
    Shared Obj × Worker Obj → Prop
  | works {p : Shared Obj × Worker Obj} (h : Works sh x p) : Active heap sh x p
  | idles (hfree : x.Free) (hnone : sh.steal = []) : Active heap sh x (sh, x.goto .idling)
  | claims (j : Job Obj) (t : Obj) (hp : x.phase = .forward j t) (ht : sh.header t = .normal) :
      Active heap sh x (sh.setHeader t .busy, x.goto (.claimed j t))
  | allocates (j : Job Obj) (t : Obj) (hp : x.phase = .claimed j t) :
      Active heap sh x (allocObj heap sh x j t)
  | publishes {p : Shared Obj × Worker Obj} (j : Job Obj) (t : Obj) (slice : Option (Chunk Obj))
      (hp : x.phase = .copy j t slice) (h : Works (sh.setHeader t .forwarded) x p) :
      Active heap sh x p

theorem Worker.step_active (hactive : x.phase.active = true) :
    Active heap sh x (x.step heap sh) := by
  cases hp : x.phase with
  | top =>
    rw [Worker.step, hp]
    rcases drainTop_works hp with hworks | ⟨hfree, hnone, he⟩
    · exact .works hworks
    · dsimp only
      rw [he]
      exact .idles hfree hnone
  | sweeping sweep =>
    rw [Worker.step, hp]
    exact .works (sweepStep_works sweep)
  | split j =>
    rw [Worker.step, hp]
    exact .works splitStep_works
  | scan j =>
    rw [Worker.step, hp]
    exact .works scanStep_works
  | forward j t =>
    rw [Worker.step, hp]
    rcases forwardStep_works hp with hworks | ⟨ht, he⟩
    · exact .works hworks
    · dsimp only
      rw [he]
      exact .claims j t hp ht
  | claimed j t =>
    rw [Worker.step, hp]
    exact .allocates j t hp
  | sealed j t old =>
    rw [Worker.step, hp]
    exact .works (sealedStep_works t old)
  | copy j t slice =>
    rw [Worker.step, hp]
    exact .publishes j t slice hp (copyStep_works t slice)
  | place j slice =>
    rw [Worker.step, hp]
    exact .works (placeStep_works slice)
  | panicked j t =>
    rw [Worker.step, hp]
    exact .works ⟨rfl, rfl, rfl, rfl, hactive, by rw [hp]; rfl⟩
  | idling | probing | loading | entering | returned => simp [hp, Phase.active] at hactive

/-- A worker that probes touches nothing but `busy`, which goes on counting it rightly. -/
theorem Worker.step_inactive (h : x.phase.active = false) :
    ∃ busy p, x.step heap sh = ({ sh with busy }, x.goto p) ∧ p.Free ∧
      (x.count ≤ sh.busy → busy + x.count = sh.busy + (x.goto p).count) := by
  cases hp : x.phase with
  | idling =>
    refine ⟨sh.busy - 1, .probing, by rw [Worker.step, hp], trivial, fun hle => ?_⟩
    have hone : x.count = 1 := by simp [Worker.count, hp, Phase.counted]
    rw [hone] at hle ⊢
    exact Nat.sub_add_cancel hle
  | probing =>
    have hzero : x.count = 0 := by simp [Worker.count, hp, Phase.counted]
    refine ⟨sh.busy, if sh.steal ≠ [] then .entering else .loading, by rw [Worker.step, hp], ?_,
      fun _ => ?_⟩
    · split <;> trivial
    · rw [hzero]
      split <;> rfl
  | loading =>
    have hzero : x.count = 0 := by simp [Worker.count, hp, Phase.counted]
    refine ⟨sh.busy, if sh.busy = 0 then .returned else .probing, by rw [Worker.step, hp], ?_,
      fun _ => ?_⟩
    · split <;> trivial
    · rw [hzero]
      split <;> rfl
  | entering =>
    have hzero : x.count = 0 := by simp [Worker.count, hp, Phase.counted]
    refine ⟨sh.busy + 1, .top, by rw [Worker.step, hp], trivial, fun _ => ?_⟩
    rw [hzero]
    rfl
  | returned =>
    have hself : x.goto .returned = x := by rw [← hp]; rfl
    exact ⟨sh.busy, .returned, by rw [Worker.step, hp, hself], trivial, fun _ => by rw [hself]⟩
  | top | sweeping | split | scan | forward | claimed | «sealed» | copy | place | panicked =>
    simp [hp, Phase.active] at h

/-- Headers change only where one is claimed and where a copy is published. -/
theorem Worker.step_header :
    (x.step heap sh).1.header = sh.header ∨
    (∃ j t, x.phase = .forward j t ∧ sh.header t = .normal ∧
      (x.step heap sh).1.header = Function.update sh.header t .busy) ∨
    (∃ j t slice, x.phase = .copy j t slice ∧
      (x.step heap sh).1.header = Function.update sh.header t .forwarded) := by
  cases ha : x.phase.active with
  | true =>
    have hactive : Active heap sh x (x.step heap sh) := x.step_active ha
    generalize x.step heap sh = p at hactive
    cases hactive with
    | works h => exact Or.inl h.header
    | idles => exact Or.inl rfl
    | claims j t hp ht => exact Or.inr (Or.inl ⟨j, t, hp, ht, rfl⟩)
    | allocates j t => exact Or.inl (allocObj_same t).1
    | publishes j t slice hp h => exact Or.inr (Or.inr ⟨j, t, slice, hp, h.header⟩)
  | false =>
    obtain ⟨busy, p, he, -⟩ := x.step_inactive ha
    rw [he]
    exact Or.inl rfl

/-- A copy that is published stays so. -/
theorem Worker.step_forwarded {o : Obj} (h : sh.header o = .forwarded) :
    (x.step heap sh).1.header o = .forwarded := by
  rcases x.step_header with he | ⟨j, t, -, ht, he⟩ | ⟨j, t, slice, -, he⟩
  · rw [he, h]
  · rw [he, Function.update_of_ne]
    · exact h
    · rintro rfl
      rw [ht] at h
      cases h
  · rw [he]
    by_cases ho : o = t
    · rw [ho, Function.update_self]
    · rw [Function.update_of_ne ho, h]

end Works

/-! ## What a forwarded slot points to -/

/-- Slot `lo` of a job points to `t`. -/
def Job.Target (heap : Obj → Object Obj) (j : Job Obj) (t : Obj) : Prop :=
  (heap j.body).slots[j.lo]? = some (some t)

/-- In each phase of `forward_slot`: what its slot points to, and where the copy lies that is about to
be published. -/
def Phase.Ok (heap : Obj → Object Obj) (header : Obj → Header) (cur : Chunk Obj) :
    Phase Obj → Prop
  | .forward j t | .claimed j t => j.Target heap t
  | .sealed j t _ | .copy j t none => j.Target heap t ∧ cur.Holds t
  | .copy j t (some slice) => j.Target heap t ∧ slice.Holds t
  | .place j _ => ∃ t, j.Target heap t ∧ header t = .forwarded
  | _ => True

def Worker.Ok (heap : Obj → Object Obj) (header : Obj → Header) (x : Worker Obj) : Prop :=
  x.phase.Ok heap header x.cur

theorem Worker.Ok.mono {heap : Obj → Object Obj} {header header' : Obj → Header} {x : Worker Obj}
    (h : x.Ok heap header) (hmono : ∀ o, header o = .forwarded → header' o = .forwarded) :
    x.Ok heap header' := by
  unfold Worker.Ok at h ⊢
  cases hp : x.phase with
  | place j slice =>
    rw [hp] at h
    obtain ⟨t, htarget, ht⟩ := h
    exact ⟨t, htarget, hmono t ht⟩
  | copy j t slice =>
    rw [hp] at h
    cases slice <;> exact h
  | _ =>
    rw [hp] at h
    exact h

/-- What a slot that has been forwarded pointed to is copied. -/
def Shared.Targets (heap : Obj → Object Obj) (sh : Shared Obj) : Prop :=
  ∀ o i t, sh.forwarded o i = true → (heap o).slots[i]? = some (some t) → sh.header t = .forwarded

/-- The targets of what is forwarded are copied, and the phase of the worker is right. -/
structure Sane (heap : Obj → Object Obj) (p : Shared Obj × Worker Obj) : Prop where
  targets : p.1.Targets heap
  ok : p.2.Ok heap p.1.header

section Targets

variable {heap : Obj → Object Obj} {sh : Shared Obj} {x : Worker Obj} {j : Job Obj}

theorem Job.Target.unique {t t' : Obj} (h : j.Target heap t) (h' : j.Target heap t') : t = t' :=
  Option.some.inj (Option.some.inj (h.symm.trans h'))

theorem keepOrShare_targets (h : sh.Targets heap) (c : Chunk Obj) :
    (keepOrShare sh x c).1.Targets heap := by
  unfold keepOrShare
  split <;> exact h

theorem drainTop_sane (h : sh.Targets heap) : Sane heap (drainTop sh x) := by
  unfold drainTop
  split
  · exact ⟨h, trivial⟩
  · split
    · exact ⟨h, trivial⟩
    · split <;> exact ⟨h, trivial⟩

theorem scanObject_sane (h : sh.Targets heap) (sweep : Sweep Obj) (e : Content Obj) :
    Sane heap (scanObject heap sh x sweep e) := by
  unfold scanObject
  split
  · exact ⟨h, trivial⟩
  · dsimp only
    split <;> exact ⟨h, trivial⟩

theorem sweepStep_sane (h : sh.Targets heap) (sweep : Sweep Obj) :
    Sane heap (sweepStep heap sh x sweep) := by
  unfold sweepStep
  split
  · split
    · exact ⟨h, trivial⟩
    · exact scanObject_sane h _ _
  · split
    · exact ⟨h, trivial⟩
    · exact scanObject_sane h _ _
  · exact ⟨h, trivial⟩

theorem splitStep_sane (h : sh.Targets heap) : Sane heap (splitStep sh x j) := by
  unfold splitStep
  split <;> exact ⟨h, trivial⟩

theorem allocObj_sane {t : Obj} (h : sh.Targets heap) (ht : j.Target heap t) :
    Sane heap (allocObj heap sh x j t) := by
  have hreplace (need : Nat) : Sane heap (sealAndReplace sh x j t need) := by
    rcases sh.claimArena_cases (max x.nextChunk need) with ⟨-, hclaim⟩ | ⟨-, hclaim⟩
    · simp only [sealAndReplace, hclaim]
      exact ⟨h, ht, Chunk.holds_push.2 (Or.inr rfl)⟩
    · simp only [sealAndReplace, hclaim]
      exact ⟨h, trivial⟩
  unfold allocObj
  dsimp only
  split
  · rcases sh.claimArena_cases (1 + (heap t).words) with ⟨-, hclaim⟩ | ⟨-, hclaim⟩
    · simp only [hclaim]
      exact ⟨h, ht, List.mem_cons_self⟩
    · simp only [hclaim]
      exact ⟨h, trivial⟩
  · split
    · exact hreplace _
    · exact ⟨h, ht, Chunk.holds_push.2 (Or.inr rfl)⟩

theorem sealedStep_sane {t : Obj} {old : Chunk Obj} (h : sh.Targets heap) (ht : j.Target heap t)
    (hcur : x.cur.Holds t) : Sane heap (sealedStep sh x j t old) := by
  have hkeep : (keepOrShare sh x old).2.cur = x.cur := by
    unfold keepOrShare
    split <;> rfl
  unfold sealedStep
  by_cases hold : old.unscanned = []
  · simp only [hold, ne_eq, not_true_eq_false, if_false]
    exact ⟨h, ht, hcur⟩
  · simp only [hold, ne_eq, not_false_eq_true, if_true]
    refine ⟨keepOrShare_targets h old, ht, ?_⟩
    rw [goto_cur, hkeep]
    exact hcur

variable [DecidableEq Obj]

/-- Slot `lo` may be called done when what it points to is copied. -/
theorem slotDone_sane (h : sh.Targets heap)
    (ht : ∀ t, j.Target heap t → sh.header t = .forwarded) : Sane heap (slotDone sh x j) := by
  refine ⟨fun o i t hdone hslot => ?_, trivial⟩
  by_cases hlo : o = j.body ∧ i = j.lo
  · obtain ⟨rfl, rfl⟩ := hlo
    exact ht t hslot
  · refine h o i t ?_ hslot
    rw [slotDone] at hdone
    by_cases ho : o = j.body
    · subst ho
      have hi : i ≠ j.lo := fun hi => hlo ⟨rfl, hi⟩
      simpa [hi] using hdone
    · simpa [ho] using hdone

theorem scanStep_sane (h : sh.Targets heap) : Sane heap (scanStep heap sh x j) := by
  unfold scanStep
  split
  · split
    next t hslot => exact ⟨h, hslot⟩
    next hslot => exact slotDone_sane h (fun t ht => absurd ht (hslot t))
  · exact ⟨h, trivial⟩

theorem Shared.Targets.setHeader {t : Obj} {hd : Header} (h : sh.Targets heap)
    (ht : sh.header t = .forwarded → hd = .forwarded) : (sh.setHeader t hd).Targets heap := by
  intro o i t' hdone hslot
  have h' := h o i t' hdone hslot
  by_cases heq : t' = t
  · subst heq
    simpa [Shared.setHeader] using ht h'
  · simpa [Shared.setHeader, heq] using h'

theorem forwardStep_sane {t : Obj} (h : sh.Targets heap) (ht : j.Target heap t)
    (hp : x.phase = .forward j t) : Sane heap (forwardStep sh x j t) := by
  unfold forwardStep
  split
  next hn =>
    refine ⟨h.setHeader (fun hf => ?_), ht⟩
    rw [hn] at hf
    cases hf
  next => exact ⟨h, by rw [Worker.Ok, hp]; exact ht⟩
  next hf => exact slotDone_sane h (fun t' ht' => ht.unique ht' ▸ hf)

theorem copyStep_sane {t : Obj} {slice : Option (Chunk Obj)} (h : sh.Targets heap)
    (ht : j.Target heap t) : Sane heap (copyStep sh x j t slice) := by
  have hset : (sh.setHeader t .forwarded).Targets heap := h.setHeader (fun _ => rfl)
  have hforwarded : (sh.setHeader t .forwarded).header t = .forwarded := by simp [Shared.setHeader]
  cases slice with
  | none => exact slotDone_sane hset (fun t' ht' => ht.unique ht' ▸ hforwarded)
  | some c => exact ⟨hset, t, ht, hforwarded⟩

theorem placeStep_sane {slice : Chunk Obj} (h : sh.Targets heap)
    (ht : ∃ t, j.Target heap t ∧ sh.header t = .forwarded) : Sane heap (placeStep sh x j slice) := by
  obtain ⟨t, ht, hf⟩ := ht
  change Sane heap (slotDone (keepOrShare sh x slice).1 (keepOrShare sh x slice).2 j)
  refine slotDone_sane (keepOrShare_targets h slice) (fun t' ht' => ?_)
  rw [(keepOrShare_same sh x slice).1, ← ht.unique ht']
  exact hf

theorem Worker.step_sane (h : Sane heap (sh, x)) : Sane heap (x.step heap sh) := by
  obtain ⟨htargets, hok⟩ := h
  change x.phase.Ok heap sh.header x.cur at hok
  cases hp : x.phase with
  | top =>
    rw [Worker.step, hp]
    exact drainTop_sane htargets
  | sweeping sweep =>
    rw [Worker.step, hp]
    exact sweepStep_sane htargets sweep
  | split j =>
    rw [Worker.step, hp]
    exact splitStep_sane htargets
  | scan j =>
    rw [Worker.step, hp]
    exact scanStep_sane htargets
  | forward j t =>
    rw [hp] at hok
    rw [Worker.step, hp]
    exact forwardStep_sane htargets hok hp
  | claimed j t =>
    rw [hp] at hok
    rw [Worker.step, hp]
    exact allocObj_sane htargets hok
  | sealed j t old =>
    rw [hp] at hok
    rw [Worker.step, hp]
    exact sealedStep_sane htargets hok.1 hok.2
  | copy j t slice =>
    rw [hp] at hok
    rw [Worker.step, hp]
    cases slice <;> exact copyStep_sane htargets hok.1
  | place j slice =>
    rw [hp] at hok
    rw [Worker.step, hp]
    exact placeStep_sane htargets hok
  | probing =>
    rw [Worker.step, hp]
    dsimp only
    split <;> exact ⟨htargets, trivial⟩
  | loading =>
    rw [Worker.step, hp]
    dsimp only
    split <;> exact ⟨htargets, trivial⟩
  | idling | entering =>
    rw [Worker.step, hp]
    exact ⟨htargets, trivial⟩
  | returned | panicked =>
    rw [Worker.step, hp]
    exact ⟨htargets, by rw [Worker.Ok, hp]; trivial⟩

end Targets

/-! ## Sums over the parties -/

/-- What a sum over all parties becomes when one of them changes. -/
theorem sum_update {I X : Type} [Fintype I] [DecidableEq I] (g : I → X → Nat) (f : I → X) (i : I)
    (x : X) :
    (∑ k, g k (Function.update f i x k)) + g i (f i) = (∑ k, g k (f k)) + g i x := by
  have hnew := Finset.add_sum_erase Finset.univ (fun k => g k (Function.update f i x k))
    (Finset.mem_univ i)
  have hold := Finset.add_sum_erase Finset.univ (fun k => g k (f k)) (Finset.mem_univ i)
  have hrest : ∑ k ∈ Finset.univ.erase i, g k (Function.update f i x k) =
      ∑ k ∈ Finset.univ.erase i, g k (f k) :=
    Finset.sum_congr rfl (fun k hk => by rw [Function.update_of_ne (Finset.ne_of_mem_erase hk)])
  rw [Function.update_self, hrest] at hnew
  rw [← hnew, ← hold, Nat.add_right_comm, Nat.add_comm (g i x), Nat.add_right_comm]

end Par
