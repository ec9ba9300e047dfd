import PolymlRs.Gc.DrainTermination

set_option autoImplicit false

/-! # The to-space of a parallel collection is never exhausted

To-space is sized for what is live, a quarter of it, and three chunks for each worker. A worker wastes
less than two chunks while its chunks still grow, less than a quarter of what it allocates in the full
chunks it has sealed, and at most a chunk in the one that is open. The size is computed with machine
words: where it wraps, a collection can run out of to-space. -/

namespace Par

/-! ## The size of to-space -/

section Sizes

variable {Obj : Type} [Fintype Obj]

/-- The words of all objects, with their headers. -/
def liveWords (heap : Obj → Object Obj) : Nat := ∑ o, (1 + (heap o).words)

/-- The from-spaces of a collection: the objects in them, the words that are used, and the capacity of
the first. -/
structure Spaces (Obj : Type) [Fintype Obj] where
  object : Obj → Object Obj
  live : Nat
  capacity : Nat
  /-- Each object lies in words that are used, behind its header. -/
  fits : liveWords object ≤ live

/-- What to-space is to have before the size wraps. -/
def Spaces.slack (spaces : Spaces Obj) (workers : Nat) (chunkOverride : Option Nat) : Nat :=
  spaces.live + spaces.live / 4 + workers * 3 * chunkSize chunkOverride

def Spaces.toLen (spaces : Spaces Obj) (workers : Nat) (chunkOverride : Option Nat) : Nat :=
  max (max spaces.capacity spaces.live) (spaces.slack workers chunkOverride % 2 ^ 64)

end Sizes

section Phases

variable {Obj : Type} [DecidableEq Obj] (heap : Obj → Object Obj)

/-- `forward` for a root: the object is copied unless it has been; `none` is a failed assertion of
`bump_to`. -/
def forwardRoot (toLen : Nat) (copied : List Obj) (t : Obj) : Option (List Obj) :=
  if t ∈ copied then some copied
  else if sizeOf heap copied + (1 + (heap t).words) ≤ toLen then some (copied ++ [t])
  else none

/-- `visit_roots`: the objects that are copied, given those the roots point into. -/
def visitRoots (toLen : Nat) (targets : List Obj) : Option (List Obj) :=
  targets.foldlM (forwardRoot heap toLen) []

/-- `bump_to` after the drain. -/
def Shared.bumpTo (sh : Shared Obj) (nWords : Nat) : Shared Obj :=
  if sh.arenaUsed + 1 + nWords ≤ sh.toLen then { sh with arenaUsed := sh.arenaUsed + 1 + nWords }
  else { sh with overflow := true }

/-- A slot of a weak object that points to `t`. `permanent` says which cells hold a pointer out of the
from-spaces, and `dead` are the cells that have been overwritten. -/
def fixupSlot (permanent : Obj → Bool) (p : Shared Obj × List Obj) (t : Obj) :
    Shared Obj × List Obj :=
  let (sh, dead) := p
  let survivor := ((sh.bumpTo 1).setHeader t .forwarded, dead)
  if sh.header t ≠ .normal then p
  else if (heap t).words ≠ 1 ∨ ((heap t).kind ≠ .word ∧ (heap t).kind ≠ .weak) then p
  else if t ∈ dead then p
  else match (heap t).slots[0]? with
    | some (some r) => if sh.header r = .forwarded then survivor else (sh, t :: dead)
    | _ => if permanent t then survivor else p

/-- `weak_fixup`. `registered` are the slots of the permanent weak objects that the root phase has
registered; they come before the weak objects that the drain has copied. A slot that points to a
permanent cell copies nothing, and counts as one without an object. -/
def weakFixup (registered : List (List (Option Obj))) (permanent : Obj → Bool) (sh : Shared Obj) :
    Shared Obj :=
  let weak := registered ++ sh.weak.map (fun o => (heap o).slots)
  ((weak.flatMap (fun slots => slots.filterMap id)).foldl (fixupSlot heap permanent) (sh, [])).1

end Phases

/-! ## What a worker wastes -/

/-- The words between the bump pointer and the end of the open chunk. -/
def Ledger.gap (l : Ledger) : Nat := l.stop - l.alloc

/-- All words that a worker has claimed from the arena. -/
def Ledger.claimed (l : Ledger) : Nat := l.allocated + l.filled + l.gap

/-- While its chunks grow, what a worker wastes is less than the next chunk. In the end all chunks have
the full size: then each chunk that is sealed is used for four times what is wasted of it. -/
structure Ledger.Bounded (chunk : Nat) (l : Ledger) : Prop where
  room : l.alloc ≤ l.stop
  waste : l.nextChunk < chunk ∧ l.filled + l.gap ≤ l.nextChunk ∨
    l.nextChunk = chunk ∧ (l.filled + l.gap ≤ 2 * chunk ∨
      l.start ≤ l.alloc ∧ l.start + chunk = l.stop ∧
        4 * l.filled + (l.alloc - l.start) ≤ l.allocated + 8 * chunk)

theorem Ledger.Bounded.claimed_le {chunk : Nat} {l : Ledger} (h : l.Bounded chunk) :
    4 * l.claimed ≤ 5 * l.allocated + 12 * chunk := by
  obtain ⟨hroom, hwaste⟩ := h
  unfold Ledger.claimed Ledger.gap at *
  omega

/-- An object in the open chunk. -/
def Ledger.push (l : Ledger) (need : Nat) : Ledger :=
  { l with alloc := l.alloc + need, allocated := l.allocated + need }

/-- An object in a slice of its own. -/
def Ledger.slice (l : Ledger) (need : Nat) : Ledger := { l with allocated := l.allocated + need }

/-- An object in a fresh chunk at `start`. -/
def Ledger.replace (chunk : Nat) (l : Ledger) (start need : Nat) : Ledger :=
  { start, stop := start + max l.nextChunk need, alloc := start + need
    nextChunk := min (l.nextChunk * 2) chunk
    allocated := l.allocated + need, filled := l.filled + l.gap }

section Ledger

variable {chunk need : Nat} {l : Ledger}

theorem Ledger.claimed_push (h : l.alloc + need ≤ l.stop) : (l.push need).claimed = l.claimed := by
  simp only [Ledger.claimed, Ledger.gap, Ledger.push]
  omega

theorem Ledger.claimed_slice : (l.slice need).claimed = l.claimed + need := by
  simp only [Ledger.claimed, Ledger.gap, Ledger.slice]
  omega

theorem Ledger.claimed_replace (start : Nat) :
    (l.replace chunk start need).claimed = l.claimed + max l.nextChunk need := by
  simp only [Ledger.claimed, Ledger.gap, Ledger.replace]
  omega

theorem Ledger.Bounded.push (h : l.Bounded chunk) (hroom : l.alloc + need ≤ l.stop) :
    (l.push need).Bounded chunk := by
  obtain ⟨-, hwaste⟩ := h
  constructor
  · exact hroom
  · simp only [Ledger.gap, Ledger.push] at hwaste ⊢
    omega

theorem Ledger.Bounded.slice (h : l.Bounded chunk) : (l.slice need).Bounded chunk := by
  obtain ⟨hroom, hwaste⟩ := h
  constructor
  · exact hroom
  · simp only [Ledger.gap, Ledger.slice] at hwaste ⊢
    omega

theorem Ledger.Bounded.replace (start : Nat) (h : l.Bounded chunk) (hneed : 8 * need ≤ chunk)
    (hfull : l.stop < l.alloc + need) : (l.replace chunk start need).Bounded chunk := by
  obtain ⟨hroom, hwaste⟩ := h
  constructor
  · exact Nat.add_le_add_left (Nat.le_max_right _ _) _
  · -- what the fresh chunk may waste is its size, and that was already the next chunk
    rcases hwaste with ⟨hgrows, hwaste⟩ | ⟨hgrown, hwaste⟩
    · simp only [Ledger.gap, Ledger.replace] at hwaste ⊢
      omega
    · -- less is wasted of a full chunk than the object that did not fit
      refine Or.inr ⟨?_, Or.inr ⟨Nat.le_add_right _ _, ?_, ?_⟩⟩
      · simp only [Ledger.replace]
        omega
      · simp only [Ledger.replace]
        omega
      · unfold Ledger.gap at hwaste
        simp only [Ledger.replace, Ledger.gap]
        omega

end Ledger

section Allocation

variable {Obj : Type} {heap : Obj → Object Obj} {sh : Shared Obj} {x : Worker Obj} {j : Job Obj}
variable {chunk : Nat}

/-- A worker allocates `need` words, and claims `n` words of the arena for them if they are there. -/
structure Allocates (chunk : Nat) (sh : Shared Obj) (l : Ledger) (need n : Nat) (l' : Ledger)
    (p : Shared Obj × Worker Obj) : Prop where
  fits : sh.arenaUsed + n ≤ sh.toLen →
    p.1 = { sh with arenaUsed := sh.arenaUsed + n } ∧ p.2.ledger = l' ∧ p.2.phase.pending = none
  claimed : l'.claimed = l.claimed + n
  allocated : l'.allocated = l.allocated + need
  bounded : l'.Bounded chunk

theorem Shared.claimArena_fits {n : Nat} (h : sh.arenaUsed + n ≤ sh.toLen) :
    sh.claimArena n = ({ sh with arenaUsed := sh.arenaUsed + n }, some sh.arenaUsed) := if_pos h

theorem sealAndReplace_allocates {need : Nat} (t : Obj) (hx : x.ledger.Bounded chunk)
    (hchunk : sh.chunkWords = chunk) (hneed : 8 * need ≤ chunk)
    (hfull : x.cur.stop < x.cur.alloc + need) :
    Allocates chunk sh x.ledger need (max x.nextChunk need)
      (x.ledger.replace chunk sh.arenaUsed need) (sealAndReplace sh x j t need) where
  fits hfits := by
    rw [sealAndReplace, Shared.claimArena_fits hfits, ← hchunk]
    exact ⟨rfl, rfl, rfl⟩
  claimed := Ledger.claimed_replace _
  allocated := rfl
  bounded := hx.replace _ hneed hfull

theorem allocObj_allocates (t : Obj) (hx : x.ledger.Bounded chunk) (hchunk : sh.chunkWords = chunk)
    (hoversize : 8 * sh.oversizeWords ≤ chunk) :
    ∃ n l', Allocates chunk sh x.ledger (1 + (heap t).words) n l' (allocObj heap sh x j t) := by
  unfold allocObj
  dsimp only
  by_cases hover : sh.oversizeWords < 1 + (heap t).words
  · rw [if_pos hover]
    refine ⟨_, _, ⟨fun hfits => ?_, Ledger.claimed_slice, rfl, hx.slice⟩⟩
    rw [Shared.claimArena_fits hfits]
    exact ⟨rfl, rfl, rfl⟩
  · rw [if_neg hover]
    by_cases hfull : x.cur.stop < x.cur.alloc + (1 + (heap t).words)
    · rw [if_pos hfull]
      have hneed : 8 * (1 + (heap t).words) ≤ chunk :=
        (Nat.mul_le_mul_left 8 (Nat.le_of_not_lt hover)).trans hoversize
      exact ⟨_, _, sealAndReplace_allocates t hx hchunk hneed hfull⟩
    · rw [if_neg hfull]
      have hroom : x.cur.alloc + (1 + (heap t).words) ≤ x.cur.stop := Nat.le_of_not_lt hfull
      exact ⟨0, x.ledger.push (1 + (heap t).words), fun _ => ⟨rfl, rfl, rfl⟩,
        Ledger.claimed_push hroom, rfl, hx.push hroom⟩

end Allocation

/-! ## The account of a drain -/

section Account

variable {Wid : Type} [Fintype Wid] {chunk base used copied : Nat}
variable {ledger : Wid → Ledger} {pending : Wid → Nat}

/-- The workers have claimed what is used behind the `base` words of the roots, and what they have
allocated or are about to allocate are objects that are copied. -/
structure Account (chunk base used copied : Nat) (ledger : Wid → Ledger) (pending : Wid → Nat) :
    Prop where
  used : used = base + ∑ w, (ledger w).claimed
  copied : base + ∑ w, ((ledger w).allocated + pending w) ≤ copied
  bounded : ∀ w, (ledger w).Bounded chunk

theorem Account.used_le (h : Account chunk base used copied ledger pending) :
    4 * used ≤ 5 * copied + 12 * (Fintype.card Wid * chunk) := by
  have hclaimed : ∑ w, 4 * (ledger w).claimed ≤
      ∑ w, (5 * ((ledger w).allocated + pending w) + 12 * chunk) :=
    Finset.sum_le_sum (fun w _ => (h.bounded w).claimed_le.trans (by omega))
  rw [Finset.sum_add_distrib, ← Finset.mul_sum, ← Finset.mul_sum, Finset.sum_const,
    Finset.card_univ, Nat.nsmul_eq_mul, Nat.mul_left_comm] at hclaimed
  have hcopied := h.copied
  rw [h.used]
  omega

variable [DecidableEq Wid] {l' : Ledger} {pending' copied' : Nat}

/-- A worker claims `n` words. -/
theorem Account.update (h : Account chunk base used copied ledger pending) (w : Wid) (n : Nat)
    (hclaimed : l'.claimed = (ledger w).claimed + n)
    (hcopied : l'.allocated + pending' + copied ≤ (ledger w).allocated + pending w + copied')
    (hbounded : l'.Bounded chunk) :
    Account chunk base (used + n) copied' (Function.update ledger w l')
      (Function.update pending w pending') where
  used := by
    have hsum := sum_update (fun _ => Ledger.claimed) ledger w l'
    have hused := h.used
    omega
  copied := by
    have hledger := sum_update (fun _ => Ledger.allocated) ledger w l'
    have hpending := sum_update (fun _ (n : Nat) => n) pending w pending'
    have hbefore := h.copied
    rw [Finset.sum_add_distrib] at hbefore ⊢
    omega
  bounded v := by
    by_cases hv : v = w
    · rw [hv, Function.update_self]
      exact hbounded
    · rw [Function.update_of_ne hv]
      exact h.bounded v

end Account

section Copied

variable {Obj : Type} [Fintype Obj] {heap : Obj → Object Obj} {header : Obj → Header}

/-- The words of the objects that are copied or claimed. -/
def copiedWords (heap : Obj → Object Obj) (header : Obj → Header) : Nat :=
  ∑ o, if header o = .normal then 0 else 1 + (heap o).words

theorem copiedWords_le : copiedWords heap header ≤ liveWords heap :=
  Finset.sum_le_sum (fun o _ => by split <;> omega)

variable [DecidableEq Obj]

theorem copiedWords_claim {t : Obj} {h : Header} (ht : header t = .normal) (hh : h ≠ .normal) :
    copiedWords heap (Function.update header t h) = copiedWords heap header + (1 + (heap t).words) := by
  have hsum := sum_update (fun o h => if h = Header.normal then 0 else 1 + (heap o).words) header t h
  rw [if_pos ht, if_neg hh] at hsum
  exact hsum

theorem copiedWords_publish (t : Obj) :
    copiedWords heap header ≤ copiedWords heap (Function.update header t .forwarded) := by
  have hsum := sum_update (fun o h => if h = Header.normal then 0 else 1 + (heap o).words) header t
    .forwarded
  rw [if_neg (by decide : Header.forwarded ≠ .normal)] at hsum
  have hle : (if header t = Header.normal then 0 else 1 + (heap t).words) ≤ 1 + (heap t).words := by
    split <;> omega
  unfold copiedWords
  omega

end Copied

/-! ## A drain within its arena -/

section Drain

variable {Wid Obj : Type} [Fintype Wid] [Fintype Obj] {heap : Obj → Object Obj}
variable {toLen chunk base : Nat} {s : State Wid Obj}

/-- The words of the object that a worker has claimed and not yet copied. -/
def Worker.pendingWords (heap : Obj → Object Obj) (x : Worker Obj) : Nat :=
  match x.phase.pending with
  | some t => 1 + (heap t).words
  | none => 0

omit [Fintype Obj] in
theorem Worker.pendingWords_none {x : Worker Obj} (h : x.phase.pending = none) :
    x.pendingWords heap = 0 := by
  rw [Worker.pendingWords, h]

/-- No assertion has failed, and the account is right. -/
structure State.Within (heap : Obj → Object Obj) (toLen chunk base : Nat) (s : State Wid Obj) :
    Prop where
  toLen : s.shared.toLen = toLen
  chunkWords : s.shared.chunkWords = chunk
  oversize : 8 * s.shared.oversizeWords ≤ chunk
  overflow : s.shared.overflow = false
  account : Account chunk base s.shared.arenaUsed (copiedWords heap s.shared.header)
    (Worker.ledger ∘ s.worker) (Worker.pendingWords heap ∘ s.worker)

/-- No assertion has failed, and what is not copied yet fits behind what is used. -/
structure Shared.Room (heap : Obj → Object Obj) (sh : Shared Obj) : Prop where
  overflow : sh.overflow = false
  used : sh.arenaUsed + liveWords heap ≤ sh.toLen + copiedWords heap sh.header

theorem Account.room {used copied live : Nat} {ledger : Wid → Ledger} {pending : Wid → Nat}
    (h : Account chunk base used copied ledger pending) (hcopied : copied ≤ live)
    (hlen : live + live / 4 + Fintype.card Wid * 3 * chunk ≤ toLen) : used + live ≤ toLen + copied := by
  have hused := h.used_le
  rw [Nat.mul_right_comm] at hlen
  omega

variable [DecidableEq Wid]

/-- A step that allocates nothing. -/
theorem State.Within.keep (h : s.Within heap toLen chunk base) (w : Wid) {p : Shared Obj × Worker Obj}
    (harena : p.1.arena = s.shared.arena) (hledger : p.2.ledger = (s.worker w).ledger)
    (hcopied : p.2.pendingWords heap + copiedWords heap s.shared.header ≤
      (s.worker w).pendingWords heap + copiedWords heap p.1.header) :
    State.Within heap toLen chunk base
      { shared := p.1, worker := Function.update s.worker w p.2 } where
  toLen := (congrArg Arena.toLen harena).trans h.toLen
  chunkWords := (congrArg Arena.chunkWords harena).trans h.chunkWords
  oversize := (congrArg (fun a => 8 * a.oversizeWords) harena).trans_le h.oversize
  overflow := (congrArg Arena.overflow harena).trans h.overflow
  account := by
    have hused : p.1.arenaUsed = s.shared.arenaUsed := congrArg Arena.arenaUsed harena
    have hclaimed : p.2.ledger.claimed = (s.worker w).ledger.claimed + 0 := by rw [hledger]; rfl
    have hwords : p.2.ledger.allocated + p.2.pendingWords heap + copiedWords heap s.shared.header ≤
        (s.worker w).ledger.allocated + (s.worker w).pendingWords heap +
          copiedWords heap p.1.header := by
      rw [hledger, Nat.add_assoc, Nat.add_assoc]
      exact Nat.add_le_add_left hcopied _
    have hbounded : p.2.ledger.Bounded chunk := hledger ▸ h.account.bounded w
    dsimp only
    rw [Function.comp_update, Function.comp_update, hused]
    exact h.account.update w 0 hclaimed hwords hbounded

/-- A claimed object is allocated; there is room for what the worker claims. -/
theorem State.Within.allocates (h : s.Within heap toLen chunk base)
    (hlen : liveWords heap + liveWords heap / 4 + Fintype.card Wid * 3 * chunk ≤ toLen) (w : Wid) {j : Job Obj} {t : Obj}
    (hp : (s.worker w).phase = .claimed j t) :
    State.Within heap toLen chunk base
      { shared := (allocObj heap s.shared (s.worker w) j t).1
        worker := Function.update s.worker w (allocObj heap s.shared (s.worker w) j t).2 } := by
  obtain ⟨n, l', halloc⟩ : ∃ n l', Allocates chunk s.shared (s.worker w).ledger
      (1 + (heap t).words) n l' (allocObj heap s.shared (s.worker w) j t) :=
    allocObj_allocates t (h.account.bounded w) h.chunkWords h.oversize
  have hpending : (s.worker w).pendingWords heap = 1 + (heap t).words := by
    rw [Worker.pendingWords, hp, Phase.pending]
  have hwords : l'.allocated + 0 + copiedWords heap s.shared.header ≤
      (s.worker w).ledger.allocated + (s.worker w).pendingWords heap +
        copiedWords heap s.shared.header := by
    rw [hpending, halloc.allocated, Nat.add_zero]
  have haccount := h.account.update w n halloc.claimed hwords halloc.bounded
  have hroom : s.shared.arenaUsed + n ≤ s.shared.toLen := by
    have hle := haccount.room copiedWords_le hlen
    have hcopied : copiedWords heap s.shared.header ≤ _ := copiedWords_le
    rw [h.toLen]
    omega
  obtain ⟨hshared, hledger, hnone⟩ := halloc.fits hroom
  rw [hshared]
  refine ⟨h.toLen, h.chunkWords, h.oversize, h.overflow, ?_⟩
  dsimp only
  rw [Function.comp_update, Function.comp_update, hledger, Worker.pendingWords_none hnone]
  exact haccount

omit [Fintype Obj] in
theorem Phase.Free.pending {p : Phase Obj} (h : p.Free) : p.pending = none := by
  cases p <;> first | rfl | exact h.elim

variable [DecidableEq Obj]

theorem State.Within.exec (h : s.Within heap toLen chunk base)
    (hlen : liveWords heap + liveWords heap / 4 + Fintype.card Wid * 3 * chunk ≤ toLen) (w : Wid) :
    ((drain heap).exec s w).Within heap toLen chunk base := by
  change State.Within heap toLen chunk base
    { shared := ((s.worker w).step heap s.shared).1
      worker := Function.update s.worker w ((s.worker w).step heap s.shared).2 }
  cases ha : (s.worker w).phase.active with
  | true =>
    have hactive : Active heap s.shared (s.worker w) ((s.worker w).step heap s.shared) :=
      (s.worker w).step_active ha
    generalize (s.worker w).step heap s.shared = p at hactive
    cases hactive with
    | works hworks =>
      refine h.keep w hworks.arena hworks.ledger ?_
      rw [Worker.pendingWords_none hworks.pending, hworks.header, Nat.zero_add]
      exact Nat.le_add_left _ _
    | idles =>
      refine h.keep w rfl rfl ?_
      rw [Worker.pendingWords_none rfl, Nat.zero_add]
      exact Nat.le_add_left _ _
    | claims j t hp ht =>
      refine h.keep w rfl rfl ?_
      have hnew : ((s.worker w).goto (.claimed j t)).pendingWords heap = 1 + (heap t).words := rfl
      have hcopied : copiedWords heap (s.shared.setHeader t .busy).header = _ :=
        copiedWords_claim ht (by decide)
      rw [hcopied, hnew]
      omega
    | allocates j t hp => exact h.allocates hlen w hp
    | publishes j t slice hp hworks =>
      refine h.keep w hworks.arena hworks.ledger ?_
      rw [Worker.pendingWords_none hworks.pending, hworks.header, Nat.zero_add]
      exact (copiedWords_publish t).trans (Nat.le_add_left _ _)
  | false =>
    obtain ⟨busy, p, he, hfree, -⟩ : ∃ busy p, (s.worker w).step heap s.shared =
        ({ s.shared with busy }, (s.worker w).goto p) ∧ p.Free ∧ _ := Worker.step_inactive ha
    rw [he]
    refine h.keep w rfl rfl ?_
    rw [Worker.pendingWords_none hfree.pending, Nat.zero_add]
    exact Nat.le_add_left _ _

end Drain

/-! ## The roots and the fixup -/

section Phases

variable {Obj : Type} [Fintype Obj] [DecidableEq Obj] {heap : Obj → Object Obj}

theorem sizeOf_le {objs : List Obj} (h : objs.Nodup) : sizeOf heap objs ≤ liveWords heap := by
  rw [sizeOf, ← List.sum_toFinset _ h]
  exact Finset.sum_le_sum_of_subset (Finset.subset_univ _)

/-- The roots are what is copied when the drain begins. -/
theorem sizeOf_roots {roots : List Obj} (h : roots.Nodup) :
    sizeOf heap roots ≤ copiedWords heap (fun o => if o ∈ roots then .forwarded else .normal) := by
  rw [sizeOf, ← List.sum_toFinset _ h]
  have hcopied : ∀ o ∈ roots.toFinset, 1 + (heap o).words =
      if (if o ∈ roots then Header.forwarded else .normal) = .normal then 0
      else 1 + (heap o).words := by
    intro o ho
    rw [if_pos (List.mem_toFinset.1 ho), if_neg (by decide)]
  rw [Finset.sum_congr rfl hcopied]
  exact Finset.sum_le_sum_of_subset (Finset.subset_univ _)

theorem visitRoots_from {toLen : Nat} (hlen : liveWords heap ≤ toLen) (targets : List Obj)
    {copied : List Obj} (h : copied.Nodup) :
    ∃ roots, targets.foldlM (forwardRoot heap toLen) copied = some roots ∧ roots.Nodup := by
  induction targets generalizing copied with
  | nil => exact ⟨copied, rfl, h⟩
  | cons t targets ih =>
    rw [List.foldlM_cons]
    by_cases ht : t ∈ copied
    · rw [forwardRoot, if_pos ht]
      exact ih h
    · have hnodup : (copied ++ [t]).Nodup := by
        rw [List.nodup_append_comm]
        exact List.nodup_cons.2 ⟨ht, h⟩
      have hfits : sizeOf heap copied + (1 + (heap t).words) ≤ toLen := by
        have hle : sizeOf heap (copied ++ [t]) ≤ liveWords heap := sizeOf_le hnodup
        simp only [sizeOf, List.map_append, List.sum_append, List.map_cons, List.map_nil,
          List.sum_cons, List.sum_nil, Nat.add_zero] at hle ⊢
        exact hle.trans hlen
      rw [forwardRoot, if_neg ht, if_pos hfits]
      exact ih hnodup

omit [Fintype Obj] [DecidableEq Obj] in
theorem Worker.new_bounded (chunk : Nat) : (Worker.new chunk : Worker Obj).ledger.Bounded chunk := by
  refine ⟨Nat.le_refl _, ?_⟩
  rcases Nat.lt_or_ge initialChunkWords chunk with hlt | hge
  · refine Or.inl ⟨?_, Nat.zero_le _⟩
    simpa [Worker.new, Worker.ledger] using hlt
  · exact Or.inr ⟨Nat.min_eq_right hge, Or.inl (Nat.zero_le _)⟩

theorem State.Within.new {Wid : Type} [Fintype Wid] {roots : List Obj} (hnodup : roots.Nodup)
    (toLen : Nat) (chunkOverride : Option Nat) :
    (State.new heap toLen roots chunkOverride : State Wid Obj).Within heap toLen
      (chunkSize chunkOverride) (sizeOf heap roots) := by
  have hmin : 16 ≤ chunkSize chunkOverride := Nat.le_max_right _ _
  have hworker (w : Wid) : (State.new heap toLen roots chunkOverride : State Wid Obj).worker w =
      Worker.new (chunkSize chunkOverride) := rfl
  have hclaimed : (Worker.new (chunkSize chunkOverride) : Worker Obj).ledger.claimed = 0 := rfl
  have hallocated : (Worker.new (chunkSize chunkOverride) : Worker Obj).ledger.allocated = 0 := rfl
  have hpending : (Worker.new (chunkSize chunkOverride) : Worker Obj).pendingWords heap = 0 := rfl
  refine ⟨rfl, rfl, ?_, rfl, ⟨?_, ?_, fun w => ?_⟩⟩
  · simp only [State.new, Shared.new]
    omega
  · simp only [Function.comp_apply, hworker, hclaimed, Finset.sum_const_zero]
    rfl
  · simp only [Function.comp_apply, hworker, hallocated, hpending, Nat.add_zero,
      Finset.sum_const_zero]
    exact sizeOf_roots hnodup
  · exact Worker.new_bounded _

/-- A cell that is not copied yet fits. -/
theorem Shared.Room.survivor {sh : Shared Obj} {t : Obj} (h : sh.Room heap)
    (ht : sh.header t = .normal) (hone : (heap t).words = 1) :
    ((sh.bumpTo 1).setHeader t .forwarded).Room heap := by
  obtain ⟨hoverflow, hused⟩ := h
  have hcopied : copiedWords heap (Function.update sh.header t .forwarded) =
      copiedWords heap sh.header + (1 + (heap t).words) := copiedWords_claim ht (by decide)
  have hle : copiedWords heap (Function.update sh.header t .forwarded) ≤ liveWords heap :=
    copiedWords_le
  rw [hone] at hcopied
  have hfits : sh.arenaUsed + 1 + 1 ≤ sh.toLen := by omega
  rw [Shared.bumpTo, if_pos hfits]
  refine ⟨hoverflow, ?_⟩
  simp only [Shared.setHeader, hcopied]
  omega

theorem fixupSlot_room {permanent : Obj → Bool} {p : Shared Obj × List Obj} (h : p.1.Room heap)
    (t : Obj) : (fixupSlot heap permanent p t).1.Room heap := by
  unfold fixupSlot
  dsimp only
  split
  · exact h
  next ht =>
    split
    · exact h
    next hcell =>
      have hsurvivor : ((p.1.bumpTo 1).setHeader t .forwarded).Room heap :=
        h.survivor (not_not.1 ht) (not_not.1 (not_or.1 hcell).1)
      split
      · exact h
      · split
        · split
          · exact hsurvivor
          · exact h
        · split
          · exact hsurvivor
          · exact h

theorem weakFixup_room {registered : List (List (Option Obj))} {permanent : Obj → Bool}
    {sh : Shared Obj} (h : sh.Room heap) : (weakFixup heap registered permanent sh).Room heap := by
  have hfold (targets : List Obj) (p : Shared Obj × List Obj) (hp : p.1.Room heap) :
      (targets.foldl (fixupSlot heap permanent) p).1.Room heap := by
    induction targets generalizing p with
    | nil => exact hp
    | cons t targets ih => exact ih _ (fixupSlot_room hp t)
  exact hfold _ _ h

end Phases

/-! ## A collection -/

section Collection

variable {Wid Obj : Type} [Fintype Wid] [DecidableEq Wid] [Fintype Obj] [DecidableEq Obj]

/-- The assertions of `bump_to` and `claim_arena` hold, in the roots, the drain and the fixup. -/
def Spaces.Suffices (Wid : Type) [Fintype Wid] [DecidableEq Wid] (spaces : Spaces Obj) (toLen : Nat)
    (targets : List Obj) (chunkOverride : Option Nat) (registered : List (List (Option Obj)))
    (permanent : Obj → Bool) : Prop :=
  ∃ roots, visitRoots spaces.object toLen targets = some roots ∧
    ∀ s : State Wid Obj,
      (drain spaces.object).Reachable (State.new spaces.object toLen roots chunkOverride) s →
      s.shared.overflow = false ∧
        (weakFixup spaces.object registered permanent s.shared).overflow = false

/-- To-space is never exhausted when its size does not wrap. -/
theorem Spaces.never_exhausted (spaces : Spaces Obj) {toLen : Nat} {chunkOverride : Option Nat}
    (targets : List Obj) (registered : List (List (Option Obj))) (permanent : Obj → Bool)
    (hslack : spaces.slack (Fintype.card Wid) chunkOverride < 2 ^ 64)
    (htoLen : spaces.toLen (Fintype.card Wid) chunkOverride ≤ toLen) :
    spaces.Suffices Wid toLen targets chunkOverride registered permanent := by
  have hfits := spaces.fits
  have hlen : liveWords spaces.object + liveWords spaces.object / 4 +
      Fintype.card Wid * 3 * chunkSize chunkOverride ≤ toLen := by
    rw [Spaces.toLen, Nat.mod_eq_of_lt hslack] at htoLen
    refine Nat.le_trans ?_ ((Nat.le_max_right _ _).trans htoLen)
    exact Nat.add_le_add_right (Nat.add_le_add hfits (Nat.div_le_div_right hfits)) _
  obtain ⟨roots, hroots, hnodup⟩ :=
    visitRoots_from (by omega : liveWords spaces.object ≤ toLen) targets List.nodup_nil
  refine ⟨roots, hroots, fun s hrun => ?_⟩
  have hwithin := hrun.invariant (State.Within.new hnodup toLen chunkOverride)
    (fun _ w h _ => h.exec hlen w)
  have hroom : s.shared.Room spaces.object :=
    ⟨hwithin.overflow, hwithin.toLen.symm ▸ hwithin.account.room copiedWords_le hlen⟩
  exact ⟨hroom.overflow, (weakFixup_room hroom).overflow⟩

end Collection

/-- A cell and a byte object, in a nursery of 16 words. -/
def cellSpaces : Spaces Bool := { object := cellHeap, live := 4, capacity := 16, fits := by decide }

/-- A permanent weak object points to the cell, whose byte object is a root: the fixup copies the
cell. -/
theorem Spaces.never_exhausted_cell :
    cellSpaces.slack (Fintype.card Bool) (some 16) < 2 ^ 64 ∧
      cellSpaces.Suffices Bool (cellSpaces.toLen (Fintype.card Bool) (some 16)) [true] (some 16)
        [[some false]] (fun _ => false) ∧
      (weakFixup cellHeap [[some false]] (fun _ => false)
        (State.new cellHeap (cellSpaces.toLen (Fintype.card Bool) (some 16)) [true] (some 16) :
          State Bool Bool).shared).header false = .forwarded :=
  have hslack : cellSpaces.slack (Fintype.card Bool) (some 16) < 2 ^ 64 := by decide
  ⟨hslack, cellSpaces.never_exhausted [true] [[some false]] _ hslack (Nat.le_refl _),
    by decide +kernel⟩

/-- Three chunks of `2 ^ 63` words for each of two workers are no words at all, and the first chunk that
is claimed does not fit. -/
theorem not_never_exhausted :
    ¬ cellSpaces.Suffices Bool (cellSpaces.toLen (Fintype.card Bool) (some (2 ^ 63))) [false]
      (some (2 ^ 63)) [] (fun _ => false) := by
  rintro ⟨roots, hroots, hall⟩
  have hroot : visitRoots cellHeap (cellSpaces.toLen (Fintype.card Bool) (some (2 ^ 63))) [false] =
      some [false] := by decide
  obtain rfl : [false] = roots := Option.some.inj (hroot.symm.trans hroots)
  have htrace : (drain cellHeap).Trace (fun _ _ => True)
      (State.new cellHeap (cellSpaces.toLen (Fintype.card Bool) (some (2 ^ 63))) [false]
        (some (2 ^ 63)) : State Bool Bool) (List.replicate 6 false) := by decide +kernel
  have hoverflow := (hall _ htrace.run).1
  revert hoverflow
  decide +kernel

end Par
