import Mathlib.Algebra.Order.BigOperators.Group.Finset
import PolymlRs.Gc.DrainSteps

set_option autoImplicit false

/-! # A worker returns only when there is nothing left to scan

Only an active worker holds anything, and while there is a task some worker is active. `busy` is the
number of the workers that have not left it; so when a worker that looks for tasks finds it 0, nothing
is held. -/

namespace Par

variable {Obj : Type}

/-! ## The idle probe -/

section Probe

variable {heap : Obj → Object Obj} {sh : Shared Obj} {x : Worker Obj}

theorem drainTop_free (h : x.Free) (hnone : sh.steal = []) :
    drainTop sh x = (sh, x.goto .idling) := by
  simp [drainTop, h.scanning, h.cur, hnone]

theorem Worker.Free.goto {p : Phase Obj} (h : x.Free) (hp : p.Free) : (x.goto p).Free :=
  ⟨h.cur, h.scanning, hp⟩

variable [DecidableEq Obj]

/-- An active worker stays active and `busy` as it is, or the worker is free, finds the queue empty,
and goes to the probe. -/
theorem Worker.step_stays (h : x.phase.active = true) :
    ((x.step heap sh).2.phase.active = true ∧ (x.step heap sh).1.busy = sh.busy) ∨
      (x.Free ∧ sh.steal = [] ∧ x.step heap sh = (sh, x.goto .idling)) := by
  have hactive : Active heap sh x (x.step heap sh) := x.step_active h
  generalize x.step heap sh = p at hactive
  cases hactive with
  | works hw => exact Or.inl ⟨hw.active, hw.busy⟩
  | idles hfree hnone => exact Or.inr ⟨hfree, hnone, rfl⟩
  | claims j t => exact Or.inl ⟨rfl, rfl⟩
  | allocates j t => exact Or.inl ⟨(allocObj_same t).2.2, (allocObj_same t).2.1⟩
  | publishes j t slice _ hw => exact Or.inl ⟨hw.active, hw.busy⟩

theorem Worker.step_busy (h : x.count ≤ sh.busy) :
    (x.step heap sh).1.busy + x.count = sh.busy + (x.step heap sh).2.count := by
  cases ha : x.phase.active with
  | true =>
    have hone : x.count = 1 := Worker.count_eq_one ha
    rcases x.step_stays ha with ⟨hactive, hbusy⟩ | ⟨-, -, he⟩
    · rw [hbusy, hone, Worker.count_eq_one hactive]
    · rw [he, hone]
      rfl
  | false =>
    obtain ⟨busy, p, he, -, hb⟩ := x.step_inactive ha
    rw [he]
    exact hb h

/-- A worker that is not active after a step is free. -/
theorem Worker.step_rest (h : x.phase.active = false → x.Free)
    (h' : (x.step heap sh).2.phase.active = false) : (x.step heap sh).2.Free := by
  cases ha : x.phase.active with
  | true =>
    rcases x.step_stays ha with ⟨hactive, -⟩ | ⟨hfree, -, he⟩
    · rw [hactive] at h'
      cases h'
    · rw [he]
      exact hfree.goto trivial
  | false =>
    obtain ⟨busy, p, he, hp, -⟩ := x.step_inactive ha
    rw [he]
    exact (h ha).goto hp

/-- When there is a task after a step, the worker is active, or the task was there already. -/
theorem Worker.step_task (h : (x.step heap sh).1.steal ≠ []) :
    (x.step heap sh).2.phase.active = true ∨ x.phase.active = false ∧ sh.steal ≠ [] := by
  cases ha : x.phase.active with
  | true =>
    rcases x.step_stays ha with ⟨hactive, -⟩ | ⟨-, hnone, he⟩
    · exact Or.inl hactive
    · rw [he] at h
      exact absurd hnone h
  | false =>
    obtain ⟨busy, p, he, -, -⟩ := x.step_inactive ha
    rw [he] at h
    exact Or.inr ⟨rfl, h⟩

/-- Once nothing is held and nothing shared, a step changes nothing but `busy` and a phase. -/
theorem Worker.step_free (h : x.Free) (hnone : sh.steal = []) :
    ∃ busy p, x.step heap sh = ({ sh with busy }, x.goto p) ∧ p.Free := by
  cases ha : x.phase.active with
  | true =>
    -- only the head of the loop is both active and free
    have htop : x.phase = .top := by
      have hfree := h.phase
      cases hp : x.phase <;> simp [hp, Phase.Free, Phase.active] at hfree ha ⊢
    refine ⟨sh.busy, .idling, ?_, trivial⟩
    rw [Worker.step, htop]
    exact drainTop_free h hnone
  | false =>
    obtain ⟨busy, p, he, hp, -⟩ := x.step_inactive ha
    exact ⟨busy, p, he, hp⟩

/-- A worker returns only when it finds `busy` 0. -/
theorem Worker.step_returned (h : (x.step heap sh).2.phase = .returned) :
    x.phase = .returned ∨ sh.busy = 0 ∧ x.phase.active = false := by
  cases ha : x.phase.active with
  | true =>
    rcases x.step_stays ha with ⟨hactive, -⟩ | ⟨-, -, he⟩
    · rw [h] at hactive
      cases hactive
    · rw [he] at h
      cases h
  | false =>
    cases hp : x.phase with
    | loading =>
      by_cases hb : sh.busy = 0
      · exact Or.inr ⟨hb, rfl⟩
      · simp [Worker.step, hp, hb] at h
    | returned => exact Or.inl rfl
    | idling | entering => simp [Worker.step, hp] at h
    | probing =>
      by_cases hq : sh.steal = [] <;> simp [Worker.step, hp, hq] at h
    | top | sweeping | split | scan | forward | claimed | «sealed» | copy | place | panicked =>
      simp [hp, Phase.active] at ha

end Probe

/-! ## The drain -/

theorem kept_iff {o : Obj} {i : Part} {p : Shared Obj × Worker Obj} :
    Kept o i p ↔ p.1.Done o i ∨ (∃ t ∈ p.1.steal, t.Holds o i) ∨ p.2.Holds o i := by
  simp only [Kept, Aside, Worker.Holds, or_assoc]

theorem sizeOf_pos (heap : Obj → Object Obj) {o : Obj} {objs : List Obj} (h : o ∈ objs) :
    0 < sizeOf heap objs :=
  List.sum_pos_iff_exists_pos_nat.2 ⟨_, List.mem_map_of_mem h, Nat.add_pos_left Nat.one_pos _⟩

section Drain

variable {Wid Obj : Type} {heap : Obj → Object Obj} {s : State Wid Obj}

/-- Part `i` of `o` has been scanned, or is held. -/
def State.Covers (s : State Wid Obj) (o : Obj) (i : Part) : Prop :=
  s.shared.Done o i ∨ (∃ t ∈ s.shared.steal, t.Holds o i) ∨ ∃ w, (s.worker w).Holds o i

section Exec

variable [DecidableEq Wid]

/-- A worker has changed, the others have not. -/
theorem forall_update {w : Wid} {x : Worker Obj} {P : Worker Obj → Prop} (hx : P x)
    (hothers : ∀ v, P (s.worker v)) (v : Wid) : P (Function.update s.worker w x v) := by
  by_cases hv : v = w
  · rw [hv, Function.update_self]
    exact hx
  · rw [Function.update_of_ne hv]
    exact hothers v

variable [DecidableEq Obj]

theorem exec_shared (w : Wid) :
    ((drain heap).exec s w).shared = ((s.worker w).step heap s.shared).1 := rfl

theorem exec_worker (w : Wid) :
    ((drain heap).exec s w).worker =
      Function.update s.worker w ((s.worker w).step heap s.shared).2 := rfl

theorem exec_worker_self (w : Wid) :
    ((drain heap).exec s w).worker w = ((s.worker w).step heap s.shared).2 := by
  rw [exec_worker, Function.update_self]

theorem exec_worker_of_ne {v w : Wid} (h : v ≠ w) :
    ((drain heap).exec s w).worker v = s.worker v := by
  rw [exec_worker, Function.update_of_ne h]

/-- A copy that is published at some moment is there at every later one. -/
theorem reachable_forwarded {s' : State Wid Obj} (hrun : (drain heap).Reachable s s') {o : Obj}
    (h : s.shared.header o = .forwarded) : s'.shared.header o = .forwarded := by
  refine hrun.invariant (I := fun s' => s'.shared.header o = .forwarded) h ?_
  intro t w ht _
  rw [exec_shared]
  exact Worker.step_forwarded ht

end Exec

variable [Fintype Wid]

/-- What holds at each moment of a drain. -/
structure State.Sound (heap : Obj → Object Obj) (s : State Wid Obj) : Prop where
  busy : s.shared.busy = ∑ w, (s.worker w).count
  free : ∀ w, (s.worker w).phase.active = false → (s.worker w).Free
  task : s.shared.steal ≠ [] → ∃ w, (s.worker w).phase.active = true
  ended : ∀ w, (s.worker w).phase = .returned → s.shared.steal = [] ∧ ∀ v, (s.worker v).Free
  covered : ∀ o i, s.shared.header o = .forwarded → (heap o).Has i → s.Covers o i
  targets : s.shared.Targets heap
  ok : ∀ w, (s.worker w).Ok heap s.shared.header

/-- Nobody is active when `busy` is 0, so there is no task, and every worker is free. -/
theorem State.Sound.at_rest (h : s.Sound heap) (hzero : s.shared.busy = 0) :
    s.shared.steal = [] ∧ ∀ v, (s.worker v).Free := by
  have hinactive (v : Wid) : (s.worker v).phase.active = false := by
    have hcount : (s.worker v).count = 0 := by
      rw [h.busy] at hzero
      exact Finset.sum_eq_zero_iff.1 hzero v (Finset.mem_univ v)
    by_contra hactive
    rw [Worker.count_eq_one (eq_true_of_ne_false hactive)] at hcount
    cases hcount
  constructor
  · by_contra htask
    obtain ⟨v, hv⟩ := h.task htask
    rw [hinactive v] at hv
    cases hv
  · exact fun v => h.free v (hinactive v)

/-- Nothing is left to scan, and nobody has anything to scan. -/
structure State.Quiescent (heap : Obj → Object Obj) (s : State Wid Obj) : Prop where
  steal : s.shared.steal = []
  free : ∀ w, (s.worker w).Free
  /-- Each slot that is scanned points to a copy. -/
  slots : ∀ o i, s.shared.header o = .forwarded → i < (heap o).scanned →
    s.shared.forwarded o i = true ∧
      ∀ t, (heap o).slots[i]? = some (some t) → s.shared.header t = .forwarded
  /-- The links of each weak object are left to the fixup. -/
  links : ∀ o, s.shared.header o = .forwarded → (heap o).kind = .weak → o ∈ s.shared.weak

/-- What a collection copies: the roots, and what the scanned slots of a copy point to. -/
inductive Traced (heap : Obj → Object Obj) (roots : List Obj) : Obj → Prop
  | root {o : Obj} (ho : o ∈ roots) : Traced heap roots o
  | slot {o t : Obj} {i : Nat} (ho : Traced heap roots o) (hi : i < (heap o).scanned)
      (ht : (heap o).slots[i]? = some (some t)) : Traced heap roots t

omit [Fintype Wid] in
/-- When nothing is left to scan, all that the roots lead to is copied. -/
theorem State.Quiescent.traced (h : s.Quiescent heap) {roots : List Obj}
    (hroots : ∀ o ∈ roots, s.shared.header o = .forwarded) {o : Obj} (ho : Traced heap roots o) :
    s.shared.header o = .forwarded := by
  induction ho with
  | root ho => exact hroots _ ho
  | slot ho hi ht ih => exact (h.slots _ _ ih hi).2 _ ht

theorem State.Sound.quiescent (h : s.Sound heap) {w : Wid} (hw : (s.worker w).phase = .returned) :
    s.Quiescent heap := by
  obtain ⟨hnone, hfree⟩ := h.ended w hw
  have hdone (o : Obj) (i : Part) (ho : s.shared.header o = .forwarded) (hi : (heap o).Has i) :
      s.shared.Done o i := by
    rcases h.covered o i ho hi with hdone | ⟨t, ht, -⟩ | ⟨v, hv⟩
    · exact hdone
    · rw [hnone] at ht
      cases ht
    · exact absurd hv ((hfree v).not_holds o i)
  exact
    { steal := hnone
      free := hfree
      slots := fun o i ho hi =>
        have hforwarded := hdone o (.slot i) ho hi
        ⟨hforwarded, fun t ht => h.targets o i t hforwarded ht⟩
      links := fun o ho hk => hdone o .links ho hk }

variable [DecidableEq Obj]

variable (heap) in
theorem State.Sound.new (w₀ : Wid) (toLen : Nat) (roots : List Obj) (chunkOverride : Option Nat) :
    (State.new heap toLen roots chunkOverride : State Wid Obj).Sound heap where
  busy := by simp [State.new, Shared.new, Worker.new, Worker.count, Phase.counted]
  free w h := by cases h
  task _ := ⟨w₀, rfl⟩
  ended w h := by cases h
  covered o i ho _ := by
    have hroot : o ∈ roots := by
      by_contra hnot
      simp [State.new, Shared.new, hnot] at ho
    have hpos := sizeOf_pos heap hroot
    refine Or.inr (Or.inl ?_)
    simp only [State.new, Shared.new, hpos, if_true]
    exact ⟨_, List.mem_cons_self, List.mem_map_of_mem hroot⟩
  targets o i t hdone := by cases hdone
  ok w := trivial

variable [DecidableEq Wid]

/-- What the step of a worker may copy, or has been copied before, is scanned or held. -/
theorem State.Sound.covers_exec (h : s.Sound heap) (w : Wid) {o : Obj} {i : Part}
    (ho : ((drain heap).exec s w).shared.header o = .forwarded) (hi : (heap o).Has i) :
    ((drain heap).exec s w).Covers o i := by
  rw [exec_shared] at ho
  -- the worker that steps has it, or another one that does not
  have hbefore : Kept o i (s.shared, s.worker w) ∨ ∃ v, v ≠ w ∧ (s.worker v).Holds o i := by
    by_cases hold : s.shared.header o = .forwarded
    · rcases h.covered o i hold hi with hdone | htask | ⟨v, hv⟩
      · exact Or.inl (kept_iff.2 (Or.inl hdone))
      · exact Or.inl (kept_iff.2 (Or.inr (Or.inl htask)))
      · by_cases hvw : v = w
        · exact Or.inl (kept_iff.2 (Or.inr (Or.inr (hvw ▸ hv))))
        · exact Or.inr ⟨v, hvw, hv⟩
    · -- `o` is copied in this step, and still lies unscanned in a chunk of the worker
      rcases (s.worker w).step_header with he | ⟨j, t, -, -, he⟩ | ⟨j, t, slice, hp, he⟩
      · exact absurd (he ▸ ho) hold
      · rw [he] at ho
        by_cases hot : o = t
        · rw [hot, Function.update_self] at ho
          cases ho
        · rw [Function.update_of_ne hot] at ho
          exact absurd ho hold
      · have hot : o = t := by
          by_contra hne
          rw [he, Function.update_of_ne hne] at ho
          exact hold ho
        subst hot
        have hok := h.ok w
        rw [Worker.Ok, hp] at hok
        cases slice with
        | none => exact Or.inl (kept_iff.2 (Or.inr (Or.inr (Or.inl hok.2))))
        | some c =>
          have hphase : (s.worker w).phase.Holds o i := by
            rw [hp]
            exact Or.inl ⟨c, rfl, hok.2⟩
          exact Or.inl (kept_iff.2 (Or.inr (Or.inr (Or.inr (Or.inr hphase)))))
  rcases hbefore with hkept | ⟨v, hvw, hv⟩
  · rcases kept_iff.1 (Worker.step_kept hi hkept) with hdone | htask | hw
    · exact Or.inl hdone
    · exact Or.inr (Or.inl htask)
    · exact Or.inr (Or.inr ⟨w, by rw [exec_worker_self]; exact hw⟩)
  · exact Or.inr (Or.inr ⟨v, by rw [exec_worker_of_ne hvw]; exact hv⟩)

theorem State.Sound.exec (h : s.Sound heap) (w : Wid) : ((drain heap).exec s w).Sound heap where
  busy := by
    have hle : (s.worker w).count ≤ s.shared.busy := by
      rw [h.busy]
      exact Finset.single_le_sum_of_canonicallyOrdered (f := fun v => (s.worker v).count)
        (Finset.mem_univ w)
    have hstep : _ + _ = _ + ((s.worker w).step heap s.shared).2.count := Worker.step_busy hle
    have hsum := sum_update (fun _ => Worker.count) s.worker w ((s.worker w).step heap s.shared).2
    rw [← h.busy, ← hstep] at hsum
    rw [exec_shared, exec_worker]
    exact (Nat.add_right_cancel hsum).symm
  free := forall_update (P := fun x => x.phase.active = false → x.Free)
    (Worker.step_rest (h.free w)) h.free
  task htask := by
    rcases Worker.step_task htask with hactive | ⟨hinactive, htask⟩
    · exact ⟨w, by rw [exec_worker_self]; exact hactive⟩
    · obtain ⟨v, hv⟩ := h.task htask
      have hvw : v ≠ w := by
        rintro rfl
        rw [hinactive] at hv
        cases hv
      exact ⟨v, by rw [exec_worker_of_ne hvw]; exact hv⟩
  ended v hv := by
    -- somebody has returned before, or `busy` is 0
    have hrest : s.shared.steal = [] ∧ ∀ v, (s.worker v).Free := by
      by_cases hvw : v = w
      · rw [hvw, exec_worker_self] at hv
        rcases Worker.step_returned hv with hv | ⟨hzero, -⟩
        · exact h.ended w hv
        · exact h.at_rest hzero
      · rw [exec_worker_of_ne hvw] at hv
        exact h.ended v hv
    obtain ⟨busy, p, he, hp⟩ := Worker.step_free (hrest.2 w) hrest.1
    rw [exec_shared, exec_worker, he]
    exact ⟨hrest.1, forall_update ((hrest.2 w).goto hp) hrest.2⟩
  covered o i := h.covers_exec w
  targets := (Worker.step_sane ⟨h.targets, h.ok w⟩).targets
  ok := forall_update (P := fun x => x.Ok heap _) (Worker.step_sane ⟨h.targets, h.ok w⟩).ok
    (fun v => (h.ok v).mono (fun o => Worker.step_forwarded))

theorem State.Sound.reachable {s' : State Wid Obj} (h : s.Sound heap)
    (hrun : (drain heap).Reachable s s') : s'.Sound heap :=
  hrun.invariant h (fun _ v ht _ => ht.exec v)

/-- Once a worker has returned, nothing is left to scan: what was copied at any earlier moment is
copied still, with every slot scanned, and so is all that the roots lead to. Whatever the other
workers do from then on, nothing more is copied and nothing comes to be scanned. -/
theorem drain_quiescent {toLen : Nat} {roots : List Obj} {chunkOverride : Option Nat}
    {before : State Wid Obj}
    (hbefore : (drain heap).Reachable (State.new heap toLen roots chunkOverride) before)
    (hrun : (drain heap).Reachable before s) {w : Wid} (hw : (s.worker w).phase = .returned) :
    s.Quiescent heap ∧
      (∀ o, before.shared.header o = .forwarded → s.shared.header o = .forwarded) ∧
      (∀ o, Traced heap roots o → s.shared.header o = .forwarded) ∧
      ∀ s', (drain heap).Reachable s s' →
        s'.Quiescent heap ∧ s'.shared.header = s.shared.header := by
  have hsound : s.Sound heap :=
    ((State.Sound.new heap w toLen roots chunkOverride).reachable hbefore).reachable hrun
  have hroots (o : Obj) (ho : o ∈ roots) : s.shared.header o = .forwarded :=
    reachable_forwarded hrun (reachable_forwarded hbefore (if_pos ho))
  refine ⟨hsound.quiescent hw, fun o ho => reachable_forwarded hrun ho,
    fun o ho => (hsound.quiescent hw).traced hroots ho, fun s' hrun' => ?_⟩
  obtain ⟨hsound', hw', he⟩ : s'.Sound heap ∧ (s'.worker w).phase = .returned ∧
      s'.shared.header = s.shared.header := by
    refine hrun'.invariant (I := fun s' => s'.Sound heap ∧ (s'.worker w).phase = .returned ∧
      s'.shared.header = s.shared.header) ⟨hsound, hw, rfl⟩ ?_
    intro t v ⟨ht, htw, he⟩ henabled
    obtain ⟨hnone, hfree⟩ := ht.ended w htw
    obtain ⟨busy, p, hstep, -⟩ := Worker.step_free (hfree v) hnone
    have hvw : w ≠ v := by
      rintro rfl
      exact henabled htw
    refine ⟨ht.exec v, ?_, ?_⟩
    · rw [exec_worker_of_ne hvw]
      exact htw
    · rw [exec_shared, hstep]
      exact he
  exact ⟨hsound'.quiescent hw', he⟩

end Drain

/-! ## Two workers, and a cell that points to a byte object -/

instance {Wid Obj : Type} [DecidableEq Wid] [DecidableEq Obj] (heap : Obj → Object Obj)
    (s : State Wid Obj) (w : Wid) : Decidable ((drain heap).Enabled s w) :=
  inferInstanceAs (Decidable ((s.worker w).phase ≠ .returned))

def cellHeap (o : Bool) : Object Bool :=
  if o then { words := 1, kind := .bytes, slots := [none] }
  else { words := 1, kind := .word, slots := [some true] }

def cellStart : State Bool Bool := State.new cellHeap 64 [false] (some 16)

/-- One worker copies what the cell points to, and looks for more; the other finds nothing, and
returns. -/
def cellSteps : List Bool := List.replicate 15 false ++ List.replicate 4 true

/-- The first worker has taken eight steps. -/
def cellMid : State Bool Bool := (cellSteps.take 8).foldl (drain cellHeap).exec cellStart

def cellEnd : State Bool Bool := (cellSteps.drop 8).foldl (drain cellHeap).exec cellMid

theorem cellSteps_before : (drain cellHeap).Trace (fun _ _ => True) cellStart (cellSteps.take 8) := by
  decide +kernel

theorem cellSteps_after : (drain cellHeap).Trace (fun _ _ => True) cellMid (cellSteps.drop 8) := by
  decide +kernel

/-- The cell and its target are copied at the end, and the slot of the cell is scanned. -/
theorem drain_quiescent_cell :
    (drain cellHeap).Reachable cellStart cellEnd ∧ (cellEnd.worker true).phase = .returned ∧
      cellMid.shared.header false = .forwarded ∧ cellEnd.shared.header false = .forwarded ∧
      cellEnd.shared.header true = .forwarded ∧ cellEnd.shared.forwarded false 0 = true ∧
      ∀ s', (drain cellHeap).Reachable cellEnd s' →
        s'.Quiescent cellHeap ∧ s'.shared.header = cellEnd.shared.header :=
  have hbefore : (drain cellHeap).Reachable cellStart cellMid := cellSteps_before.run
  have hrun : (drain cellHeap).Reachable cellMid cellEnd := cellSteps_after.run
  have hreturned : (cellEnd.worker true).phase = .returned := by decide +kernel
  have hmid : cellMid.shared.header false = .forwarded := by decide +kernel
  have ⟨hquiescent, hkept, htraced, hafter⟩ := drain_quiescent hbefore hrun hreturned
  ⟨cellSteps_after.run_from hbefore, hreturned, hmid, hkept false hmid,
    htraced true (.slot (.root (List.mem_singleton_self false)) Nat.one_pos rfl),
    (hquiescent.slots false 0 (hkept false hmid) Nat.one_pos).1, hafter⟩

end Par
