import Mathlib.Data.List.Count
import Mathlib.Data.List.Nodup
import Mathlib.Data.List.Perm.Subperm
import PolymlRs.Sched.Runtime

set_option autoImplicit false

/-! # Safety of the stop-the-world handshake

`SchedInv` is the invariant of the scheduler; it holds in every reachable state, whatever the
interleaving and in both modes. Most operations touch the handle and position of one thread, and
`SchedInv.oneThread` reduces their proofs to that thread; the collector's own operations and the
deregistration of a thread by its parent are treated on their own. -/

namespace Pos

variable {Tid Roots : Type}

/-- At these positions a thread is registered and outside ML. -/
def Outside : Pos Tid Roots → Prop
  | .forked | .abandoned _ | .taking | .handoff | .losing => True
  | _ => False

/-- The positions that say nothing about another thread or about a collection. -/
def Plain : Pos Tid Roots → Prop
  | .abandoned _ | .exiting _ | .barrier | .collecting => False
  | _ => True

end Pos

namespace Runtime

variable {Tid Roots : Type}

/-- The number of registered threads in ML. -/
def inMlCount (s : Runtime Tid Roots) : Nat := s.registry.countP (fun t => (s.handle t).inMl)

structure SchedInv (s : Runtime Tid Roots) : Prop where
  nodup : s.registry.Nodup
  inMlReg : ∀ t, (s.handle t).inMl = true → t ∈ s.registry
  published : ∀ t ∈ s.registry, (s.handle t).inMl = false →
    (s.handle t).parkedRoots.isSome = true
  counted : s.running = s.inMlCount
  exclusive : s.parallel = false → s.running ≤ 1
  collector : ∀ t, s.IsCollector t → (s.handle t).inMl = true ∧ s.gcRequested = true
  requested : s.gcRequested = true → ∃ t, s.IsCollector t
  unique : ∀ t u, s.IsCollector t → s.IsCollector u → t = u
  stopped : ∀ c, s.pos c = .collecting → ∀ u ∈ s.registry, u ≠ c → (s.handle u).inMl = false
  outside : ∀ t, (s.pos t).Outside → t ∈ s.registry ∧ (s.handle t).inMl = false
  losing : ∀ t, s.pos t = .losing → s.parallel = true
  registering : ∀ t roots, s.pos t = .registering roots → t ∉ s.registry
  abandoned : ∀ t u, s.pos t = .abandoned u → s.pos u = .exiting t
  exiting : ∀ t u, s.pos t = .exiting u → u ∈ s.registry ∧ (s.handle u).inMl = false ∧
    (u = t ∨ s.pos u = .abandoned t)

theorem schedInv_new (parallel : Bool) : SchedInv (new Tid Roots parallel) := by
  constructor <;> simp [new, IsCollector, inMlCount, Pos.Outside]

namespace SchedInv

/-- Without a request there is no collector. -/
theorem not_collector {s : Runtime Tid Roots} (hi : SchedInv s) (hgc : s.gcRequested = false)
    (t : Tid) : ¬ s.IsCollector t := by
  intro hc
  have := (hi.collector t hc).2
  rw [hgc] at this
  exact Bool.false_ne_true this

/-- A step that changes only the thread `t`, at positions that concern nobody else. -/
theorem oneThread {s s' : Runtime Tid Roots} {t : Tid} (hi : SchedInv s)
    (hpar : s'.parallel = s.parallel) (hgc : s'.gcRequested = s.gcRequested)
    (hh : ∀ u, u ≠ t → s'.handle u = s.handle u) (hp : ∀ u, u ≠ t → s'.pos u = s.pos u)
    (hr : ∀ u, u ≠ t → (u ∈ s'.registry ↔ u ∈ s.registry)) (hnd : s'.registry.Nodup)
    (hcount : s'.running = s'.inMlCount) (hexcl : s'.parallel = false → s'.running ≤ 1)
    (hplain : (s.pos t).Plain) (hplain' : (s'.pos t).Plain)
    (hreg : (s'.handle t).inMl = true → t ∈ s'.registry)
    (hpub : t ∈ s'.registry → (s'.handle t).inMl = false →
      (s'.handle t).parkedRoots.isSome = true)
    (hstop : ∀ c, s.pos c = .collecting → t ∈ s'.registry → (s'.handle t).inMl = false)
    (hout : (s'.pos t).Outside → t ∈ s'.registry ∧ (s'.handle t).inMl = false)
    (hlose : s'.pos t = .losing → s'.parallel = true)
    (hreging : ∀ roots, s'.pos t = .registering roots → t ∉ s'.registry) : SchedInv s' := by
  have hcol : ∀ u, s'.IsCollector u ↔ s.IsCollector u := by
    intro u
    by_cases hu : u = t
    · subst hu
      constructor <;> rintro (hc | hc)
      · rw [hc] at hplain'
        exact hplain'.elim
      · rw [hc] at hplain'
        exact hplain'.elim
      · rw [hc] at hplain
        exact hplain.elim
      · rw [hc] at hplain
        exact hplain.elim
    · rw [IsCollector, IsCollector, hp u hu]
  have hne : ∀ u, s.IsCollector u → u ≠ t := by
    rintro u hu rfl
    rcases hu with hc | hc <;> rw [hc] at hplain <;> exact hplain
  constructor
  · exact hnd
  · intro u hu
    by_cases he : u = t
    · subst he
      exact hreg hu
    · rw [hh u he] at hu
      exact (hr u he).2 (hi.inMlReg u hu)
  · intro u hu hml
    by_cases he : u = t
    · subst he
      exact hpub hu hml
    · rw [hh u he] at hml ⊢
      exact hi.published u ((hr u he).1 hu) hml
  · exact hcount
  · exact hexcl
  · intro u hu
    have hu' := (hcol u).1 hu
    rw [hh u (hne u hu'), hgc]
    exact hi.collector u hu'
  · intro hreq
    rw [hgc] at hreq
    obtain ⟨u, hu⟩ := hi.requested hreq
    exact ⟨u, (hcol u).2 hu⟩
  · exact fun u v hu hv => hi.unique u v ((hcol u).1 hu) ((hcol v).1 hv)
  · intro c hc u hu hne'
    have hct : c ≠ t := hne c ((hcol c).1 (Or.inr hc))
    rw [hp c hct] at hc
    by_cases he : u = t
    · subst he
      exact hstop c hc hu
    · rw [hh u he]
      exact hi.stopped c hc u ((hr u he).1 hu) hne'
  · intro u hu
    by_cases he : u = t
    · subst he
      exact hout hu
    · rw [hp u he] at hu
      rw [hh u he, hr u he]
      exact hi.outside u hu
  · intro u hu
    by_cases he : u = t
    · subst he
      exact hlose hu
    · rw [hp u he] at hu
      rw [hpar]
      exact hi.losing u hu
  · intro u roots hu
    by_cases he : u = t
    · subst he
      exact hreging roots hu
    · rw [hp u he] at hu
      rw [hr u he]
      exact hi.registering u roots hu
  · intro u v hu
    have hut : u ≠ t := by
      rintro rfl
      rw [hu] at hplain'
      exact hplain'
    rw [hp u hut] at hu
    have hv := hi.abandoned u v hu
    have hvt : v ≠ t := by
      rintro rfl
      rw [hv] at hplain
      exact hplain
    rw [hp v hvt]
    exact hv
  · intro u v hu
    have hut : u ≠ t := by
      rintro rfl
      rw [hu] at hplain'
      exact hplain'
    rw [hp u hut] at hu
    obtain ⟨hv, hml, hor⟩ := hi.exiting u v hu
    have hvt : v ≠ t := by
      rintro rfl
      rcases hor with rfl | hab
      · exact hut rfl
      · rw [hab] at hplain
        exact hplain
    rw [hh v hvt, hr v hvt, hp v hvt]
    exact ⟨hv, hml, hor⟩

/-- The waiters are only counted. -/
theorem waiters {s : Runtime Tid Roots} (hi : SchedInv s) (n : Nat) :
    SchedInv { s with waiters := n } :=
  ⟨hi.nodup, hi.inMlReg, hi.published, hi.counted, hi.exclusive, hi.collector, hi.requested,
    hi.unique, hi.stopped, hi.outside, hi.losing, hi.registering, hi.abandoned, hi.exiting⟩

/-- A thread with published roots appears in the registry. -/
theorem push {s : Runtime Tid Roots} {t : Tid} (hi : SchedInv s)
    (hpos : s.pos t = .idle) (hnot : t ∉ s.registry)
    (hsome : (s.handle t).parkedRoots.isSome = true) :
    SchedInv { s with registry := s.registry ++ [t] } := by
  have hml : (s.handle t).inMl = false := by
    by_contra hcon
    exact hnot (hi.inMlReg t (by simpa using hcon))
  have hs := hi.counted
  simp only [inMlCount] at hs
  refine hi.oneThread (t := t) rfl rfl (fun _ _ => rfl) (fun _ _ => rfl) ?_ ?_ ?_ hi.exclusive ?_ ?_
    ?_ (fun _ _ => hsome) (fun _ _ _ => hml) ?_ ?_ ?_
  · intro u hu
    simp [hu]
  · refine List.nodup_append.2 ⟨hi.nodup, List.nodup_singleton t, ?_⟩
    rintro u hu v hv rfl
    exact hnot (List.mem_singleton.1 hv ▸ hu)
  · simp only [inMlCount, List.countP_append, List.countP_singleton, hml]
    exact hs
  · rw [hpos]
    trivial
  · rw [hpos]
    trivial
  · simp [hml]
  · simp [hpos, Pos.Outside]
  · simp [hpos]
  · simp [hpos]

end SchedInv

/-- Changing one member of a duplicate-free list changes its count by that member. -/
theorem countP_changed {l : List Tid} (hnd : l.Nodup) {t : Tid} (ht : t ∈ l) {p q : Tid → Bool}
    (hne : ∀ u, u ≠ t → q u = p u) :
    l.countP q + (if p t then 1 else 0) = l.countP p + (if q t then 1 else 0) := by
  induction l with
  | nil => simp at ht
  | cons a l ih =>
    have hnd' := List.nodup_cons.1 hnd
    simp only [List.countP_cons]
    rcases List.mem_cons.1 ht with rfl | ht
    · have hsame : l.countP q = l.countP p :=
        List.countP_congr (fun u hu => by rw [hne u (ne_of_mem_of_not_mem hu hnd'.1)])
      rw [hsame]
      omega
    · have ha : a ≠ t := fun he => hnd'.1 (he ▸ ht)
      have := ih hnd'.2 ht
      rw [hne a ha]
      omega

variable [DecidableEq Tid]

/-- Taking one member out of a duplicate-free list. -/
theorem countP_removed {l : List Tid} (hnd : l.Nodup) {t : Tid} (ht : t ∈ l) {p q : Tid → Bool}
    (hne : ∀ u, u ≠ t → q u = p u) :
    (l.filter (fun u => decide (u ≠ t))).countP q + (if p t then 1 else 0) = l.countP p := by
  induction l with
  | nil => simp at ht
  | cons a l ih =>
    have hnd' := List.nodup_cons.1 hnd
    rcases List.mem_cons.1 ht with rfl | ht
    · have hkeep : l.filter (fun u => decide (u ≠ t)) = l :=
        List.filter_eq_self.2 (fun u hu => by simpa using ne_of_mem_of_not_mem hu hnd'.1)
      have hsame : l.countP q = l.countP p :=
        List.countP_congr (fun u hu => by rw [hne u (ne_of_mem_of_not_mem hu hnd'.1)])
      rw [List.filter_cons_of_neg (by simp), hkeep, hsame, List.countP_cons]
    · have ha : a ≠ t := fun he => hnd'.1 (he ▸ ht)
      have := ih hnd'.2 ht
      simp only [List.filter_cons, ha, ne_eq, not_false_eq_true, decide_true, if_true,
        List.countP_cons, hne a ha]
      simp only [ne_eq] at this
      omega

namespace SchedInv

variable {s : Runtime Tid Roots} {t : Tid}

/-- A thread that is in ML publishes its roots and leaves. -/
theorem leave (hi : SchedInv s) (ht : s.RunsMl t) (roots : Roots) :
    SchedInv { s.publish t roots with running := s.running - 1 } := by
  have hreg := hi.inMlReg t ht.2
  have hplain : (s.pos t).Plain := by
    rw [ht.1]
    trivial
  have hcount := countP_changed hi.nodup hreg
    (p := fun u => (s.handle u).inMl) (q := fun u => ((s.publish t roots).handle u).inMl)
    (fun u hu => by simp only [publish, setHandle, Function.update_of_ne hu])
  simp only [publish, setHandle, Function.update_self, ht.2, if_true, Bool.false_eq_true, if_false,
    Nat.add_zero] at hcount
  have hs := hi.counted
  have hx := hi.exclusive
  simp only [inMlCount] at hs
  refine hi.oneThread (t := t) rfl rfl ?_ (fun _ _ => rfl) (fun _ _ => Iff.rfl) hi.nodup ?_ ?_
    hplain hplain ?_ ?_ ?_ ?_ ?_ ?_
  · exact fun u hu => Function.update_of_ne hu _ _
  · simp only [inMlCount, publish, setHandle]
    omega
  · intro hp
    have := hx hp
    simp only
    omega
  · exact fun _ => hreg
  · intro _ _
    simp [publish, setHandle]
  · intro _ _ _
    simp [publish, setHandle]
  · simp [publish, setHandle, ht.1, Pos.Outside]
  · simp [publish, setHandle, ht.1]
  · simp [publish, setHandle, ht.1]

/-- A thread outside ML wins it, when nothing keeps it from doing so. -/
theorem becomeRunning (hi : SchedInv s) (hreg : t ∈ s.registry)
    (hml : (s.handle t).inMl = false) (hplain : (s.pos t).Plain) (hgc : s.gcRequested = false)
    (hfree : s.parallel = false → s.running = 0) :
    SchedInv ((s.becomeRunning t).setPos t .idle) := by
  have hcount := countP_changed hi.nodup hreg
    (p := fun u => (s.handle u).inMl) (q := fun u => ((s.becomeRunning t).handle u).inMl)
    (fun u hu => by simp only [Runtime.becomeRunning, setHandle, Function.update_of_ne hu])
  simp only [Runtime.becomeRunning, setHandle, Function.update_self, hml, if_true,
    Bool.false_eq_true, if_false, Nat.add_zero] at hcount
  have hs := hi.counted
  simp only [inMlCount] at hs
  refine hi.oneThread (t := t) rfl rfl ?_ ?_ (fun _ _ => Iff.rfl) hi.nodup ?_ ?_ hplain ?_ ?_ ?_ ?_
    ?_ ?_ ?_
  · exact fun u hu => Function.update_of_ne hu _ _
  · exact fun u hu => Function.update_of_ne hu _ _
  · simp only [inMlCount, Runtime.becomeRunning, setHandle, setPos]
    omega
  · intro hp
    have := hfree hp
    simp only [Runtime.becomeRunning, setHandle, setPos]
    omega
  · simp [setPos, Pos.Plain]
  · exact fun _ => hreg
  · simp [setPos, Runtime.becomeRunning, setHandle]
  · exact fun c hc => absurd (Or.inr hc) (hi.not_collector hgc c)
  · simp [setPos, Pos.Outside]
  · simp [setPos]
  · simp [setPos]

/-- A thread outside ML starts to wait, or goes on waiting. -/
theorem wait (hi : SchedInv s) (hreg : t ∈ s.registry) (hml : (s.handle t).inMl = false)
    (hplain : (s.pos t).Plain) {p : Pos Tid Roots} (hp : p.Plain)
    (hlose : p = .losing → s.parallel = true) (hnot : ∀ roots, p ≠ .registering roots) :
    SchedInv (s.setPos t p) := by
  refine hi.oneThread (t := t) rfl rfl (fun _ _ => rfl) ?_ (fun _ _ => Iff.rfl) hi.nodup hi.counted
    hi.exclusive hplain ?_ (fun _ => hreg) (hi.published t) (fun _ _ _ => hml)
    (fun _ => ⟨hreg, hml⟩) ?_ ?_
  · exact fun u hu => Function.update_of_ne hu _ _
  · simpa [setPos] using hp
  · simpa [setPos] using hlose
  · intro roots hr
    exact absurd (by simpa [setPos] using hr) (hnot roots)

theorem awaitTurn (hi : SchedInv s) (hreg : t ∈ s.registry) (hml : (s.handle t).inMl = false)
    (hplain : (s.pos t).Plain) : SchedInv (s.awaitTurn t) := by
  rw [Runtime.awaitTurn]
  split
  · exact hi.wait hreg hml hplain trivial (by simp) (by simp)
  · rename_i hw
    simp only [mustWait, Bool.or_eq_true, Bool.and_eq_true, Bool.not_eq_true', decide_eq_true_eq,
      not_or, not_and, Bool.not_eq_true] at hw
    refine (hi.waiters _).becomeRunning hreg hml hplain hw.2 (fun hp => ?_)
    have := hw.1 hp
    simp only
    omega

theorem enqueue (hi : SchedInv s) (hreg : t ∈ s.registry) (hml : (s.handle t).inMl = false)
    (hplain : (s.pos t).Plain) : SchedInv (s.enqueue t) :=
  (hi.waiters _).awaitTurn hreg hml hplain

/-- A thread outside ML stores roots in its handle. -/
theorem republish (hi : SchedInv s) (hml : (s.handle t).inMl = false) (hplain : (s.pos t).Plain)
    (roots : Roots) : SchedInv (s.setHandle t { inMl := false, parkedRoots := some roots }) := by
  have hsame : ∀ u, ((s.setHandle t { inMl := false, parkedRoots := some roots }).handle u).inMl =
      (s.handle u).inMl := by
    intro u
    by_cases hu : u = t
    · subst hu
      simp [setHandle, hml]
    · simp [setHandle, hu]
  have hs := hi.counted
  simp only [inMlCount] at hs
  refine hi.oneThread (t := t) rfl rfl ?_ (fun _ _ => rfl) (fun _ _ => Iff.rfl) hi.nodup ?_
    hi.exclusive hplain hplain ?_ ?_ ?_ ?_ (hi.losing t) (hi.registering t)
  · exact fun u hu => Function.update_of_ne hu _ _
  · simp only [inMlCount, hsame]
    exact hs
  · simp [setHandle]
  · simp [setHandle]
  · simp [setHandle]
  · intro hout
    exact ⟨(hi.outside t hout).1, by simp [setHandle]⟩

/-- A thread in ML exits. -/
theorem exitRunning (hi : SchedInv s) (ht : s.RunsMl t) : SchedInv (s.exitRunning t) := by
  have hreg := hi.inMlReg t ht.2
  have hplain : (s.pos t).Plain := by
    rw [ht.1]
    trivial
  have hcount := countP_removed hi.nodup hreg
    (p := fun u => (s.handle u).inMl) (q := fun u => ((s.deregister t).handle u).inMl)
    (fun u hu => by simp only [deregister, setHandle, Function.update_of_ne hu])
  simp only [ht.2, if_true] at hcount
  have hs := hi.counted
  simp only [inMlCount] at hs
  have hx := hi.exclusive
  refine hi.oneThread (t := t) rfl rfl ?_ (fun _ _ => rfl) ?_ (hi.nodup.filter _) ?_ ?_ hplain hplain
    ?_ ?_ ?_ ?_ ?_ ?_
  · exact fun u hu => Function.update_of_ne hu _ _
  · intro u hu
    simp [Runtime.exitRunning, deregister, setHandle, hu]
  · simp only [inMlCount, Runtime.exitRunning]
    have hreg' : (s.deregister t).registry = s.registry.filter (fun u => decide (u ≠ t)) := rfl
    have hrun : (s.deregister t).running = s.running := rfl
    rw [hreg', hs]
    omega
  · intro hp
    have := hx hp
    simp only [Runtime.exitRunning, deregister, setHandle]
    omega
  · simp [Runtime.exitRunning, deregister, setHandle]
  · simp [Runtime.exitRunning, deregister, setHandle]
  · simp [Runtime.exitRunning, deregister, setHandle]
  · simp [Runtime.exitRunning, deregister, setHandle, ht.1, Pos.Outside]
  · simp [Runtime.exitRunning, deregister, setHandle, ht.1]
  · simp [Runtime.exitRunning, deregister, setHandle, ht.1]

/-- A thread outside ML is taken off the registry. -/
theorem deregister (hi : SchedInv s) (hpos : s.pos t = .idle) (hreg : t ∈ s.registry)
    (hml : (s.handle t).inMl = false) : SchedInv (s.deregister t) := by
  have hcount := countP_removed hi.nodup hreg
    (p := fun u => (s.handle u).inMl) (q := fun u => ((s.deregister t).handle u).inMl)
    (fun u hu => by simp only [Runtime.deregister, setHandle, Function.update_of_ne hu])
  simp only [hml, Bool.false_eq_true, if_false, Nat.add_zero] at hcount
  have hs := hi.counted
  simp only [inMlCount] at hs
  refine hi.oneThread (t := t) rfl rfl ?_ (fun _ _ => rfl) ?_ (hi.nodup.filter _) ?_ hi.exclusive ?_
    ?_ ?_ ?_ ?_ ?_ ?_ ?_
  · exact fun u hu => Function.update_of_ne hu _ _
  · intro u hu
    simp [Runtime.deregister, setHandle, hu]
  · exact hs.trans hcount.symm
  · rw [hpos]
    trivial
  · simp [Runtime.deregister, setHandle, hpos, Pos.Plain]
  · simp [Runtime.deregister, setHandle]
  · simp [Runtime.deregister, setHandle]
  · simp [Runtime.deregister, setHandle]
  · simp [Runtime.deregister, setHandle, hpos, Pos.Outside]
  · simp [Runtime.deregister, setHandle, hpos]
  · simp [Runtime.deregister, setHandle, hpos]

/-! ### The collector -/

omit [DecidableEq Tid] in
/-- Two threads in ML: the mode is parallel. -/
theorem parallel_of_two (hi : SchedInv s) {u : Tid} (ht : (s.handle t).inMl = true)
    (hu : (s.handle u).inMl = true) (hne : t ≠ u) : s.parallel = true := by
  by_contra hpar
  have hx := hi.exclusive (by simpa using hpar)
  rw [hi.counted, inMlCount, List.countP_eq_length_filter] at hx
  have hsub : [t, u].Subperm (s.registry.filter (fun v => (s.handle v).inMl)) := by
    refine (List.nodup_cons.2 ⟨by simpa using hne, List.nodup_singleton u⟩).subperm (fun v hv => ?_)
    rcases List.mem_cons.1 hv with rfl | hv
    · exact List.mem_filter.2 ⟨hi.inMlReg _ ht, ht⟩
    · obtain rfl := List.mem_singleton.1 hv
      exact List.mem_filter.2 ⟨hi.inMlReg _ hu, hu⟩
  have := hsub.length_le
  simp only [List.length_cons, List.length_nil] at this
  omega

theorem allParked_iff : s.allParked t = true ↔ ∀ u ∈ s.registry, u ≠ t →
    (s.handle u).inMl = false ∧ (s.handle u).parkedRoots.isSome = true := by
  simp only [allParked, List.all_eq_true, Bool.or_eq_true, decide_eq_true_eq, Bool.and_eq_true,
    Bool.not_eq_true']
  exact forall₂_congr (fun u _ => or_iff_not_imp_left)

/-- A thread in ML becomes the collector, goes on being it, or stops being it. -/
theorem collector_step {s' : Runtime Tid Roots} (hi : SchedInv s)
    (hpar : s'.parallel = s.parallel) (hreg : s'.registry = s.registry)
    (hh : s'.handle = s.handle) (hrun : s'.running = s.running)
    (hp : ∀ u, u ≠ t → s'.pos u = s.pos u) (hml : (s.handle t).inMl = true)
    (hold : s.pos t = .idle ∨ s.IsCollector t) (hnew : s'.pos t = .idle ∨ s'.IsCollector t)
    (honly : ∀ u, s.IsCollector u → u = t) (hgc : s'.gcRequested = true ↔ s'.IsCollector t)
    (hstop : s'.pos t = .collecting → ∀ u ∈ s.registry, u ≠ t → (s.handle u).inMl = false) :
    SchedInv s' := by
  have hcol : ∀ u, s'.IsCollector u → u = t := by
    intro u hu
    by_contra he
    rw [IsCollector, hp u he] at hu
    exact he (honly u hu)
  -- a position that is neither idle nor the collector's is the same before and after
  have hsame : ∀ u q, q ≠ .idle → q ≠ .barrier → q ≠ .collecting →
      (s'.pos u = q ↔ s.pos u = q) := by
    intro u q h0 h1 h2
    by_cases he : u = t
    · subst he
      constructor <;> intro hq
      · rw [IsCollector, hq] at hnew
        simp [h0, h1, h2] at hnew
      · rw [IsCollector, hq] at hold
        simp [h0, h1, h2] at hold
    · rw [hp u he]
  refine ⟨hreg ▸ hi.nodup, ?_, ?_, ?_, ?_, ?_, ?_, ?_, ?_, ?_, ?_, ?_, ?_, ?_⟩
  · rw [hh, hreg]
    exact hi.inMlReg
  · rw [hh, hreg]
    exact hi.published
  · rw [inMlCount, hh, hreg, hrun]
    exact hi.counted
  · rw [hpar, hrun]
    exact hi.exclusive
  · intro u hu
    obtain rfl := hcol u hu
    rw [hh]
    exact ⟨hml, hgc.2 hu⟩
  · exact fun hreq => ⟨t, hgc.1 hreq⟩
  · exact fun u v hu hv => (hcol u hu).trans (hcol v hv).symm
  · intro c hc u hu hne
    obtain rfl := hcol c (Or.inr hc)
    rw [hreg] at hu
    rw [hh]
    exact hstop hc u hu hne
  · intro u hu
    rw [hh, hreg]
    refine hi.outside u ?_
    by_cases he : u = t
    · subst he
      rcases hnew with hq | hq | hq <;> rw [hq] at hu <;> exact hu.elim
    · rwa [hp u he] at hu
  · intro u hu
    rw [hpar]
    exact hi.losing u ((hsame u _ (by simp) (by simp) (by simp)).1 hu)
  · intro u roots hu
    rw [hreg]
    exact hi.registering u roots ((hsame u _ (by simp) (by simp) (by simp)).1 hu)
  · intro u v hu
    exact (hsame v _ (by simp) (by simp) (by simp)).2
      (hi.abandoned u v ((hsame u _ (by simp) (by simp) (by simp)).1 hu))
  · intro u v hu
    obtain ⟨hv, hml', hor⟩ := hi.exiting u v ((hsame u _ (by simp) (by simp) (by simp)).1 hu)
    rw [hreg, hh]
    exact ⟨hv, hml', hor.imp_right (fun hab => (hsame v _ (by simp) (by simp) (by simp)).2 hab)⟩

/-- The collector checks its barrier, for the first time or again. -/
theorem awaitParked {s' : Runtime Tid Roots} (hi : SchedInv s)
    (hs : s' = { s with gcRequested := true, gcRequestedAtomic := s'.gcRequestedAtomic })
    (hml : (s.handle t).inMl = true) (hold : s.pos t = .idle ∨ s.IsCollector t)
    (honly : ∀ u, s.IsCollector u → u = t) : SchedInv (s'.awaitParked t) := by
  rw [Runtime.awaitParked, hs]
  split
  · rename_i hall
    refine hi.collector_step rfl rfl rfl rfl ?_ hml hold (Or.inr (Or.inr (Function.update_self ..)))
      honly ⟨fun _ => Or.inr (Function.update_self ..), fun _ => rfl⟩
      (fun _ u hu hne => (allParked_iff.1 hall u hu hne).1)
    exact fun u hu => Function.update_of_ne hu _ _
  · refine hi.collector_step rfl rfl rfl rfl ?_ hml hold (Or.inr (Or.inl (Function.update_self ..)))
      honly ⟨fun _ => Or.inl (Function.update_self ..), fun _ => rfl⟩ ?_
    · exact fun u hu => Function.update_of_ne hu _ _
    · simp [setPos]

/-- The collection ends. -/
theorem finishGc (hi : SchedInv s) (ht : s.pos t = .collecting) : SchedInv (s.finishGc t) := by
  refine hi.collector_step rfl rfl rfl rfl ?_ (hi.collector t (Or.inr ht)).1 (Or.inr (Or.inr ht))
    (Or.inl (Function.update_self ..)) (fun u hu => hi.unique u t hu (Or.inr ht)) ?_ ?_
  · exact fun u hu => Function.update_of_ne hu _ _
  · simp [Runtime.finishGc, setPos, IsCollector]
  · simp [Runtime.finishGc, setPos]

/-! ### Deregistration -/

/-- A call of `exit_parked` by `caller` for `t` is in progress, or has not begun. -/
def ExitPos (s : Runtime Tid Roots) (caller t : Tid) : Prop :=
  s.pos caller = .exiting t ∧ (caller = t ∨ s.pos t = .abandoned caller) ∨
    s.pos caller = .idle ∧ (caller = t ∨ s.pos t = .forked ∨ s.pos t = .idle)

/-- The positions of the caller and of the thread that exits change together. -/
theorem exit_step {s' : Runtime Tid Roots} {caller : Tid} (hi : SchedInv s)
    (hpar : s'.parallel = s.parallel) (hreg : s'.registry = s.registry)
    (hh : s'.handle = s.handle) (hrun : s'.running = s.running)
    (hgc : s'.gcRequested = s.gcRequested)
    (hp : ∀ u, u ≠ caller → u ≠ t → s'.pos u = s.pos u) (ht : t ∈ s.registry)
    (hml : (s.handle t).inMl = false) (hold : ExitPos s caller t) (hnew : ExitPos s' caller t) :
    SchedInv s' := by
  have hcaller : ∀ {s : Runtime Tid Roots}, ExitPos s caller t →
      s.pos caller = .exiting t ∨ s.pos caller = .idle := by
    rintro s (⟨hc, -⟩ | ⟨hc, -⟩)
    · exact Or.inl hc
    · exact Or.inr hc
  have hchild : ∀ {s : Runtime Tid Roots}, ExitPos s caller t → caller ≠ t →
      s.pos t = .abandoned caller ∨ s.pos t = .forked ∨ s.pos t = .idle := by
    rintro s (⟨-, hc⟩ | ⟨-, hc⟩) hne
    · exact Or.inl (hc.resolve_left hne)
    · exact Or.inr (hc.resolve_left hne)
  have hno : ∀ {s : Runtime Tid Roots}, ExitPos s caller t → ∀ u, u = caller ∨ u = t →
      ¬ s.IsCollector u ∧ s.pos u ≠ .losing ∧ ∀ roots, s.pos u ≠ .registering roots := by
    intro s he u hu
    by_cases hc : u = caller
    · subst hc
      rcases hcaller he with hq | hq <;> simp [IsCollector, hq]
    · obtain rfl := hu.resolve_left hc
      rcases hchild he (Ne.symm hc) with hq | hq | hq <;> simp [IsCollector, hq]
  have hcol : ∀ u, s'.IsCollector u ↔ s.IsCollector u := by
    intro u
    by_cases hu : u = caller ∨ u = t
    · exact iff_of_false (hno hnew u hu).1 (hno hold u hu).1
    · rw [not_or] at hu
      rw [IsCollector, IsCollector, hp u hu.1 hu.2]
  refine ⟨hreg ▸ hi.nodup, ?_, ?_, ?_, ?_, ?_, ?_, ?_, ?_, ?_, ?_, ?_, ?_, ?_⟩
  · rw [hh, hreg]
    exact hi.inMlReg
  · rw [hh, hreg]
    exact hi.published
  · rw [inMlCount, hh, hreg, hrun]
    exact hi.counted
  · rw [hpar, hrun]
    exact hi.exclusive
  · intro u hu
    rw [hh, hgc]
    exact hi.collector u ((hcol u).1 hu)
  · intro hreq
    rw [hgc] at hreq
    obtain ⟨u, hu⟩ := hi.requested hreq
    exact ⟨u, (hcol u).2 hu⟩
  · exact fun u v hu hv => hi.unique u v ((hcol u).1 hu) ((hcol v).1 hv)
  · intro c hc
    rw [hreg, hh]
    have hcc : ¬ (c = caller ∨ c = t) := fun hcon => (hno hnew c hcon).1 (Or.inr hc)
    rw [not_or] at hcc
    rw [hp c hcc.1 hcc.2] at hc
    exact hi.stopped c hc
  · intro u hu
    rw [hh, hreg]
    by_cases hut : u = t
    · exact hut ▸ ⟨ht, hml⟩
    · by_cases huc : u = caller
      · subst huc
        rcases hcaller hnew with hq | hq <;> rw [hq] at hu <;> exact hu.elim
      · rw [hp u huc hut] at hu
        exact hi.outside u hu
  · intro u hu
    have huu : ¬ (u = caller ∨ u = t) := fun hcon => (hno hnew u hcon).2.1 hu
    rw [not_or] at huu
    rw [hp u huu.1 huu.2] at hu
    rw [hpar]
    exact hi.losing u hu
  · intro u roots hu
    have huu : ¬ (u = caller ∨ u = t) := fun hcon => (hno hnew u hcon).2.2 roots hu
    rw [not_or] at huu
    rw [hp u huu.1 huu.2] at hu
    rw [hreg]
    exact hi.registering u roots hu
  · intro u v hu
    by_cases huc : u = caller
    · subst huc
      rcases hcaller hnew with hq | hq <;> rw [hq] at hu <;> cases hu
    by_cases hut : u = t
    · subst hut
      rcases hnew with ⟨hc, hc'⟩ | ⟨-, hc'⟩
      · rw [hc'.resolve_left (Ne.symm huc)] at hu
        cases hu
        exact hc
      · rcases hc'.resolve_left (Ne.symm huc) with hq | hq <;> rw [hq] at hu <;> cases hu
    · rw [hp u huc hut] at hu
      have hv := hi.abandoned u v hu
      have hvc : v ≠ caller := by
        rintro rfl
        rcases hcaller hold with hq | hq <;> rw [hq] at hv <;> cases hv
        exact hut rfl
      have hvt : v ≠ t := by
        rintro rfl
        rcases hchild hold (Ne.symm hvc) with hq | hq | hq <;> rw [hq] at hv <;> cases hv
      rw [hp v hvc hvt]
      exact hv
  · intro u v hu
    rw [hreg, hh]
    by_cases huc : u = caller
    · subst huc
      rcases hnew with ⟨hc, hc'⟩ | ⟨hc, -⟩
      · rw [hc] at hu
        cases hu
        exact ⟨ht, hml, hc'.imp_left Eq.symm⟩
      · rw [hc] at hu
        cases hu
    by_cases hut : u = t
    · subst hut
      rcases hchild hnew (Ne.symm huc) with hq | hq | hq <;> rw [hq] at hu <;> cases hu
    · rw [hp u huc hut] at hu
      obtain ⟨hv, hml', hor⟩ := hi.exiting u v hu
      refine ⟨hv, hml', hor.imp_right (fun hab => ?_)⟩
      have hvc : v ≠ caller := by
        rintro rfl
        rcases hcaller hold with hq | hq <;> rw [hq] at hab <;> cases hab
      have hvt : v ≠ t := by
        rintro rfl
        rcases hchild hold (Ne.symm hvc) with hq | hq | hq <;> rw [hq] at hab <;> cases hab
        exact huc rfl
      rw [hp v hvc hvt]
      exact hab

/-- `exit_parked`, at its call and after each of its waits. -/
theorem exitParked {s₁ : Runtime Tid Roots} {caller : Tid} (hi : SchedInv s)
    (hpos : ∀ u, u ≠ caller → u ≠ t → s₁.pos u = s.pos u) (hs : s₁ = { s with pos := s₁.pos })
    (ht : t ∈ s.registry) (hml : (s.handle t).inMl = false) (hold : ExitPos s caller t)
    (habandon : caller = t ∨ s₁.pos t = .abandoned caller) : SchedInv (s₁.exitParked caller t) := by
  rw [Runtime.exitParked]
  split
  · refine hi.exit_step ?_ ?_ ?_ ?_ ?_ ?_ ht hml hold ?_
    any_goals rw [hs]; rfl
    · intro u hc hut
      rw [← hpos u hc hut]
      exact Function.update_of_ne hc _ _
    · refine Or.inl ⟨Function.update_self .., ?_⟩
      rcases habandon with he | hab
      · exact Or.inl he
      · by_cases he : caller = t
        · exact Or.inl he
        · exact Or.inr ((Function.update_of_ne (Ne.symm he) _ _).trans hab)
  · have hidle : ((s₁.setPos t .idle).setPos caller .idle).pos t = .idle := by
      by_cases he : t = caller
      · rw [he]
        exact Function.update_self ..
      · exact (Function.update_of_ne he _ _).trans (Function.update_self ..)
    have hout : SchedInv ((s₁.setPos t .idle).setPos caller .idle) := by
      refine hi.exit_step ?_ ?_ ?_ ?_ ?_ ?_ ht hml hold ?_
      any_goals rw [hs]; rfl
      · intro u hc hut
        rw [← hpos u hc hut]
        exact (Function.update_of_ne hc _ _).trans (Function.update_of_ne hut _ _)
      · exact Or.inr ⟨Function.update_self .., Or.inr (Or.inr hidle)⟩
    exact hout.deregister hidle (by rw [hs]; exact ht) (by rw [hs]; exact hml)

theorem registerAndAcquire (hi : SchedInv s) (hpos : s.pos t = .idle) (hnot : t ∉ s.registry)
    (roots : Roots) : SchedInv (s.registerAndAcquireMlMemory t roots) := by
  have hml : (s.handle t).inMl = false := by
    by_contra hcon
    exact hnot (hi.inMlReg t (by simpa using hcon))
  have hplain : (s.pos t).Plain := by
    rw [hpos]
    trivial
  rw [registerAndAcquireMlMemory]
  split
  · refine hi.oneThread (t := t) rfl rfl (fun _ _ => rfl) ?_ (fun _ _ => Iff.rfl) hi.nodup
      hi.counted hi.exclusive hplain ?_ (hi.inMlReg t) (hi.published t) (fun _ _ _ => hml) ?_ ?_ ?_
    · exact fun u hu => Function.update_of_ne hu _ _
    · simp [setPos, Pos.Plain]
    · simp [setPos, Pos.Outside]
    · simp [setPos]
    · exact fun _ _ => hnot
  · refine SchedInv.enqueue ((hi.republish hml hplain roots).push hpos hnot ?_) ?_ ?_ hplain
    · simp [setHandle]
    · simp
    · simp [publish, setHandle]

theorem awaitHandoff (hi : SchedInv s) (hreg : t ∈ s.registry) (hml : (s.handle t).inMl = false)
    (hplain : (s.pos t).Plain) : SchedInv (s.awaitHandoff t) := by
  rw [Runtime.awaitHandoff]
  split
  · exact hi.wait hreg hml hplain trivial (by simp) (by simp)
  · exact hi.enqueue hreg hml hplain

theorem awaitCollected (hi : SchedInv s) (hreg : t ∈ s.registry)
    (hml : (s.handle t).inMl = false) (hplain : (s.pos t).Plain) (hpar : s.parallel = true) :
    SchedInv (s.awaitCollected t) := by
  rw [Runtime.awaitCollected]
  split
  · exact hi.wait hreg hml hplain trivial (fun _ => hpar) (by simp)
  · rename_i hgc
    refine hi.becomeRunning hreg hml hplain (by simpa using hgc) (fun hp => ?_)
    rw [hpar] at hp
    cases hp

end SchedInv

/-! ## Every step keeps the invariant -/

variable {s : Runtime Tid Roots}

omit [DecidableEq Tid] in
theorem Parked.plain {t : Tid} (ht : s.Parked t) : (s.pos t).Plain := by
  rw [ht.1]
  trivial

/-- Storing `false` in the flag of a thread outside ML changes nothing. -/
theorem setHandle_inMl {t : Tid} (hml : (s.handle t).inMl = false) :
    s.setHandle t { s.handle t with inMl := false } = s := by
  have : { s.handle t with inMl := false } = s.handle t := by rw [← hml]
  rw [setHandle, this, Function.update_eq_self]

/-- What `leave` leaves behind. -/
theorem RunsMl.afterLeave {t : Tid} (hi : SchedInv s) (ht : s.RunsMl t) (roots : Roots) :
    t ∈ ({ s.publish t roots with running := s.running - 1 }).registry ∧
      (({ s.publish t roots with running := s.running - 1 }).handle t).inMl = false ∧
      (({ s.publish t roots with running := s.running - 1 }).pos t).Plain := by
  refine ⟨hi.inMlReg t ht.2, by simp [publish, setHandle], ?_⟩
  have : (s.pos t).Plain := by
    rw [ht.1]
    trivial
  exact this

theorem schedInv_wake (hi : SchedInv s) (t : Tid) : SchedInv (s.wake t) := by
  rw [wake]
  split
  · rename_i roots hpos
    have hnot := hi.registering t roots hpos
    refine SchedInv.registerAndAcquire (s := s.setPos t .idle) ?_ (Function.update_self ..) hnot roots
    refine hi.oneThread (t := t) rfl rfl (fun _ _ => rfl) ?_ (fun _ _ => Iff.rfl) hi.nodup
      hi.counted hi.exclusive (by rw [hpos]; trivial) ?_ (hi.inMlReg t) (hi.published t) ?_ ?_ ?_ ?_
    · exact fun u hu => Function.update_of_ne hu _ _
    · simp [setPos, Pos.Plain]
    · exact fun _ _ hreg => absurd hreg hnot
    · simp [setPos, Pos.Outside]
    · simp [setPos]
    · exact fun _ _ => hnot
  · rename_i hpos
    have hout := hi.outside t (by rw [hpos]; trivial)
    exact hi.awaitTurn hout.1 hout.2 (by rw [hpos]; trivial)
  · rename_i hpos
    have hout := hi.outside t (by rw [hpos]; trivial)
    exact hi.awaitHandoff hout.1 hout.2 (by rw [hpos]; trivial)
  · rename_i u hpos
    obtain ⟨hreg, hml, hor⟩ := hi.exiting t u hpos
    exact hi.exitParked (fun _ _ _ => rfl) rfl hreg hml
      (Or.inl ⟨hpos, hor.imp_left Eq.symm⟩) (hor.imp_left Eq.symm)
  · rename_i hpos
    have hout := hi.outside t (by rw [hpos]; trivial)
    exact hi.awaitCollected hout.1 hout.2 (by rw [hpos]; trivial) (hi.losing t hpos)
  · rename_i hpos
    have hcol : s.IsCollector t := Or.inl hpos
    have hgc := (hi.collector t hcol).2
    refine hi.awaitParked ?_ (hi.collector t hcol).1 (Or.inr hcol) (fun u hu => hi.unique u t hu hcol)
    rw [← hgc]
  · exact hi

theorem schedInv_step (hi : SchedInv s) (op : SchedOp Tid Roots) (he : s.Enabled op) :
    SchedInv (s.exec op) := by
  cases op with
  | acquireMlMemory t roots =>
    refine (hi.republish he.2.2 he.plain roots).enqueue he.2.1 ?_ he.plain
    simp [setHandle]
  | registerAndAcquireMlMemory t roots => exact hi.registerAndAcquire he.1 he.2 roots
  | publishForkRoots t roots =>
    have hml : (s.handle t).inMl = false := by
      by_contra hcon
      exact he.2 (hi.inMlReg t (by simpa using hcon))
    have := hi.republish hml (by rw [he.1]; trivial) roots
    simp only [exec, publishForkRoots, hml]
    exact this
  | registerThreadPublished t =>
    have hml : (s.handle t).inMl = false := by
      by_contra hcon
      exact he.2.1 (hi.inMlReg t (by simpa using hcon))
    refine (hi.push he.1 he.2.1 he.2.2).wait (by simp) hml ?_ trivial (by simp) (by simp)
    rw [he.1]
    trivial
  | acquireMlMemoryKeepPublished t =>
    have hout : t ∈ s.registry ∧ (s.handle t).inMl = false ∧ (s.pos t).Plain := by
      rcases he with he | hpos
      · exact ⟨he.2.1, he.2.2, he.plain⟩
      · have := hi.outside t (by rw [hpos]; trivial)
        exact ⟨this.1, this.2, by rw [hpos]; trivial⟩
    rw [exec, acquireMlMemoryKeepPublished, setHandle_inMl hout.2.1]
    exact hi.enqueue hout.1 hout.2.1 hout.2.2
  | releaseMlMemory t roots => exact hi.leave he roots
  | releaseMlMemoryPublishing t roots => exact hi.leave he roots
  | reacquireMlMemory t => exact hi.enqueue he.2.1 he.2.2 he.plain
  | safepointPark t roots =>
    obtain ⟨h1, h2, h3⟩ := RunsMl.afterLeave hi he roots
    exact (hi.leave he roots).enqueue h1 h2 h3
  | yieldMlMemory t roots =>
    rw [exec, yieldMlMemory]
    split
    · exact hi
    · split
      · exact hi
      · obtain ⟨h1, h2, h3⟩ := RunsMl.afterLeave hi he roots
        exact (hi.leave he roots).awaitHandoff h1 h2 h3
  | exitRunning t => exact hi.exitRunning he
  | exitParked caller t =>
    have hout : t ∈ s.registry ∧ (s.handle t).inMl = false := by
      rcases he.2 with ⟨-, ht⟩ | ht
      · exact ht.2
      · exact hi.outside t (by rw [ht]; trivial)
    rw [exec]
    refine hi.exitParked ?_ ?_ hout.1 hout.2 (Or.inr ⟨he.1, ?_⟩) ?_
    · intro u _ hut
      rw [abandon]
      split
      · rfl
      · exact Function.update_of_ne hut _ _
    · rw [abandon]
      split <;> rfl
    · exact he.2.imp And.left Or.inl
    · rw [abandon]
      split
      · rename_i heq
        exact Or.inl heq
      · exact Or.inr (Function.update_self ..)
  | requestGc t =>
    refine hi.awaitParked rfl he.1.2 (Or.inl he.1.1) (fun u hu => ?_)
    have hml := (hi.collector u hu).1
    exact he.2 u (hi.inMlReg u hml) hml
  | requestGcParallel t roots =>
    rw [exec, requestGcParallel]
    split
    · rename_i hgc
      obtain ⟨c, hc⟩ := hi.requested hgc
      have hne : t ≠ c := by
        rintro rfl
        rcases hc with hc | hc <;> rw [he.1] at hc <;> cases hc
      obtain ⟨h1, h2, h3⟩ := RunsMl.afterLeave hi he roots
      exact (hi.leave he roots).awaitCollected h1 h2 h3
        (hi.parallel_of_two he.2 (hi.collector c hc).1 hne)
    · rename_i hgc
      exact hi.awaitParked rfl he.2 (Or.inl he.1)
        (fun u hu => absurd hu (hi.not_collector (by simpa using hgc) u))
  | finishGc t => exact hi.finishGc he
  | wake t => exact schedInv_wake hi t

theorem Reachable.inv {parallel : Bool} (h : Reachable parallel s) : SchedInv s := by
  induction h with
  | new => exact schedInv_new parallel
  | step op _ he ih => exact schedInv_step ih op he

/-! ## The handshake -/

/-- What holds whenever the inner lock is free. -/
structure SchedSafe (s : Runtime Tid Roots) : Prop where
  /-- A registered thread outside ML has published its roots. -/
  published : ∀ t ∈ s.registry, (s.handle t).inMl = false →
    (s.handle t).parkedRoots.isSome = true
  /-- The counter counts the threads in ML, all of which are registered once. -/
  registered : s.registry.Nodup ∧ ∀ t, (s.handle t).inMl = true → t ∈ s.registry
  counted : s.running = s.inMlCount
  exclusive : s.parallel = false → s.running ≤ 1
  oneCollector : ∀ t u, s.IsCollector t → s.IsCollector u → t = u
  stopped : ∀ c, s.pos c = .collecting → ∀ u ∈ s.registry, u ≠ c → (s.handle u).inMl = false

/-- While a callback runs, the step changes nothing about the other registered threads. -/
def Frozen (s s' : Runtime Tid Roots) : Prop :=
  ∀ c, s.pos c = .collecting → ∀ t ∈ s.registry, t ≠ c →
    t ∈ s'.registry ∧ (s'.handle t).inMl = false ∧
      (s'.handle t).parkedRoots = (s.handle t).parkedRoots

/-- The step is not an `acquire_ml_memory` that publishes new roots while a callback runs. -/
def Quiet (s : Runtime Tid Roots) : SchedOp Tid Roots → Prop
  | .acquireMlMemory t roots =>
    (∃ c, s.pos c = .collecting) → (s.handle t).parkedRoots = some roots
  | _ => True

omit [DecidableEq Tid] in
theorem mustWait_of_requested (hgc : s.gcRequested = true) : s.mustWait = true := by
  simp [mustWait, hgc]

theorem awaitTurn_of_requested (hgc : s.gcRequested = true) (t : Tid) :
    s.awaitTurn t = s.setPos t .taking := if_pos (mustWait_of_requested hgc)

/-- While a collection is requested, nobody enters ML. -/
theorem enqueue_of_requested (hgc : s.gcRequested = true) (t : Tid) :
    s.enqueue t = { s with waiters := s.waiters + 1 }.setPos t .taking :=
  awaitTurn_of_requested (s := { s with waiters := s.waiters + 1 }) hgc t

/-- While a collection is requested, waking up only moves positions. -/
theorem wake_of_requested (hgc : s.gcRequested = true) (t : Tid) :
    ∃ n p, s.wake t = { s with waiters := n }.setPos t p := by
  rw [wake]
  split
  · rename_i roots _
    refine ⟨s.waiters, .registering roots, ?_⟩
    simp [registerAndAcquireMlMemory, setPos, hgc]
  · exact ⟨s.waiters, .taking, awaitTurn_of_requested hgc t⟩
  · refine ⟨s.waiters + 1, .taking, ?_⟩
    rw [awaitHandoff, if_neg (by simp [hgc]), enqueue_of_requested hgc]
  · rename_i u _
    exact ⟨s.waiters, .exiting u, if_pos hgc⟩
  · exact ⟨s.waiters, .losing, if_pos hgc⟩
  · rw [awaitParked]
    split
    · exact ⟨s.waiters, .collecting, rfl⟩
    · exact ⟨s.waiters, .barrier, rfl⟩
  · exact ⟨s.waiters, s.pos t, by simp [setPos]⟩

omit [DecidableEq Tid] in
/-- During a callback only the collector is in ML. -/
theorem SchedInv.not_runsMl (hi : SchedInv s) {c t : Tid} (hc : s.pos c = .collecting) :
    ¬ s.RunsMl t := by
  intro ht
  have hne : t ≠ c := by
    rintro rfl
    rw [ht.1] at hc
    cases hc
  have := hi.stopped c hc t (hi.inMlReg t ht.2) hne
  rw [ht.2] at this
  cases this

omit [DecidableEq Tid] in
/-- A step that keeps the registered handles freezes them. -/
theorem SchedInv.frozen_of_same (hi : SchedInv s) {s' : Runtime Tid Roots}
    (hsame : ∀ c, s.pos c = .collecting → ∀ u ∈ s.registry,
      u ∈ s'.registry ∧ s'.handle u = s.handle u) : Frozen s s' := by
  intro c hc u hu hne
  obtain ⟨hu', hh⟩ := hsame c hc u hu
  rw [hh]
  exact ⟨hu', hi.stopped c hc u hu hne, rfl⟩

/-- Which steps freeze the other threads: all but the overwriting acquire. -/
theorem SchedInv.frozen_iff (hi : SchedInv s) {op : SchedOp Tid Roots} (he : s.Enabled op) :
    Frozen s (s.exec op) ↔ Quiet s op := by
  have hgc : ∀ c, s.pos c = .collecting → s.gcRequested = true :=
    fun c hc => (hi.collector c (Or.inr hc)).2
  have hrun : ∀ {t : Tid} {s' : Runtime Tid Roots}, s.RunsMl t → Frozen s s' :=
    fun ht c hc => absurd ht (hi.not_runsMl hc)
  cases op with
  | acquireMlMemory t roots =>
    have hne : ∀ c, s.pos c = .collecting → t ≠ c := by
      rintro c hc rfl
      rw [he.1] at hc
      cases hc
    have hafter : ∀ c, s.pos c = .collecting → (s.exec (.acquireMlMemory t roots)) =
        { s.publish t roots with waiters := s.waiters + 1 }.setPos t .taking := fun c hc =>
      enqueue_of_requested (s := s.publish t roots) (hgc c hc) t
    constructor
    · rintro hf ⟨c, hc⟩
      have := (hf c hc t he.2.1 (hne c hc)).2.2
      rw [hafter c hc] at this
      simpa [setPos, publish, setHandle] using this.symm
    · intro hq c hc u hu hne'
      rw [hafter c hc]
      refine ⟨hu, ?_⟩
      by_cases hut : u = t
      · subst hut
        rw [hq ⟨c, hc⟩]
        simp [setPos, publish, setHandle]
      · simp only [setPos, publish, setHandle, Function.update_of_ne hut, and_true]
        exact hi.stopped c hc u hu hne'
  | registerAndAcquireMlMemory t roots =>
    refine iff_of_true (hi.frozen_of_same (fun c hc u hu => ?_)) trivial
    rw [exec, registerAndAcquireMlMemory, if_pos (hgc c hc)]
    exact ⟨hu, rfl⟩
  | publishForkRoots t roots =>
    refine iff_of_true (hi.frozen_of_same (fun _ _ u hu => ⟨hu, ?_⟩)) trivial
    exact Function.update_of_ne (ne_of_mem_of_not_mem hu he.2) _ _
  | registerThreadPublished t =>
    refine iff_of_true (hi.frozen_of_same (fun _ _ u hu => ⟨?_, rfl⟩)) trivial
    simp [exec, registerThreadPublished, setPos, hu]
  | acquireMlMemoryKeepPublished t =>
    have hml : (s.handle t).inMl = false := by
      rcases he with he | hpos
      · exact he.2.2
      · exact (hi.outside t (by rw [hpos]; trivial)).2
    refine iff_of_true (hi.frozen_of_same (fun c hc u hu => ?_)) trivial
    rw [exec, acquireMlMemoryKeepPublished, setHandle_inMl hml, enqueue_of_requested (hgc c hc)]
    exact ⟨hu, rfl⟩
  | releaseMlMemory t roots => exact iff_of_true (hrun he) trivial
  | releaseMlMemoryPublishing t roots => exact iff_of_true (hrun he) trivial
  | reacquireMlMemory t =>
    refine iff_of_true (hi.frozen_of_same (fun c hc u hu => ?_)) trivial
    rw [exec, reacquireMlMemory, enqueue_of_requested (hgc c hc)]
    exact ⟨hu, rfl⟩
  | safepointPark t roots => exact iff_of_true (hrun he) trivial
  | yieldMlMemory t roots => exact iff_of_true (hrun he) trivial
  | exitRunning t => exact iff_of_true (hrun he) trivial
  | exitParked caller t =>
    refine iff_of_true (hi.frozen_of_same (fun c hc u hu => ?_)) trivial
    have hgc' : (s.abandon caller t).gcRequested = true := by
      rw [abandon]
      split <;> exact hgc c hc
    rw [exec, Runtime.exitParked, if_pos hgc', abandon]
    split <;> exact ⟨hu, rfl⟩
  | requestGc t => exact iff_of_true (hrun he.1) trivial
  | requestGcParallel t roots => exact iff_of_true (hrun he) trivial
  | finishGc t => exact iff_of_true (hi.frozen_of_same (fun _ _ _ hu => ⟨hu, rfl⟩)) trivial
  | wake t =>
    refine iff_of_true (hi.frozen_of_same (fun c hc u hu => ?_)) trivial
    obtain ⟨n, p, hw⟩ := wake_of_requested (hgc c hc) t
    rw [exec, hw]
    exact ⟨hu, rfl⟩

/-- What the handshake promises, for every interleaving: the state conditions, and that no step
touches the other registered threads while a callback runs. -/
def HandshakeHolds (Tid Roots : Type) [DecidableEq Tid] (parallel : Bool) : Prop :=
  ∀ s : Runtime Tid Roots, Reachable parallel s →
    SchedSafe s ∧ ∀ op, s.Enabled op → Frozen s (s.exec op)

/-- In every reachable state the state conditions hold, and a step freezes the other threads exactly
when it is not an acquire that overwrites published roots during a callback. -/
theorem handshake_safe {parallel : Bool} (hs : Reachable parallel s) :
    SchedSafe s ∧ ∀ op, s.Enabled op → (Frozen s (s.exec op) ↔ Quiet s op) :=
  ⟨⟨hs.inv.published, ⟨hs.inv.nodup, hs.inv.inMlReg⟩, hs.inv.counted, hs.inv.exclusive,
    hs.inv.unique, hs.inv.stopped⟩, fun _ he => hs.inv.frozen_iff he⟩

/-- Thread 0 has left the interpreter with roots 11 published, and thread 1 has entered it. -/
def releasedState : Runtime Nat Nat :=
  (((new Nat Nat false).exec (.registerAndAcquireMlMemory 0 10)).exec (.releaseMlMemory 0 11)).exec
    (.registerAndAcquireMlMemory 1 20)

/-- Thread 1 has passed its barrier and runs its callback. -/
def collectingState : Runtime Nat Nat := releasedState.exec (.requestGc 1)

theorem collectingState_reachable : Reachable false collectingState := by
  have h1 : Reachable false ((new Nat Nat false).exec (.registerAndAcquireMlMemory 0 10)) :=
    .step _ .new ⟨rfl, List.not_mem_nil⟩
  have h2 := h1.step (.releaseMlMemory 0 11) ⟨rfl, rfl⟩
  have h3 : Reachable false releasedState :=
    h2.step (.registerAndAcquireMlMemory 1 20) ⟨rfl, by decide⟩
  exact h3.step (.requestGc 1) ⟨⟨rfl, rfl⟩, by decide⟩

theorem handshake_safe_collecting :
    SchedSafe collectingState ∧ ∀ op, collectingState.Enabled op →
      (Frozen collectingState (collectingState.exec op) ↔ Quiet collectingState op) :=
  handshake_safe collectingState_reachable

/-- Thread 0 enters the interpreter again while the callback of thread 1 runs, and overwrites the
roots the callback is working on. -/
theorem handshake_overwritten : ¬ HandshakeHolds Nat Nat false := by
  intro hall
  have hfrozen := (hall _ collectingState_reachable).2 (.acquireMlMemory 0 12)
    ⟨rfl, by decide, rfl⟩ 1 rfl 0 (by decide) (by decide)
  exact absurd hfrozen.2.2 (by decide)

end Runtime
