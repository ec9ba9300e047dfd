import Mathlib.Data.List.Perm.Subperm

set_option autoImplicit false

/-! # Walking a graph with a stack

A walk over a graph that is given by its successor lists keeps the nodes it has met, and a stack of those
whose successors are still to be looked at. Every node is taken at most once, so over a finite set of
nodes the walk ends, and it has then taken exactly the nodes that can be reached. -/

structure Worklist (α : Type) where
  seen : List α
  pending : List α

namespace Worklist

variable {α : Type} [DecidableEq α]

/-- Meet a node: it is put on the stack the first time. -/
def visit (w : Worklist α) (a : α) : Worklist α :=
  if a ∈ w.seen then w else ⟨a :: w.seen, a :: w.pending⟩

def visits (w : Worklist α) (as : List α) : Worklist α := as.foldl visit w

@[simp] theorem visits_nil (w : Worklist α) : w.visits [] = w := rfl

@[simp] theorem visits_cons (w : Worklist α) (a : α) (as : List α) :
    w.visits (a :: as) = (w.visit a).visits as := rfl

/-- The nodes met for the first time, the last one first. -/
theorem visits_spec {w : Worklist α} (h : w.seen.Nodup) (as : List α) :
    ∃ new, w.visits as = ⟨new ++ w.seen, new ++ w.pending⟩ ∧ (new ++ w.seen).Nodup ∧
      (∀ a ∈ new, a ∈ as) ∧ ∀ a ∈ as, a ∈ new ++ w.seen := by
  induction as generalizing w with
  | nil => exact ⟨[], rfl, h, by simp, by simp⟩
  | cons a as ih =>
    by_cases ha : a ∈ w.seen
    · have hvisit : w.visit a = w := if_pos ha
      obtain ⟨new, heq, hnodup, hnew, hall⟩ := ih h
      refine ⟨new, by rw [visits_cons, hvisit, heq], hnodup,
        fun x hx => List.mem_cons_of_mem _ (hnew x hx), fun x hx => ?_⟩
      rcases List.mem_cons.1 hx with rfl | hx
      · exact List.mem_append_right _ ha
      · exact hall x hx
    · have hvisit : w.visit a = ⟨a :: w.seen, a :: w.pending⟩ := if_neg ha
      have hcons : (w.visit a).seen.Nodup := by
        rw [hvisit]
        exact List.nodup_cons.2 ⟨ha, h⟩
      obtain ⟨new, heq, hnodup, hnew, hall⟩ := ih hcons
      rw [hvisit] at heq hnodup hall
      refine ⟨new ++ [a], by rw [visits_cons, hvisit, heq]; simp, by simpa using hnodup, fun x hx => ?_,
        fun x hx => ?_⟩
      · rcases List.mem_append.1 hx with hx | hx
        · exact List.mem_cons_of_mem _ (hnew x hx)
        · rw [List.mem_singleton.1 hx]
          exact List.mem_cons_self
      · rcases List.mem_cons.1 hx with rfl | hx
        · simp
        · simpa using hall x hx

variable (succ : α → List α)

/-- Take at most `fuel` nodes off the stack: the nodes taken, and what is left. -/
def run : Nat → Worklist α → List α × Worklist α
  | 0, w => ([], w)
  | fuel + 1, w =>
    match w.pending with
    | [] => ([], w)
    | a :: rest =>
      let r := run fuel (visits ⟨w.seen, rest⟩ (succ a))
      (a :: r.1, r.2)

inductive Reach (starts : List α) : α → Prop
  | start {a : α} (ha : a ∈ starts) : Reach starts a
  | next {a b : α} (ha : Reach starts a) (hb : b ∈ succ a) : Reach starts b

/-- Between two rounds: what was met has been taken or is pending, once each. -/
structure Inv (starts taken : List α) (w : Worklist α) : Prop where
  nodup : w.seen.Nodup
  perm : w.seen.Perm (taken ++ w.pending)
  reach : ∀ a ∈ w.seen, Reach succ starts a
  starts : ∀ a ∈ starts, a ∈ w.seen
  closed : ∀ a ∈ taken, ∀ b ∈ succ a, b ∈ w.seen

variable {succ} {starts taken : List α} {w : Worklist α}

/-- Nothing is taken yet. -/
theorem Inv.start (starts : List α) : Inv succ starts [] (visits ⟨[], []⟩ starts) := by
  obtain ⟨new, heq, hnodup, hnew, hall⟩ := visits_spec (w := ⟨[], []⟩) List.nodup_nil starts
  rw [heq]
  refine ⟨hnodup, .refl _, fun a ha => .start (hnew a ?_), hall, by simp⟩
  simpa using ha

/-- One round. -/
theorem Inv.step (h : Inv succ starts taken w) {a : α} {rest : List α} (hp : w.pending = a :: rest) :
    Inv succ starts (a :: taken) (visits ⟨w.seen, rest⟩ (succ a)) := by
  have hperm := h.perm
  rw [hp] at hperm
  have hseen : a ∈ w.seen := hperm.mem_iff.2 (by simp)
  obtain ⟨new, heq, hnodup, hnew, hall⟩ := visits_spec (w := ⟨w.seen, rest⟩) h.nodup (succ a)
  rw [heq]
  refine ⟨hnodup, ?_, fun b hb => ?_, fun b hb => List.mem_append_right _ (h.starts b hb),
    fun b hb c hc => ?_⟩
  · calc (new ++ w.seen).Perm (new ++ (taken ++ a :: rest)) := hperm.append_left new
      List.Perm _ (new ++ (a :: (taken ++ rest))) := List.perm_middle.append_left new
      List.Perm _ (a :: (taken ++ rest) ++ new) := List.perm_append_comm
      List.Perm _ (a :: taken ++ (new ++ rest)) := by
          rw [List.cons_append, List.cons_append, List.append_assoc]
          exact (List.perm_append_comm.append_left taken).cons a
  · rcases List.mem_append.1 hb with hb | hb
    · exact .next (h.reach a hseen) (hnew b hb)
    · exact h.reach b hb
  · rcases List.mem_cons.1 hb with rfl | hb
    · exact hall c hc
    · exact List.mem_append_right _ (h.closed b hb c hc)

/-- A whole walk. -/
theorem Inv.run (fuel : Nat) (h : Inv succ starts taken w) :
    Inv succ starts ((run succ fuel w).1.reverse ++ taken) (run succ fuel w).2 := by
  induction fuel generalizing taken w with
  | zero => exact h
  | succ fuel ih =>
    unfold Worklist.run
    split
    · exact h
    · next a rest hp =>
      have hstep := ih (h.step hp)
      simpa using hstep

/-- Over a finite set of nodes the walk ends. -/
theorem Inv.run_ends {nodes : List α} (hnodes : ∀ a, Reach succ starts a → a ∈ nodes) {fuel : Nat}
    (h : Inv succ starts taken w) (hfuel : nodes.length ≤ fuel + taken.length) :
    (Worklist.run succ fuel w).2.pending = [] := by
  induction fuel generalizing taken w with
  | zero =>
    have hle := (List.subperm_of_subset h.nodup (fun a ha => hnodes a (h.reach a ha))).length_le
    have hlen := h.perm.length_eq
    rw [List.length_append] at hlen
    have hzero : w.pending.length = 0 := by omega
    exact List.eq_nil_of_length_eq_zero hzero
  | succ fuel ih =>
    unfold Worklist.run
    split
    · next hp => exact hp
    · next a rest hp =>
      refine ih (h.step hp) ?_
      rw [List.length_cons]
      omega

/-- What was taken can be reached. -/
theorem reach_of_taken {fuel : Nat} {a : α}
    (ha : a ∈ (run succ fuel (visits ⟨[], []⟩ starts)).1) : Reach succ starts a := by
  have hinv := (@Inv.start _ _ succ starts).run fuel
  exact hinv.reach a (hinv.perm.mem_iff.2 (by simp [ha]))

/-- A walk that ended has taken all that can be reached. -/
theorem taken_of_reach {fuel : Nat} (hend : (run succ fuel (visits ⟨[], []⟩ starts)).2.pending = [])
    {a : α} (ha : Reach succ starts a) : a ∈ (run succ fuel (visits ⟨[], []⟩ starts)).1 := by
  have hinv := (@Inv.start _ _ succ starts).run fuel
  have hmem : ∀ b, b ∈ (run succ fuel (visits ⟨[], []⟩ starts)).2.seen ↔
      b ∈ (run succ fuel (visits ⟨[], []⟩ starts)).1 := by
    intro b
    rw [hinv.perm.mem_iff, hend]
    simp
  induction ha with
  | start ha => exact (hmem _).1 (hinv.starts _ ha)
  | next _ hb ih => exact (hmem _).1 (hinv.closed _ (by simp [ih]) _ hb)

end Worklist
