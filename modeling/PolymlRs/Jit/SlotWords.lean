import PolymlRs.Jit.SameWords
import PolymlRs.Jit.TranslateDepth

set_option autoImplicit false

/-! # The words in the slots

The value that the native code has for a slot is the word that the interpreter has there, unless the slot has
a placeholder: native code has no word for a return address, nor for what the instructions of the exception
handlers push. A container on the stack lies elsewhere for native code. Of its address both have their own,
and its words are in the frame of the native code. -/

/-! ## Slots -/

/-- What is known of a slot. -/
inductive Mark
  | same
  | placeholder
  /-- The address of the container made at `id`. -/
  | container (id : Nat)
  /-- The word `k` of that container. -/
  | word (id k : Nat)
deriving DecidableEq, Repr

namespace Mark

/-- A copy of a word of a container is not one of its words, and native code has not got it. -/
def copied : Mark → Mark
  | .word _ _ => .placeholder
  | m => m

/-- The instruction at `id` makes another container. -/
def forget (id : Nat) : Mark → Mark
  | .container id' => if id' = id then .placeholder else .container id'
  | .word id' k => if id' = id then .placeholder else .word id' k
  | m => m

/-- It may be handed to a callee. -/
def passes : Mark → Bool
  | .same | .container _ => true
  | .placeholder | .word _ _ => false

end Mark

/-- The address of the slot under which there are `height - 1` words. -/
def Surroundings.slotAddr (o : Surroundings) (height : Nat) : PolyWord :=
  .ofNat 64 (o.stackAt + 8 * (o.stackLen - height))

/-- The native code has `x` in the slot under which there are `height - 1` words, and the interpreter has
    `y`. The interpreter's containers are at `base`. -/
def Mark.Holds (o : Surroundings) (base : Nat → PolyWord) (frame : NativeFrame) (m : Mark)
    (x y : PolyWord) (height : Nat) : Prop :=
  match m with
  | .same => x = y
  | .placeholder => True
  | .container id => x = o.nativeSlot id ∧ y = base id
  | .word id k => y = frame.container id k ∧ (base id).wordAt (.ofNat 64 k) = o.slotAddr height ∧
      height ≤ o.stackLen ∧ o.nativeAt ((o.nativeSlot id).wordAt (.ofNat 64 k)) = some (id, k)

/-- The words of the native code and those of the interpreter, the top first. Below there are the words that
    the interpreter had before. -/
inductive Holds (o : Surroundings) (base : Nat → PolyWord) (frame : NativeFrame) :
    List Mark → List PolyWord → List PolyWord → Prop
  | nil {stack : List PolyWord} (houter : frame.outer <:+ stack) (hlen : frame.outer.length = o.outerLen) :
      Holds o base frame [] [] stack
  | cons {m : Mark} {x y : PolyWord} {marks : List Mark} {vals stack : List PolyWord}
      (hxy : m.Holds o base frame x y (stack.length + 1)) (hs : Holds o base frame marks vals stack) :
      Holds o base frame (m :: marks) (x :: vals) (y :: stack)

/-- The words of the container that the instruction at a place makes. -/
def containerAt (bytecode : List UInt8) (id : Nat) : Option Nat :=
  match fetchInstr bytecode id with
  | .ok (.stackContainer n, _) => some n
  | _ => none

/-- Where both stacks lie. -/
structure Surroundings.Laid (o : Surroundings) (bytecode : List UInt8) : Prop where
  /-- The interpreter's stack lies in the address space. -/
  stack : o.stackAt + 8 * o.stackLen ≤ 2 ^ 64
  /-- The containers of the native code are its own. -/
  containers : ∀ id < bytecode.length, ∀ n ∈ containerAt bytecode id, ∀ k < n,
    o.nativeAt ((o.nativeSlot id).wordAt (.ofNat 64 k)) = some (id, k)

section Slots

variable {o : Surroundings} {base : Nat → PolyWord} {frame : NativeFrame} {m : Mark}
  {x y : PolyWord} {height : Nat}

theorem Mark.Holds.copied (h : m.Holds o base frame x y height) (height' : Nat) :
    m.copied.Holds o base frame x y height' := by
  cases m with
  | same | container => exact h
  | placeholder | word => trivial

theorem slotAddr_wordAt {k : Nat} (hk : k ≤ height) (hheight : height ≤ o.stackLen) :
    (o.slotAddr height).wordAt (.ofNat 64 k) = o.slotAddr (height - k) := by
  have hsub : o.stackLen - (height - k) = o.stackLen - height + k := by omega
  have height8 : (8#64 : PolyWord) = .ofNat 64 8 := rfl
  rw [Surroundings.slotAddr, Surroundings.slotAddr, PolyWord.wordAt, height8, ← BitVec.ofNat_mul,
    ← BitVec.ofNat_add, hsub]
  exact congrArg (BitVec.ofNat 64) (by omega)

theorem toNat_slotAddr (hstack : o.stackAt + 8 * o.stackLen ≤ 2 ^ 64) (hpos : 0 < height)
    (hheight : height ≤ o.stackLen) : (o.slotAddr height).toNat = o.stackAt + 8 * (o.stackLen - height) := by
  rw [Surroundings.slotAddr, BitVec.toNat_ofNat]
  exact Nat.mod_eq_of_lt (by omega)

theorem slotAddr_inj (hstack : o.stackAt + 8 * o.stackLen ≤ 2 ^ 64) {height' : Nat} (hpos : 0 < height)
    (hheight : height ≤ o.stackLen) (hpos' : 0 < height') (hheight' : height' ≤ o.stackLen)
    (h : o.slotAddr height = o.slotAddr height') : height = height' := by
  have hnat := congrArg BitVec.toNat h
  rw [toNat_slotAddr hstack hpos hheight, toNat_slotAddr hstack hpos' hheight'] at hnat
  omega

/-- The slot at its address. -/
theorem slotAt_slotAddr (hstack : o.stackAt + 8 * o.stackLen ≤ 2 ^ 64) {live : Nat} (hpos : 0 < height)
    (hheight : height ≤ live) (hlive : live ≤ o.stackLen) :
    o.slotAt live (o.slotAddr height) = some (live - height) := by
  have hnat := toNat_slotAddr hstack hpos (Nat.le_trans hheight hlive)
  have hin : o.stackAt + 8 * (o.stackLen - live) ≤ (o.slotAddr height).toNat ∧
      (o.slotAddr height).toNat < o.stackAt + 8 * o.stackLen := by omega
  rw [Surroundings.slotAt, if_pos hin, hnat]
  exact congrArg some (by omega)

/-- A container that is made again. -/
theorem Mark.container_not_mem_forget {id : Nat} {marks : List Mark} :
    Mark.container id ∉ marks.map (Mark.forget id) := by
  intro hmem
  obtain ⟨m, -, hm⟩ := List.mem_map.1 hmem
  cases m with
  | same | placeholder => cases hm
  | container id' =>
    simp only [Mark.forget] at hm
    split at hm
    · cases hm
    · exact absurd (Mark.container.inj hm) ‹_›
  | word id' k =>
    simp only [Mark.forget] at hm
    split at hm <;> cases hm

theorem Mark.word_not_mem_forget {id k : Nat} {marks : List Mark} :
    Mark.word id k ∉ marks.map (Mark.forget id) := by
  intro hmem
  obtain ⟨m, -, hm⟩ := List.mem_map.1 hmem
  cases m with
  | same | placeholder => cases hm
  | container id' =>
    simp only [Mark.forget] at hm
    split at hm <;> cases hm
  | word id' k' =>
    simp only [Mark.forget] at hm
    split at hm
    · cases hm
    · exact absurd (Mark.word.inj hm).1 ‹_›

end Slots

namespace Holds

variable {o : Surroundings} {base : Nat → PolyWord} {frame : NativeFrame} {marks : List Mark}
  {vals stack : List PolyWord}

theorem length_eq (h : Holds o base frame marks vals stack) : marks.length = vals.length := by
  induction h with
  | nil => rfl
  | cons _ _ ih => exact congrArg Nat.succ ih

theorem length_le (h : Holds o base frame marks vals stack) : vals.length + o.outerLen ≤ stack.length := by
  induction h with
  | nil houter hlen => simpa [hlen] using houter.length_le
  | cons _ _ ih =>
    rw [List.length_cons, List.length_cons]
    omega

/-- A value that is at hand. -/
theorem push {x : PolyWord} (h : Holds o base frame marks vals stack) :
    Holds o base frame (.same :: marks) (x :: vals) (x :: stack) := cons rfl h

theorem slot (h : Holds o base frame marks vals stack) {d : Nat} {x : PolyWord} (hx : vals[d]? = some x) :
    ∃ m y, marks[d]? = some m ∧ stack[d]? = some y ∧ m.Holds o base frame x y (stack.length - d) := by
  induction h generalizing d with
  | nil => cases hx
  | @cons m x' y _ _ stack hxy _ ih =>
    cases d with
    | zero =>
      obtain rfl := Option.some.inj hx
      exact ⟨m, y, rfl, rfl, hxy⟩
    | succ d =>
      obtain ⟨m', y', hm, hy, hholds⟩ := ih hx
      refine ⟨m', y', hm, hy, ?_⟩
      rwa [List.length_cons, Nat.add_sub_add_right]

theorem drop (h : Holds o base frame marks vals stack) {n : Nat} (hn : n ≤ vals.length) :
    Holds o base frame (marks.drop n) (vals.drop n) (stack.drop n) := by
  induction n generalizing marks vals stack with
  | zero => exact h
  | succ n ih =>
    cases h with
    | nil => exact absurd hn (Nat.not_succ_le_zero n)
    | cons _ hs => exact ih hs (Nat.le_of_succ_le_succ hn)

theorem set (h : Holds o base frame marks vals stack) {k : Nat} {m : Mark} {x y : PolyWord}
    (hk : k < vals.length) (hxy : ∀ height, m.Holds o base frame x y height) :
    Holds o base frame (marks.set k m) (vals.set k x) (stack.set k y) := by
  induction h generalizing k with
  | nil => exact absurd hk (Nat.not_lt_zero k)
  | cons hxy' hs ih =>
    cases k with
    | zero => exact cons (hxy _) hs
    | succ k =>
      refine cons ?_ (ih (Nat.lt_of_succ_lt_succ hk))
      rwa [List.length_set]

/-- Native code has dropped its words. -/
theorem bottom (h : Holds o base frame marks vals stack) : Holds o base frame [] [] stack := by
  induction h with
  | nil houter hlen => exact nil houter hlen
  | cons _ _ ih =>
    cases ih with
    | nil houter hlen => exact nil (houter.trans (List.suffix_cons _ _)) hlen

/-- The topmost words, when both have the same there. -/
theorem top {n : Nat} (h : Holds o base frame marks vals stack) (hclean : ∀ m ∈ marks.take n, m = .same)
    (hn : n ≤ vals.length) :
    ∃ ws vals' stack', ws.length = n ∧ vals = ws ++ vals' ∧ stack = ws ++ stack' ∧
      Holds o base frame (marks.drop n) vals' stack' := by
  induction n generalizing marks vals stack with
  | zero => exact ⟨[], vals, stack, rfl, rfl, rfl, h⟩
  | succ n ih =>
    cases h with
    | nil => exact absurd hn (Nat.not_succ_le_zero n)
    | @cons m x y marks vals stack hxy hs =>
      obtain rfl := hclean m List.mem_cons_self
      obtain rfl : x = y := hxy
      obtain ⟨ws, vals', stack', hlen, rfl, rfl, hrest⟩ :=
        ih hs (fun m hm => hclean m (List.mem_cons_of_mem _ hm)) (Nat.le_of_succ_le_succ hn)
      exact ⟨x :: ws, vals', stack', congrArg Nat.succ hlen, rfl, rfl, hrest⟩

theorem top1 (h : Holds o base frame marks vals stack) (hclean : ∀ m ∈ marks.take 1, m = .same)
    (hn : 1 ≤ vals.length) :
    ∃ x vals' stack', vals = x :: vals' ∧ stack = x :: stack' ∧
      Holds o base frame (marks.drop 1) vals' stack' := by
  obtain ⟨ws, vals', stack', hlen, rfl, rfl, hrest⟩ := h.top hclean hn
  obtain ⟨x, rfl⟩ := List.length_eq_one_iff.1 hlen
  exact ⟨x, vals', stack', rfl, rfl, hrest⟩

theorem top2 (h : Holds o base frame marks vals stack) (hclean : ∀ m ∈ marks.take 2, m = .same)
    (hn : 2 ≤ vals.length) :
    ∃ x y vals' stack', vals = x :: y :: vals' ∧ stack = x :: y :: stack' ∧
      Holds o base frame (marks.drop 2) vals' stack' := by
  obtain ⟨ws, vals', stack', hlen, rfl, rfl, hrest⟩ := h.top hclean hn
  obtain ⟨x, y, rfl⟩ := List.length_eq_two.1 hlen
  exact ⟨x, y, vals', stack', rfl, rfl, hrest⟩

theorem top3 (h : Holds o base frame marks vals stack) (hclean : ∀ m ∈ marks.take 3, m = .same)
    (hn : 3 ≤ vals.length) :
    ∃ x y z vals' stack', vals = x :: y :: z :: vals' ∧ stack = x :: y :: z :: stack' ∧
      Holds o base frame (marks.drop 3) vals' stack' := by
  obtain ⟨ws, vals', stack', hlen, rfl, rfl, hrest⟩ := h.top hclean hn
  obtain ⟨x, y, z, rfl⟩ := List.length_eq_three.1 hlen
  exact ⟨x, y, z, vals', stack', rfl, rfl, hrest⟩

/-- The topmost words and the one below them. -/
theorem top_succ {n : Nat} (h : Holds o base frame marks vals stack)
    (hclean : ∀ m ∈ marks.take (n + 1), m = .same) (hn : n + 1 ≤ vals.length) :
    ∃ ws x vals' stack', ws.length = n ∧ vals = ws ++ x :: vals' ∧ stack = ws ++ x :: stack' ∧
      Holds o base frame (marks.drop (n + 1)) vals' stack' := by
  obtain ⟨ws, vals', stack', hlen, rfl, rfl, hrest⟩ := h.top hclean hn
  obtain ⟨x, hx⟩ : ∃ x, ws.drop n = [x] := List.length_eq_one_iff.1 (by rw [List.length_drop]; omega)
  have hws : ws = ws.take n ++ [x] := by rw [← hx, List.take_append_drop]
  refine ⟨ws.take n, x, vals', stack', List.length_take_of_le (by omega), ?_, ?_, hrest⟩
  · conv => lhs; rw [hws, List.append_assoc, List.singleton_append]
  · conv => lhs; rw [hws, List.append_assoc, List.singleton_append]

/-- The word in a slot where both have the same. -/
theorem slot_eq (h : Holds o base frame marks vals stack) {d : Nat} (hclean : marks[d]? = some .same)
    (hd : d + 1 ≤ vals.length) : ∃ w, vals[d]? = some w ∧ stack[d]? = some w := by
  obtain ⟨m, y, hm, hy, hxy⟩ := h.slot (List.getElem?_eq_getElem hd)
  obtain rfl := Option.some.inj (hclean.symm.trans hm)
  obtain rfl : _ = y := hxy
  exact ⟨_, List.getElem?_eq_getElem hd, hy⟩

/-! ### Containers -/

/-- Other containers in the place of those that no slot knows. -/
theorem congr {base' : Nat → PolyWord} {frame' : NativeFrame} (h : Holds o base frame marks vals stack)
    (houter : frame'.outer = frame.outer)
    (hid : ∀ id k, .container id ∈ marks ∨ .word id k ∈ marks →
      base' id = base id ∧ frame'.container id = frame.container id) :
    Holds o base' frame' marks vals stack := by
  induction h with
  | nil hsuffix hlen => exact nil (houter ▸ hsuffix) (houter ▸ hlen)
  | @cons m x y marks vals stack hxy _ ih =>
    refine cons ?_ (ih (fun id k hm => hid id k (hm.imp (List.mem_cons_of_mem m) (List.mem_cons_of_mem m))))
    cases m with
    | same | placeholder => exact hxy
    | container id =>
      obtain ⟨hbase, -⟩ := hid id 0 (.inl List.mem_cons_self)
      exact ⟨hxy.1, hxy.2.trans hbase.symm⟩
    | word id k =>
      obtain ⟨hbase, hframe⟩ := hid id k (.inr List.mem_cons_self)
      refine ⟨?_, ?_, hxy.2.2⟩
      · rw [hframe]
        exact hxy.1
      · rw [hbase]
        exact hxy.2.1

theorem forget (h : Holds o base frame marks vals stack) (id : Nat) :
    Holds o base frame (marks.map (.forget id)) vals stack := by
  induction h with
  | nil houter hlen => exact nil houter hlen
  | @cons m x y marks vals stack hxy _ ih =>
    refine cons ?_ ih
    cases m with
    | same | placeholder => exact hxy
    | container id' =>
      simp only [Mark.forget]
      split
      · trivial
      · exact hxy
    | word id' k =>
      simp only [Mark.forget]
      split
      · trivial
      · exact hxy

/-- The words of a container that is made, from its word `k` on. -/
theorem words {id n j : Nat} {w : PolyWord} (h : Holds o base frame marks vals stack) (hj : j ≤ n)
    (hroom : n + stack.length ≤ o.stackLen) (hbase : base id = o.slotAddr (n + stack.length))
    (hframe : ∀ k < n, frame.container id k = w)
    (hnative : ∀ k < n, o.nativeAt ((o.nativeSlot id).wordAt (.ofNat 64 k)) = some (id, k)) :
    Holds o base frame ((List.range' (n - j) j).map (.word id) ++ marks) (List.replicate j w ++ vals)
      (List.replicate j w ++ stack) := by
  induction j with
  | zero => exact h
  | succ j ih =>
    have hnext : n - (j + 1) + 1 = n - j := by omega
    have hk : n - (j + 1) < n := by omega
    have hlen : (List.replicate j w ++ stack).length = j + stack.length := by
      rw [List.length_append, List.length_replicate]
    have hheight : n + stack.length - (n - (j + 1)) = (List.replicate j w ++ stack).length + 1 := by omega
    have hfits : (List.replicate j w ++ stack).length + 1 ≤ o.stackLen := by omega
    have haddr : (base id).wordAt (.ofNat 64 (n - (j + 1))) =
        o.slotAddr ((List.replicate j w ++ stack).length + 1) := by
      rw [hbase, slotAddr_wordAt (by omega) hroom, hheight]
    rw [List.range'_succ, hnext]
    exact cons ⟨(hframe _ hk).symm, haddr, hfits, hnative _ hk⟩ (ih (by omega))

/-- A container that is made. -/
theorem newContainer {id n : Nat} {w : PolyWord} (h : Holds o base frame marks vals stack)
    (hroom : n + stack.length ≤ o.stackLen)
    (hnative : ∀ k < n, o.nativeAt ((o.nativeSlot id).wordAt (.ofNat 64 k)) = some (id, k)) :
    Holds o (Function.update base id (o.slotAddr (n + stack.length))) (frame.newContainer id n w)
      (.container id :: (List.range n).map (.word id) ++ marks.map (.forget id))
      (o.nativeSlot id :: List.replicate n w ++ vals)
      (o.slotAddr (n + stack.length) :: List.replicate n w ++ stack) := by
  have hold : Holds o (Function.update base id (o.slotAddr (n + stack.length)))
      (frame.newContainer id n w) (marks.map (.forget id)) vals stack := by
    refine (h.forget id).congr rfl (fun id' k hmem => ?_)
    have hne : id' ≠ id := by
      rintro rfl
      exact hmem.elim Mark.container_not_mem_forget Mark.word_not_mem_forget
    exact ⟨Function.update_of_ne hne _ _, Function.update_of_ne hne _ _⟩
  have hbase :
      Function.update base id (o.slotAddr (n + stack.length)) id = o.slotAddr (n + stack.length) := by
    rw [Function.update_self]
  have hwords := hold.words (Nat.le_refl n) hroom hbase (fun k hk => frame.newContainer_of_lt hk) hnative
  rw [Nat.sub_self, ← List.range_eq_range'] at hwords
  exact cons ⟨rfl, hbase.symm⟩ hwords

/-- A container's word is one slot's. -/
theorem setFrame_below (hstack : o.stackAt + 8 * o.stackLen ≤ 2 ^ 64) {id k height : Nat} {w : PolyWord}
    (h : Holds o base frame marks vals stack) (hlen : stack.length < height) (hheight : height ≤ o.stackLen)
    (haddr : (base id).wordAt (.ofNat 64 k) = o.slotAddr height) :
    Holds o base (frame.setContainer id k w) marks vals stack := by
  induction h with
  | nil houter hout => exact nil houter hout
  | @cons m x y marks vals stack hxy _ ih =>
    rw [List.length_cons] at hlen
    refine cons ?_ (ih (by omega))
    cases m with
    | same | placeholder | container => exact hxy
    | word id' k' =>
      obtain ⟨hy, haddr', hheight', hnative⟩ := hxy
      refine ⟨?_, haddr', hheight', hnative⟩
      rw [hy, frame.setContainer_of_ne]
      rintro ⟨rfl, rfl⟩
      have := slotAddr_inj hstack (by omega) hheight' (by omega) hheight (haddr'.symm.trans haddr)
      omega

/-- A word of a container that is set. -/
theorem setWord (hstack : o.stackAt + 8 * o.stackLen ≤ 2 ^ 64) {id k d : Nat} {w : PolyWord}
    (h : Holds o base frame marks vals stack) (hd : marks[d]? = some (.word id k)) :
    Holds o base (frame.setContainer id k w) marks vals (stack.set d w) := by
  induction h generalizing d with
  | nil => cases hd
  | @cons m x y marks vals stack hxy hs ih =>
    cases d with
    | zero =>
      obtain rfl := Option.some.inj hd
      obtain ⟨-, haddr, hheight, hnative⟩ := hxy
      refine cons ⟨?_, haddr, hheight, hnative⟩ (hs.setFrame_below hstack (by omega) hheight haddr)
      rw [frame.setContainer_self]
    | succ d =>
      refine cons ?_ (ih hd)
      rw [List.length_set]
      cases m with
      | same | placeholder | container => exact hxy
      | word id' k' =>
        obtain ⟨hy, haddr', hheight', hnative⟩ := hxy
        refine ⟨?_, haddr', hheight', hnative⟩
        rw [hy, frame.setContainer_of_ne]
        rintro ⟨rfl, rfl⟩
        -- the other slot with this word lies further below
        have hlt : d < vals.length := by
          rw [← hs.length_eq]
          exact Nat.lt_of_succ_lt_succ (List.getElem?_eq_some_iff.1 hd).1
        obtain ⟨m', y', hm', -, hholds⟩ := hs.slot (List.getElem?_eq_getElem hlt)
        obtain rfl := Option.some.inj (hd.symm.trans hm')
        obtain ⟨-, haddr, hheight, -⟩ := hholds
        have hle := hs.length_le
        have := slotAddr_inj hstack (by omega) hheight' (by omega) hheight (haddr'.symm.trans haddr)
        omega

/-- Where a word of a container is. -/
theorem word_slot (hstack : o.stackAt + 8 * o.stackLen ≤ 2 ^ 64) {id k : Nat}
    (h : Holds o base frame marks vals stack) (hmem : .word id k ∈ marks)
    (hroom : stack.length ≤ o.stackLen) :
    ∃ d, marks[d]? = some (.word id k) ∧ stack[d]? = some (frame.container id k) ∧
      o.slotAt stack.length ((base id).wordAt (.ofNat 64 k)) = some d ∧
      o.nativeAt ((o.nativeSlot id).wordAt (.ofNat 64 k)) = some (id, k) := by
  obtain ⟨d, hd⟩ := List.mem_iff_getElem?.1 hmem
  have hlt : d < vals.length := by
    rw [← h.length_eq]
    exact (List.getElem?_eq_some_iff.1 hd).1
  have hle := h.length_le
  obtain ⟨m, y, hm, hy, hholds⟩ := h.slot (List.getElem?_eq_getElem hlt)
  obtain rfl := Option.some.inj (hd.symm.trans hm)
  obtain ⟨rfl, haddr, hheight, hnative⟩ := hholds
  refine ⟨d, hd, hy, ?_, hnative⟩
  rw [haddr, slotAt_slotAddr hstack (by omega) (by omega) hroom]
  exact congrArg some (by omega)

/-! ### The interpreter's words below -/

/-- A word below the arguments. -/
theorem outer_slot (h : Holds o base frame marks vals stack) (j : Nat) :
    stack[stack.length - o.outerLen + j]? = frame.outer[j]? := by
  induction h with
  | nil houter hlen =>
    obtain ⟨pre, rfl⟩ := houter
    rw [List.length_append, hlen, Nat.add_sub_cancel, List.getElem?_append_right (Nat.le_add_right _ _),
      Nat.add_sub_cancel_left]
  | @cons m x y marks vals stack _ hs ih =>
    have hle := hs.length_le
    have hnext : (y :: stack).length - o.outerLen + j = stack.length - o.outerLen + j + 1 := by
      rw [List.length_cons]
      omega
    rw [hnext, List.getElem?_cons_succ, ih]

/-- A word below the arguments that is set. -/
theorem setOuter {j : Nat} {w : PolyWord} (h : Holds o base frame marks vals stack) :
    Holds o base { frame with outer := frame.outer.set j w } marks vals
      (stack.set (stack.length - o.outerLen + j) w) := by
  induction h with
  | nil houter hlen =>
    obtain ⟨pre, rfl⟩ := houter
    refine nil ⟨pre, ?_⟩ (by rw [List.length_set, hlen])
    rw [List.length_append, hlen, Nat.add_sub_cancel, List.set_append_right _ _ (Nat.le_add_right _ _),
      Nat.add_sub_cancel_left]
  | @cons m x y marks vals stack hxy hs ih =>
    have hle := hs.length_le
    have hnext : (y :: stack).length - o.outerLen + j = stack.length - o.outerLen + j + 1 := by
      rw [List.length_cons]
      omega
    rw [hnext, List.set_cons_succ]
    refine cons ?_ ih
    rw [List.length_set]
    exact hxy

end Holds

/-! ## What is the same -/

/-- A callee has left the words below its own, but for those of containers. -/
def Keeps (o : Surroundings) (frame : NativeFrame) : List Mark → List PolyWord → List PolyWord → Prop
  | [], old, new => new.length = old.length ∧ frame.outer <:+ new ∧ frame.outer.length = o.outerLen
  | .word id k :: marks, _ :: old, y :: new => y = frame.container id k ∧ Keeps o frame marks old new
  | _ :: marks, x :: old, y :: new => y = x ∧ Keeps o frame marks old new
  | _, _, _ => False

/-- The trampoline gives what the interpreter's call has given. -/
structure Surroundings.SameCall (o : Surroundings) (closure : PolyWord) (n : Nat) (marks : List Mark)
    (stack : List PolyWord) (h : Heap) (ret : Returned) : Prop where
  /-- The callee's return takes as many words as native code takes it to. -/
  taken : ret.taken = n
  trampoline : ∀ base frame vals, Holds o base frame marks vals stack → ∃ frame',
    o.closureCall closure (vals.take n).reverse ⟨h, frame⟩ = some (ret.result, ⟨ret.heap, frame'⟩) ∧
      Keeps o frame' (marks.drop n) (stack.drop n) ret.below

/-- The word at `a` lies in no container of the code's own: if it lies on the interpreter's stack, then below
    the arguments. -/
def Surroundings.Foreign (o : Surroundings) (live : Nat) (a : PolyWord) : Prop :=
  o.nativeAt a = none ∧ ∀ j, o.slotAt live a = some j → live ≤ j + o.outerLen

/-- The operands that the code takes to be small. -/
def Instruction.Small : Instruction → Prop
  | .allocMutClosure n => n < 256
  | .case16 arg1 => arg1 < 65536
  | _ => True

namespace CompileInput

variable (c : CompileInput) (o : Surroundings)

/-- The words that the instruction reads and writes, but for the containers' words. -/
def touched (i : Instruction) (pc : Nat) (stack : List PolyWord) : List PolyWord :=
  match i, stack with
  | .indirectLocal d slot, stack => stack[d]?.toList.map (·.wordAt (.ofNat 64 slot))
  | .indirectClosure d slot, stack => stack[d]?.toList.map (·.wordAt (.ofNat 64 (1 + slot)))
  | .jumpNeqLocal ind d _ _, stack => if ind then stack[d]?.toList else []
  | .indirect field, base :: _ => [base.wordAt (.ofNat 64 field)]
  | .load kind, index :: base :: _ => if kind = .mlByte then [] else [base.wordAt index.untagBits]
  | .store kind, _ :: index :: base :: _ => if kind = .mlByte then [] else [base.wordAt index.untagBits]
  | .moveToMutClosure slot, _ :: target :: _ => [target.wordAt (.ofNat 64 (slot + 1))]
  | .lock, p :: _ | .clearMutable, p :: _ | .cellFlags, p :: _ | .cellLength, p :: _ => [p - 8#64]
  | .constAddr _ off idx, _ | .callConstAddr _ off idx, _ => [c.constAt pc off idx]
  | _, _ => []

/-- The states in which the code of an instruction does what the interpreter does. -/
def Alike (i : Instruction) (pc : Nat) (s : Activation) (marks : List Mark) : Prop :=
  (∀ a ∈ c.touched i pc s.stack, o.Apart a) ∧
  match i, s.stack, marks with
  | .binary op, x :: y :: _, _ => op.Alike x y
  -- the constant is extended by its sign
  | .jumpNeqLocal _ _ want _, _, _ => want < 128
  | .block _, length :: off2 :: _ :: off1 :: _, _ => 0 ≤ off1.untag ∧ 0 ≤ off2.untag ∧ 0 ≤ length.untag
  | .allocByteMem, _ :: length :: _, _ => 0 ≤ length.untag
  | .allocWordMemory, _ :: _ :: length :: _, _ => 0 ≤ length.untag
  | .allocMutClosure _, src :: _, _ => s.heap.Source src
  | .closure n, stack, _ => ∀ src ∈ stack[n]?, s.heap.Source src
  | .moveToContainer k, _ :: ref :: rest, _ :: .same :: _ =>
      o.Foreign (rest.length + 1) (ref.wordAt (.ofNat 64 k))
  | .indirectContainer k, ref :: rest, .same :: _ => o.Foreign (rest.length + 1) (ref.wordAt (.ofNat 64 k))
  | .callFastRts n, stub :: rest, _ =>
      o.rtsTrampoline stub (rest.take n).reverse s.heap = o.rts stub (rest.take n).reverse s.heap
  | .callLocal n, stack, marks =>
      ∀ closure ∈ stack[n]?, ∀ ret ∈ o.doCall closure stack s.heap,
        o.SameCall closure n marks stack s.heap ret
  | .callConstAddr _ off idx, stack, marks =>
      ∀ n ∈ closureArityFromAddr c.heap (c.constClosure (readAt pc off idx)),
        ∀ ret ∈ o.doCall (s.heap.read (c.constAt pc off idx)) stack s.heap,
          o.SameCall (s.heap.read (c.constAt pc off idx)) n marks stack s.heap ret
  -- the code goes on to the return
  | .callClosure, closure :: rest, m :: marks =>
      cleanupTail c.bytecode pc = false ∧ m = .same ∧ ∃ n ≤ marks.length,
        dynamicArity s.heap.mem closure = .ok n ∧ (∀ m ∈ marks.take n, m.passes = true) ∧
          ∀ ret ∈ o.doCall closure rest s.heap, o.SameCall closure n marks rest s.heap ret
  | .allocRef, _, _ => False
  | .deleteHandler, _, _ => False
  | _, _, _ => True

/-- What is known of the slots behind the instruction; nothing where it works on a placeholder. -/
def mark (i : Instruction) (pc : Nat) (s : Activation) (marks : List Mark) : Option (List Mark) :=
  -- of the `need` topmost words, `pop` are taken away and `push` put in their place
  let shape (need pop push : Nat) : Option (List Mark) :=
    if (marks.take need).all (· = .same) then some (List.replicate push .same ++ marks.drop pop) else none
  let slot (d : Nat) (marks' : List Mark) : Option (List Mark) :=
    if marks[d]? = some .same then some marks' else none
  let call (n : Nat) : Option (List Mark) :=
    if (marks.take n).all Mark.passes then some (.same :: marks.drop n) else none
  match i with
  | .const _ | .constAddr _ _ _ | .getThreadId => shape 0 0 1
  | .ldexc => some ((if s.exceptionPacket.isSome then .placeholder else .same) :: marks)
  | .pushHandler | .setHandler _ => some (.placeholder :: marks)
  | .stackContainer n =>
      some (.container s.pc :: (List.range n).map (.word s.pc) ++ marks.map (.forget s.pc))
  | .moveToContainer k =>
      match marks with
      | .same :: .same :: rest => some (.same :: rest)
      | .same :: .container id :: rest => if .word id k ∈ rest then some (.container id :: rest) else none
      | _ => none
  | .indirectContainer k =>
      match marks with
      | .same :: rest => some (.same :: rest)
      | .container id :: rest => if .word id k ∈ rest then some (.same :: rest) else none
      | _ => none
  | .localAt d => marks[d]?.map (·.copied :: marks)
  | .indirectLocal d _ | .indirectClosure d _ | .isTaggedLocal d => slot d (.same :: marks)
  | .jumpTaggedLocal d _ | .jumpNeqLocal _ d _ _ => slot d marks
  | .indirect _ | .lock | .clearMutable | .cellFlags | .cellLength
  | .allocMutClosure _ | .allocRef | .notBoolean | .isTagged => shape 1 1 1
  | .load _ | .allocByteMem | .binary _ => shape 2 2 1
  | .store _ | .allocWordMemory => shape 3 3 1
  | .block _ => shape 5 5 1
  | .moveToMutClosure _ => shape 2 1 0
  | .reset n => some (marks.drop n)
  | .resetR n => some ((marks.take 1).map .copied ++ marks.drop (n + 1))
  | .setStackVal idx => some ((marks.drop 1).set (idx - 1) (marks.getD 0 .placeholder).copied)
  | .callFastRts n => shape (n + 1) (n + 1) 1
  | .callLocal n => (slot n marks).bind (fun _ => call n)
  | .callClosure => some [.same]
  | .tuple n => shape n n 1
  | .closure n => shape (n + 1) (n + 1) 1
  | .callConstAddr _ off idx => (closureArityFromAddr c.heap (c.constClosure (readAt pc off idx))).bind call
  | .jumpCond _ _ | .case16 _ => shape 1 1 0
  | .noOp | .jump _ | .jumpBack _ _ _ | .deleteHandler | .raiseEx | .tail _ _ | .ret _ => some marks

/-! ## One instruction -/

/-- The code comes to where the interpreter has gone, with its words and its heap. -/
def Follows (e : Ir PolyWord (Walk PolyWord)) (n : NativeState) (s' : Activation) (marks : List Mark) :
    Prop :=
  ∃ base frame vals, Holds o base frame marks vals s'.stack ∧
    (e.exec (machine o) n = some (.goesOn ⟨s'.pc, vals, false⟩ ⟨s'.heap, frame⟩) ∨
      e.exec (machine o) n = some (.jumps ⟨s'.pc, vals⟩ ⟨s'.heap, frame⟩))

/-- The interpreter takes a step with the instruction `i` from where the native code stands. -/
structure InStep (blockAt : Nat → Option Nat) (base : Nat → PolyWord) (frame : NativeFrame) (i : Instruction)
    (pc : Nat) (s s' : Activation) (marks marks' : List Mark) (vals : List PolyWord)
    (edges : List ControlEdge) : Prop where
  inside : s.pc < c.bytecode.length
  fetch : fetchInstr c.bytecode s.pc = .ok (i, pc)
  step : c.stepInstr o i pc s = some s'
  laid : o.Laid c.bytecode
  holds : Holds o base frame marks vals s.stack
  alike : c.Alike o i pc s marks
  mark : c.mark i pc s marks = some marks'
  scan : c.scanInstr i s.pc pc vals.length = .ok edges
  blocks : ∀ e ∈ edges, e.isBlockTarget = true → blockAt e.pc = some e.depth
  accepts : ¬ (c.translateInstr blockAt i s.pc pc vals).Refuses
  small : i.Small

variable {c o} {blockAt : Nat → Option Nat} {s s' : Activation} {marks marks' : List Mark}

theorem room_ok {t : Activation} {p : Prop} [Decidable p] (h : (if p then some t else none) = some s') :
    s' = t := by
  split at h
  · exact (Option.some.inj h).symm
  · cases h

theorem room_fits {t : Activation} {p : Prop} [Decidable p] (h : (if p then some t else none) = some s') :
    p := by
  split at h
  · assumption
  · cases h

theorem shape_mark {need : Nat} {rest : List Mark}
    (h : (if (marks.take need).all (· = .same) then some rest else none) = some marks') :
    (∀ m ∈ marks.take need, m = .same) ∧ marks' = rest := by
  split at h
  · rename_i hall
    exact ⟨fun m hm => of_decide_eq_true (List.all_eq_true.1 hall m hm), (Option.some.inj h).symm⟩
  · cases h

theorem slot_mark {d : Nat} {rest : List Mark}
    (h : (if marks[d]? = some .same then some rest else none) = some marks') :
    marks[d]? = some .same ∧ marks' = rest := by
  split at h
  · exact ⟨‹_›, (Option.some.inj h).symm⟩
  · cases h

theorem call_mark {n : Nat} {rest : List Mark}
    (h : (if (marks.take n).all Mark.passes then some rest else none) = some marks') : marks' = rest := by
  split at h
  · exact (Option.some.inj h).symm
  · cases h

end CompileInput

namespace Holds

variable {o : Surroundings} {base : Nat → PolyWord} {frame frame' : NativeFrame} {marks : List Mark}
  {vals stack new : List PolyWord}

/-- The words below a callee's. -/
theorem keeps (h : Holds o base frame marks vals stack) (hk : Keeps o frame' marks stack new) :
    Holds o base frame' marks vals new ∧ new.length = stack.length := by
  induction h generalizing new with
  | nil => exact ⟨nil hk.2.1 hk.2.2, hk.1⟩
  | @cons m x y marks vals stack hxy hs ih =>
    cases new with
    | nil => cases m <;> exact hk.elim
    | cons y' new =>
      cases m with
      | word id k =>
        obtain ⟨rfl, hk⟩ := hk
        obtain ⟨hnew, hlen⟩ := ih hk
        refine ⟨cons ?_ hnew, congrArg Nat.succ hlen⟩
        rw [hlen]
        exact ⟨rfl, hxy.2⟩
      | same | placeholder | container =>
        obtain ⟨rfl, hk⟩ := hk
        obtain ⟨hnew, hlen⟩ := ih hk
        exact ⟨cons hxy hnew, congrArg Nat.succ hlen⟩

end Holds

/-! ## Words of containers -/

namespace Surroundings

variable (o : Surroundings) (stack : List PolyWord) (heap : Heap)

/-- A word that the interpreter reads through the address of a container. -/
def peek (a : PolyWord) : PolyWord :=
  match o.slotAt stack.length a with
  | some j => stack.getD j .zero
  | none => heap.read a

/-- The stack and the heap when it has set the word. -/
def poke (a w : PolyWord) : List PolyWord × Heap :=
  match o.slotAt stack.length a with
  | some j => (stack.set j w, heap)
  | none => (stack, heap.write a w)

end Surroundings

section Containers

variable {o : Surroundings} {base : Nat → PolyWord} {frame : NativeFrame} {marks : List Mark}
  {vals stack : List PolyWord} {heap : Heap} {a w : PolyWord}

theorem slotAt_outer {live j : Nat} (hlive : live ≤ o.stackLen) (hlen : o.outerLen ≤ live)
    (hj : o.slotAt live a = some j) (hout : live ≤ j + o.outerLen) :
    ∃ k, j = live - o.outerLen + k ∧ o.slotAt o.outerLen a = some k := by
  unfold Surroundings.slotAt at hj ⊢
  dsimp only at hj ⊢
  split at hj
  · obtain rfl := Option.some.inj hj
    refine ⟨(a.toNat - o.stackAt) / 8 - (o.stackLen - o.outerLen), by omega, ?_⟩
    rw [if_pos (by omega)]
  · cases hj

theorem slotAt_outer_none {live : Nat} (hlen : o.outerLen ≤ live) (hj : o.slotAt live a = none) :
    o.slotAt o.outerLen a = none := by
  unfold Surroundings.slotAt at hj ⊢
  dsimp only at hj ⊢
  split at hj
  · cases hj
  · exact if_neg (by omega)

namespace Holds

theorem read_foreign (heap : Heap) (h : Holds o base frame marks vals stack)
    (hroom : stack.length ≤ o.stackLen) (ha : o.Foreign stack.length a) :
    (⟨heap, frame⟩ : NativeState).read o a = o.peek stack heap a := by
  have hlen : o.outerLen ≤ stack.length := Nat.le_trans (Nat.le_add_left _ _) h.length_le
  unfold Surroundings.peek
  cases hj : o.slotAt stack.length a with
  | none => rw [NativeState.read, ha.1, slotAt_outer_none hlen hj]
  | some j =>
    obtain ⟨k, rfl, hk⟩ := slotAt_outer hroom hlen hj (ha.2 j hj)
    rw [NativeState.read, ha.1, hk]
    dsimp only
    rw [List.getD_eq_getElem?_getD, List.getD_eq_getElem?_getD, h.outer_slot]

theorem write_foreign (h : Holds o base frame marks vals stack) (hroom : stack.length ≤ o.stackLen)
    (ha : o.Foreign stack.length a) : ∃ frame',
      (⟨heap, frame⟩ : NativeState).write o a w = ⟨(o.poke stack heap a w).2, frame'⟩ ∧
        Holds o base frame' marks vals (o.poke stack heap a w).1 := by
  have hlen : o.outerLen ≤ stack.length := Nat.le_trans (Nat.le_add_left _ _) h.length_le
  unfold Surroundings.poke
  cases hj : o.slotAt stack.length a with
  | none =>
    refine ⟨frame, ?_, h⟩
    rw [NativeState.write, ha.1, slotAt_outer_none hlen hj]
  | some j =>
    obtain ⟨k, rfl, hk⟩ := slotAt_outer hroom hlen hj (ha.2 j hj)
    refine ⟨_, ?_, h.setOuter⟩
    rw [NativeState.write, ha.1, hk]

theorem read_own (heap : Heap) (hstack : o.stackAt + 8 * o.stackLen ≤ 2 ^ 64) {id k : Nat}
    (h : Holds o base frame marks vals stack) (hroom : stack.length ≤ o.stackLen)
    (hmem : .word id k ∈ marks) :
    (⟨heap, frame⟩ : NativeState).read o ((o.nativeSlot id).wordAt (.ofNat 64 k)) =
      o.peek stack heap ((base id).wordAt (.ofNat 64 k)) := by
  obtain ⟨d, -, hy, hslot, hnative⟩ := h.word_slot hstack hmem hroom
  rw [Surroundings.peek, hslot, NativeState.read, hnative]
  dsimp only
  rw [List.getD_eq_getElem?_getD, hy, Option.getD_some]

theorem write_own (hstack : o.stackAt + 8 * o.stackLen ≤ 2 ^ 64) {id k : Nat}
    (h : Holds o base frame marks vals stack) (hroom : stack.length ≤ o.stackLen)
    (hmem : .word id k ∈ marks) : ∃ frame',
      (⟨heap, frame⟩ : NativeState).write o ((o.nativeSlot id).wordAt (.ofNat 64 k)) w =
        ⟨(o.poke stack heap ((base id).wordAt (.ofNat 64 k)) w).2, frame'⟩ ∧
      Holds o base frame' marks vals (o.poke stack heap ((base id).wordAt (.ofNat 64 k)) w).1 := by
  obtain ⟨d, hd, -, hslot, hnative⟩ := h.word_slot hstack hmem hroom
  refine ⟨frame.setContainer id k w, ?_, ?_⟩
  · rw [Surroundings.poke, hslot, NativeState.write, hnative]
  · rw [Surroundings.poke, hslot]
    exact h.setWord hstack hd

end Holds

end Containers
