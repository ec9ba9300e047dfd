import PolymlRs.Image.Export
import PolymlRs.Lib.Recorded
import PolymlRs.Lib.Worklist

set_option autoImplicit false

/-! # What a gated snapshot reads

In untrusted mode the exporter follows a pointer when it lies strictly between the ends of a live space,
and cuts the declared length of an object to the space. That bounds the bodies; the length word in front of
an object and the code address of a closure are read all the same, and so is the root when it is tagged. -/

namespace Image

/-- The live spaces, as ranges of word slots. -/
structure LiveSpaces where
  ranges : List (Nat × Nat)
  aligned : ∀ r ∈ ranges, 8 ∣ r.1 ∧ 8 ∣ r.2
  positive : ∀ r ∈ ranges, 0 < r.1

namespace SnapshotBuilder

/-! ## What is read and what is followed -/

def wordSpans (p n : Nat) : List Span := (List.range n).map (fun i => ⟨p + 8 * i, wordBytes⟩)

def byteSpans (p n : Nat) : List Span := (List.range n).map (fun i => ⟨p + i, 1⟩)

/-- The number of words of the object at `p`, cut to its space. -/
def clampedWords (ranges : List (Nat × Nat)) (m : Mem) (p : Nat) : Nat :=
  match spaceEndOf ranges p with
  | none => lengthOf (m (p - wordBytes))
  | some e => min (lengthOf (m (p - wordBytes))) ((e - p) / wordBytes)

/-- The constants of a code object, without those that reach behind its last word. -/
def boundedConsts (m : Mem) (p n : Nat) : Nat × Nat :=
  let (cp, count) := boundedConstSegment m p n
  let constsEnd := p + n * wordBytes - wordBytes
  (cp, if p ≤ cp ∧ cp < constsEnd then min count ((constsEnd - cp) / wordBytes) else 0)

/-- The words read to find the constants: the last one of the object, and the count. -/
def trailerReads (m : Mem) (p n : Nat) : List Span :=
  if n < 2 then []
  else
    let lastWordPtr := p + wordBytes * (n - 1)
    let offTerm := Int.tdiv (m lastWordPtr).toInt wordBytes * wordBytes
    let cp := (((lastWordPtr + wordBytes : Nat) + offTerm) % 2 ^ 64 : Int).toNat
    ⟨lastWordPtr, wordBytes⟩ ::
      if p < cp ∧ cp ≤ p + n * wordBytes then [⟨cp - wordBytes, wordBytes⟩] else []

/-- `build_code`. -/
def codeReads (m : Mem) (p n : Nat) : List Span :=
  let (cp, count) := boundedConsts m p n
  trailerReads m p n ++ byteSpans p (min cp (p + n * wordBytes) - p - wordBytes) ++ wordSpans cp count

/-- All that is read to build the object at `p`, its length word first. -/
def objectReads (ranges : List (Nat × Nat)) (m : Mem) (p : Nat) : List Span :=
  let n := clampedWords ranges m p
  let ty := typeOf (m (p - wordBytes))
  ⟨p - wordBytes, wordBytes⟩ ::
    if ty = fByteObj then byteSpans p (n * wordBytes)
    else if ty = fCodeObj then codeReads m p n
    else if ty = fClosureObj then ⟨p, wordBytes⟩ :: wordSpans (p + wordBytes) (n - 1)
    else wordSpans p n

/-- The words of the object at `p` that may be pointers. -/
def valueWords (ranges : List (Nat × Nat)) (m : Mem) (p : Nat) : List PolyWord :=
  let n := clampedWords ranges m p
  let ty := typeOf (m (p - wordBytes))
  if ty = fByteObj then []
  else if ty = fCodeObj then m.words (boundedConsts m p n).1 (boundedConsts m p n).2
  else if ty = fClosureObj then m p :: m.words (p + wordBytes) (n - 1)
  else m.words p n

/-- `ptr_ok` in untrusted mode. -/
def isLive (ranges : List (Nat × Nat)) (w : PolyWord) : Bool :=
  w.isDataPtr && ranges.any (fun r => r.1 < w.addr ∧ w.addr < r.2)

/-- The targets of the live pointers among some words. -/
def liveTargets (ranges : List (Nat × Nat)) (ws : List PolyWord) : List Nat :=
  (ws.filter (fun w => !w.isTagged && isLive ranges w)).map PolyWord.addr

def successors (ranges : List (Nat × Nat)) (m : Mem) (p : Nat) : List Nat :=
  liveTargets ranges (valueWords ranges m p)

/-- The builder before the walk. A root that is no live pointer is left out, unless it is tagged. -/
def rooted (ranges : List (Nat × Nat)) (root : PolyWord) : SnapshotBuilder × ObjectId :=
  let b : SnapshotBuilder := { byAddr := [], objects := [], pending := [], spaces := some ranges }
  if root.isTagged || b.ptrOk root then b.intern root
  else ({ b with objects := b.objects ++ [placeholder] }, 0)

/-- What `drain` reads. -/
def drainReads (ranges : List (Nat × Nat)) (m : Mem) : Nat → SnapshotBuilder → List Span
  | fuel, b =>
    match b.pending with
    | [] => []
    | addr :: pending =>
      match fuel with
      | 0 => []
      | fuel + 1 => objectReads ranges m addr ++
          match { b with pending := pending }.buildNext m addr with
          | none => []
          | some b => drainReads ranges m fuel b

end SnapshotBuilder

open SnapshotBuilder

/-- What `snapshot_gated` reads. -/
def gatedReads (fuel : Nat) (m : Mem) (root : PolyWord) (ranges : List (Nat × Nat)) : List Span :=
  drainReads ranges m fuel (rooted ranges root).1

/-- The objects the walk comes to: the root, when it is live or tagged, and the targets of live
pointers. -/
def Followed (ranges : List (Nat × Nat)) (m : Mem) (root : PolyWord) : Nat → Prop :=
  Worklist.Reach (successors ranges m)
    (if root.isTagged || isLive ranges root then [root.addr] else [])

/-- There is room for the length word, and for the code address of a closure. -/
structure Roomy (ranges : List (Nat × Nat)) (m : Mem) (p : Nat) : Prop where
  header : ∃ r ∈ ranges, r.1 + wordBytes ≤ p ∧ p < r.2
  code_address : typeOf (m (p - wordBytes)) = fClosureObj → ∃ r ∈ ranges, r.1 ≤ p ∧ p + wordBytes ≤ r.2

namespace SnapshotBuilder

variable {ranges : List (Nat × Nat)} {m : Mem} {b : SnapshotBuilder}

/-! ## The walk of the builder -/

/-- The addresses interned, and those pending. -/
def worklist (b : SnapshotBuilder) : Worklist Nat := ⟨b.byAddr.map Prod.fst, b.pending⟩

theorem lookup_isSome (b : SnapshotBuilder) (a : Nat) :
    (b.byAddr.lookup a).isSome ↔ a ∈ b.worklist.seen := by
  show _ ↔ a ∈ b.byAddr.map Prod.fst
  induction b.byAddr with
  | nil => simp
  | cons e es ih =>
    rw [List.lookup_cons, List.map_cons, List.mem_cons, ← ih]
    cases h : a == e.1 with
    | true => simp [beq_iff_eq.1 h]
    | false =>
      have hne : a ≠ e.1 := by simpa using h
      simp [hne]

theorem worklist_intern (b : SnapshotBuilder) (w : PolyWord) :
    (b.intern w).1.worklist = b.worklist.visit w.addr := by
  have hsome := lookup_isSome b w.addr
  unfold intern Worklist.visit
  cases h : b.byAddr.lookup w.addr with
  | some id => rw [if_pos (hsome.1 (by rw [h]; rfl))]
  | none =>
    rw [if_neg (fun hmem => by simpa [h] using hsome.2 hmem)]
    rfl

theorem spaces_intern (b : SnapshotBuilder) (w : PolyWord) : (b.intern w).1.spaces = b.spaces := by
  unfold intern
  split <;> rfl

theorem ptrOk_gated (h : b.spaces = some ranges) (w : PolyWord) : b.ptrOk w = isLive ranges w := by
  unfold ptrOk isLive
  rw [h]

/-- `c` comes from `b` by meeting the nodes `as`. -/
structure Visits (ranges : List (Nat × Nat)) (b : SnapshotBuilder) (as : List Nat) (c : SnapshotBuilder) :
    Prop where
  worklist : c.worklist = b.worklist.visits as
  spaces : c.spaces = some ranges

theorem valueFor_visits (h : b.spaces = some ranges) (w : PolyWord) :
    Visits ranges b (liveTargets ranges [w]) (b.valueFor w).1 := by
  unfold valueFor liveTargets
  rw [ptrOk_gated h]
  cases htag : w.isTagged with
  | true => exact ⟨by simp [htag], by simpa [htag] using h⟩
  | false =>
    cases hlive : isLive ranges w with
    | false => exact ⟨by simp [htag, hlive], by simpa using h⟩
    | true =>
      refine ⟨?_, ?_⟩
      · simpa [htag, hlive] using worklist_intern b w
      · simpa using (spaces_intern b w).trans h

theorem valuesFor_visits (h : b.spaces = some ranges) (ws : List PolyWord) :
    Visits ranges b (liveTargets ranges ws) (b.valuesFor ws).1 := by
  induction ws generalizing b with
  | nil => exact ⟨rfl, h⟩
  | cons w ws ih =>
    have hfirst := valueFor_visits h w
    have hrest := ih hfirst.spaces
    have hsplit : liveTargets ranges (w :: ws) = liveTargets ranges [w] ++ liveTargets ranges ws := by
      rw [liveTargets, liveTargets, liveTargets, ← List.map_append, ← List.filter_append,
        List.singleton_append]
    refine ⟨?_, hrest.spaces⟩
    rw [hsplit, Worklist.visits, List.foldl_append]
    exact hrest.worklist.trans (congrArg (fun v => Worklist.visits v _) hfirst.worklist)

theorem buildCode_visits (h : b.spaces = some ranges) (p n : Nat) :
    Visits ranges b (liveTargets ranges (m.words (boundedConsts m p n).1 (boundedConsts m p n).2))
      (b.buildCode m p n).1 := by
  have hcode : (b.buildCode m p n).1 =
      (b.valuesFor (m.words (boundedConsts m p n).1 (boundedConsts m p n).2)).1 := by
    unfold buildCode boundedConsts
    rw [h]
    rfl
  rw [hcode]
  exact valuesFor_visits h _

theorem buildClosure_visits (h : b.spaces = some ranges) (p n : Nat) :
    Visits ranges b (liveTargets ranges (m p :: m.words (p + wordBytes) (n - 1)))
      (b.buildClosure m p n).1 := by
  -- the code address is met as a value would be
  have hclosure : (b.buildClosure m p n).1 =
      ((b.valueFor (m p)).1.valuesFor (m.words (p + wordBytes) (n - 1))).1 := by
    unfold buildClosure valueFor
    simp only [ptrOk_gated h]
    cases (m p).isTagged <;> cases isLive ranges (m p) <;> simp
  rw [hclosure]
  exact valuesFor_visits h (m p :: m.words (p + wordBytes) (n - 1))

theorem buildObject_visits (h : b.spaces = some ranges) (p : Nat) :
    Visits ranges b (successors ranges m p) (b.buildObject m p (m (p - wordBytes))).1 := by
  have hobject : (b.buildObject m p (m (p - wordBytes))).1 =
      if typeOf (m (p - wordBytes)) = fByteObj then b
      else if typeOf (m (p - wordBytes)) = fCodeObj then (b.buildCode m p (clampedWords ranges m p)).1
      else if typeOf (m (p - wordBytes)) = fClosureObj then
        (b.buildClosure m p (clampedWords ranges m p)).1
      else (b.buildOrdinary m p (clampedWords ranges m p)).1 := by
    unfold buildObject clampedWords
    simp only [h, Option.bind_some]
    cases spaceEndOf ranges p <;> (dsimp only; split_ifs <;> rfl)
  rw [hobject]
  unfold successors valueWords
  dsimp only
  split_ifs
  · exact ⟨rfl, h⟩
  · exact buildCode_visits h p _
  · exact buildClosure_visits h p _
  · exact valuesFor_visits h _

/-- The pending objects have their ids. -/
def PendingSeen (b : SnapshotBuilder) : Prop := ∀ a ∈ b.worklist.pending, a ∈ b.worklist.seen

theorem buildNext_visits (h : b.spaces = some ranges) {addr : Nat}
    (hseen : addr ∈ b.worklist.seen) :
    ∃ c, b.buildNext m addr = some c ∧ Visits ranges b (successors ranges m addr) c := by
  have hsome := (lookup_isSome b addr).2 hseen
  obtain ⟨id, hid⟩ := Option.isSome_iff_exists.1 hsome
  have hv := buildObject_visits (m := m) h addr
  refine ⟨{ (b.buildObject m addr (m (addr - wordBytes))).1 with
    objects := (b.buildObject m addr (m (addr - wordBytes))).1.objects.set id.toNat
      (b.buildObject m addr (m (addr - wordBytes))).2 }, ?_, hv.worklist, hv.spaces⟩
  rw [buildNext, hid]
  rfl

theorem visits_pendingSeen {w : Worklist Nat} (h : ∀ a ∈ w.pending, a ∈ w.seen) (as : List Nat) :
    ∀ a ∈ (w.visits as).pending, a ∈ (w.visits as).seen := by
  induction as generalizing w with
  | nil => exact h
  | cons x as ih =>
    refine ih ?_
    unfold Worklist.visit
    split
    · exact h
    · intro a ha
      rcases List.mem_cons.1 ha with rfl | ha
      · exact List.mem_cons_self
      · exact List.mem_cons_of_mem _ (h a ha)

/-- The loop takes the objects that a walk over the successors takes. -/
theorem drain_run {fuel : Nat} (h : b.spaces = some ranges) (hseen : b.PendingSeen) :
    drainReads ranges m fuel b =
      (Worklist.run (successors ranges m) fuel b.worklist).1.flatMap (objectReads ranges m) ∧
    ((b.drain m fuel).isSome ↔
      (Worklist.run (successors ranges m) fuel b.worklist).2.pending = []) := by
  induction fuel generalizing b with
  | zero =>
    unfold drainReads drain
    cases hp : b.pending with
    | nil => exact ⟨rfl, by simp [Worklist.run, worklist, hp]⟩
    | cons addr rest => exact ⟨rfl, by simp [Worklist.run, worklist, hp]⟩
  | succ fuel ih =>
    unfold drainReads drain Worklist.run
    cases hp : b.pending with
    | nil => exact ⟨by simp [worklist, hp], by simp [worklist, hp]⟩
    | cons addr rest =>
      have hwork : b.worklist = ⟨b.worklist.seen, addr :: rest⟩ := by rw [← hp]; rfl
      have hmem : addr ∈ b.worklist.seen := by
        refine hseen addr ?_
        rw [hwork]
        exact List.mem_cons_self
      obtain ⟨c, hnext, hv⟩ :=
        @buildNext_visits _ m { b with pending := rest } h addr hmem
      have hrest : ∀ a ∈ (Worklist.mk b.worklist.seen rest).pending, a ∈ b.worklist.seen :=
        fun a ha => hseen a (by rw [hwork]; exact List.mem_cons_of_mem _ ha)
      have hcseen : c.PendingSeen := by
        unfold PendingSeen
        rw [hv.worklist]
        exact visits_pendingSeen hrest _
      obtain ⟨hreads, hends⟩ := ih hv.spaces hcseen
      rw [hwork]
      simp only [hnext, Option.bind_eq_bind, Option.bind_some, List.flatMap_cons]
      rw [hv.worklist] at hreads hends
      exact ⟨congrArg _ hreads, hends⟩

end SnapshotBuilder

namespace SnapshotBuilder

variable {ranges : List (Nat × Nat)} {m : Mem} {p n : Nat} {r : Nat × Nat}

/-! ## Reads inside a body -/

theorem wordSpans_within (hr : r ∈ ranges) (hlo : r.1 ≤ p) (hhi : p + 8 * n ≤ r.2) :
    ∀ s ∈ wordSpans p n, s.Within ranges := by
  intro s hs
  obtain ⟨i, hi, rfl⟩ := List.mem_map.1 hs
  have hi := List.mem_range.1 hi
  refine ⟨r, hr, ?_, ?_⟩ <;> simp only [wordBytes] <;> omega

theorem byteSpans_within (hr : r ∈ ranges) (hlo : r.1 ≤ p) (hhi : p + n ≤ r.2) :
    ∀ s ∈ byteSpans p n, s.Within ranges := by
  intro s hs
  obtain ⟨i, hi, rfl⟩ := List.mem_map.1 hs
  have hi := List.mem_range.1 hi
  refine ⟨r, hr, ?_, ?_⟩ <;> simp only <;> omega

/-- A count is read inside the object. -/
theorem trailerReads_within (hr : r ∈ ranges) (hlo : r.1 ≤ p) (hhi : p + 8 * n ≤ r.2) :
    ∀ s ∈ trailerReads m p n, s.Within ranges := by
  intro s hs
  unfold trailerReads at hs
  split at hs
  · simp at hs
  · next hn =>
    dsimp only at hs
    generalize Int.tdiv (m (p + wordBytes * (n - 1))).toInt wordBytes = k at hs
    rcases List.mem_cons.1 hs with rfl | hs
    · refine ⟨r, hr, ?_, ?_⟩ <;> simp only [wordBytes] <;> omega
    · split at hs
      · next hcp =>
        obtain rfl := List.mem_singleton.1 hs
        refine ⟨r, hr, ?_, ?_⟩ <;> simp only [wordBytes] at hcp ⊢ <;> omega
      · simp at hs

theorem codeReads_within (hr : r ∈ ranges) (hlo : r.1 ≤ p) (hhi : p + 8 * n ≤ r.2) :
    ∀ s ∈ codeReads m p n, s.Within ranges := by
  intro s hs
  unfold codeReads boundedConsts at hs
  dsimp only at hs
  generalize boundedConstSegment m p n = seg at hs
  rcases List.mem_append.1 hs with hs | hs
  · rcases List.mem_append.1 hs with hs | hs
    · exact trailerReads_within hr hlo hhi s hs
    · refine byteSpans_within hr hlo ?_ s hs
      simp only [wordBytes]
      omega
  · split at hs
    · next hcp =>
      refine wordSpans_within hr (Nat.le_trans hlo hcp.1) ?_ s hs
      have hmul := Nat.div_mul_le_self (p + n * wordBytes - wordBytes - seg.1) wordBytes
      simp only [wordBytes] at hcp hmul ⊢
      omega
    · simp [wordSpans] at hs

/-- The body of an object that starts inside a space is cut to that space. -/
theorem clampedWords_fits (h : ∃ r ∈ ranges, r.1 < p ∧ p < r.2) (m : Mem) :
    ∃ r ∈ ranges, r.1 < p ∧ p + 8 * clampedWords ranges m p ≤ r.2 := by
  have hfind : (ranges.find? (fun r => r.1 < p ∧ p < r.2)).isSome := by
    rw [List.find?_isSome]
    obtain ⟨r, hr, hin⟩ := h
    exact ⟨r, hr, by simpa using hin⟩
  obtain ⟨r, hr⟩ := Option.isSome_iff_exists.1 hfind
  have hin : r.1 < p ∧ p < r.2 := by simpa using List.find?_some hr
  refine ⟨r, List.mem_of_find?_eq_some hr, hin.1, ?_⟩
  have hmul := Nat.div_mul_le_self (r.2 - p) wordBytes
  unfold clampedWords spaceEndOf
  rw [hr]
  simp only [Option.map_some, wordBytes] at hmul ⊢
  omega

/-- What is read besides the length word and the code address lies inside. -/
theorem objectReads_within (hroom : Roomy ranges m p) : ∀ s ∈ objectReads ranges m p, s.Within ranges := by
  intro s hs
  obtain ⟨h0, hh0, hlo0, hhi0⟩ := hroom.header
  obtain ⟨r, hr, hlo, hhi⟩ := clampedWords_fits ⟨h0, hh0, by unfold wordBytes at hlo0; omega, hhi0⟩ m
  have hlo := Nat.le_of_lt hlo
  unfold objectReads at hs
  dsimp only at hs
  rcases List.mem_cons.1 hs with rfl | hs
  · refine ⟨h0, hh0, ?_, ?_⟩ <;> simp only [wordBytes] at hlo0 ⊢ <;> omega
  split_ifs at hs with hbyte hcode hclosure
  · exact byteSpans_within hr hlo (by unfold wordBytes; omega) s hs
  · exact codeReads_within hr hlo hhi s hs
  · obtain ⟨c, hc, hclo, hchi⟩ := hroom.code_address hclosure
    rcases List.mem_cons.1 hs with rfl | hs
    · exact ⟨c, hc, hclo, hchi⟩
    · rcases Nat.eq_zero_or_pos (clampedWords ranges m p - 1) with hz | hz
      · simp [hz, wordSpans] at hs
      · refine wordSpans_within hr ?_ ?_ s hs <;> unfold wordBytes <;> omega
  · exact wordSpans_within hr hlo hhi s hs

/-- An object is read inside the spaces exactly when there is room before it. -/
theorem objectReads_within_iff (ls : LiveSpaces)
    (hp : p % 2 = 1 ∨ ∃ r ∈ ls.ranges, r.1 < p ∧ p < r.2) :
    (∀ s ∈ objectReads ls.ranges m p, s.Within ls.ranges) ↔ Roomy ls.ranges m p := by
  refine ⟨fun h => ⟨?_, fun hclosure => ?_⟩, objectReads_within⟩
  · obtain ⟨r, hr, hlo, hhi⟩ := h ⟨p - wordBytes, wordBytes⟩ List.mem_cons_self
    have hal := ls.aligned r hr
    have hpos := ls.positive r hr
    simp only [wordBytes] at hlo hhi ⊢
    by_cases hlt : p < r.2
    · exact ⟨r, hr, by omega, hlt⟩
    -- the pointer is the end of that space, and inside another one
    · rcases hp with hodd | ⟨r0, hr0, hin⟩
      · omega
      · have hal0 := ls.aligned r0 hr0
        exact ⟨r0, hr0, by omega, hin.2⟩
  · have hne : fClosureObj ≠ fByteObj ∧ fClosureObj ≠ fCodeObj := by decide
    refine h ⟨p, wordBytes⟩ (List.mem_cons_of_mem _ ?_)
    simp [hclosure, hne]

end SnapshotBuilder

/-! ## The whole walk -/

variable {ranges : List (Nat × Nat)} {m : Mem} {root : PolyWord} {fuel : Nat}

theorem rooted_worklist (ranges : List (Nat × Nat)) (root : PolyWord) :
    (rooted ranges root).1.worklist =
        Worklist.visits ⟨[], []⟩ (if root.isTagged || isLive ranges root then [root.addr] else []) ∧
      (rooted ranges root).1.spaces = some ranges ∧ (rooted ranges root).1.PendingSeen := by
  have hok : ({ byAddr := [], objects := [], pending := [], spaces := some ranges } :
      SnapshotBuilder).ptrOk root = isLive ranges root := ptrOk_gated rfl root
  unfold rooted
  simp only [hok]
  split
  · refine ⟨worklist_intern _ root, rfl, ?_⟩
    unfold PendingSeen
    rw [worklist_intern]
    exact visits_pendingSeen (w := ⟨[], []⟩) (by simp) [root.addr]
  · exact ⟨rfl, rfl, by simp [PendingSeen, worklist]⟩

theorem gatedReads_eq (fuel : Nat) (m : Mem) (root : PolyWord) (ranges : List (Nat × Nat)) :
    gatedReads fuel m root ranges = (Worklist.run (successors ranges m) fuel (Worklist.visits ⟨[], []⟩
      (if root.isTagged || isLive ranges root then [root.addr] else []))).1.flatMap
        (objectReads ranges m) := by
  obtain ⟨hwork, hspaces, hseen⟩ := rooted_worklist ranges root
  rw [gatedReads, (drain_run hspaces hseen).1, hwork]

/-- A snapshot is complete when the walk has ended. -/
theorem snapshotGated_isSome :
    (snapshotGated fuel m root (some ranges)).isSome ↔
      (Worklist.run (successors ranges m) fuel (Worklist.visits ⟨[], []⟩
        (if root.isTagged || isLive ranges root then [root.addr] else []))).2.pending = [] := by
  obtain ⟨hwork, hspaces, hseen⟩ := rooted_worklist ranges root
  rw [← hwork, ← (drain_run (m := m) hspaces hseen).2]
  have hbuilder : snapshotBuilder fuel m root (some ranges) =
      ((rooted ranges root).1.drain m fuel).map (fun b => (b, (rooted ranges root).2)) := by
    show ((rooted ranges root).1.drain m fuel >>= fun b => some (b, (rooted ranges root).2)) = _
    cases (rooted ranges root).1.drain m fuel <;> rfl
  rw [snapshotGated, hbuilder]
  cases (rooted ranges root).1.drain m fuel <;> rfl

/-- An object that is followed starts inside a space, or is the tagged root. -/
theorem Followed.place {a : Nat} (h : Followed ranges m root a) :
    (a % 2 = 1 ∨ ∃ r ∈ ranges, r.1 < a ∧ a < r.2) ∧ a < 2 ^ 64 := by
  have hlive : ∀ w : PolyWord, isLive ranges w = true → ∃ r ∈ ranges, r.1 < w.addr ∧ w.addr < r.2 := by
    intro w hw
    simpa using (Bool.and_eq_true_iff.1 hw).2
  cases h with
  | start ha =>
    split at ha
    · next hroot =>
      obtain rfl := List.mem_singleton.1 ha
      refine ⟨?_, root.isLt⟩
      rcases Bool.or_eq_true_iff.1 hroot with htag | hroot
      · rw [PolyWord.isTagged_eq] at htag
        exact Or.inl (of_decide_eq_true htag)
      · exact Or.inr (hlive root hroot)
    · simp at ha
  | next _ ha =>
    obtain ⟨w, hw, rfl⟩ := List.mem_map.1 ha
    have hw := (List.mem_filter.1 hw).2
    exact ⟨Or.inr (hlive w (Bool.and_eq_true_iff.1 hw).2), w.isLt⟩

/-- The walk ends: it takes every address at most once. -/
theorem snapshotGated_completes (hfuel : 2 ^ 64 ≤ fuel) :
    (snapshotGated fuel m root (some ranges)).isSome := by
  rw [snapshotGated_isSome]
  have hnodes : ∀ a, Followed ranges m root a → a ∈ List.range (2 ^ 64) :=
    fun a ha => List.mem_range.2 ha.place.2
  refine (Worklist.Inv.start _).run_ends hnodes ?_
  rw [List.length_range]
  exact hfuel

/-- Whatever is followed is read. -/
theorem mem_gatedReads (hend : (snapshotGated fuel m root (some ranges)).isSome) {a : Nat}
    (ha : Followed ranges m root a) {s : Span} (hs : s ∈ objectReads ranges m a) :
    s ∈ gatedReads fuel m root ranges := by
  rw [gatedReads_eq]
  exact List.mem_flatMap.2 ⟨a, Worklist.taken_of_reach (snapshotGated_isSome.1 hend) ha, hs⟩

/-- Nothing else is read. -/
theorem followed_of_read {s : Span} (hs : s ∈ gatedReads fuel m root ranges) :
    ∃ a, Followed ranges m root a ∧ s ∈ objectReads ranges m a := by
  rw [gatedReads_eq] at hs
  obtain ⟨a, ha, hs⟩ := List.mem_flatMap.1 hs
  exact ⟨a, Worklist.reach_of_taken ha, hs⟩

/-- A gated snapshot completes inside the live spaces exactly when every object it follows has room for its
length word in front of it, and for the code address when it is a closure. -/
theorem gated_reads_iff (ls : LiveSpaces) (m : Mem) (root : PolyWord) :
    (∃ fuel, (snapshotGated fuel m root (some ls.ranges)).isSome ∧
        ∀ s ∈ gatedReads fuel m root ls.ranges, s.Within ls.ranges) ↔
      ∀ a, Followed ls.ranges m root a → Roomy ls.ranges m a := by
  constructor
  · intro ⟨fuel, hend, hall⟩ a ha
    exact (objectReads_within_iff ls ha.place.1).1 (fun s hs => hall s (mem_gatedReads hend ha hs))
  · intro hroom
    refine ⟨2 ^ 64, snapshotGated_completes (Nat.le_refl _), fun s hs => ?_⟩
    obtain ⟨a, ha, hs⟩ := followed_of_read hs
    exact objectReads_within (hroom a ha) s hs

/-- An object at 4112 with one word, which points two bytes behind the start of the space. -/
def straddlingMem : Mem := fun a =>
  if a = 4104 then makeLengthWord 1 0#8 else if a = 4112 then .fromAddr 4098 else 0#64

/-- The length word in front of the pointer's target is read across the start of the space. -/
theorem not_gated_reads : ¬∃ fuel,
    (snapshotGated fuel straddlingMem (.fromAddr 4112) (some [(4096, 4160)])).isSome ∧
      ∀ s ∈ gatedReads fuel straddlingMem (.fromAddr 4112) [(4096, 4160)], s.Within [(4096, 4160)] := by
  intro ⟨fuel, hend, hall⟩
  have hroot : Followed [(4096, 4160)] straddlingMem (.fromAddr 4112) 4112 := .start (by decide)
  have hnext : Followed [(4096, 4160)] straddlingMem (.fromAddr 4112) 4098 := hroot.next (by decide)
  have hread : (⟨4090, 8⟩ : Span) ∈ objectReads [(4096, 4160)] straddlingMem 4098 := List.mem_cons_self
  have hout : ¬(⟨4090, 8⟩ : Span).Within [(4096, 4160)] := by decide
  exact hout (hall _ (mem_gatedReads hend hnext hread))

end Image
