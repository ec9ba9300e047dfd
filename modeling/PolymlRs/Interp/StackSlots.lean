import PolymlRs.Interp.Gc

set_option autoImplicit false

/-! # Integers on the stack

A stack slot is forwarded without regard to its tag bit: a raw code address may be odd. So a slot
that holds a tagged integer is left alone exactly when the integer's bits, read as an address, lie
outside every from-space. `Run.respects_iff` says so of every collection of a run. -/

/-! ## The live slots -/

/-- The live stack slots of what a thread has published. -/
def SendRoots.liveSlots : SendRoots → List PolyWord
  | thread t r => t.stack.drop r.sp
  | fork _ => []

def Peer.liveSlots (p : Peer) : List PolyWord := (p.parkedRoots.map SendRoots.liveSlots).getD []

/-- The live stack slots of all threads, those of the collecting thread first. -/
def GcState.liveSlots (s : GcState) : List PolyWord :=
  s.self.stack.drop s.self.sp ++ s.peers.flatMap Peer.liveSlots

theorem mem_words_of_liveSlots {p : Peer} {w : PolyWord} (hw : w ∈ p.liveSlots) :
    (false, w) ∈ p.words := by
  obtain ⟨parked, cell, addr⟩ := p
  cases parked with
  | none => simp [Peer.liveSlots] at hw
  | some s =>
    cases s with
    | thread t r =>
      exact List.mem_append_left _ (List.mem_map.2 ⟨w, hw, rfl⟩)
    | fork r => simp [Peer.liveSlots, SendRoots.liveSlots] at hw

/-- A live slot is a root that is forwarded without a look at its tag. -/
theorem GcState.mem_rootWords {s : GcState} {w : PolyWord} (hw : w ∈ s.liveSlots) :
    (false, w) ∈ s.rootWords := by
  rcases List.mem_append.1 hw with hw | hw
  · exact List.mem_append_left _ (List.mem_append_left _ (List.mem_map.2 ⟨w, hw, rfl⟩))
  · obtain ⟨p, hp, hwp⟩ := List.mem_flatMap.1 hw
    exact List.mem_append_right _ (List.mem_append_left _
      (List.mem_flatMap.2 ⟨p, hp, mem_words_of_liveSlots hwp⟩))

section Relocated

variable (h : HeapView) (φ : Nat → Nat)

/-- What is written below `sp` does not reach the live slots. -/
theorem drop_take_append_drop (f : PolyWord → PolyWord) (n : Nat) (l m : List PolyWord)
    (hm : l.length ≤ n → m = []) : ((l.take n).map f ++ m).drop n = m := by
  rcases Nat.le_total n l.length with hle | hle
  · exact List.drop_left' (by rw [List.length_map, List.length_take_of_le hle])
  · rw [hm hle, List.append_nil]
    exact List.drop_of_length_le (by simp)

theorem drop_relocateStack (sp : Nat) (stack : List PolyWord) :
    (relocateStack h φ sp stack).drop sp = (stack.drop sp).map (h.relocate φ false) := by
  have hid := drop_take_append_drop id sp stack ((stack.drop sp).map (h.relocate φ false))
    (fun hle => by rw [List.drop_of_length_le hle, List.map_nil])
  rwa [List.map_id] at hid

/-- The live slots are relocated in place, whether or not the thread is written back. -/
theorem drop_writeBack (r : ThreadRoots) (t : ThreadContext) :
    (r.writeBack h φ t).stack.drop r.sp = (t.stack.drop r.sp).map (h.relocate φ false) := by
  rw [← drop_relocateStack]
  cases hq : r.quiesced with
  | true =>
    simp only [ThreadRoots.writeBack, ThreadRoots.applyFixups, ThreadRoots.scrubBelowSp,
      ThreadRoots.relocate, hq, if_true]
  | false =>
    simp only [ThreadRoots.writeBack, ThreadRoots.applyFixups, ThreadRoots.scrubBelowSp,
      ThreadRoots.relocate, hq, Bool.false_eq_true, if_false]
    exact drop_take_append_drop _ _ _ _ (fun hle => List.drop_of_length_le hle)

theorem SendRoots.liveSlots_fixup (s : SendRoots) :
    (s.relocate h φ).fixup.liveSlots = s.liveSlots.map (h.relocate φ false) := by
  cases s with
  | thread t r => exact drop_writeBack h φ r t
  | fork r => rfl

theorem Peer.liveSlots_fixup (p : Peer) :
    (p.relocateAll h φ).fixup.liveSlots = p.liveSlots.map (h.relocate φ false) := by
  obtain ⟨parked, cell, addr⟩ := p
  cases parked with
  | none => rfl
  | some s => exact s.liveSlots_fixup h φ

end Relocated

/-- After a collection every live slot holds what its word has been forwarded to. -/
theorem GcRelocated.liveSlots {s s' : GcState} {copied : List Nat} {φ : Nat → Nat}
    (hr : GcRelocated s s' copied φ) :
    s'.liveSlots = s.liveSlots.map ((poolView s.mem s.nurseries).relocate φ false) := by
  have hsp : s'.self.sp = s.self.sp := by
    rw [hr.self, ThreadRoots.writeBack, ThreadRoots.applyFixups, ThreadRoots.scrubBelowSp]
    split <;> rfl
  have hself : s'.self.stack.drop s.self.sp =
      (s.self.stack.drop s.self.sp).map ((poolView s.mem s.nurseries).relocate φ false) := by
    rw [hr.self]
    exact drop_writeBack _ φ (ThreadRoots.capture s.self) s.self
  have hpeers : s'.peers.flatMap Peer.liveSlots =
      (s.peers.flatMap Peer.liveSlots).map ((poolView s.mem s.nurseries).relocate φ false) := by
    rw [hr.peers, List.flatMap_map, List.map_flatMap]
    exact congrArg (fun f => s.peers.flatMap f)
      (funext (fun p => p.liveSlots_fixup (poolView s.mem s.nurseries) φ))
  rw [GcState.liveSlots, GcState.liveSlots, hsp, hself, hpeers, List.map_append]

/-! ## One collection -/

/-- Every word the collection forwards is tracked, apart from stack slots that hold `w`. -/
def GcState.OthersTracked (s : GcState) (live : Nat → Prop) (w : PolyWord) : Prop :=
  AllWordsTracked s.mem s.nurseries s.imageMutableRoots
    (s.rootWords.filter (fun p => p ≠ (false, w))) live

section Slot

variable {env : GcEnv} {s s' : GcState} {live : Nat → Prop} {i : Nat} {w : PolyWord}
variable {used : Option Nat}

/-- A word outside every from-space is tracked. -/
theorem GcState.OthersTracked.all (h : s.OthersTracked live w)
    (hout : ¬ InSpaces s.nurseries w.addr) :
    AllWordsTracked s.mem s.nurseries s.imageMutableRoots s.rootWords live := by
  refine ⟨fun p hp => ?_, h.images, h.live⟩
  by_cases hpw : p = (false, w)
  · rw [hpw]
    exact fun _ => Or.inr hout
  · exact h.roots p (List.mem_filter.2 ⟨hp, decide_eq_true hpw⟩)

/-- An address outside every space is in no object. -/
theorem PoolOk.target_none {m : Mem} {spaces : List MemorySpace} (h : PoolOk m spaces) {tf : Bool}
    (hout : ¬ InSpaces spaces w.addr) : (poolView m spaces).target tf w = none := by
  cases ht : (poolView m spaces).target tf w with
  | none => rfl
  | some b =>
    have hc := HeapView.target_container ht
    exact absurd (h.inSpaces (HeapView.container_mem hc) (HeapView.container_covers hc)) hout

/-- A live slot keeps its word exactly when the word leads into no from-space. -/
theorem gc_keeps_iff (hready : GcReady env s live) (hi : s.liveSlots[i]? = some w)
    (hgc : gc env s = some (s', used)) :
    s'.liveSlots[i]? = some w ↔ ¬ InSpaces s.nurseries w.addr := by
  rcases (gc_relocates env s live hready).2 s' used hgc with ⟨hnil, rfl⟩ | ⟨copied, φ, hr⟩
  · rw [hi, hnil]
    simp [InSpaces]
  · have hf := hr.moves (false, w) (GcState.mem_rootWords (List.mem_of_getElem? hi))
    rw [hr.liveSlots, List.getElem?_map, hi, Option.map_some, Option.some.injEq]
    constructor
    · intro hkept
      have hout := hf.outside.resolve_left (by simp)
      rwa [show (motion s.mem s.nurseries copied φ s'.mem s'.nurseries).before.relocate
        (motion s.mem s.nurseries copied φ s'.mem s'.nurseries).place false w = w from hkept] at hout
    · intro hout
      refine HeapView.relocate_of_target_none ?_
      cases hn : s.nurseries with
      | nil => rfl
      | cons primary others => exact hn ▸ (hready.heap primary others hn).pool.target_none hout

/-- A collection that no other word aborts returns and keeps the word of a live slot exactly when
the word leads into no from-space. -/
theorem gc_respects_iff (hready : GcReady env s live) (hothers : s.OthersTracked live w)
    (hi : s.liveSlots[i]? = some w) :
    (∃ s' used, gc env s = some (s', used) ∧ s'.liveSlots[i]? = some w) ↔
      ¬ InSpaces s.nurseries w.addr := by
  constructor
  · rintro ⟨s', used, hgc, hkept⟩
    exact (gc_keeps_iff hready hi hgc).1 hkept
  · intro hout
    cases hgc : gc env s with
    | none => exact absurd hgc ((gc_relocates env s live hready).1 (hothers.all hout))
    | some r => exact ⟨r.1, r.2, rfl, (gc_keeps_iff hready hi hgc).2 hout⟩

end Slot

/-! ## Runs -/

/-- A collection in a run: the machine it starts from, and the machine it leaves unless it aborts. -/
structure Collection where
  env : GcEnv
  before : GcState
  after : Option GcState

/-- A run of the machine with the collections in it. What the threads do between two collections is
any relation `executes`; an aborted collection ends the run. -/
inductive Run (executes : GcState → GcState → Prop) :
    GcState → List Collection → Option GcState → Prop
  | stop (s : GcState) : Run executes s [] (some s)
  | execute {s s' : GcState} {ks : List Collection} {r : Option GcState} (he : executes s s')
      (hr : Run executes s' ks r) : Run executes s ks r
  | collect {env : GcEnv} {s s' : GcState} {used : Option Nat} {ks : List Collection}
      {r : Option GcState} (hgc : gc env s = some (s', used)) (hr : Run executes s' ks r) :
      Run executes s ({ env, before := s, after := some s' } :: ks) r
  | abort {env : GcEnv} {s : GcState} (hgc : gc env s = none) :
      Run executes s [{ env, before := s, after := none }] none

namespace Run

variable {executes : GcState → GcState → Prop} {s : GcState} {ks : List Collection}
variable {r : Option GcState}

/-- Every collection of a run is one of `gc`. -/
theorem after_eq (hrun : Run executes s ks r) :
    ∀ k ∈ ks, k.after = (gc k.env k.before).map Prod.fst := by
  induction hrun with
  | stop s => simp
  | execute he hr ih => exact ih
  | collect hgc hr ih => simpa [hgc] using ih
  | abort hgc => simp [hgc]

/-- A collection leaves the integer `n` in a live slot unchanged exactly when the integer's bits lead
into no from-space, and this is also when the integer does not make it abort. -/
theorem integer_kept_iff (hrun : Run executes s ks r) {k : Collection} (hk : k ∈ ks)
    {live : Nat → Prop} (hready : GcReady k.env k.before live) {i : Nat} {n : Int}
    (hi : k.before.liveSlots[i]? = some (PolyWord.tagged n)) :
    (∀ s', k.after = some s' → (s'.liveSlots[i]? = some (PolyWord.tagged n) ↔
      ¬ InSpaces k.before.nurseries (PolyWord.tagged n).addr)) ∧
    (k.before.OthersTracked live (PolyWord.tagged n) →
      ((∃ s', k.after = some s' ∧ s'.liveSlots[i]? = some (PolyWord.tagged n)) ↔
        ¬ InSpaces k.before.nurseries (PolyWord.tagged n).addr)) := by
  have hafter : ∀ s', k.after = some s' ↔ ∃ used, gc k.env k.before = some (s', used) := by
    intro s'
    rw [hrun.after_eq k hk, Option.map_eq_some_iff]
    simp
  constructor
  · intro s' hs'
    obtain ⟨used, hgc⟩ := (hafter s').1 hs'
    exact gc_keeps_iff hready hi hgc
  · intro hothers
    rw [← gc_respects_iff hready hothers hi]
    simp only [hafter, exists_and_right]

end Run

/-! ## An integer that is also an address -/

/-- A ready machine stays ready with another stack whose live slots denote live objects. -/
theorem GcReady.withStack {env : GcEnv} {s : GcState} {live : Nat → Prop}
    (hready : GcReady env s live) (stack : List PolyWord)
    (hlength : stack.length = s.self.stack.length)
    (hlive : ∀ w ∈ stack.drop s.self.sp, ∀ t,
      (poolView s.mem s.nurseries).target false w = some t → live t) :
    GcReady env { s with self := { s.self with stack } } live := by
  refine ⟨fun primary others hn => ?_, fun hcode => ?_, hready.peers⟩
  · have hheap := hready.heap primary others hn
    refine { hheap with roots := fun p hp t ht => ?_ }
    obtain hp | hp := List.mem_append.1 hp
    · obtain hp | hp := List.mem_append.1 hp
      · obtain ⟨w, hw, rfl⟩ := List.mem_map.1 hp
        exact hlive w hw t ht
      · exact hheap.roots p (List.mem_append_left _ (List.mem_append_right _ hp)) t ht
    · exact hheap.roots p (List.mem_append_right _ hp) t ht
  · have hself := hready.self hcode
    exact { hself with sp := hlength ▸ hself.sp }

/-- The machine of `weakState` with an integer in its only live slot. -/
def integerState (n : Int) : GcState :=
  { weakState with self := { weakThread with stack := [PolyWord.zero, PolyWord.tagged n] } }

theorem integerState_ready {n : Int} (h : ∀ t,
    (poolView weakMem [weakSpace]).target false (PolyWord.tagged n) = some t → t = 0x1008) :
    GcReady weakEnv (integerState n) (fun b => b = 0x1008) := by
  refine weak_ready.withStack [PolyWord.zero, PolyWord.tagged n] rfl ?_
  intro w hw t ht
  obtain rfl : w = PolyWord.tagged n := List.mem_singleton.1 hw
  exact h t ht

theorem integerState_othersTracked (n : Int) :
    (integerState n).OthersTracked (fun b => b = 0x1008) (PolyWord.tagged n) := by
  have hroots : weakState.rootWords.tail.all (fun p =>
      (p.1 && p.2.isTagged) || !(decide (0x1000 ≤ p.2.addr) && decide (p.2.addr < 0x1040)) ||
        ((poolView weakMem [weakSpace]).target p.1 p.2).isSome) = true := by decide
  have himage : regionObjects weakMem [(0x8000, 2)] = [0x8008] := by decide
  have hone : slotRange weakMem 0x1008 = (0x1008, 1) := by decide
  have hno : slotRange weakMem 0x8008 = (0x8008, 0) := by decide
  refine ⟨fun p hp hnone => ?_, fun b hb _ a hs => ?_, fun b hb a hs => ?_⟩
  · obtain ⟨hp, hne⟩ := List.mem_filter.1 hp
    rcases List.mem_cons.1 hp with rfl | hp
    · exact absurd rfl (of_decide_eq_true hne)
    · have hword := List.all_eq_true.1 hroots p hp
      simp only [Bool.or_eq_true, Bool.not_eq_true', Option.isSome_iff_ne_none] at hword
      rcases hword with (htag | hout) | hsome
      · exact Or.inl htag
      · right
        intro hin
        have hbounds := weak_inSpaces hin
        simp only [Bool.and_eq_false_iff, decide_eq_false_iff_not] at hout
        omega
      · exact absurd hnone hsome
  · obtain rfl := List.mem_singleton.1 (himage ▸ hb)
    obtain ⟨i, hi, rfl⟩ := hs
    rw [show slotRange (poolView (integerState n).mem (integerState n).nurseries).mem 0x8008 =
      (0x8008, 0) from hno] at hi
    exact absurd hi (Nat.not_lt_zero _)
  · subst hb
    obtain ⟨i, hi, rfl⟩ := hs
    rw [show slotRange (poolView (integerState n).mem (integerState n).nurseries).mem 0x1008 =
      (0x1008, 1) from hone] at hi ⊢
    obtain rfl : i = 0 := Nat.lt_one_iff.1 hi
    exact fun _ => Or.inl (show (true && (weakMem 0x1008).isTagged) = true by decide)

/-- One collection of `integerState n`. -/
def integerCollection (n : Int) (r : Option GcState) : Collection :=
  { env := weakEnv, before := integerState n, after := r }

theorem integer_kept_iff_small : ∃ s',
    gc weakEnv (integerState 2) = some (s', some 2) ∧
    (s'.liveSlots[0]? = some (PolyWord.tagged 2) ↔ ¬ InSpaces [weakSpace] (PolyWord.tagged 2).addr) ∧
    ((∃ t, some s' = some t ∧ t.liveSlots[0]? = some (PolyWord.tagged 2)) ↔
      ¬ InSpaces [weakSpace] (PolyWord.tagged 2).addr) := by
  have hready : GcReady weakEnv (integerState 2) (fun b => b = 0x1008) :=
    integerState_ready (fun t ht => by
      have hnone : (poolView weakMem [weakSpace]).target false (PolyWord.tagged 2) = none := by decide
      exact absurd (hnone.symm.trans ht) (by simp))
  have hused : (gc weakEnv (integerState 2)).map Prod.snd = some (some 2) := by decide +kernel
  obtain ⟨⟨s', used⟩, hgc, rfl⟩ := Option.map_eq_some_iff.1 hused
  have hrun : Run (fun _ _ => False) (integerState 2) [integerCollection 2 (some s')] (some s') :=
    Run.collect hgc (Run.stop s')
  obtain ⟨hkept, hrespects⟩ := hrun.integer_kept_iff (i := 0) (List.mem_singleton_self _) hready rfl
  exact ⟨s', hgc, hkept s' rfl, hrespects (integerState_othersTracked 2)⟩

/-- `0x1009`, the word of the integer 2052, is an address in a live object and follows it; `0x1001`,
the word of 2048, is one in a length word, and aborts the collection. -/
theorem not_integer_kept :
    (GcReady weakEnv (integerState 2052) (fun b => b = 0x1008) ∧
      (integerState 2052).liveSlots[0]? = some (PolyWord.tagged 2052) ∧
      ∃ s', Run (fun _ _ => False) (integerState 2052) [integerCollection 2052 (some s')] (some s') ∧
        s'.liveSlots[0]? = some (PolyWord.fromAddr 0x4009)) ∧
    (GcReady weakEnv (integerState 2048) (fun b => b = 0x1008) ∧
      (integerState 2048).liveSlots[0]? = some (PolyWord.tagged 2048) ∧
      (integerState 2048).OthersTracked (fun b => b = 0x1008) (PolyWord.tagged 2048) ∧
      Run (fun _ _ => False) (integerState 2048) [integerCollection 2048 none] none) := by
  constructor
  · refine ⟨integerState_ready (fun t ht => ?_), rfl, ?_⟩
    · have hsome : (poolView weakMem [weakSpace]).target false (PolyWord.tagged 2052) =
        some 0x1008 := by decide
      exact Option.some.inj (ht.symm.trans hsome)
    · have hslot : (gc weakEnv (integerState 2052)).map (fun r => r.1.liveSlots[0]?) =
          some (some (PolyWord.fromAddr 0x4009)) := by decide +kernel
      obtain ⟨⟨s', used⟩, hgc, hs'⟩ := Option.map_eq_some_iff.1 hslot
      exact ⟨s', Run.collect hgc (Run.stop s'), hs'⟩
  · refine ⟨integerState_ready (fun t ht => ?_), rfl, integerState_othersTracked 2048, Run.abort ?_⟩
    · have hnone : (poolView weakMem [weakSpace]).target false (PolyWord.tagged 2048) = none := by
        decide
      exact absurd (hnone.symm.trans ht) (by simp)
    · have hrun : (gc weakEnv (integerState 2048)).isNone = true := by decide +kernel
      exact Option.isNone_iff_eq_none.1 hrun
