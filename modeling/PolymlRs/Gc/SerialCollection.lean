import PolymlRs.Gc.Roots

set_option autoImplicit false

/-! # The serial collection

A collection of a well-formed pool leaves an isomorphic copy of the graph under the roots in
to-space, and nothing else. `HeapWf` and `ScratchFresh` are what a collection may be given;
`ScanInv.graphIso` reads the isomorphism off the invariant of the Cheney loop once the loop has
ended, and `serial_collection` puts the pre-pass, the roots, the loop and the promotion together. -/

/-- A word the collector may meet: an integer, a pointer to an object or into its body, or a pointer
that leads out of every from-space. -/
def WordOk (inSpace : Nat → Prop) (h : HeapView) (w : PolyWord) : Prop :=
  w.isTagged = true ∨ (∃ t, h.container w.addr = some t) ∨ ¬ inSpace w.addr

theorem WordOk.tracked {inSpace : Nat → Prop} {h : HeapView} {w : PolyWord}
    (hw : WordOk inSpace h w) : Tracked inSpace h true w := by
  intro hnone
  rw [Bool.true_and]
  rcases hw with htag | ⟨t, ht⟩ | hout
  · exact Or.inl htag
  · left
    by_contra htag
    simp [HeapView.target, htag, ht] at hnone
  · exact Or.inr hout

/-- A pool of spaces with roots `ws` that is ready for a collection. -/
structure HeapWf (m : Mem) (spaces : List MemorySpace) (ws : List PolyWord) : Prop where
  pool : PoolOk m spaces
  roots : ∀ w ∈ ws, WordOk (InSpaces spaces) (poolView m spaces) w
  slots : ∀ b a, (poolView m spaces).Reach ws b → IsSlot m b a →
    WordOk (InSpaces spaces) (poolView m spaces) (m a)
  code : ∀ b, (poolView m spaces).Reach ws b → typeOf (m (b - 8)) = fCodeObj →
    (poolView m spaces).CodeOk b

/-- Nothing points into the scratch buffer, or to the word right behind it, yet. -/
def Misses (toStart toLen : Nat) (w : PolyWord) : Prop :=
  w.isTagged = true ∨ w.addr < toStart ∨ toStart + 8 * toLen + 8 ≤ w.addr

/-- The scratch buffer is memory of its own: a fresh allocation, or storage retired by an earlier
collection. -/
structure ScratchFresh (m : Mem) (spaces : List MemorySpace) (ws : List PolyWord)
    (toStart toLen : Nat) : Prop where
  apart : ∀ a, toStart ≤ a → a < toStart + 8 * toLen → ¬ InSpaces spaces a
  aligned : toStart % 8 = 0
  addressable : toStart + 8 * toLen < 0x8000000000000000
  roots : ∀ w ∈ ws, Misses toStart toLen w
  slots : ∀ b a, (poolView m spaces).Reach ws b → IsSlot m b a → Misses toStart toLen (m a)

/-! ## From the invariant to the isomorphism -/

section Iso

variable {inSpace : Nat → Prop} {h : HeapView} {live : Nat → Prop} {weak : List Nat}
variable {copied : List Nat} {φ : Nat → Nat} {scan : Nat} {c : Collector}

/-- Everything in to-space after the trace. -/
def copiedView (c : Collector) (copied : List Nat) (φ : Nat → Nat) : HeapView :=
  { mem := c.mem, objs := copied.map φ }

/-- A relocated word points at the copy of what the word pointed at. -/
theorem ScanInv.target_relocate
    (haligned : ∀ b ∈ h.objs, b % 8 = 0) (hstart : c.toStart % 8 = 0)
    (hi : ScanInv inSpace h live weak copied [] φ scan c) {w : PolyWord}
    (htgt : ∀ t, h.target true w = some t → t ∈ copied) (hmiss : Misses c.toStart c.toLen w) :
    (copiedView c copied φ).target true (h.relocate φ true w) = (h.target true w).map φ := by
  have hinv := hi.inv
  rw [List.append_nil] at hinv
  have hused := hinv.toUsed_le
  cases htg : h.target true w with
  | none =>
    rw [HeapView.relocate_of_target_none htg, Option.map_none]
    unfold HeapView.target
    split
    · rfl
    · rename_i htag
      refine List.find?_eq_none.2 (fun q hq => ?_)
      obtain ⟨b, hb, rfl⟩ := List.mem_map.1 hq
      have hcb := hinv.copy_bounds hb
      have hlen : (copiedView c copied φ).mem.objLen (φ b) = h.mem.objLen b := hinv.objLen_copy hb
      rw [Bool.true_and, Bool.not_eq_true] at htag
      simp only [decide_eq_true_eq, Mem.Covers, hlen]
      rcases hmiss with htag' | hlo | hhi
      · rw [htag] at htag'
        exact absurd htag' (by decide)
      · omega
      · omega
  | some t =>
    have ht := htgt t htg
    have hto := HeapView.target_mem htg
    have hcov := HeapView.container_covers (HeapView.target_container htg)
    have hcb := hinv.copy_bounds ht
    have hal := haligned t hto
    have hal' : φ t % 8 = 0 := by
      have hmem : φ t ∈ (copied ++ []).map φ := by simpa using List.mem_map_of_mem ht
      have := hi.inv.laid.aligned hmem
      omega
    have hadd := hinv.scratch.addressable
    have htag : w.isTagged = false := by
      by_contra hcon
      rw [Bool.not_eq_false] at hcon
      simp [HeapView.target, hcon] at htg
    have heven : w.addr % 2 = 0 := by
      rw [PolyWord.isTagged_eq] at htag
      have := of_decide_eq_false htag
      omega
    have hle := hcov.1
    have hoff : w.addr - t < 8 * max 1 (h.mem.objLen t) := by
      have := hcov.2
      have := hcov.1
      omega
    have hlt : φ t + (w.addr - t) < 0x10000000000000000 := by omega
    rw [HeapView.relocate_of_target htg, Option.map_some]
    have htag' : (PolyWord.fromAddr (φ t + (w.addr - t))).isTagged = false := by
      rw [PolyWord.isTagged_fromAddr hlt]
      exact decide_eq_false (by omega)
    simp only [HeapView.target, htag', Bool.and_false, Bool.false_eq_true, if_false,
      PolyWord.addr_fromAddr hlt]
    refine (HeapView.container_eq_some ?_ ?_).2 ⟨List.mem_map_of_mem ht, ?_⟩
    · intro p hp q hq
      exact hinv.laid.separate hp hq
    · intro p hp
      have := (hinv.laid.bounds hp).1
      omega
    · have hlen : (copiedView c copied φ).mem.objLen (φ t) = h.mem.objLen t := hinv.objLen_copy ht
      rw [Mem.Covers, hlen]
      exact ⟨by omega, by omega⟩

/-- Every traced slot of a copy holds the relocated word. -/
theorem ScanInv.slot_eq (hi : ScanInv inSpace h live weak copied [] φ scan c) {b i : Nat}
    (hb : b ∈ copied) (hil : i < h.mem.objLen b) (hs : IsSlot h.mem b (b + 8 * i)) :
    c.mem (φ b + 8 * i) = h.relocate φ true (h.mem (b + 8 * i)) :=
  hi.inv.rewritten b (List.mem_append_left _ hb) i hil ⟨b, hb, hs⟩

/-- Every other word of a copy is the word that was copied. -/
theorem ScanInv.other_eq (hok : HeapOk inSpace h live)
    (hi : ScanInv inSpace h live weak copied [] φ scan c) {b i : Nat} (hb : b ∈ copied)
    (hil : i < h.mem.objLen b) (hs : ¬ IsSlot h.mem b (b + 8 * i)) :
    c.mem (φ b + 8 * i) = h.mem (b + 8 * i) := by
  have hb' : b ∈ copied ++ [] := List.mem_append_left _ hb
  exact hi.inv.todo b hb' i hil (fun hd =>
    hs (hi.inv.doneSlot b (hok.liveMem b (hi.inv.live b hb')) i hil hd).2)

/-- When the loop has ended, its roots' targets and everything behind them have been copied. -/
theorem ScanInv.reach_copied (hok : HeapOk inSpace h live) {ws : List PolyWord}
    (hi : ScanInv inSpace h live weak copied [] φ scan c)
    (hroots : ∀ w ∈ ws, ∀ t, h.target true w = some t → t ∈ copied) {b : Nat}
    (hr : h.Reach ws b) : b ∈ copied := by
  have hinv := hi.inv
  rw [List.append_nil] at hinv
  induction hr with
  | root hw ht => exact hroots _ hw _ ht
  | slot _ ha ht ih =>
    have hlive := hinv.live _ ih
    obtain ⟨i, hil, rfl⟩ := ha.body (hok.code _ hlive)
    exact hinv.doneTarget _ ih i hil ⟨_, ih, ha⟩ _ ht

/-- When the loop has ended, to-space holds an isomorphic copy of the graph under the roots. -/
theorem ScanInv.graphIso {ws : List PolyWord} (hok : HeapOk inSpace h (h.Reach ws))
    (haligned : ∀ b ∈ h.objs, b % 8 = 0) (hstart : c.toStart % 8 = 0)
    (hi : ScanInv inSpace h (h.Reach ws) weak copied [] φ scan c)
    (hroots : ∀ w ∈ ws, ∀ t, h.target true w = some t → t ∈ copied)
    (hmissRoots : ∀ w ∈ ws, Misses c.toStart c.toLen w)
    (hmissSlots : ∀ b a, h.Reach ws b → IsSlot h.mem b a → Misses c.toStart c.toLen (h.mem a)) :
    GraphIso h ws (copiedView c copied φ) (ws.map (h.relocate φ true)) φ := by
  have hinv := hi.inv
  rw [List.append_nil] at hinv
  have hcop : ∀ b, h.Reach ws b → b ∈ copied := fun b hb => hi.reach_copied hok hroots hb
  have hslots : ∀ b, h.Reach ws b → ∀ {a}, IsSlot c.mem (φ b) a ↔
      ∃ i < h.mem.objLen b, a = φ b + 8 * i ∧ IsSlot h.mem b (b + 8 * i) := fun b hb _ =>
    isSlot_shift_iff (hok.code b hb) (hinv.copyHeader b (hcop b hb))
      (fun i hil hs => hi.other_eq hok (hcop b hb) hil hs)
  have hedge : ∀ b, h.Reach ws b → ∀ i < h.mem.objLen b, IsSlot h.mem b (b + 8 * i) →
      (copiedView c copied φ).target true (c.mem (φ b + 8 * i)) =
        (h.target true (h.mem (b + 8 * i))).map φ := by
    intro b hb i hil hs
    rw [hi.slot_eq (hcop b hb) hil hs]
    exact hi.target_relocate haligned hstart
      (fun t ht => hcop t (hok.liveSlot b _ t hb hs ht)) (hmissSlots b _ hb hs)
  have hrootEdge : ∀ w ∈ ws, (copiedView c copied φ).target true (h.relocate φ true w) =
      (h.target true w).map φ := fun w hw =>
    hi.target_relocate haligned hstart (hroots w hw) (hmissRoots w hw)
  refine ⟨?_, ?_, ?_, ?_, ?_, ?_, ?_, hedge, rfl, hrootEdge⟩
  · intro b hb
    induction hb with
    | root hw ht =>
      refine .root (List.mem_map_of_mem hw) ?_
      rw [hrootEdge _ hw, ht, Option.map_some]
    | slot hb ha ht ih =>
      obtain ⟨i, hil, rfl⟩ := ha.body (hok.code _ hb)
      refine .slot ih ((hslots _ hb).2 ⟨i, hil, rfl, ha⟩) ?_
      have he := hedge _ hb i hil ha
      rw [ht, Option.map_some] at he
      exact he
  · intro b b' hb hb' he
    by_contra hne
    have := hinv.copy_separate (hcop b hb) (hcop b' hb') hne
    omega
  · intro q hq
    induction hq with
    | root hw ht =>
      obtain ⟨w, hmem, rfl⟩ := List.mem_map.1 hw
      rw [hrootEdge w hmem, Option.map_eq_some_iff] at ht
      obtain ⟨b, hb, rfl⟩ := ht
      exact ⟨b, .root hmem hb, rfl⟩
    | slot _ ha ht ih =>
      obtain ⟨b, hb, rfl⟩ := ih
      obtain ⟨i, hil, rfl, hs⟩ := (hslots b hb).1 ha
      have he := hedge b hb i hil hs
      rw [show c.mem = (copiedView c copied φ).mem from rfl, ht] at he
      obtain ⟨t, htg, rfl⟩ := Option.map_eq_some_iff.1 he.symm
      exact ⟨t, .slot hb hs htg, rfl⟩
  · exact fun b hb => hinv.copyHeader b (hcop b hb)
  · intro b hb i hil
    exact isSlot_shift (hok.code b hb) (hinv.copyHeader b (hcop b hb))
      (fun i hil hs => hi.other_eq hok (hcop b hb) hil hs) i
  · exact fun b hb i hil hs => hi.slot_eq (hcop b hb) hil hs
  · exact fun b hb i hil hs => hi.other_eq hok (hcop b hb) hil hs

end Iso

/-! ## The start of a collection -/

/-- The scratch buffer is the spare, untouched, or a cleared arena of its own. -/
theorem takeScratch_cases (env : GcEnv) (primary : MemorySpace) (total : Nat) (m : Mem) :
    ∃ start len reuse, total ≤ len ∧
      (takeScratch env primary total m = (start, len, reuse, m) ∨
        takeScratch env primary total m = (start, len, reuse, m.fillZero start len)) := by
  rw [takeScratch]
  cases primary.spare with
  | none => exact ⟨_, _, _, Nat.le_refl _, Or.inr rfl⟩
  | some s =>
    dsimp only
    split
    · rename_i hc
      simp only [Bool.and_eq_true, decide_eq_true_eq] at hc
      exact ⟨_, _, _, hc.2, Or.inl rfl⟩
    · exact ⟨_, _, _, Nat.le_refl _, Or.inr rfl⟩

theorem takeScratch_len (env : GcEnv) (primary : MemorySpace) (total : Nat) (m : Mem) :
    total ≤ (takeScratch env primary total m).2.1 := by
  obtain ⟨start, len, reuse, hle, he | he⟩ := takeScratch_cases env primary total m <;>
    simpa only [he] using hle

/-- Only the scratch buffer itself is cleared. -/
theorem takeScratch_mem (env : GcEnv) (primary : MemorySpace) (total : Nat) (m : Mem) {a : Nat}
    (ha : ¬ ((takeScratch env primary total m).1 ≤ a ∧
      a < (takeScratch env primary total m).1 + 8 * (takeScratch env primary total m).2.1)) :
    (takeScratch env primary total m).2.2.2 a = m a := by
  obtain ⟨start, len, reuse, -, he | he⟩ := takeScratch_cases env primary total m
  · simp only [he]
  · simp only [he] at ha ⊢
    exact Mem.fillZero_outside _ _ _ (by omega)

theorem ObjectsIn.sum_eq {m : Mem} {s : MemorySpace} (h : SpaceOk m s) :
    ((objectsOf m s).map (fun b => 1 + m.objLen b)).sum = s.used := by
  have := h.parsed.size
  omega

/-- The objects of a pool take exactly the words in use. -/
theorem PoolOk.sum_eq {m : Mem} {spaces : List MemorySpace} (h : PoolOk m spaces) :
    ((poolView m spaces).objs.map (fun b => 1 + m.objLen b)).sum =
      (spaces.map MemorySpace.used).sum := by
  have hok := h.spaceOk
  clear h
  simp only [poolView]
  induction spaces with
  | nil => rfl
  | cons s spaces ih =>
    rw [List.flatMap_cons, List.map_append, List.sum_append, List.map_cons, List.sum_cons,
      ObjectsIn.sum_eq (hok s List.mem_cons_self),
      ih (fun t ht => hok t (List.mem_cons_of_mem _ ht))]

theorem PoolOk.aligned {m : Mem} {spaces : List MemorySpace} (h : PoolOk m spaces) :
    ∀ b ∈ (poolView m spaces).objs, b % 8 = 0 := by
  intro b hb
  obtain ⟨s, hs, hbs⟩ := mem_poolView.1 hb
  have h1 := (h.spaceOk s hs).parsed.aligned hbs
  have h2 := (h.spaceOk s hs).aligned
  have h3 := (h.spaceOk s hs).bounds hbs
  omega

/-- A well-formed pool is a heap the trace can handle, for any set of live objects that is closed
under traced slots and whose code objects are in order. -/
theorem PoolOk.heapOk {m : Mem} {spaces : List MemorySpace} {live : Nat → Prop}
    (h : PoolOk m spaces) (hmem : ∀ b, live b → b ∈ (poolView m spaces).objs)
    (hcode : ∀ b, live b → typeOf (m (b - 8)) = fCodeObj → (poolView m spaces).CodeOk b)
    (hslot : ∀ b a t, live b → IsSlot m b a → (poolView m spaces).target true (m a) = some t →
      live t) : HeapOk (InSpaces spaces) (poolView m spaces) live := by
  have hin : ∀ b ∈ (poolView m spaces).objs, ∃ s ∈ spaces, SpaceOk m s ∧ b ∈ objectsOf m s := by
    intro b hb
    obtain ⟨s, hs, hbs⟩ := mem_poolView.1 hb
    exact ⟨s, hs, h.spaceOk s hs, hbs⟩
  constructor
  · exact h.separate
  · exact h.pos
  · intro b hb
    obtain ⟨s, hs, hok, hbs⟩ := hin b hb
    have := hok.limit_bounds hbs
    exact ⟨s, hs, by omega, by omega⟩
  · intro b hb
    exact h.inSpaces hb ⟨Nat.le_refl b, by omega⟩
  · intro b hb i hi
    exact h.inSpaces hb ⟨by omega, by simp only [poolView] at hi; omega⟩
  · rintro a ⟨s, hs, hlo, hhi⟩
    have := (h.spaceOk s hs).addressable
    omega
  · intro b hb
    obtain ⟨s, hs, hok, hbs⟩ := hin b hb
    exact hok.valid b hbs
  · exact hmem
  · exact hcode
  · exact hslot

theorem HeapWf.heapOk {m : Mem} {spaces : List MemorySpace} {ws : List PolyWord}
    (h : HeapWf m spaces ws) :
    HeapOk (InSpaces spaces) (poolView m spaces) ((poolView m spaces).Reach ws) := by
  refine h.pool.heapOk (fun b hb => ?_) h.code (fun b a t hb ha ht => .slot hb ha ht)
  cases hb with
  | root _ ht => exact HeapView.target_mem ht
  | slot _ _ ht => exact HeapView.target_mem ht

/-! ## A whole collection -/

/-- In the collector `c` the trace has just ended: to-space holds one copy of each object under the
roots, in the order `copied`, and nothing else. -/
structure SurvivorsCopied (h : HeapView) (ws : List PolyWord) (c : Collector) (copied : List Nat)
    (φ : Nat → Nat) : Prop where
  once : copied.Nodup
  survivors : ∀ b, b ∈ copied ↔ h.Reach ws b
  laid : ObjectsIn c.mem c.toStart (copied.map φ) (c.toStart + 8 * c.toUsed)
  used : c.toUsed = (copied.map (fun b => 1 + h.mem.objLen b)).sum
  fits : c.toUsed ≤ c.toLen
  iso : GraphIso h ws (copiedView c copied φ) (ws.map (h.relocate φ true)) φ

/-- The scratch buffer of a collection does not meet the spaces and is addressable. -/
structure ScratchAt (spaces : List MemorySpace) (start len : Nat) : Prop where
  apart : ∀ a, start ≤ a → a < start + 8 * len → ¬ InSpaces spaces a
  addressable : start + 8 * len < 0x8000000000000000

/-- The collector at the start of a collection: nothing is copied, and only the scratch buffer may
have been cleared. -/
theorem startCollection_spec (env : GcEnv) {m : Mem} {primary : MemorySpace}
    {others : List MemorySpace} {live : Nat → Prop} (hpool : PoolOk m (primary :: others))
    (hok : HeapOk (InSpaces (primary :: others)) (poolView m (primary :: others)) live)
    (hat : ScratchAt (primary :: others)
      (takeScratch env primary (totalCapacity primary others) m).1
      (takeScratch env primary (totalCapacity primary others) m).2.1) :
    ∃ c reuse, startCollection env m primary others = some (c, reuse) ∧
      c.toStart = (takeScratch env primary (totalCapacity primary others) m).1 ∧
      c.toLen = (takeScratch env primary (totalCapacity primary others) m).2.1 ∧
      c.weakObjects = [] ∧ c.untrackedAddrs = [] ∧ (∀ a, ¬ c.InScratch a → c.mem a = m a) ∧
      CheneyInv (InSpaces (primary :: others)) (poolView m (primary :: others)) live [] id
        (fun _ => False) c := by
  obtain ⟨bits, hrun, htable⟩ := prepass_table hpool
  obtain ⟨sc, hsc⟩ : ∃ sc, sc = takeScratch env primary (totalCapacity primary others) m := ⟨_, rfl⟩
  rw [← hsc] at hat
  have hkeep : ∀ a, ¬ (sc.1 ≤ a ∧ a < sc.1 + 8 * sc.2.1) → sc.2.2.2 a = m a := by
    intro a ha
    rw [hsc] at ha ⊢
    exact takeScratch_mem env primary _ m ha
  have hmem : ∀ a, InSpaces (primary :: others) a → sc.2.2.2 a = m a := fun a ha =>
    hkeep a (fun hcon => hat.apart a hcon.1 hcon.2 ha)
  have hlen := takeScratch_len env primary (totalCapacity primary others) m
  refine ⟨_, sc.2.2.1, by
    rw [startCollection]
    simp only [hrun, Option.bind_eq_bind, Option.bind_some, ← hsc]
    rfl, by rw [hsc], by rw [hsc], rfl, rfl, fun a ha => ?_, ?_⟩
  · exact hkeep a ha
  refine ⟨⟨htable _ rfl rfl rfl, ?_, List.nodup_nil, fun b hb => absurd hb List.not_mem_nil,
    .nil _, fun b hb _ => hmem _ (hok.inHeader b hb), fun b hb => absurd hb List.not_mem_nil,
    fun b hb => absurd hb List.not_mem_nil⟩, fun b hb => absurd hb List.not_mem_nil,
    fun b hb i hi => hmem _ (hok.inBody b hb i hi), fun b hb => absurd hb List.not_mem_nil,
    fun b hb => absurd hb List.not_mem_nil, fun b hb i hi hd => hd.elim,
    fun b hb => absurd hb List.not_mem_nil⟩
  refine ⟨fun a ha => hat.apart a ha.1 ha.2, hat.addressable, ?_⟩
  have hsum : ((poolView m (primary :: others)).objs.map (fun b => 1 + m.objLen b)).sum ≤
      sc.2.1 := by
    rw [hpool.sum_eq, hsc]
    exact Nat.le_trans (Nat.le_max_right _ _) hlen
  exact hsum

/-- The roots and the Cheney loop copy exactly the survivors. -/
theorem traceRoots_spec (env : GcEnv) {m : Mem} {primary : MemorySpace}
    {others : List MemorySpace} {ws : List PolyWord} (hwf : HeapWf m (primary :: others) ws)
    (hfresh : ScratchFresh m (primary :: others) ws
      (takeScratch env primary (totalCapacity primary others) m).1
      (takeScratch env primary (totalCapacity primary others) m).2.1) :
    ∃ c₀ reuse c copied φ, startCollection env m primary others = some (c₀, reuse) ∧
      traceRoots c₀ (fun c => forwardRoots c ws) =
        some (c, ws.map ((poolView m (primary :: others)).relocate φ true)) ∧
      SurvivorsCopied (poolView m (primary :: others)) ws c copied φ ∧ c.untrackedAddrs = [] ∧
      c.weakObjects = (copied.filter (fun b => isWeakWordObj (m (b - 8)))).map φ := by
  have hok := hwf.heapOk
  obtain ⟨c₀, reuse, hstart, hts, htl, hw₀, hu₀, -, hi₀⟩ :=
    startCollection_spec env hwf.pool hok ⟨hfresh.apart, hfresh.addressable⟩
  obtain ⟨c₁, copied₁, φ₁, hroots, hi₁, -, hstep₁, hweak₁, htgt₁, hunt₁, -⟩ :=
    visits_forwardRoots hok ws [] id _ c₀ hi₀ (List.forall_mem_map.2 (fun w hw t ht => .root hw ht))
  rw [List.forall_mem_map] at htgt₁ hunt₁
  have hscan₁ : ScanInv (InSpaces (primary :: others)) (poolView m (primary :: others))
      ((poolView m (primary :: others)).Reach ws) [] [] copied₁ φ₁ 0 c₁ :=
    ⟨hi₁.congrDone (by simp), .nil _, by rw [hweak₁, hw₀]; rfl⟩
  obtain ⟨c, copied, φ, scan, hscan, hi, hext, hstep, hunt⟩ :=
    cheneyScan_spec hok c₁.toLen [] copied₁ φ₁ 0 c₁ hscan₁ (by omega)
  rw [List.nil_append] at hi hext
  have htgt : ∀ w ∈ ws, ∀ t, (poolView m (primary :: others)).target true w = some t →
      t ∈ copied := fun w hw t ht => hext.mem (htgt₁ w hw t ht)
  have hframe := hstep₁.frame.trans hstep.frame
  have hinv := hi.inv
  rw [List.append_nil] at hinv
  refine ⟨c₀, reuse, c, copied, φ, hstart, ?_, ⟨hinv.nodup, fun b => ⟨hinv.live b, ?_⟩,
    hinv.laid, hinv.toUsed_eq, hinv.toUsed_le, ?_⟩, ?_, hi.registered⟩
  · have hrel : ws.map ((poolView m (primary :: others)).relocate φ₁ true) =
        ws.map ((poolView m (primary :: others)).relocate φ true) :=
      List.map_congr_left (fun w hw =>
        (HeapView.relocate_congr (fun t ht => hext.keeps t (htgt₁ w hw t ht))).symm)
    simp only [traceRoots, hroots, hscan, hrel, Option.bind_eq_bind, Option.bind_some]
  · exact hi.reach_copied hok htgt
  · refine hi.graphIso hok hwf.pool.aligned ?_ htgt ?_ ?_
    · rw [hframe.toStart, hts]
      exact hfresh.aligned
    · rw [hframe.toStart, hframe.toLen, hts, htl]
      exact hfresh.roots
    · rw [hframe.toStart, hframe.toLen, hts, htl]
      exact hfresh.slots
  · rw [← hu₀, hstep₁.untracked_iff hstep, hunt₁, hunt]
    exact ⟨fun w hw => (hwf.roots w hw).tracked,
      fun b hb a ha => (hwf.slots b a (hinv.live b hb) ha).tracked⟩

theorem poolView_promoted {c : Collector} {primary : MemorySpace} {others : List MemorySpace}
    {objs : List Nat} {reuse : Bool}
    (hl : ObjectsIn c.mem c.toStart objs (c.toStart + 8 * c.toUsed)) :
    poolView c.mem (primary.replaceStoragePingpong c.toStart c.toLen c.toUsed reuse ::
      others.map MemorySpace.resetEmpty) = { mem := c.mem, objs := objs } := by
  have hrest : (others.map MemorySpace.resetEmpty).flatMap (objectsOf c.mem) = [] := by
    refine List.flatMap_eq_nil_iff.2 (fun s hs => ?_)
    obtain ⟨t, -, rfl⟩ := List.mem_map.1 hs
    exact objectsOf_unused rfl
  have hprim : objectsOf c.mem (primary.replaceStoragePingpong c.toStart c.toLen c.toUsed reuse) =
      objs := objectsOf_eq hl
  rw [poolView, List.flatMap_cons, hrest, hprim, List.append_nil]

/-- The serial collection keeps exactly the survivors: after the trace to-space holds them, and
where no weak word object is reached, the collection returns the pool that consists of them. -/
def CollectsSurvivors (env : GcEnv) (m : Mem) (primary : MemorySpace) (others : List MemorySpace)
    (ws : List PolyWord) : Prop :=
  ∃ c₀ reuse c copied φ, startCollection env m primary others = some (c₀, reuse) ∧
    traceRoots c₀ (fun c => forwardRoots c ws) =
      some (c, ws.map ((poolView m (primary :: others)).relocate φ true)) ∧
    SurvivorsCopied (poolView m (primary :: others)) ws c copied φ ∧
    ((∀ b, (poolView m (primary :: others)).Reach ws b → isWeakWordObj (m (b - 8)) = false) →
      ∃ res, collectPool env m primary others (fun c => forwardRoots c ws) =
          some (res, ws.map ((poolView m (primary :: others)).relocate φ true)) ∧
        res.newUsed = c.toUsed ∧ poolView res.mem res.spaces = copiedView c copied φ)

theorem serial_collection (env : GcEnv) (m : Mem) (primary : MemorySpace)
    (others : List MemorySpace) (ws : List PolyWord) (hwf : HeapWf m (primary :: others) ws)
    (hfresh : ScratchFresh m (primary :: others) ws
      (takeScratch env primary (totalCapacity primary others) m).1
      (takeScratch env primary (totalCapacity primary others) m).2.1) :
    CollectsSurvivors env m primary others ws := by
  obtain ⟨c₀, reuse, c, copied, φ, hstart, htrace, hcopied, hunt, hweak⟩ :=
    traceRoots_spec env hwf hfresh
  refine ⟨c₀, reuse, c, copied, φ, hstart, htrace, hcopied, fun hstrong => ?_⟩
  have hnone : c.weakObjects = [] := by
    rw [hweak, List.filter_eq_nil_iff.2 (fun b hb => ?_), List.map_nil]
    rw [hstrong b ((hcopied.survivors b).1 hb)]
    decide
  have hfix : c.weakFixup = some { c with weakObjects := [] } := by
    rw [Collector.weakFixup, hnone]
    rfl
  refine ⟨{ mem := c.mem, newUsed := c.toUsed, spaces :=
    primary.replaceStoragePingpong c.toStart c.toLen c.toUsed reuse ::
      others.map MemorySpace.resetEmpty }, ?_, rfl, poolView_promoted hcopied.laid⟩
  simp only [collectPool, hstart, htrace, hfix, promote, hunt, Option.bind_eq_bind,
    Option.bind_some, ne_eq, not_true_eq_false, if_false]

/-- A cell that points at itself and at a closure, then a byte object nothing points at; in a second
space the closure, of a code object and the integer 7, and the code, with a constant that points into
the cell. -/
def loopMem : Mem := fun a =>
  if a = 0x1000 then makeLengthWord 2 0#8
  else if a = 0x1008 then PolyWord.fromAddr 0x1008
  else if a = 0x1010 then PolyWord.fromAddr 0x2008
  else if a = 0x1018 then makeLengthWord 1 fByteObj
  else if a = 0x2000 then makeLengthWord 2 fClosureObj
  else if a = 0x2008 then PolyWord.fromAddr 0x2020
  else if a = 0x2010 then PolyWord.tagged 7
  else if a = 0x2018 then makeLengthWord 4 fCodeObj
  else if a = 0x2028 then PolyWord.fromAddr 1
  else if a = 0x2030 then PolyWord.fromAddr 0x1010
  else if a = 0x2038 then BitVec.ofInt 64 (-16)
  else PolyWord.zero

def loopSpace : MemorySpace := { start := 0x1000, capacity := 6, used := 5, spare := none }
def codeSpace : MemorySpace := { start := 0x2000, capacity := 8, used := 8, spare := none }

theorem loop_objects :
    (poolView loopMem [loopSpace, codeSpace]).objs = [0x1008, 0x1020, 0x2008, 0x2020] := by
  decide

theorem loop_poolOk : PoolOk loopMem [loopSpace, codeSpace] := by
  have hobj : objectsOf loopMem loopSpace = [0x1008, 0x1020] := by decide
  have hcode : objectsOf loopMem codeSpace = [0x2008, 0x2020] := by decide
  refine ⟨by simp [MemorySpace.Apart, MemorySpace.limit, loopSpace, codeSpace, wordBytes], fun s hs => ?_⟩
  simp only [List.mem_cons, List.not_mem_nil, or_false] at hs
  rcases hs with rfl | rfl
  · refine ⟨by decide, by decide, by decide, ?_, ?_, ?_⟩
    · rw [hobj]
      exact .cons _ _ _ (.cons _ _ _ (.nil _))
    · rw [hobj]
      decide
    · rw [hobj]
      decide
  · refine ⟨by decide, by decide, by decide, ?_, ?_, ?_⟩
    · rw [hcode]
      exact .cons _ _ _ (.cons _ _ _ (.nil _))
    · rw [hcode]
      decide
    · rw [hcode]
      decide

/-- A collection of the two spaces. -/
theorem loop_collection :
    CollectsSurvivors { audit := false, reuseMaxBytes := 0, freshAddr := 0x4000 } loopMem loopSpace
      [codeSpace] [PolyWord.fromAddr 0x1008] := by
  have hmem : ∀ b, (poolView loopMem [loopSpace, codeSpace]).Reach [PolyWord.fromAddr 0x1008] b →
      b ∈ [0x1008, 0x1020, 0x2008, 0x2020] := by
    intro b hb
    rw [← loop_objects]
    cases hb with
    | root _ ht => exact HeapView.target_mem ht
    | slot _ _ ht => exact HeapView.target_mem ht
  have hslots : ∀ b ∈ [0x1008, 0x1020, 0x2008, 0x2020], ∀ i < (slotRange loopMem b).2,
      (slotRange loopMem b).1 + 8 * i ∈ [0x1008, 0x1010, 0x2008, 0x2010, 0x2030] := by decide
  have hslot : ∀ b a, (poolView loopMem [loopSpace, codeSpace]).Reach [PolyWord.fromAddr 0x1008] b →
      IsSlot loopMem b a → a ∈ [0x1008, 0x1010, 0x2008, 0x2010, 0x2030] := by
    rintro b a hb ⟨i, hi, rfl⟩
    exact hslots b (hmem b hb) i hi
  refine serial_collection _ _ _ _ _ ⟨loop_poolOk, ?_, ?_, ?_⟩ ⟨?_, ?_, ?_, ?_, ?_⟩
  · simp only [List.forall_mem_singleton]
    exact Or.inr (Or.inl ⟨0x1008, by decide⟩)
  · have hwords : ∀ a ∈ [0x1008, 0x1010, 0x2008, 0x2010, 0x2030], (loopMem a).isTagged = true ∨
        ((poolView loopMem [loopSpace, codeSpace]).container (loopMem a).addr).isSome = true := by
      decide
    intro b a hb ha
    exact (hwords a (hslot b a hb ha)).imp_right (fun h => Or.inl (Option.isSome_iff_exists.1 h))
  · intro b hb hcode
    have honly : ∀ b ∈ [0x1008, 0x1020, 0x2008, 0x2020], typeOf (loopMem (b - 8)) = fCodeObj →
        b = 0x2020 := by decide
    obtain rfl := honly b (hmem b hb) hcode
    exact ⟨by decide, by decide, by decide, by decide⟩
  · rintro a hlo hhi ⟨s, hs, h1, h2⟩
    have e1 : (takeScratch { audit := false, reuseMaxBytes := 0, freshAddr := 0x4000 } loopSpace
      (totalCapacity loopSpace [codeSpace]) loopMem).1 = 0x4000 := rfl
    have e2 : loopSpace.limit = 0x1030 := rfl
    have e3 : codeSpace.limit = 0x2040 := rfl
    simp only [List.mem_cons, List.not_mem_nil, or_false] at hs
    rcases hs with rfl | rfl <;> omega
  · rfl
  · decide
  · simp only [List.forall_mem_singleton]
    exact Or.inr (Or.inl (by decide))
  · have hwords : ∀ a ∈ [0x1008, 0x1010, 0x2008, 0x2010, 0x2030], (loopMem a).isTagged = true ∨
        (loopMem a).addr < 0x4000 := by decide
    intro b a hb ha
    exact (hwords a (hslot b a hb ha)).imp_right Or.inl
