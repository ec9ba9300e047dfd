import PolymlRs.Gc.Cheney

set_option autoImplicit false

/-! # Visiting roots

Roots outside the heap are visited one after the other. `Visits` says what such a visit does: the
words it is given are relocated, their targets are copied, and nothing else happens. It composes
(`Visits.bind`), so a visitor built from single forwards is specified by the list of its words.

The slots of the permanent mutable objects are roots too, but they lie in memory: `ImageInv` says
which of them have been visited, and `walkImage_spec` is the walk over one region. -/

section Roots

variable {inSpace : Nat → Prop} {h : HeapView} {live : Nat → Prop}

/-- A root slot: is it filtered by its tag bit, and the word in it. -/
abbrev RootWord := Bool × PolyWord

/-- `run` visits the root slots `words`, and returns what `out` makes of the places of the
objects. -/
def Visits (inSpace : Nat → Prop) (h : HeapView) (live : Nat → Prop) {ρ : Type}
    (run : Collector → Option (Collector × ρ)) (words : List RootWord)
    (out : (Nat → Nat) → ρ) : Prop :=
  ∀ (copied : List Nat) (φ : Nat → Nat) (done : Nat → Prop) (c : Collector),
    CheneyInv inSpace h live copied φ done c →
    (∀ p ∈ words, ∀ t, h.target p.1 p.2 = some t → live t) →
    ∃ c' copied' φ', run c = some (c', out φ') ∧
      CheneyInv inSpace h live copied' φ' done c' ∧ Extends copied φ copied' φ' ∧
      TraceStep inSpace c c' ∧ c'.weakObjects = c.weakObjects ∧
      (∀ p ∈ words, ∀ t, h.target p.1 p.2 = some t → t ∈ copied') ∧
      (c'.untrackedAddrs = c.untrackedAddrs ↔ ∀ p ∈ words, Tracked inSpace h p.1 p.2) ∧
      ∀ ψ, (∀ b ∈ copied', ψ b = φ' b) → out ψ = out φ'

theorem Visits.pure {ρ : Type} (r : ρ) :
    Visits inSpace h live (fun c => some (c, r)) [] (fun _ => r) := by
  intro copied φ done c hi _
  exact ⟨c, copied, φ, rfl, hi, Extends.refl _ _, TraceStep.refl _ _, rfl, by simp, by simp,
    fun _ _ => rfl⟩

/-- One visit after the other, which may use the result of the first. -/
theorem Visits.bindAt {ρ σ : Type} {run : Collector → Option (Collector × ρ)} {words : List RootWord}
    {out : (Nat → Nat) → ρ} {k : ρ → Collector → Option (Collector × σ)}
    {words' : List RootWord} {g : ρ → (Nat → Nat) → σ} (hrun : Visits inSpace h live run words out)
    (hnext : ∀ φ, Visits inSpace h live (k (out φ)) words' (g (out φ))) :
    Visits inSpace h live (fun c => (run c).bind (fun p => k p.2 p.1)) (words ++ words')
      (fun φ => g (out φ) φ) := by
  intro copied φ done c hi hlive
  obtain ⟨c₁, copied₁, φ₁, hrun₁, hi₁, hext₁, hstep₁, hweak₁, htgt₁, hunt₁, hout₁⟩ :=
    hrun copied φ done c hi (fun p hp => hlive p (List.mem_append_left _ hp))
  obtain ⟨c₂, copied₂, φ₂, hrun₂, hi₂, hext₂, hstep₂, hweak₂, htgt₂, hunt₂, hout₂⟩ :=
    hnext φ₁ copied₁ φ₁ done c₁ hi₁ (fun p hp => hlive p (List.mem_append_right _ hp))
  have hsame : out φ₂ = out φ₁ := hout₁ φ₂ hext₂.keeps
  refine ⟨c₂, copied₂, φ₂, ?_, hi₂, hext₁.trans hext₂, hstep₁.trans hstep₂, hweak₂.trans hweak₁,
    fun p hp t ht => ?_, ?_, fun ψ hψ => ?_⟩
  · beta_reduce
    rw [hrun₁, Option.bind_some, hrun₂, hsame]
  · rcases List.mem_append.1 hp with hp | hp
    · exact hext₂.mem (htgt₁ p hp t ht)
    · exact htgt₂ p hp t ht
  · rw [hstep₁.untracked_iff hstep₂, hunt₁, hunt₂, List.forall_mem_append]
  · have hψ₁ : out ψ = out φ₁ := hout₁ ψ (fun b hb => by
      rw [hψ b (hext₂.mem hb), hext₂.keeps b hb])
    beta_reduce
    rw [hψ₁, hout₂ ψ hψ, hsame]

/-- One visit after the other. -/
theorem Visits.bind {ρ σ : Type} {run : Collector → Option (Collector × ρ)} {words : List RootWord}
    {out : (Nat → Nat) → ρ} {k : ρ → Collector → Option (Collector × σ)}
    {words' : List RootWord} {g : ρ → (Nat → Nat) → σ} (hrun : Visits inSpace h live run words out)
    (hnext : ∀ r, Visits inSpace h live (k r) words' (g r)) :
    Visits inSpace h live (fun c => (run c).bind (fun p => k p.2 p.1)) (words ++ words')
      (fun φ => g (out φ) φ) := hrun.bindAt (fun φ => hnext (out φ))

/-- The same visit with another name for its result. -/
theorem Visits.congr {ρ : Type} {run run' : Collector → Option (Collector × ρ)}
    {words words' : List RootWord} {out out' : (Nat → Nat) → ρ}
    (hv : Visits inSpace h live run words out) (hrun : ∀ c, run' c = run c)
    (hwords : words' = words) (hout : ∀ φ, out' φ = out φ) :
    Visits inSpace h live run' words' out' := by
  have hrun' : run' = run := funext hrun
  have hout' : out' = out := funext hout
  rw [hrun', hwords, hout']
  exact hv

theorem visits_forwardImpl (hok : HeapOk inSpace h live) (tf : Bool) (w : PolyWord) :
    Visits inSpace h live (fun c => c.forwardImpl w tf) [(tf, w)]
      (fun φ => h.relocate φ tf w) := by
  intro copied φ done c hi hlive
  obtain ⟨c', copied', φ', hrun, hi', hext, hstep, hweak, htgt, hunt⟩ :=
    forwardImpl_spec hok hi (hlive (tf, w) (List.mem_singleton_self _))
  refine ⟨c', copied', φ', hrun, hi', hext, hstep, hweak, ?_, ?_, fun ψ hψ => ?_⟩
  · exact fun p hp t ht => by
      rw [List.mem_singleton.1 hp] at ht
      exact htgt t ht
  · rw [List.forall_mem_singleton]
    exact hunt
  · exact HeapView.relocate_congr (fun t ht => hψ t (htgt t ht))

theorem visits_forward (hok : HeapOk inSpace h live) (w : PolyWord) :
    Visits inSpace h live (fun c => c.forward w) [(true, w)] (fun φ => h.relocate φ true w) :=
  visits_forwardImpl hok true w

/-- A list of slots. -/
theorem visits_forwardEach (hok : HeapOk inSpace h live) (tf : Bool) (ws : List PolyWord) :
    Visits inSpace h live
      (fun c => forwardEach (fun c w => c.forwardImpl w tf) c ws) (ws.map (fun w => (tf, w)))
      (fun φ => ws.map (h.relocate φ tf)) := by
  induction ws with
  | nil => exact Visits.pure []
  | cons w ws ih =>
    exact ((visits_forwardImpl hok tf w).bind (fun w' => ih.bind
      (fun ws' => Visits.pure (w' :: ws')))).congr (fun _ => rfl) (by simp) (fun _ => rfl)

theorem visits_forwardRoots (hok : HeapOk inSpace h live) (ws : List PolyWord) :
    Visits inSpace h live (fun c => forwardRoots c ws) (ws.map (fun w => (true, w)))
      (fun φ => ws.map (h.relocate φ true)) := visits_forwardEach hok true ws

/-! ## Permanent mutable objects -/

/-- The match of the walk over one permanent object: the same kinds as a scan has. -/
def Collector.visitImageObject (c : Collector) (lw : PolyWord) (n body : Nat) : Option Collector :=
  if typeOf lw = fByteObj then some c
  else if typeOf lw = fCodeObj then
    let (cp, count) := constSegmentForCode c.mem body
    c.forwardSlots cp count
  else if typeOf lw = fClosureObj then c.forwardSlots body n
  else if isWeak lw then some { c with weakObjects := c.weakObjects ++ [body] }
  else c.forwardSlots body n

/-- The walk over the region of `len` words at `base`, from word `i`. Every round advances `i`, so
`len` rounds of fuel always suffice. -/
def Collector.walkImage (base len : Nat) : Nat → Nat → Collector → Option Collector
  | 0, _, c => some c
  | fuel + 1, i, c =>
    if i < len then
      let lw := c.mem (base + wordBytes * i)
      let n := lengthOf lw
      -- the body would overrun the region: stop here
      if i + 1 + n > len then some c
      else if n = 0 then walkImage base len fuel (i + 1) c
      else do
        let c ← c.visitImageObject lw n (base + wordBytes * (i + 1))
        walkImage base len fuel (i + (1 + n)) c
    else some c

/-- All regions. -/
def Collector.walkImages (c : Collector) : List (Nat × Nat) → Option Collector
  | [] => some c
  | (base, len) :: rest => do
    let c ← Collector.walkImage base len len 0 c
    c.walkImages rest

theorem visitImageObject_eq (c : Collector) (body : Nat) :
    c.visitImageObject (c.mem (body - 8)) (c.mem.objLen body) body = c.scanObject body := rfl

/-- The objects of a region. -/
def imageObjects (m : Mem) (r : Nat × Nat) : List Nat := objectsFrom m (r.1 + 8 * r.2) r.2 r.1

/-- The permanent slots `visited` have been forwarded, the other permanent words are as they were. -/
structure ImageInv (inSpace : Nat → Prop) (h : HeapView) (copied : List Nat) (φ : Nat → Nat)
    (visited : Nat → Prop) (c : Collector) : Prop where
  apart : ∀ a, visited a → ¬ inSpace a ∧ ¬ c.InScratch a
  kept : ∀ a, ¬ inSpace a → ¬ c.InScratch a → ¬ visited a → c.mem a = h.mem a
  moved : ∀ a, visited a → c.mem a = h.relocate φ true (h.mem a)
  targets : ∀ a, visited a → ∀ t, h.target true (h.mem a) = some t → t ∈ copied

variable {copied : List Nat} {φ : Nat → Nat} {done visited : Nat → Prop} {c : Collector}

theorem ImageInv.congrVisited {v : Nat → Prop}
    (hi : ImageInv inSpace h copied φ visited c) (heq : ∀ a, visited a ↔ v a) :
    ImageInv inSpace h copied φ v c := by
  rwa [show v = visited from funext (fun a => propext (heq a).symm)]

/-- Visiting roots that lie elsewhere leaves the permanent words alone. -/
theorem ImageInv.trace (hi : ImageInv inSpace h copied φ visited c) {copied' : List Nat}
    {φ' : Nat → Nat} {c' : Collector} (hext : Extends copied φ copied' φ')
    (hstep : TraceStep inSpace c c') : ImageInv inSpace h copied' φ' visited c' := by
  have hscr : ∀ {a}, ¬ c'.InScratch a → ¬ c.InScratch a := fun hn hc =>
    hn ((hstep.frame.inScratch _).2 hc)
  refine ⟨fun a ha => ⟨(hi.apart a ha).1, fun hc => (hi.apart a ha).2
    ((hstep.frame.inScratch a).1 hc)⟩, fun a hs ha hv => ?_, fun a ha => ?_,
    fun a ha t ht => hext.mem (hi.targets a ha t ht)⟩
  · rw [hstep.outside a hs (hscr ha)]
    exact hi.kept a hs (hscr ha) hv
  · have hap := hi.apart a ha
    rw [hstep.outside a hap.1 hap.2, hi.moved a ha]
    exact (HeapView.relocate_congr (fun t ht => hext.keeps t (hi.targets a ha t ht))).symm

/-- What the walk over permanent objects does to the collector: `tracked` says whether the words it
has forwarded pass the collector's checks. -/
structure Walked (inSpace : Nat → Prop) (h : HeapView) (live done : Nat → Prop) (c : Collector)
    (copied : List Nat) (φ : Nat → Nat) (visited : Nat → Prop) (weak : List Nat) (tracked : Prop)
    (c' : Collector) (copied' : List Nat) (φ' : Nat → Nat) : Prop where
  inv : CheneyInv inSpace h live copied' φ' done c'
  image : ImageInv inSpace h copied' φ' visited c'
  ext : Extends copied φ copied' φ'
  frame : SameFrame c c'
  weak : c'.weakObjects = c.weakObjects ++ weak
  untracked : c.untrackedAddrs <+: c'.untrackedAddrs
  tracked_iff : c'.untrackedAddrs = c.untrackedAddrs ↔ tracked

theorem Walked.refl (hi : CheneyInv inSpace h live copied φ done c)
    (him : ImageInv inSpace h copied φ visited c) :
    Walked inSpace h live done c copied φ visited [] True c copied φ :=
  ⟨hi, him, Extends.refl _ _, SameFrame.refl c, (List.append_nil _).symm, List.prefix_rfl, by simp⟩

theorem Walked.trans {visited₁ visited₂ : Nat → Prop} {weak₁ weak₂ : List Nat} {p₁ p₂ : Prop}
    {c₁ c₂ : Collector} {copied₁ copied₂ : List Nat} {φ₁ φ₂ : Nat → Nat}
    (h₁ : Walked inSpace h live done c copied φ visited₁ weak₁ p₁ c₁ copied₁ φ₁)
    (h₂ : Walked inSpace h live done c₁ copied₁ φ₁ visited₂ weak₂ p₂ c₂ copied₂ φ₂) :
    Walked inSpace h live done c copied φ visited₂ (weak₁ ++ weak₂) (p₁ ∧ p₂) c₂ copied₂ φ₂ := by
  refine ⟨h₂.inv, h₂.image, h₁.ext.trans h₂.ext, h₁.frame.trans h₂.frame, ?_,
    h₁.untracked.trans h₂.untracked, ?_⟩
  · rw [h₂.weak, h₁.weak, List.append_assoc]
  · rw [← h₁.tracked_iff, ← h₂.tracked_iff]
    constructor
    · intro heq
      have h23 := h₂.untracked
      rw [heq] at h23
      have h12 := h₁.untracked
      have := (h12.eq_of_length (Nat.le_antisymm h12.length_le h23.length_le)).symm
      exact ⟨this, heq.trans this.symm⟩
    · rintro ⟨h12, h23⟩
      exact h23.trans h12

/-- One permanent slot. -/
theorem forwardSlot_image (hok : HeapOk inSpace h live)
    (hi : CheneyInv inSpace h live copied φ done c)
    (him : ImageInv inSpace h copied φ visited c) {a : Nat} (hs : ¬ inSpace a)
    (hscr : ¬ c.InScratch a) (hv : ¬ visited a)
    (hlive : ∀ t, h.target true (h.mem a) = some t → live t) :
    ∃ c' copied' φ', c.forwardSlot a = some c' ∧
      Walked inSpace h live done c copied φ (fun x => visited x ∨ x = a) []
        (Tracked inSpace h true (h.mem a)) c' copied' φ' := by
  obtain ⟨c₁, copied', φ', hf, hi', hext, hstep, hweak, htgt, hunt⟩ :=
    forwardImpl_spec hok hi hlive
  have him' := him.trace hext hstep
  have hscr' : ¬ c₁.InScratch a := fun hc => hscr ((hstep.frame.inScratch a).1 hc)
  have hother : ∀ x, x ≠ a →
      (c₁.write a (h.relocate φ' true (h.mem a))).mem x = c₁.mem x := fun x hx =>
    Function.update_of_ne hx _ _
  refine ⟨c₁.write a (h.relocate φ' true (h.mem a)), copied', φ', ?_,
    ⟨hi'.congr hok ⟨rfl, rfl, rfl, rfl, rfl⟩ rfl (fun x hx => hother x ?_), ?_, hext,
      hstep.frame.trans ⟨rfl, rfl, rfl, rfl, rfl⟩, ?_, hstep.untracked, hunt⟩⟩
  · rw [Collector.forwardSlot, him.kept a hs hscr hv, Collector.forward, hf]
    rfl
  · rintro rfl
    exact hx.elim hs hscr'
  · refine ⟨?_, fun x hx hxs hxv => ?_, fun x hx => ?_, ?_⟩
    · rintro x (hx | rfl)
      · exact him'.apart x hx
      · exact ⟨hs, hscr'⟩
    · rw [not_or] at hxv
      rw [hother x hxv.2]
      exact him'.kept x hx hxs hxv.1
    · by_cases he : x = a
      · rw [he]
        exact Function.update_self ..
      · rw [hother x he]
        exact him'.moved x (hx.resolve_right he)
    · rintro x (hx | rfl)
      · exact him'.targets x hx
      · exact htgt
  · rw [List.append_nil]
    exact hweak

/-- A run of permanent slots. -/
theorem forwardSlots_image (hok : HeapOk inSpace h live)
    (hi : CheneyInv inSpace h live copied φ done c)
    (him : ImageInv inSpace h copied φ visited c) {a n : Nat}
    (hs : ∀ j < n, ¬ inSpace (a + 8 * j) ∧ ¬ c.InScratch (a + 8 * j) ∧ ¬ visited (a + 8 * j))
    (hlive : ∀ j < n, ∀ t, h.target true (h.mem (a + 8 * j)) = some t → live t) :
    ∃ c' copied' φ', c.forwardSlots a n = some c' ∧
      Walked inSpace h live done c copied φ (fun x => visited x ∨ ∃ j < n, x = a + 8 * j) []
        (∀ j < n, Tracked inSpace h true (h.mem (a + 8 * j))) c' copied' φ' := by
  induction n with
  | zero =>
    have hw := Walked.refl hi (him.congrVisited
      (v := fun x => visited x ∨ ∃ j < 0, x = a + 8 * j) (by simp))
    exact ⟨c, copied, φ, rfl, by simpa using hw⟩
  | succ n ih =>
    obtain ⟨c₁, copied₁, φ₁, hrun₁, hw₁⟩ :=
      ih (fun j hj => hs j (by omega)) (fun j hj => hlive j (by omega))
    obtain ⟨hin, hscr, hv⟩ := hs n (by omega)
    have hv₁ : ¬ (visited (a + 8 * n) ∨ ∃ j < n, a + 8 * n = a + 8 * j) := by
      rintro (hd | ⟨j, hj, he⟩)
      · exact hv hd
      · omega
    obtain ⟨c₂, copied₂, φ₂, hrun₂, hw₂⟩ := forwardSlot_image hok hw₁.inv hw₁.image hin
      (fun hc => hscr ((hw₁.frame.inScratch _).1 hc)) hv₁ (hlive n (by omega))
    have hw := hw₁.trans hw₂
    rw [List.append_nil, ← Nat.forall_lt_succ_right] at hw
    refine ⟨c₂, copied₂, φ₂, ?_, ⟨hw.inv, hw.image.congrVisited (fun x => ?_), hw.ext, hw.frame,
      hw.weak, hw.untracked, hw.tracked_iff⟩⟩
    · rw [Collector.forwardSlots, hrun₁, Option.bind_eq_bind, Option.bind_some, wordBytes]
      exact hrun₂
    · constructor
      · rintro ((hd | ⟨j, hj, he⟩) | he)
        · exact Or.inl hd
        · exact Or.inr ⟨j, by omega, he⟩
        · exact Or.inr ⟨n, by omega, he⟩
      · rintro (hd | ⟨j, hj, he⟩)
        · exact Or.inl (Or.inl hd)
        · rcases Nat.lt_succ_iff_lt_or_eq.1 hj with hj | rfl
          · exact Or.inl (Or.inr ⟨j, hj, he⟩)
          · exact Or.inr he

/-- One permanent object, none of whose words has been visited. -/
theorem scanObject_image (hok : HeapOk inSpace h live)
    (hi : CheneyInv inSpace h live copied φ done c)
    (him : ImageInv inSpace h copied φ visited c) {b : Nat}
    (hcode : typeOf (h.mem (b - 8)) = fCodeObj → h.CodeOk b)
    (hhdr : c.mem (b - 8) = h.mem (b - 8))
    (hbody : ∀ i < h.mem.objLen b,
      ¬ inSpace (b + 8 * i) ∧ ¬ c.InScratch (b + 8 * i) ∧ ¬ visited (b + 8 * i))
    (hlive : ∀ a, IsSlot h.mem b a → ∀ t, h.target true (h.mem a) = some t → live t) :
    ∃ c' copied' φ', c.scanObject b = some c' ∧
      Walked inSpace h live done c copied φ (fun x => visited x ∨ IsSlot h.mem b x)
        (if isWeakWordObj (h.mem (b - 8)) then [b] else []) (SlotsTracked inSpace h b)
        c' copied' φ' := by
  rw [scanObject_eq, hhdr]
  by_cases hweak : isWeakWordObj (h.mem (b - 8)) = true
  · rw [if_pos hweak, if_pos hweak]
    have hno := slotRange_of_weak hweak
    refine ⟨_, copied, φ, rfl, hi.congr hok ⟨rfl, rfl, rfl, rfl, rfl⟩ rfl (fun _ _ => rfl),
      ?_, Extends.refl _ _, ⟨rfl, rfl, rfl, rfl, rfl⟩, rfl, List.prefix_rfl,
      iff_of_true rfl (fun a ha => absurd ha (hno a))⟩
    exact ImageInv.congrVisited ⟨him.apart, him.kept, him.moved, him.targets⟩
      (fun a => by simp [hno a])
  · rw [if_neg hweak, if_neg hweak]
    obtain ⟨k, hk, hle⟩ := slotRange_body hcode
    have hslot : ∀ j < (slotRange h.mem b).2, IsSlot h.mem b (b + 8 * (k + j)) :=
      fun j hj => ⟨j, hj, by omega⟩
    have hrange : slotRange c.mem b = (b + 8 * k, (slotRange h.mem b).2) := by
      rw [slotRange_shift hcode hhdr (fun i hil _ =>
        him.kept _ (hbody i hil).1 (hbody i hil).2.1 (hbody i hil).2.2), hk]
      simp only [show b + 8 * k - b + b = b + 8 * k by omega]
    have hat : ∀ j, b + 8 * k + 8 * j = b + 8 * (k + j) := by omega
    obtain ⟨c', copied', φ', hrun, hw⟩ := forwardSlots_image (a := b + 8 * k)
      (n := (slotRange h.mem b).2) hok hi him
      (fun j hj => by rw [hat]; exact hbody _ (by omega))
      (fun j hj t ht => hlive _ (by rw [hat]; exact hslot j hj) t ht)
    rw [hrange]
    refine ⟨c', copied', φ', hrun, hw.inv, hw.image.congrVisited (fun x => ?_), hw.ext, hw.frame,
      hw.weak, hw.untracked, hw.tracked_iff.trans ?_⟩
    · refine or_congr_right ⟨?_, ?_⟩
      · rintro ⟨j, hj, rfl⟩
        rw [hat]
        exact hslot j hj
      · rintro ⟨j, hj, he⟩
        exact ⟨j, hj, by omega⟩
    · constructor
      · rintro ht a ⟨j, hj, rfl⟩
        rw [hk]
        exact ht j hj
      · exact fun ht j hj => ht _ (by rw [hat]; exact hslot j hj)

/-- The permanent words from `lo` up to `hi` are in no from-space and not in the scratch buffer, and
none has been visited. -/
def Fresh (inSpace visited : Nat → Prop) (c : Collector) (lo hi : Nat) : Prop :=
  ∀ a, lo ≤ a → a < hi → ¬ inSpace a ∧ ¬ c.InScratch a ∧ ¬ visited a

/-- What the walk may be given for a list of permanent objects. -/
structure ImageOk (h : HeapView) (live : Nat → Prop) (objs : List Nat) : Prop where
  code : ∀ b ∈ objs, 0 < h.mem.objLen b → typeOf (h.mem (b - 8)) = fCodeObj → h.CodeOk b
  live : ∀ b ∈ objs, 0 < h.mem.objLen b → ∀ a, IsSlot h.mem b a →
    ∀ t, h.target true (h.mem a) = some t → live t

/-- A slot of one of the objects that have slots at all. -/
def SlotAmong (h : HeapView) (objs : List Nat) (a : Nat) : Prop :=
  ∃ b ∈ objs, 0 < h.mem.objLen b ∧ IsSlot h.mem b a

/-- The weak ones among the objects. -/
def weakAmong (h : HeapView) (objs : List Nat) : List Nat :=
  objs.filter (fun b => decide (0 < h.mem.objLen b) && isWeakWordObj (h.mem (b - 8)))

/-- Every slot of every object passes the collector's checks. -/
def AllTracked (inSpace : Nat → Prop) (h : HeapView) (objs : List Nat) : Prop :=
  ∀ b ∈ objs, 0 < h.mem.objLen b → SlotsTracked inSpace h b

theorem slotAmong_cons {b a : Nat} {objs : List Nat} : SlotAmong h (b :: objs) a ↔
    (0 < h.mem.objLen b ∧ IsSlot h.mem b a) ∨ SlotAmong h objs a := by
  simp only [SlotAmong, List.exists_mem_cons_iff]

/-- The walk over one region visits each slot of each of its objects. -/
theorem walkImage_spec (hok : HeapOk inSpace h live) (base len : Nat) :
    ∀ (fuel i : Nat) (objs : List Nat) (copied : List Nat) (φ : Nat → Nat) (visited : Nat → Prop)
      (c : Collector),
      CheneyInv inSpace h live copied φ done c → ImageInv inSpace h copied φ visited c →
      ObjectsIn h.mem (base + 8 * i) objs (base + 8 * len) → len ≤ i + fuel →
      Fresh inSpace visited c (base + 8 * i) (base + 8 * len) → ImageOk h live objs →
      ∃ c' copied' φ', Collector.walkImage base len fuel i c = some c' ∧
        Walked inSpace h live done c copied φ (fun x => visited x ∨ SlotAmong h objs x)
          (weakAmong h objs) (AllTracked inSpace h objs) c' copied' φ' := by
  intro fuel
  induction fuel with
  | zero =>
    intro i objs copied φ visited c hi him hobjs hfuel _ _
    have hnil : objs = [] := by
      have := hobjs.length_le
      exact List.length_eq_zero_iff.1 (by omega)
    subst hnil
    have hw := Walked.refl hi (him.congrVisited
      (v := fun x => visited x ∨ SlotAmong h [] x) (by simp [SlotAmong]))
    exact ⟨c, copied, φ, rfl, by simpa [AllTracked, weakAmong] using hw⟩
  | succ fuel ih =>
    intro i objs copied φ visited c hi him hobjs hfuel hfresh himg
    generalize ha : base + 8 * i = a at hobjs hfresh
    generalize he : base + 8 * len = e at hobjs hfresh
    cases hobjs with
    | nil =>
      have hw := Walked.refl hi (him.congrVisited
        (v := fun x => visited x ∨ SlotAmong h [] x) (by simp [SlotAmong]))
      refine ⟨c, copied, φ, ?_, by simpa [AllTracked, weakAmong] using hw⟩
      rw [Collector.walkImage, if_neg (by omega)]
    | cons _ objs _ rest =>
      subst ha he
      have hle := rest.le
      have hhdr : c.mem (base + 8 * i) = h.mem (base + 8 * i) := by
        have := hfresh (base + 8 * i) (Nat.le_refl _) (by omega)
        exact him.kept _ this.1 this.2.1 this.2.2
      have hobjLen : h.mem.objLen (base + 8 * i + 8) = lengthOf (h.mem (base + 8 * i)) := by
        simp only [Mem.objLen, wordBytes, Nat.add_sub_cancel]
      have himg' : ImageOk h live objs := ⟨fun b hb => himg.code b (List.mem_cons_of_mem _ hb),
        fun b hb => himg.live b (List.mem_cons_of_mem _ hb)⟩
      have hnext : base + 8 * (i + (1 + lengthOf (h.mem (base + 8 * i)))) =
          base + 8 * i + 8 + 8 * lengthOf (h.mem (base + 8 * i)) := by omega
      have hbody : base + 8 * (i + 1) = base + 8 * i + 8 := by omega
      have hstep : ∀ n, lengthOf (h.mem (base + 8 * i)) = n →
          Collector.walkImage base len (fuel + 1) i c =
            if n = 0 then Collector.walkImage base len fuel (i + 1) c
            else (c.scanObject (base + 8 * i + 8)).bind
              (fun c => Collector.walkImage base len fuel (i + (1 + n)) c) := by
        rintro n rfl
        have hfit : ¬ i + 1 + lengthOf (h.mem (base + 8 * i)) > len := by omega
        rw [Collector.walkImage, if_pos (by omega)]
        simp only [wordBytes, hhdr, hbody, if_neg hfit, Option.bind_eq_bind]
        rw [← visitImageObject_eq, Nat.add_sub_cancel, hhdr]
        simp only [Mem.objLen, wordBytes, Nat.add_sub_cancel, hhdr]
      by_cases hn : lengthOf (h.mem (base + 8 * i)) = 0
      · -- a zero-length object is its length word only
        obtain ⟨c', copied', φ', hrun, hw⟩ := ih (i + 1) objs copied φ visited c hi him
          (by rwa [hbody, show base + 8 * i + 8 = base + 8 * i + 8 +
            8 * lengthOf (h.mem (base + 8 * i)) by omega]) (by omega)
          (fun a h1 h2 => hfresh a (by omega) h2) himg'
        have hzero : ¬ 0 < h.mem.objLen (base + 8 * i + 8) := by omega
        refine ⟨c', copied', φ', ?_, ?_⟩
        · rw [hstep _ rfl, if_pos hn]
          exact hrun
        · simpa [slotAmong_cons, weakAmong, AllTracked, hzero] using hw
      · have hpos : 0 < h.mem.objLen (base + 8 * i + 8) := by omega
        have hcode := himg.code _ List.mem_cons_self hpos
        have hin : ∀ j < h.mem.objLen (base + 8 * i + 8), base + 8 * i ≤ base + 8 * i + 8 + 8 * j ∧
            base + 8 * i + 8 + 8 * j < base + 8 * len := by
          intro j hj
          omega
        obtain ⟨c₁, copied₁, φ₁, hrun₁, hw₁⟩ := scanObject_image (b := base + 8 * i + 8) hok hi him
          hcode (by rwa [Nat.add_sub_cancel]) (fun j hj => hfresh _ (hin j hj).1 (hin j hj).2)
          (himg.live _ List.mem_cons_self hpos)
        have hfresh₁ : Fresh inSpace
            (fun x => visited x ∨ IsSlot h.mem (base + 8 * i + 8) x) c₁
            (base + 8 * (i + (1 + lengthOf (h.mem (base + 8 * i))))) (base + 8 * len) := by
          intro a h1 h2
          obtain ⟨hs, hscr, hv⟩ := hfresh a (by omega) h2
          refine ⟨hs, fun hc => hscr ((hw₁.frame.inScratch a).1 hc), ?_⟩
          rintro (hd | hd)
          · exact hv hd
          · obtain ⟨j, hj, rfl⟩ := hd.body hcode
            omega
        obtain ⟨c', copied', φ', hrun, hw₂⟩ := ih (i + (1 + lengthOf (h.mem (base + 8 * i)))) objs
          copied₁ φ₁ _ c₁ hw₁.inv hw₁.image (by rwa [hnext]) (by omega) hfresh₁ himg'
        have hw := hw₁.trans hw₂
        refine ⟨c', copied', φ', ?_, ⟨hw.inv, hw.image.congrVisited (fun x => ?_), hw.ext, hw.frame,
          ?_, hw.untracked, hw.tracked_iff.trans ?_⟩⟩
        · rw [hstep _ rfl, if_neg hn, hrun₁, Option.bind_some]
          exact hrun
        · rw [slotAmong_cons, or_assoc]
          simp [hpos]
        · rw [hw.weak, weakAmong, weakAmong, List.filter_cons]
          congr 1
          by_cases hwk : isWeakWordObj (h.mem (base + 8 * i + 8 - 8)) = true
          · simp only [hwk, hpos, decide_true, Bool.and_self, if_true]
            rfl
          · simp only [hwk, Bool.and_false, Bool.false_eq_true, if_false]
            rfl
        · simp [AllTracked, hpos]

/-- Two regions, given by address and length in words, do not overlap. -/
def RegionApart (r s : Nat × Nat) : Prop := r.1 + 8 * r.2 ≤ s.1 ∨ s.1 + 8 * s.2 ≤ r.1

instance : Std.Symm RegionApart := ⟨fun _ _ h => h.symm⟩

/-- The regions of permanent mutable objects: laid out, apart from the heap and from each other. -/
structure RegionsOk (inSpace : Nat → Prop) (h : HeapView) (live : Nat → Prop) (c : Collector)
    (regions : List (Nat × Nat)) : Prop where
  laid : ∀ r ∈ regions, ObjectsIn h.mem r.1 (imageObjects h.mem r) (r.1 + 8 * r.2)
  apart : ∀ r ∈ regions, ∀ a, r.1 ≤ a → a < r.1 + 8 * r.2 → ¬ inSpace a ∧ ¬ c.InScratch a
  separate : regions.Pairwise RegionApart
  objects : ∀ r ∈ regions, ImageOk h live (imageObjects h.mem r)

/-- All objects of the regions. -/
def regionObjects (m : Mem) (regions : List (Nat × Nat)) : List Nat :=
  regions.flatMap (imageObjects m)

theorem walkImages_spec (hok : HeapOk inSpace h live) (regions : List (Nat × Nat)) :
    ∀ (copied : List Nat) (φ : Nat → Nat) (visited : Nat → Prop) (c : Collector),
      CheneyInv inSpace h live copied φ done c → ImageInv inSpace h copied φ visited c →
      RegionsOk inSpace h live c regions →
      (∀ r ∈ regions, ∀ a, r.1 ≤ a → a < r.1 + 8 * r.2 → ¬ visited a) →
      ∃ c' copied' φ', c.walkImages regions = some c' ∧
        Walked inSpace h live done c copied φ
          (fun x => visited x ∨ SlotAmong h (regionObjects h.mem regions) x)
          (weakAmong h (regionObjects h.mem regions))
          (AllTracked inSpace h (regionObjects h.mem regions)) c' copied' φ' := by
  induction regions with
  | nil =>
    intro copied φ visited c hi him _ _
    have hw := Walked.refl hi (him.congrVisited
      (v := fun x => visited x ∨ SlotAmong h (regionObjects h.mem []) x)
      (by simp [SlotAmong, regionObjects]))
    exact ⟨c, copied, φ, rfl, by simpa [AllTracked, weakAmong, regionObjects] using hw⟩
  | cons r regions ih =>
    intro copied φ visited c hi him hreg hv
    obtain ⟨hsep, hsep'⟩ := List.pairwise_cons.1 hreg.separate
    have hlaid := hreg.laid r List.mem_cons_self
    have himg := hreg.objects r List.mem_cons_self
    obtain ⟨c₁, copied₁, φ₁, hrun₁, hw₁⟩ := walkImage_spec hok r.1 r.2 r.2 0
      (imageObjects h.mem r) copied φ visited c hi him (by simpa using hlaid) (by omega)
      (fun a h1 h2 => by
        have hap := hreg.apart r List.mem_cons_self a (by omega) h2
        exact ⟨hap.1, hap.2, hv r List.mem_cons_self a (by omega) h2⟩) himg
    have hbound : ∀ a, SlotAmong h (imageObjects h.mem r) a → r.1 ≤ a ∧ a < r.1 + 8 * r.2 := by
      rintro a ⟨b, hb, hpos, ha⟩
      obtain ⟨j, hj, rfl⟩ := ha.body (himg.code b hb hpos)
      have := hlaid.bounds hb
      omega
    obtain ⟨c', copied', φ', hrun, hw₂⟩ := ih copied₁ φ₁ _ c₁ hw₁.inv hw₁.image
      ⟨fun s hs => hreg.laid s (List.mem_cons_of_mem _ hs), fun s hs a h1 h2 => by
        have hap := hreg.apart s (List.mem_cons_of_mem _ hs) a h1 h2
        exact ⟨hap.1, fun hc => hap.2 ((hw₁.frame.inScratch a).1 hc)⟩, hsep',
        fun s hs => hreg.objects s (List.mem_cons_of_mem _ hs)⟩
      (by
        rintro s hs a h1 h2 (hd | hd)
        · exact hv s (List.mem_cons_of_mem _ hs) a h1 h2 hd
        · have hb := hbound a hd
          rcases hsep s hs with hlt | hlt <;> omega)
    have hw := hw₁.trans hw₂
    have hsplit : regionObjects h.mem (r :: regions) =
        imageObjects h.mem r ++ regionObjects h.mem regions := List.flatMap_cons
    refine ⟨c', copied', φ', ?_, ⟨hw.inv, hw.image.congrVisited (fun x => ?_), hw.ext, hw.frame,
      ?_, hw.untracked, hw.tracked_iff.trans ?_⟩⟩
    · rw [Collector.walkImages, hrun₁, Option.bind_eq_bind, Option.bind_some]
      exact hrun
    · rw [hsplit, or_assoc]
      refine or_congr_right ?_
      simp only [SlotAmong, List.mem_append, or_and_right, exists_or]
    · rw [hw.weak, hsplit, weakAmong, weakAmong, weakAmong, List.filter_append]
    · rw [hsplit]
      simp only [AllTracked, List.forall_mem_append]

end Roots
