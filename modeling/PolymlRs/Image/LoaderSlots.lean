import Mathlib.Data.Nat.Size
import PolymlRs.Image.LoaderDecode
import PolymlRs.Lib.Fallible

set_option autoImplicit false

/-! # The two passes of the loader

What each pass does to the spaces and the memory. The first gives every object a slot of its own in
the space of its kind and needs exactly the words `capacityFor` counts; the second writes each object
inside its slot, so that at the end all of them are there. -/

namespace MemorySpace

theorem grow_start (s : MemorySpace) (n : Nat) : (s.grow n).start = s.start := rfl

theorem grow_used (s : MemorySpace) (n : Nat) : (s.grow n).used = s.used + n := rfl

theorem grow_capacity (s : MemorySpace) (n : Nat) : (s.grow n).capacity = s.capacity := rfl

theorem tryAlloc_room {s : MemorySpace} {n : Nat} (h : s.used + 1 + n ≤ s.capacity) :
    s.tryAlloc n = some (s.grow (n + 1), s.start + 8 * (s.used + 1)) := by
  unfold tryAlloc grow
  dsimp only
  rw [if_neg (Nat.not_lt.2 h), Nat.add_assoc, Nat.add_comm 1 n]

end MemorySpace

namespace Image

/-! ## Allocation -/

@[simp] theorem Spaces.get_set_self (s : Spaces) (kind : SpaceKind) (space : MemorySpace) :
    (s.set kind space).get kind = space := by
  cases kind <;> rfl

theorem Spaces.get_set_of_ne (s : Spaces) {kind k : SpaceKind} (space : MemorySpace)
    (h : k ≠ kind) : (s.set kind space).get k = s.get k := by
  cases kind <;> cases k <;> first | rfl | exact absurd rfl h

/-- An object with its slot: address and flags. -/
abbrev Placed := Object × Nat × BitVec 8

/-- The words of the slots do not overlap. -/
def Placed.Apart (e e' : Placed) : Prop :=
  e.2.1 + 8 * bodyWordCount e.1.body + 8 ≤ e'.2.1 ∨ e'.2.1 + 8 * bodyWordCount e'.1.body + 8 ≤ e.2.1

/-- The word at `a` is not one of the slot. -/
def Placed.Outside (a : Nat) (e : Placed) : Prop :=
  a + 8 ≤ e.2.1 - 8 ∨ e.2.1 + 8 * bodyWordCount e.1.body ≤ a

/-- The slot of an object among the words that its space hands out from `s` to `s'`. -/
structure Placed.Within (s s' : Spaces) (e : Placed) : Prop where
  flags : e.2.2 = (classify e.1).2
  lower : (s.get (classify e.1).1).start + 8 * ((s.get (classify e.1).1).used + 1) ≤ e.2.1
  upper : e.2.1 + 8 * bodyWordCount e.1.body ≤
    (s.get (classify e.1).1).start + 8 * (s'.get (classify e.1).1).used
  aligned : e.2.1 % 8 = (s.get (classify e.1).1).start % 8

/-- The storage of the spaces does not overlap. -/
def Spaces.Disjoint (s : Spaces) : Prop :=
  ∀ k k', k ≠ k' → (s.get k).limit ≤ (s.get k').start ∨ (s.get k').limit ≤ (s.get k).start

theorem capacityFor_cons (kind : SpaceKind) (obj : Object) (objs : List Object) :
    capacityFor kind (obj :: objs) =
      (if (classify obj).1 = kind then bodyWordCount obj.body + 1 else 0) +
        capacityFor kind objs := by
  rw [capacityFor, List.map_cons, List.sum_cons]
  rfl

/-- An allocation that finds room; the other spaces keep their size. -/
theorem Spaces.alloc_room {s : Spaces} {kind : SpaceKind} {n : Nat}
    (h : (s.get kind).used + 1 + n ≤ (s.get kind).capacity) :
    ∃ s', s.alloc kind n = some (s', (s.get kind).start + 8 * ((s.get kind).used + 1)) ∧
      ∀ k, s'.get k = (s.get k).grow (if kind = k then n + 1 else 0) := by
  refine ⟨s.set kind ((s.get kind).grow (n + 1)), ?_, fun k => ?_⟩
  · rw [alloc, MemorySpace.tryAlloc_room h]
    rfl
  · by_cases hk : kind = k
    · subst hk
      rw [get_set_self, if_pos rfl]
    · rw [get_set_of_ne s _ (Ne.symm hk), if_neg hk]
      rfl

theorem Placed.Within.mono {s s₁ s' : Spaces} {e : Placed} {n : SpaceKind → Nat}
    (h : e.Within s₁ s') (hs : ∀ k, s₁.get k = (s.get k).grow (n k)) : e.Within s s' := by
  have hlower := h.lower
  rw [hs] at hlower
  refine ⟨h.flags, Nat.le_trans ?_ hlower, ?_, ?_⟩
  · rw [MemorySpace.grow_start, MemorySpace.grow_used]
    omega
  · have hupper := h.upper
    rwa [hs] at hupper
  · have haligned := h.aligned
    rwa [hs] at haligned

/-- With room for all objects the first pass succeeds, and the slots are apart. -/
theorem layout_spec {objs : List Object} {s : Spaces}
    (hroom : ∀ k, (s.get k).used + capacityFor k objs ≤ (s.get k).capacity) (hdisj : s.Disjoint) :
    ∃ s' slots, layout s objs = some (s', slots) ∧ slots.length = objs.length ∧
      (∀ k, s'.get k = (s.get k).grow (capacityFor k objs)) ∧
      (∀ e ∈ objs.zip slots, Placed.Within s s' e) ∧
      (objs.zip slots).Pairwise Placed.Apart := by
  induction objs generalizing s with
  | nil => exact ⟨s, [], rfl, rfl, fun k => rfl, by simp, .nil⟩
  | cons obj objs ih =>
    have hroom₀ := hroom (classify obj).1
    rw [capacityFor_cons, if_pos rfl] at hroom₀
    obtain ⟨s₁, halloc, hs₁⟩ :=
      @Spaces.alloc_room s (classify obj).1 (bodyWordCount obj.body) (by omega)
    have hroom₁ : ∀ k, (s₁.get k).used + capacityFor k objs ≤ (s₁.get k).capacity := by
      intro k
      have hk := hroom k
      rw [capacityFor_cons] at hk
      rw [hs₁, MemorySpace.grow_used, MemorySpace.grow_capacity]
      omega
    have hdisj₁ : s₁.Disjoint := by
      intro k k' hne
      rw [hs₁, hs₁]
      exact hdisj k k' hne
    obtain ⟨s', slots, hlayout, hlen, hs', hwithin, hapart⟩ := ih hroom₁ hdisj₁
    have hgrow : ∀ k, s'.get k = (s.get k).grow (capacityFor k (obj :: objs)) := by
      intro k
      rw [hs', hs₁, capacityFor_cons]
      simp only [MemorySpace.grow, Nat.add_assoc]
    have hhead : Placed.Within s s' (obj, (s.get (classify obj).1).start +
        8 * ((s.get (classify obj).1).used + 1), (classify obj).2) := by
      refine ⟨rfl, Nat.le_refl _, ?_, Nat.add_mul_mod_self_left ..⟩
      rw [hgrow, capacityFor_cons, if_pos rfl, MemorySpace.grow_used]
      dsimp only
      omega
    refine ⟨s', ((s.get (classify obj).1).start + 8 * ((s.get (classify obj).1).used + 1),
      (classify obj).2) :: slots, ?_, congrArg Nat.succ hlen, hgrow, ?_, ?_⟩
    · rw [layout]
      dsimp only
      rw [halloc]
      simp only [Option.bind_eq_bind, Option.bind_some, hlayout]
    · intro e he
      rcases List.mem_cons.1 he with rfl | he
      · exact hhead
      · exact (hwithin e he).mono hs₁
    · refine List.pairwise_cons.2 ⟨fun e he => ?_, hapart⟩
      have htail := (hwithin e he).mono hs₁
      by_cases hkind : (classify obj).1 = (classify e.1).1
      · -- later slots of the same space come behind
        have hlower := (hwithin e he).lower
        rw [hs₁, if_pos hkind, ← hkind, MemorySpace.grow_start, MemorySpace.grow_used] at hlower
        refine Or.inl ?_
        dsimp only
        omega
      · have hlo := hhead.lower
        have hhi := hhead.upper
        have hlo' := htail.lower
        have hhi' := htail.upper
        have hcap := hroom (classify obj).1
        have hcap' := hroom (classify e.1).1
        rw [hgrow, MemorySpace.grow_used] at hhi hhi'
        have hd := hdisj _ _ hkind
        unfold MemorySpace.limit wordBytes at hd
        unfold Placed.Apart
        dsimp only at hlo hhi ⊢
        omega

/-! ## Boxed integers -/

/-- A magnitude has at most eight bytes, and they hold all of it. -/
theorem magnitudeBytes_spec (n : Int64) :
    1 ≤ magnitudeBytes n ∧ magnitudeBytes n ≤ 8 ∧ n.toInt.natAbs < 256 ^ magnitudeBytes n := by
  have hsize : n.toInt.natAbs.size ≤ 64 := by
    have hlo := n.le_toInt
    have hhi := n.toInt_lt
    rw [Nat.size_le]
    omega
  have hbits : n.toInt.natAbs.size ≤ 8 * magnitudeBytes n := by
    unfold magnitudeBytes leadingZeros
    omega
  refine ⟨Nat.le_max_right .., ?_, ?_⟩
  · unfold magnitudeBytes
    omega
  · have hpow : (256 : Nat) ^ magnitudeBytes n = 2 ^ (8 * magnitudeBytes n) := by
      rw [Nat.pow_mul]
    rw [hpow]
    exact Nat.size_le.1 hbits

theorem boxLongIntWords_eq (n : Int64) : boxLongIntWords n = 1 := by
  obtain ⟨hlo, hhi, -⟩ := magnitudeBytes_spec n
  unfold boxLongIntWords wordsFor wordBytes
  omega

/-- The low bytes of a magnitude. -/
theorem ofDigits_toLeBytes (mag : Nat) {k : Nat} (hk : k ≤ 8) :
    Nat.ofDigits 256 (((toLeBytes mag).take k).map UInt8.toNat) = mag % 256 ^ k := by
  have htake : ((toLeBytes mag).take k).map UInt8.toNat =
      (List.range k).map (fun i => mag / 256 ^ i % 256) := by
    unfold toLeBytes
    rw [← List.map_take, List.take_range, Nat.min_eq_left hk, List.map_map]
    exact List.map_congr_left (fun i _ => UInt8.toNat_ofNat' ..)
  rw [htake]
  clear htake hk
  induction k with
  | zero => simp [Nat.mod_one]
  | succ k ih =>
    rw [List.range_succ, List.map_append, Nat.ofDigits_append, ih, List.length_map,
      List.length_range, Nat.mod_pow_succ]
    simp

/-- The bytes of the data word of a box. -/
def boxBytes (n : Int64) : List UInt8 :=
  padded ((toLeBytes n.toInt.natAbs).take (magnitudeBytes n))

theorem length_boxBytes (n : Int64) : (boxBytes n).length = 8 := by
  obtain ⟨hlo, hhi, -⟩ := magnitudeBytes_spec n
  rw [boxBytes, length_padded, List.length_take, toLeBytes, List.length_map, List.length_range,
    Nat.min_eq_left hhi]
  unfold wordsFor wordBytes
  omega

theorem ofDigits_boxBytes (n : Int64) :
    Nat.ofDigits 256 ((boxBytes n).map UInt8.toNat) = n.toInt.natAbs := by
  obtain ⟨-, hhi, hall⟩ := magnitudeBytes_spec n
  have hzero : UInt8.toNat 0 = 0 := rfl
  rw [boxBytes, padded, List.map_append, List.map_replicate, hzero,
    Nat.ofDigits_append_replicate_zero, ofDigits_toLeBytes _ hhi, Nat.mod_eq_of_lt hall]

/-- The memory with a box at `p`. -/
def putBox (m : Mem) (p : Nat) (n : Int64) : Mem :=
  (m.writeBytes p (boxBytes n)).setLengthWord p 1
    (if n.toInt < 0 then fByteObj ||| fNegativeBit else fByteObj)

theorem putBox_outside {m : Mem} {p a : Nat} {n : Int64} (hp : 8 ≤ p)
    (ha : a + 8 ≤ p - 8 ∨ p + 8 ≤ a) : putBox m p n a = m a := by
  rw [putBox, Mem.setLengthWord, Function.update_of_ne (by unfold wordBytes; omega),
    Mem.writeBytes_outside]
  rw [length_boxBytes]
  omega

theorem putBox_boxed {m : Mem} {p : Nat} {n : Int64} (haligned : p % 8 = 0) (hp : 8 ≤ p)
    (hbig : ¬FitsTagged n.toInt) : BoxedInt (putBox m p n) p 1 n.toInt := by
  have hagree : ∀ a, p ≤ a → a + 8 ≤ p + 8 → putBox m p n a = m.writeBytes p (boxBytes n) a := by
    intro a h _
    exact Function.update_of_ne (by unfold wordBytes; omega) ..
  have hread : (putBox m p n).readBytes p 8 = boxBytes n := by
    rw [Mem.readBytes_words haligned (by omega) hagree (Nat.le_refl p) (Nat.le_refl _),
      ← length_boxBytes n]
    exact Mem.readBytes_writeBytes m p (boxBytes n)
  have hword : (putBox m p n p).toNat = n.toInt.natAbs := by
    rw [Mem.toNat_eq_ofDigits haligned, hread, ofDigits_boxBytes]
  refine ⟨haligned, hp, Function.update_self .., by decide, ?_, ⟨0, rfl, fun h => ?_⟩, hbig⟩
  · rw [← hword]
    exact Nat.ofDigits_singleton
  · rw [Nat.mul_zero, Nat.add_zero] at h
    rw [h] at hword
    rw [Int.natAbs_eq_zero.1 hword.symm] at hbig
    exact hbig (by decide)

theorem boxLongInt_room {m : Mem} {s : MemorySpace} {n : Int64} (hroom : s.used + 2 ≤ s.capacity) :
    boxLongInt m s n = some (putBox m (s.start + 8 * (s.used + 1)) n, s.grow 2,
      s.start + 8 * (s.used + 1)) := by
  have halloc : s.tryAlloc 1 = some (s.grow 2, s.start + 8 * (s.used + 1)) :=
    MemorySpace.tryAlloc_room hroom
  unfold boxLongInt
  simp only [boxLongIntWords_eq, halloc, writeBytesPacked_eq]
  rfl

/-- A box depends on its two words. -/
theorem boxedInt_congr {m m' : Mem} {p : Nat} {n : Int} (h : BoxedInt m p 1 n)
    (hheader : m' (p - 8) = m (p - 8)) (hbody : m' p = m p) : BoxedInt m' p 1 n := by
  refine ⟨h.aligned, h.header, hheader.trans h.lengthWord, h.length, ?_, ?_, h.large⟩
  · have hlimbs : m'.limbs p 1 = m.limbs p 1 := by
      simp only [Mem.limbs, List.range_one, List.map_singleton, Nat.mul_zero, Nat.add_zero, hbody]
    rw [hlimbs, h.magnitude]
  · obtain ⟨i, hi, hne⟩ := h.leading
    obtain rfl := Nat.succ.inj hi
    exact ⟨0, rfl, by rwa [Nat.mul_zero, Nat.add_zero, hbody]⟩

/-- The boxes lie, one behind the other, in the words from `lo` up to `hi`. -/
structure Boxes (m : Mem) (lo hi : Nat) (boxed : List (Int64 × Nat)) : Prop where
  each : ∀ e ∈ boxed, BoxedInt m e.2 1 e.1.toInt ∧ lo + 8 ≤ e.2 ∧ e.2 + 8 ≤ hi
  apart : boxed.Pairwise (fun e e' => e.2 + 16 ≤ e'.2)

theorem Boxes.congr {m m' : Mem} {lo hi : Nat} {boxed : List (Int64 × Nat)}
    (h : Boxes m lo hi boxed) (hm : ∀ a, lo ≤ a → a + 8 ≤ hi → m' a = m a) :
    Boxes m' lo hi boxed := by
  refine ⟨fun e he => ?_, h.apart⟩
  obtain ⟨hbox, hlo, hhi⟩ := h.each e he
  exact ⟨boxedInt_congr hbox (hm _ (by omega) (by omega)) (hm _ (by omega) hhi), hlo, hhi⟩

/-- With room for all of them, the integers are boxed. -/
theorem boxAll_spec {ns : List Int64} {m : Mem} {s : MemorySpace}
    (hbig : ∀ n ∈ ns, ¬FitsTagged n.toInt) (haligned : s.start % 8 = 0)
    (hroom : s.used + 2 * ns.length ≤ s.capacity) :
    ∃ m' boxed, boxAll m s ns = some (m', s.grow (2 * ns.length), boxed) ∧
      boxed.map Prod.fst = ns ∧
      Boxes m' (s.start + 8 * s.used) (s.start + 8 * (s.used + 2 * ns.length)) boxed ∧
      ∀ a, a + 8 ≤ s.start + 8 * s.used ∨ s.start + 8 * (s.used + 2 * ns.length) ≤ a →
        m' a = m a := by
  induction ns generalizing m s with
  | nil => exact ⟨m, [], rfl, rfl, ⟨by simp, .nil⟩, fun a _ => rfl⟩
  | cons n ns ih =>
    rw [List.length_cons] at hroom
    have hbig₀ := hbig n List.mem_cons_self
    obtain ⟨m', boxed, hall, hkeys, hboxes, hframe⟩ :=
      @ih (putBox m (s.start + 8 * (s.used + 1)) n) (s.grow 2)
        (fun k hk => hbig k (List.mem_cons_of_mem _ hk)) haligned
        (by rw [MemorySpace.grow_used, MemorySpace.grow_capacity]; omega)
    rw [MemorySpace.grow_start, MemorySpace.grow_used] at hboxes hframe
    have hsum : s.used + 2 + 2 * ns.length = s.used + 2 * (ns.length + 1) := by omega
    rw [hsum] at hboxes hframe
    -- the later boxes leave the first one alone
    have hfirst : BoxedInt m' (s.start + 8 * (s.used + 1)) 1 n.toInt :=
      boxedInt_congr (putBox_boxed (by omega) (by omega) hbig₀) (hframe _ (by omega))
        (hframe _ (by omega))
    refine ⟨m', (n, s.start + 8 * (s.used + 1)) :: boxed, ?_, ?_, ⟨fun e he => ?_, ?_⟩,
      fun a ha => ?_⟩
    · rw [boxAll, boxLongInt_room (by omega)]
      simp only [Option.bind_eq_bind, Option.bind_some, hall, List.length_cons]
      rw [MemorySpace.grow, MemorySpace.grow, MemorySpace.grow, hsum]
    · rw [List.map_cons, hkeys]
    · rw [List.length_cons]
      rcases List.mem_cons.1 he with rfl | he
      · exact ⟨hfirst, by dsimp only; omega, by dsimp only; omega⟩
      · obtain ⟨hbox, hlo, hhi⟩ := hboxes.each e he
        exact ⟨hbox, by omega, hhi⟩
    · refine List.pairwise_cons.2 ⟨fun e he => ?_, hboxes.apart⟩
      obtain ⟨-, hlo, -⟩ := hboxes.each e he
      dsimp only
      omega
    · rw [List.length_cons] at ha
      rw [hframe a (by omega), putBox_outside (by omega) (by omega)]

/-! ## The second pass -/

/-- The object is in its slot: its length word, and the body as `writeBody` writes it. -/
structure Placed.Written (addrs : Addresses) (m : Mem) (e : Placed) : Prop where
  header : m (e.2.1 - 8) = makeLengthWord (bodyWordCount e.1.body) e.2.2
  body : ∃ m₀ m₁, writeBody addrs m₀ e.2.1 e.1.body = .ok m₁ ∧
    ∀ a, e.2.1 ≤ a → a + 8 ≤ e.2.1 + 8 * bodyWordCount e.1.body → m a = m₁ a

/-- What an entry point object adds to the list of entry points. -/
def Placed.entryPoint? (e : Placed) : Option (String × Nat) :=
  match e.1.body with
  | .entryPoint name => some (name, e.2.1)
  | _ => none

/-- The values that a body is written from. -/
def slotValues : ObjectBody → List Value
  | .closure codeAddr vs => .ref codeAddr :: vs
  | body => valuesOf body

section Fill

variable {addrs : Addresses}

theorem writeValues_ok_iff {m : Mem} {p : Nat} {vs : List Value} :
    (∃ m', writeValues addrs m p vs = .ok m') ↔ ∀ v ∈ vs, ∃ w, resolveValue addrs v = .ok w := by
  induction vs generalizing m p with
  | nil => simp [writeValues]
  | cons v vs ih =>
    rw [writeValues, List.forall_mem_cons]
    constructor
    · rintro ⟨m', h⟩
      obtain ⟨w, hw, hrest⟩ := Except.bind_eq_ok.1 h
      exact ⟨⟨w, hw⟩, ih.1 ⟨m', hrest⟩⟩
    · rintro ⟨⟨w, hw⟩, hrest⟩
      obtain ⟨m', h⟩ := ih.2 hrest
      exact ⟨m', Except.bind_eq_ok.2 ⟨w, hw, h⟩⟩

/-- A body is written exactly when its values can be resolved. -/
theorem writeBody_ok_iff {m : Mem} {p : Nat} {body : ObjectBody} :
    (∃ m', writeBody addrs m p body = .ok m') ↔
      ∀ v ∈ slotValues body, ∃ w, resolveValue addrs v = .ok w := by
  cases body with
  | ordinary vs => exact writeValues_ok_iff
  | legacyClosure vs => exact writeValues_ok_iff
  | closure codeAddr vs =>
    rw [writeBody_closure]
    exact writeValues_ok_iff
  | code b cs rs =>
    constructor
    · rintro ⟨m', h⟩
      obtain ⟨m₂, hvalues, -⟩ := writeBody_code h
      exact writeValues_ok_iff.1 ⟨m₂, hvalues⟩
    · intro h
      rw [writeBody]
      obtain ⟨m₂, hvalues⟩ := writeValues_ok_iff.2 h
      exact ⟨_, Except.bind_eq_ok.2 ⟨m₂, hvalues, rfl⟩⟩
  | string b => simp [writeBody, slotValues, valuesOf]
  | bytes b => simp [writeBody, slotValues, valuesOf]
  | entryPoint name => simp [writeBody, slotValues, valuesOf]
  | weakRef => simp [writeBody, slotValues, valuesOf]

theorem fill_cons_ok {m m' : Mem} {e : Placed} {es : List Placed} {eps : List (String × Nat)} :
    fill addrs m (e :: es) = .ok (m', eps) ↔
      ∃ m₁ eps', writeBody addrs (m.setLengthWord e.2.1 (bodyWordCount e.1.body) e.2.2) e.2.1
        e.1.body = .ok m₁ ∧ fill addrs m₁ es = .ok (m', eps') ∧
        eps = e.entryPoint?.toList ++ eps' := by
  obtain ⟨obj, p, flags⟩ := e
  rw [fill]
  dsimp only
  rw [Except.bind_eq_ok]
  constructor
  · rintro ⟨m₁, hbody, h⟩
    obtain ⟨⟨m₂, eps'⟩, hrest, heps⟩ := Except.bind_eq_ok.1 h
    refine ⟨m₁, eps', hbody, ?_⟩
    cases hkind : obj.body with
    | entryPoint name =>
      rw [hkind] at heps
      obtain ⟨rfl, rfl⟩ := Prod.mk.inj (Except.ok.inj heps)
      refine ⟨hrest, ?_⟩
      rw [Placed.entryPoint?, hkind]
      rfl
    | _ =>
      rw [hkind] at heps
      obtain ⟨rfl, rfl⟩ := Prod.mk.inj (Except.ok.inj heps)
      refine ⟨hrest, ?_⟩
      rw [Placed.entryPoint?, hkind]
      rfl
  · rintro ⟨m₁, eps', hbody, hrest, rfl⟩
    refine ⟨m₁, hbody, Except.bind_eq_ok.2 ⟨(m', eps'), hrest, ?_⟩⟩
    cases hkind : obj.body <;> simp [Placed.entryPoint?, hkind]

/-- The pass goes through exactly when all values can be resolved. -/
theorem fill_ok_iff {m : Mem} {es : List Placed} : (∃ r, fill addrs m es = .ok r) ↔
    ∀ e ∈ es, ∀ v ∈ slotValues e.1.body, ∃ w, resolveValue addrs v = .ok w := by
  induction es generalizing m with
  | nil => simp [fill]
  | cons e es ih =>
    rw [List.forall_mem_cons]
    constructor
    · rintro ⟨⟨m', eps⟩, h⟩
      obtain ⟨m₁, eps', hbody, hrest, -⟩ := fill_cons_ok.1 h
      exact ⟨writeBody_ok_iff.1 ⟨m₁, hbody⟩, ih.1 ⟨_, hrest⟩⟩
    · rintro ⟨hhead, htail⟩
      obtain ⟨m₁, hbody⟩ := writeBody_ok_iff.2 hhead
      obtain ⟨⟨m', eps'⟩, hrest⟩ := ih.2 htail
      exact ⟨_, fill_cons_ok.2 ⟨m₁, eps', hbody, hrest, rfl⟩⟩

/-- What is in a slot stays there as long as its words do. -/
theorem Placed.Written.congr {m m' : Mem} {e : Placed} (h : e.Written addrs m) (hp : 8 ≤ e.2.1)
    (hm : ∀ a, e.2.1 - 8 ≤ a → a + 8 ≤ e.2.1 + 8 * bodyWordCount e.1.body → m' a = m a) :
    e.Written addrs m' := by
  obtain ⟨hheader, m₀, m₁, hbody, hslot⟩ := h
  refine ⟨(hm _ (Nat.le_refl _) (by omega)).trans hheader, m₀, m₁, hbody, fun a hlo hhi => ?_⟩
  rw [hm a (by omega) hhi, hslot a hlo hhi]

/-- After the pass every object is in its slot, and the other words are as they were. -/
theorem fill_spec {es : List Placed} {m m' : Mem} {eps : List (String × Nat)}
    (hp : ∀ e ∈ es, 8 ≤ e.2.1) (hapart : es.Pairwise Placed.Apart)
    (h : fill addrs m es = .ok (m', eps)) :
    (∀ a, (∀ e ∈ es, e.Outside a) → m' a = m a) ∧ (∀ e ∈ es, e.Written addrs m') ∧
      eps = es.filterMap Placed.entryPoint? := by
  induction es generalizing m eps with
  | nil =>
    obtain ⟨rfl, rfl⟩ := Prod.mk.inj (Except.ok.inj h)
    exact ⟨fun _ _ => rfl, by simp, rfl⟩
  | cons e es ih =>
    obtain ⟨m₁, eps', hbody, hrest, rfl⟩ := fill_cons_ok.1 h
    obtain ⟨hhead, htail⟩ := List.pairwise_cons.1 hapart
    obtain ⟨hframe, hwritten, rfl⟩ := ih (fun e he => hp e (List.mem_cons_of_mem _ he)) htail hrest
    have hp₀ := hp e List.mem_cons_self
    have hfirst : e.Written addrs m₁ := by
      refine ⟨?_, _, m₁, hbody, fun _ _ _ => rfl⟩
      rw [writeBody_outside hbody (Or.inl (by omega))]
      exact Function.update_self ..
    refine ⟨fun a ha => ?_, fun e' he' => ?_, ?_⟩
    · have hout := ha e List.mem_cons_self
      unfold Placed.Outside at hout
      rw [hframe a (fun e' he' => ha e' (List.mem_cons_of_mem _ he')),
        writeBody_outside hbody (by omega), Mem.setLengthWord, Function.update_of_ne]
      unfold wordBytes
      omega
    · rcases List.mem_cons.1 he' with rfl | he'
      · -- the slots of the rest are apart from this one
        refine hfirst.congr hp₀ (fun a hlo hhi => hframe a (fun e' he' => ?_))
        have hd := hhead e' he'
        unfold Placed.Apart at hd
        unfold Placed.Outside
        omega
      · exact hwritten e' he'
    · rw [List.filterMap_cons]
      cases e.entryPoint? <;> rfl

end Fill

end Image
