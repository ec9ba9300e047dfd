import PolymlRs.Image.LoaderSlots

set_option autoImplicit false

/-! # What a loaded image is

`Faithful` relates an image to the heap it was loaded into: the objects have slots of their own in
spaces of the size estimated for them, and decoding a slot gives back the object. `load_faithful`
says that a load that does not fail builds such a heap, and for which images it fails. -/

namespace Image

/-- The address of the storage of a space. -/
def LoadEnv.addrOf (env : LoadEnv) : SpaceKind → Nat
  | .immutable => env.immutableAddr
  | .mutable => env.mutableAddr
  | .code => env.codeAddr

/-- The size estimated for a space. -/
def capacityOf (image : Image) : SpaceKind → Nat
  | .immutable => image.capacities.1
  | .mutable => image.capacities.2.1
  | .code => image.capacities.2.2

/-- The allocator finds storage for the three spaces. -/
structure MemoryHolds (env : LoadEnv) (image : Image) : Prop where
  aligned : ∀ kind, env.addrOf kind % 8 = 0
  /-- User addresses have at most 56 bits. -/
  addressable : ∀ kind, env.addrOf kind + 8 * image.capacityOf kind ≤ 0x100000000000000
  apart : ∀ k k', k ≠ k' → env.addrOf k + 8 * image.capacityOf k ≤ env.addrOf k' ∨
    env.addrOf k' + 8 * image.capacityOf k' ≤ env.addrOf k

/-- The images that are loaded. -/
structure Loadable (env : LoadEnv) (image : Image) : Prop where
  root : image.root.toNat < image.objects.length
  wordSize : image.wordSize.bytes = wordBytes ∨ env.allowWordSizeMismatch = true
  refs : ∀ obj ∈ image.objects, ∀ id, .ref id ∈ slotValues obj.body →
    id.toNat < image.objects.length
  tagged : image.wordSize.bytes = wordBytes → ∀ obj ∈ image.objects, ∀ n,
    .tagged n ∈ valuesOf obj.body → taggedFitsHost n = true

/-- The `i`th object of the image, and the address it has in the heap. -/
def ObjectAt (image : Image) (addrs : Addresses) (i : Nat) (obj : Object) (p : Nat) : Prop :=
  image.objects[i]? = some obj ∧ addrs.pointers[i]? = some p

/-- The heap holds the image: `addrs` names its objects and its boxed integers. -/
structure Faithful (image : Image) (addrs : Addresses) (loaded : LoadedImage) : Prop where
  length : addrs.pointers.length = image.objects.length
  names : addrs.Ok
  root : addrs.pointers[image.root.toNat]? = some loaded.root
  /-- No space outgrows its size. -/
  sized : ∀ kind, (loaded.spaces.get kind).capacity = image.capacityOf kind ∧
    (loaded.spaces.get kind).used ≤ image.capacityOf kind
  /-- A slot lies in the space of its kind. -/
  within : ∀ i obj p, ObjectAt image addrs i obj p →
    (loaded.spaces.get (classify obj).1).start + 8 ≤ p ∧
    p + 8 * bodyWordCount obj.body ≤ (loaded.spaces.get (classify obj).1).start +
      8 * (loaded.spaces.get (classify obj).1).used
  /-- Slots, length words included, do not overlap. -/
  apart : ∀ i j obj obj' p p', i ≠ j → ObjectAt image addrs i obj p →
    ObjectAt image addrs j obj' p' →
    p + 8 * bodyWordCount obj.body + 8 ≤ p' ∨ p' + 8 * bodyWordCount obj'.body + 8 ≤ p
  /-- Filling an object writes in its slot only. -/
  contained : ∀ (body : ObjectBody) (p : Nat) (m m' : Mem), writeBody addrs m p body = .ok m' →
    ∀ a, a + 8 ≤ p ∨ p + 8 * bodyWordCount body ≤ a → m' a = m a
  refs : ∀ obj ∈ image.objects, ∀ id, .ref id ∈ slotValues obj.body →
    id.toNat < image.objects.length
  header : ∀ i obj p, ObjectAt image addrs i obj p →
    loaded.mem (p - 8) = makeLengthWord (bodyWordCount obj.body) (classify obj).2
  decoded : ∀ i obj p, ObjectAt image addrs i obj p →
    decodeObject addrs loaded.mem p (kindOf obj.body) = some (obj.flags, stored obj.body)
  /-- There are boxes for the integers that do not fit the host, and for no others. -/
  boxed : addrs.boxed.map Prod.fst = image.oversized
  boxes : ∀ e ∈ addrs.boxed, BoxedInt loaded.mem e.2 1 e.1.toInt
  entryPoints : loaded.entryPoints =
    (image.objects.zip addrs.pointers).filterMap (fun e => match e.1.body with
      | .entryPoint name => some (name, e.2)
      | _ => none)

/-! ## Preparing the load -/

theorem mem_addOversized {seen : List Int64} {v : Value} {n : Int64} :
    n ∈ addOversized seen v ↔ n ∈ seen ∨ v = .tagged n ∧ taggedFitsHost n = false := by
  cases v with
  | ref id => simp [addOversized]
  | tagged k =>
    have hk : (Value.tagged k = .tagged n) ↔ n = k := by simp [eq_comm]
    rw [hk]
    by_cases hadd : taggedFitsHost k = false ∧ k ∉ seen
    · have h : addOversized seen (.tagged k) = seen ++ [k] := by
        simp [addOversized, hadd.1, hadd.2]
      rw [h, List.mem_append, List.mem_singleton]
      constructor
      · rintro (hn | rfl)
        · exact Or.inl hn
        · exact Or.inr ⟨rfl, hadd.1⟩
      · exact Or.imp_right And.left
    · have h : addOversized seen (.tagged k) = seen := by
        simp only [addOversized]
        grind
      rw [h]
      constructor
      · exact Or.inl
      · rintro (hn | ⟨rfl, hfits⟩)
        · exact hn
        · by_contra hn
          exact hadd ⟨hfits, hn⟩

theorem mem_foldl_addOversized {vs : List Value} {seen : List Int64} {n : Int64} :
    n ∈ vs.foldl addOversized seen ↔
      n ∈ seen ∨ .tagged n ∈ vs ∧ taggedFitsHost n = false := by
  induction vs generalizing seen with
  | nil => simp
  | cons v vs ih =>
    rw [List.foldl_cons, ih, mem_addOversized, List.mem_cons, or_assoc, or_and_right,
      eq_comm (a := v)]

theorem mem_oversizedValues {image : Image} {n : Int64} : n ∈ oversizedValues image ↔
    (∃ obj ∈ image.objects, .tagged n ∈ valuesOf obj.body) ∧ taggedFitsHost n = false := by
  rw [oversizedValues, mem_foldl_addOversized]
  simp only [List.not_mem_nil, false_or, List.mem_flatMap]

theorem not_fitsTagged {n : Int64} (h : taggedFitsHost n = false) : ¬FitsTagged n.toInt :=
  of_decide_eq_false h

theorem oversized_big {image : Image} : ∀ n ∈ image.oversized, ¬FitsTagged n.toInt := by
  intro n hn
  unfold oversized at hn
  split at hn
  · exact not_fitsTagged (mem_oversizedValues.1 hn).2
  · cases hn

theorem sum_boxLongIntWords (ns : List Int64) :
    (ns.map (fun n => 1 + boxLongIntWords n)).sum = 2 * ns.length := by
  induction ns with
  | nil => rfl
  | cons n ns ih =>
    rw [List.map_cons, List.sum_cons, ih, boxLongIntWords_eq, List.length_cons]
    omega

/-- The words that the boxes take in a space. -/
def boxWords (image : Image) : SpaceKind → Nat
  | .immutable => 2 * image.oversized.length
  | _ => 0

/-- The estimate leaves room for the boxes and the objects. -/
theorem room (image : Image) (kind : SpaceKind) :
    image.boxWords kind + capacityFor kind image.objects ≤ image.capacityOf kind := by
  cases kind <;> unfold capacityOf capacities estimateCapacities boxWords <;> dsimp only
  · rw [sum_boxLongIntWords]
    omega
  · omega
  · omega

/-- A new space. -/
def LoadEnv.fresh (env : LoadEnv) (image : Image) (kind : SpaceKind) : MemorySpace :=
  { start := env.addrOf kind, capacity := image.capacityOf kind, used := 0, spare := none }

/-- The memory with the three new spaces. -/
def freshMem (env : LoadEnv) (m : Mem) (image : Image) : Mem :=
  ((m.fillZero env.immutableAddr (image.capacityOf .immutable)).fillZero env.mutableAddr
    (image.capacityOf .mutable)).fillZero env.codeAddr (image.capacityOf .code)

/-- The spaces in front of the first pass. -/
def boxedSpaces (env : LoadEnv) (image : Image) : Spaces where
  immutable := (env.fresh image .immutable).grow (2 * image.oversized.length)
  mutable := env.fresh image .mutable
  code := env.fresh image .code

theorem get_boxedSpaces (env : LoadEnv) (image : Image) (kind : SpaceKind) :
    (boxedSpaces env image).get kind = (env.fresh image kind).grow (image.boxWords kind) := by
  cases kind with
  | immutable => rfl
  | mutable => rfl
  | code => rfl

/-- What the second pass starts from. -/
structure Prepared (env : LoadEnv) (image : Image) (m : Mem) (boxed : List (Int64 × Nat))
    (spaces : Spaces) (slots : List (Nat × BitVec 8)) : Prop where
  length : slots.length = image.objects.length
  grown : ∀ kind, spaces.get kind =
    (env.fresh image kind).grow (image.boxWords kind + capacityFor kind image.objects)
  within : ∀ e ∈ image.objects.zip slots, Placed.Within (boxedSpaces env image) spaces e
  apart : (image.objects.zip slots).Pairwise Placed.Apart
  keys : boxed.map Prod.fst = image.oversized
  boxes : Boxes m env.immutableAddr (env.immutableAddr + 8 * (2 * image.oversized.length)) boxed

theorem prepare {env : LoadEnv} {image : Image} (hmem : MemoryHolds env image) (m : Mem) :
    ∃ m₁ boxed spaces slots,
      boxAll (freshMem env m image) (env.fresh image .immutable) image.oversized =
        some (m₁, (env.fresh image .immutable).grow (2 * image.oversized.length), boxed) ∧
      layout (boxedSpaces env image) image.objects = some (spaces, slots) ∧
      Prepared env image m₁ boxed spaces slots := by
  have hroom : ∀ kind, image.boxWords kind + capacityFor kind image.objects ≤
      image.capacityOf kind := room image
  have hboxRoom : 0 + 2 * image.oversized.length ≤ image.capacityOf .immutable := by
    have h := hroom .immutable
    rw [boxWords] at h
    omega
  obtain ⟨m₁, boxed, hboxAll, hkeys, hboxes, -⟩ :=
    @boxAll_spec image.oversized (freshMem env m image) (env.fresh image .immutable) oversized_big
      (hmem.aligned .immutable) hboxRoom
  have hdisj : (boxedSpaces env image).Disjoint := by
    intro k k' hne
    rw [get_boxedSpaces, get_boxedSpaces]
    exact hmem.apart k k' hne
  obtain ⟨spaces, slots, hlayout, hlen, hspaces, hwithin, hapart⟩ :=
    @layout_spec image.objects (boxedSpaces env image)
      (fun k => by
        rw [get_boxedSpaces]
        have h := hroom k
        unfold LoadEnv.fresh
        dsimp only
        omega)
      hdisj
  refine ⟨m₁, boxed, spaces, slots, hboxAll, hlayout, hlen, fun kind => ?_, hwithin, hapart, hkeys,
    ?_⟩
  · rw [hspaces, get_boxedSpaces]
    unfold MemorySpace.grow
    rw [Nat.add_assoc]
  · have hzero : (env.fresh image .immutable).start + 8 * (env.fresh image .immutable).used =
        env.immutableAddr := rfl
    rw [hzero] at hboxes
    have hend : (env.fresh image .immutable).start +
        8 * ((env.fresh image .immutable).used + 2 * image.oversized.length) =
        env.immutableAddr + 8 * (2 * image.oversized.length) := by
      rw [show (env.fresh image .immutable).used = 0 from rfl, Nat.zero_add]
      rfl
    rwa [hend] at hboxes

namespace Prepared

variable {env : LoadEnv} {image : Image} {m : Mem} {boxed : List (Int64 × Nat)} {spaces : Spaces}
  {slots : List (Nat × BitVec 8)}

theorem bounds (h : Prepared env image m boxed spaces slots) (hmem : MemoryHolds env image)
    {e : Placed} (he : e ∈ image.objects.zip slots) :
    env.addrOf (classify e.1).1 + 8 * image.boxWords (classify e.1).1 + 8 ≤ e.2.1 ∧
      e.2.1 + 8 * bodyWordCount e.1.body ≤
        env.addrOf (classify e.1).1 + 8 * image.capacityOf (classify e.1).1 ∧ e.2.1 % 8 = 0 := by
  obtain ⟨-, hlower, hupper, haligned⟩ := h.within e he
  rw [get_boxedSpaces] at hlower hupper haligned
  rw [h.grown] at hupper
  have hroom := room image (classify e.1).1
  have haddr := hmem.aligned (classify e.1).1
  unfold LoadEnv.fresh at hlower hupper haligned
  dsimp only at hlower hupper haligned
  omega

/-- The address of an object, and what comes with it. -/
theorem objectAt (h : Prepared env image m boxed spaces slots) {i p : Nat} {obj : Object}
    (hi : ObjectAt image ⟨slots.map Prod.fst, boxed⟩ i obj p) :
    (image.objects.zip slots)[i]? = some (obj, p, (classify obj).2) := by
  obtain ⟨hobj, hp⟩ := hi
  obtain ⟨⟨q, flags⟩, hslot, rfl⟩ : ∃ slot, slots[i]? = some slot ∧ slot.1 = p := by
    rw [List.getElem?_map] at hp
    exact Option.map_eq_some_iff.1 hp
  have hzip : (image.objects.zip slots)[i]? = some (obj, q, flags) :=
    List.getElem?_zip_eq_some.2 ⟨hobj, hslot⟩
  obtain rfl : flags = (classify obj).2 := (h.within _ (List.mem_of_getElem? hzip)).flags
  exact hzip

/-- No two of the addresses are the same. -/
theorem names (h : Prepared env image m boxed spaces slots) (hmem : MemoryHolds env image) :
    Addresses.Ok ⟨slots.map Prod.fst, boxed⟩ := by
  have hptrs : slots.map Prod.fst = (image.objects.zip slots).map (fun e => e.2.1) := by
    have hsnd : (image.objects.zip slots).map Prod.snd = slots :=
      List.map_snd_zip (Nat.le_of_eq h.length)
    rw [← hsnd, List.map_map, hsnd]
    rfl
  have hmemPtr : ∀ a ∈ slots.map Prod.fst, ∃ e ∈ image.objects.zip slots, e.2.1 = a := by
    intro a ha
    rw [hptrs] at ha
    exact List.mem_map.1 ha
  have hmemBox : ∀ a ∈ boxed.map Prod.snd, a % 8 = 0 ∧ env.immutableAddr + 8 ≤ a ∧
      a + 8 ≤ env.immutableAddr + 8 * (2 * image.oversized.length) := by
    intro a ha
    obtain ⟨e, he, rfl⟩ := List.mem_map.1 ha
    obtain ⟨hbox, hlo, hhi⟩ := h.boxes.each e he
    exact ⟨hbox.aligned, hlo, hhi⟩
  have hroom := room image .immutable
  rw [boxWords] at hroom
  have himm : env.addrOf .immutable = env.immutableAddr := rfl
  have hlimit := hmem.addressable
  refine ⟨List.nodup_append.2 ⟨?_, ?_, fun a ha b hb => ?_⟩, fun a ha => ?_⟩
  · rw [hptrs]
    refine List.pairwise_map.2 (h.apart.imp (fun hapart => ?_))
    unfold Placed.Apart at hapart
    omega
  · exact List.pairwise_map.2 (h.boxes.apart.imp (fun hapart => by omega))
  · obtain ⟨e, he, rfl⟩ := hmemPtr a ha
    obtain ⟨hlo, hhi, -⟩ := h.bounds hmem he
    obtain ⟨-, hlo', hhi'⟩ := hmemBox b hb
    by_cases hkind : (classify e.1).1 = .immutable
    · rw [hkind, himm, boxWords] at hlo
      omega
    · have hd := hmem.apart _ _ hkind
      omega
  · rcases List.mem_append.1 ha with ha | ha
    · obtain ⟨e, he, rfl⟩ := hmemPtr a ha
      obtain ⟨hlo, hhi, haligned⟩ := h.bounds hmem he
      have hl := hlimit (classify e.1).1
      omega
    · obtain ⟨haligned, hlo, hhi⟩ := hmemBox a ha
      have hl := hlimit .immutable
      omega

theorem resolve_ref {addrs : Addresses} (hpos : ∀ a ∈ addrs.pointers, a ≠ 0) {id : ObjectId} :
    (∃ w, resolveValue addrs (.ref id) = .ok w) ↔ id.toNat < addrs.pointers.length := by
  rw [resolveValue, Addresses.resolveRef]
  by_cases hlt : id.toNat < addrs.pointers.length
  · rw [List.getElem?_eq_getElem hlt]
    dsimp only
    rw [if_neg (hpos _ (List.getElem_mem hlt))]
    exact ⟨fun _ => hlt, fun _ => ⟨_, rfl⟩⟩
  · rw [List.getElem?_eq_none (Nat.le_of_not_lt hlt)]
    simp [hlt]

theorem resolve_tagged {addrs : Addresses} {n : Int64} :
    (∃ w, resolveValue addrs (.tagged n) = .ok w) ↔
      taggedFitsHost n = true ∨ n ∈ addrs.boxed.map Prod.fst := by
  rw [resolveValue]
  by_cases hfits : taggedFitsHost n = true
  · rw [if_pos hfits]
    exact ⟨fun _ => Or.inl hfits, fun _ => ⟨_, rfl⟩⟩
  · rw [if_neg hfits]
    have hmem : n ∈ addrs.boxed.map Prod.fst ↔ (addrs.boxed.lookup n).isSome := by
      rw [List.lookup_isSome_iff]
      simp
    rw [hmem]
    cases addrs.boxed.lookup n with
    | none => simp [hfits]
    | some p => simp

theorem tagged_mem_slotValues {body : ObjectBody} {n : Int64} :
    .tagged n ∈ slotValues body ↔ .tagged n ∈ valuesOf body := by
  cases body <;> simp [slotValues, valuesOf]

/-- Every value can be resolved exactly when the references are in range and the integers have a
representation. -/
theorem resolves (h : Prepared env image m boxed spaces slots) (hmem : MemoryHolds env image) :
    (∀ e ∈ image.objects.zip slots, ∀ v ∈ slotValues e.1.body,
      ∃ w, resolveValue ⟨slots.map Prod.fst, boxed⟩ v = .ok w) ↔
    (∀ obj ∈ image.objects, ∀ id, .ref id ∈ slotValues obj.body →
      id.toNat < image.objects.length) ∧
    (image.wordSize.bytes = wordBytes → ∀ obj ∈ image.objects, ∀ n,
      .tagged n ∈ valuesOf obj.body → taggedFitsHost n = true) := by
  have hobjs : (image.objects.zip slots).map Prod.fst = image.objects :=
    List.map_fst_zip (Nat.le_of_eq h.length.symm)
  have hpos : ∀ a ∈ slots.map Prod.fst, a ≠ 0 := by
    intro a ha
    have hlt := ((h.names hmem).aligned a (List.mem_append_left _ ha)).2.1
    omega
  have hlen : (slots.map Prod.fst).length = image.objects.length := by
    rw [List.length_map, h.length]
  have hall : (∀ e ∈ image.objects.zip slots, ∀ v ∈ slotValues e.1.body,
      ∃ w, resolveValue ⟨slots.map Prod.fst, boxed⟩ v = .ok w) ↔
      ∀ obj ∈ image.objects, ∀ v ∈ slotValues obj.body,
        ∃ w, resolveValue ⟨slots.map Prod.fst, boxed⟩ v = .ok w := by
    constructor
    · intro hz obj hobj
      rw [← hobjs] at hobj
      obtain ⟨e, he, rfl⟩ := List.mem_map.1 hobj
      exact hz e he
    · intro ho e he
      exact ho e.1 (hobjs ▸ List.mem_map_of_mem he)
  rw [hall]
  constructor
  · intro hres
    refine ⟨fun obj hobj id hid => ?_, fun hsize obj hobj n hn => ?_⟩
    · rw [← hlen]
      exact (@resolve_ref ⟨slots.map Prod.fst, boxed⟩ hpos id).1 (hres obj hobj _ hid)
    · rcases resolve_tagged.1 (hres obj hobj _ (tagged_mem_slotValues.2 hn)) with hfits | hbox
      · exact hfits
      · -- without a mismatch there are no boxes
        dsimp only at hbox
        rw [h.keys, oversized, if_neg (not_not.2 hsize)] at hbox
        cases hbox
  · rintro ⟨hrefs, htagged⟩ obj hobj v hv
    cases v with
    | ref id =>
      refine (@resolve_ref ⟨slots.map Prod.fst, boxed⟩ hpos id).2 ?_
      dsimp only
      rw [hlen]
      exact hrefs obj hobj id hv
    | tagged n =>
      have hn := tagged_mem_slotValues.1 hv
      rw [resolve_tagged]
      by_cases hfits : taggedFitsHost n = true
      · exact Or.inl hfits
      · refine Or.inr ?_
        have hsize : image.wordSize.bytes ≠ wordBytes := fun hsize =>
          hfits (htagged hsize obj hobj n hn)
        dsimp only
        rw [h.keys, oversized, if_pos hsize]
        exact mem_oversizedValues.2 ⟨⟨obj, hobj, hn⟩, by simpa using hfits⟩

/-- The second pass puts every object into its slot. -/
theorem written (h : Prepared env image m boxed spaces slots) (hmem : MemoryHolds env image)
    {m' : Mem} {entryPoints : List (String × Nat)}
    (hfill : fill ⟨slots.map Prod.fst, boxed⟩ m (image.objects.zip slots) = .ok (m', entryPoints))
    {i p : Nat} {obj : Object} (hi : ObjectAt image ⟨slots.map Prod.fst, boxed⟩ i obj p) :
    Placed.Written ⟨slots.map Prod.fst, boxed⟩ m' (obj, p, (classify obj).2) := by
  have hplaced : ∀ e ∈ image.objects.zip slots, 8 ≤ e.2.1 := by
    intro e he
    have hlo := (h.bounds hmem he).1
    omega
  exact (fill_spec hplaced h.apart hfill).2.1 _ (List.mem_of_getElem? (h.objectAt hi))

/-- The second pass builds the image. -/
theorem faithful (h : Prepared env image m boxed spaces slots) (hmem : MemoryHolds env image)
    {m' : Mem} {entryPoints : List (String × Nat)} {rootPtr : Nat} {runnable : Except String Unit}
    (hroot : (slots.map Prod.fst)[image.root.toNat]? = some rootPtr)
    (hfill : fill ⟨slots.map Prod.fst, boxed⟩ m (image.objects.zip slots) = .ok (m', entryPoints)) :
    Faithful image ⟨slots.map Prod.fst, boxed⟩
      { mem := m', spaces, root := rootPtr, entryPoints, runnable, untrusted := false } := by
  have hnames := h.names hmem
  have hplaced : ∀ e ∈ image.objects.zip slots, 8 ≤ e.2.1 := by
    intro e he
    have hlo := (h.bounds hmem he).1
    omega
  obtain ⟨hframe, -, hentries⟩ := fill_spec hplaced h.apart hfill
  have hrefs := ((h.resolves hmem).1 (fill_ok_iff.1 ⟨_, hfill⟩)).1
  have hlen : (slots.map Prod.fst).length = image.objects.length := by
    rw [List.length_map, h.length]
  constructor
  case length => exact hlen
  case names => exact hnames
  case root => exact hroot
  case sized =>
    intro kind
    rw [h.grown]
    exact ⟨rfl, by simpa [LoadEnv.fresh, MemorySpace.grow] using room image kind⟩
  case within =>
    intro i obj p hi
    have hat := List.mem_of_getElem? (h.objectAt hi)
    have hw := h.within _ hat
    have hlower := hw.lower
    have hupper := hw.upper
    rw [get_boxedSpaces] at hlower hupper
    dsimp only at hlower hupper ⊢
    rw [h.grown] at hupper ⊢
    unfold LoadEnv.fresh at hlower hupper ⊢
    dsimp only at hlower hupper ⊢
    omega
  case apart =>
    intro i j obj obj' p p' hne hi hj
    obtain ⟨hi', hei⟩ := List.getElem?_eq_some_iff.1 (h.objectAt hi)
    obtain ⟨hj', hej⟩ := List.getElem?_eq_some_iff.1 (h.objectAt hj)
    rcases Nat.lt_or_gt_of_ne hne with hlt | hlt
    · have hd := List.pairwise_iff_getElem.1 h.apart i j hi' hj' hlt
      rwa [hei, hej] at hd
    · have hd := List.pairwise_iff_getElem.1 h.apart j i hj' hi' hlt
      rw [hei, hej] at hd
      exact hd.symm
  case contained => exact fun body p m m' hw a ha => writeBody_outside hw ha
  case refs => exact hrefs
  case header =>
    intro i obj p hi
    exact (h.written hmem hfill hi).header
  case decoded =>
    intro i obj p hi
    have hat := List.mem_of_getElem? (h.objectAt hi)
    obtain ⟨hheader, m₀, m₁, hbody, hslot⟩ := h.written hmem hfill hi
    obtain ⟨-, hupper, haligned⟩ := h.bounds hmem hat
    have hlimit := hmem.addressable (classify obj).1
    exact decodeObject_written hnames haligned (by dsimp only at hupper; omega) hheader hbody hslot
  case boxed => exact h.keys
  case boxes =>
    -- the slots lie behind the boxes, or in other spaces
    have hkeep : ∀ a, env.immutableAddr ≤ a →
        a + 8 ≤ env.immutableAddr + 8 * (2 * image.oversized.length) → m' a = m a := by
      intro a hlo hhi
      refine hframe a (fun e he => ?_)
      obtain ⟨hlower, hupper, -⟩ := h.bounds hmem he
      have hroom := room image .immutable
      rw [boxWords] at hroom
      have himm : env.addrOf .immutable = env.immutableAddr := rfl
      unfold Placed.Outside
      by_cases hkind : (classify e.1).1 = .immutable
      · rw [hkind, himm, boxWords] at hlower
        omega
      · have hd := hmem.apart _ _ hkind
        omega
    exact fun e he => ((h.boxes.congr hkeep).each e he).1
  case entryPoints =>
    dsimp only
    rw [hentries, List.zip_map_right, List.filterMap_map]
    rfl

end Prepared

/-- Past the checks, the load is the second pass on what the first has prepared. -/
theorem load_eq {env : LoadEnv} {image : Image} {m m₁ : Mem} {boxed : List (Int64 × Nat)}
    {spaces : Spaces} {slots : List (Nat × BitVec 8)} {root : Object} {rootPtr : Nat}
    (hroot : image.objects[image.root.toNat]? = some root)
    (hsize : image.wordSize.bytes = wordBytes ∨ env.allowWordSizeMismatch = true)
    (hbox : boxAll (freshMem env m image) (env.fresh image .immutable) image.oversized =
      some (m₁, (env.fresh image .immutable).grow (2 * image.oversized.length), boxed))
    (hlayout : layout (boxedSpaces env image) image.objects = some (spaces, slots))
    (hptr : (slots.map Prod.fst)[image.root.toNat]? = some rootPtr) :
    load env m image = some (do
      let (m, entryPoints) ← fill ⟨slots.map Prod.fst, boxed⟩ m₁ (image.objects.zip slots)
      .ok { mem := m, spaces, root := rootPtr, entryPoints,
            runnable := checkRunnable (slots.map Prod.snd) root.body, untrusted := false }) := by
  have hpass : ¬(decide (image.wordSize.bytes ≠ wordBytes) && !env.allowWordSizeMismatch) = true := by
    rcases hsize with h | h <;> simp [h]
  rw [load, hroot]
  dsimp only
  rw [if_neg hpass]
  show (boxAll (freshMem env m image) (env.fresh image .immutable) image.oversized >>= fun r =>
    layout { immutable := r.2.1, mutable := env.fresh image .mutable, code := env.fresh image .code }
      image.objects >>= fun r' => (r'.2.map Prod.fst)[image.root.toNat]? >>= fun rootPtr => _) = _
  rw [hbox, Option.bind_eq_bind, Option.bind_some]
  show (layout (boxedSpaces env image) image.objects >>= _) = _
  rw [hlayout, Option.bind_eq_bind, Option.bind_some]
  show ((slots.map Prod.fst)[image.root.toNat]? >>= _) = _
  rw [hptr]
  rfl

/-- A loadable image is loaded, and its objects are written. -/
theorem load_of_loadable {env : LoadEnv} {image : Image} (hmem : MemoryHolds env image)
    (hl : Loadable env image) (m : Mem) :
    ∃ loaded addrs, load env m image = some (.ok loaded) ∧ Faithful image addrs loaded ∧
      ∀ i obj p, ObjectAt image addrs i obj p →
        Placed.Written addrs loaded.mem (obj, p, (classify obj).2) := by
  obtain ⟨m₁, boxed, spaces, slots, hbox, hlayout, hprep⟩ := prepare hmem m
  have hlt : image.root.toNat < (slots.map Prod.fst).length := by
    rw [List.length_map, hprep.length]
    exact hl.root
  have hptr := List.getElem?_eq_getElem hlt
  have hload := load_eq (List.getElem?_eq_getElem hl.root) hl.wordSize hbox hlayout hptr
  obtain ⟨⟨m', entryPoints⟩, hfill⟩ :=
    fill_ok_iff.2 ((hprep.resolves hmem).2 ⟨hl.refs, hl.tagged⟩)
  rw [hfill] at hload
  exact ⟨_, _, hload, hprep.faithful hmem hptr hfill, fun i obj p => hprep.written hmem hfill⟩

/-- Another image is rejected. -/
theorem load_of_not_loadable {env : LoadEnv} {image : Image} (hmem : MemoryHolds env image)
    (hl : ¬Loadable env image) (m : Mem) : ∃ e, load env m image = some (.error e) := by
  by_cases hroot : image.root.toNat < image.objects.length
  · by_cases hsize : image.wordSize.bytes = wordBytes ∨ env.allowWordSizeMismatch = true
    · obtain ⟨m₁, boxed, spaces, slots, hbox, hlayout, hprep⟩ := prepare hmem m
      have hlt : image.root.toNat < (slots.map Prod.fst).length := by
        rw [List.length_map, hprep.length]
        exact hroot
      have hload := load_eq (List.getElem?_eq_getElem hroot) hsize hbox hlayout
        (List.getElem?_eq_getElem hlt)
      cases hfill : fill ⟨slots.map Prod.fst, boxed⟩ m₁ (image.objects.zip slots) with
      | error e =>
        rw [hfill] at hload
        exact ⟨e, hload⟩
      | ok r =>
        obtain ⟨hrefs, htagged⟩ := (hprep.resolves hmem).1 (fill_ok_iff.1 ⟨r, hfill⟩)
        exact absurd ⟨hroot, hsize, hrefs, htagged⟩ hl
    · have hstop : (decide (image.wordSize.bytes ≠ wordBytes) && !env.allowWordSizeMismatch) = true := by
        simpa using hsize
      refine ⟨.wordSizeMismatch image.wordSize.bytes wordBytes, ?_⟩
      rw [load, List.getElem?_eq_getElem hroot]
      dsimp only
      rw [if_pos hstop]
  · refine ⟨.badRoot image.root image.objects.length, ?_⟩
    rw [load, List.getElem?_eq_none (Nat.le_of_not_lt hroot)]

/-- What is loaded, and what it looks like. -/
theorem load_faithful {env : LoadEnv} {image : Image} (hmem : MemoryHolds env image) (m : Mem) :
    (Loadable env image ∧ ∃ loaded addrs, load env m image = some (.ok loaded) ∧
      Faithful image addrs loaded) ∨
    (¬Loadable env image ∧ ∃ e, load env m image = some (.error e)) := by
  by_cases hl : Loadable env image
  · obtain ⟨loaded, addrs, hload, hfaithful, -⟩ := load_of_loadable hmem hl m
    exact Or.inl ⟨hl, loaded, addrs, hload, hfaithful⟩
  · exact Or.inr ⟨hl, load_of_not_loadable hmem hl m⟩

/-! ## A loaded image -/

/-- Three storages far apart. -/
def spread : LoadEnv :=
  { immutableAddr := 0x10000, mutableAddr := 0x20000, codeAddr := 0x30000,
    allowWordSizeMismatch := false }

/-- A closure that refers to itself and to its code; the code refers to an entry point. -/
def closureImage : Image :=
  { root := 0, arch := .interpreted, wordSize := .bits64
    objects := [
      ⟨.empty, .closure 1 [.ref 0, .tagged (-5), .ref 3]⟩,
      ⟨.empty, .code [0x22, 0x21, 0x0d] [.ref 2, .tagged 7] []⟩,
      ⟨.empty, .entryPoint "PolyFinish"⟩,
      ⟨{ ObjFlags.empty with mutable := true }, .bytes [65, 66, 67]⟩] }

theorem closureImage_holds : MemoryHolds spread closureImage := by
  refine ⟨fun kind => ?_, fun kind => ?_, fun k k' hne => ?_⟩
  · cases kind <;> decide
  · cases kind <;> decide
  · cases k <;> cases k' <;> first | exact absurd rfl hne | decide

theorem load_faithful_closureImage : ∃ loaded addrs,
    load spread (fun _ => 0#64) closureImage = some (.ok loaded) ∧
      Faithful closureImage addrs loaded := by
  rcases load_faithful closureImage_holds (fun _ => 0#64) with ⟨-, h⟩ | ⟨h, -⟩
  · exact h
  · refine absurd ⟨by decide, Or.inl rfl, ?_, ?_⟩ h
    · simp [closureImage, slotValues, valuesOf]
    · simp [closureImage, valuesOf]
      decide

/-! ## The padding is lost -/

theorem padded_padded (bytes : List UInt8) : padded (padded bytes) = padded bytes := by
  have hwords : wordsFor (padded bytes).length = wordsFor bytes.length := by
    rw [length_padded]
    unfold wordsFor wordBytes
    omega
  rw [padded, hwords, length_padded]
  simp [wordBytes]

/-- Bytes are written as they are written with the padding. -/
theorem writeBody_padded (addrs : Addresses) (m : Mem) (p : Nat) (bytes : List UInt8) :
    writeBody addrs m p (.bytes (padded bytes)) = writeBody addrs m p (.bytes bytes) := by
  rw [writeBody, writeBody, writeBytesPacked_eq, writeBytesPacked_eq, padded_padded]

def bytesImage (bytes : List UInt8) : Image :=
  { root := 0, arch := .interpreted, wordSize := .bits64, objects := [⟨.empty, .bytes bytes⟩] }

theorem bytesImage_holds : MemoryHolds spread (bytesImage [65, 66, 67]) := by
  refine ⟨fun kind => ?_, fun kind => ?_, fun k k' hne => ?_⟩
  · cases kind <;> decide
  · cases kind <;> decide
  · cases k <;> cases k' <;> first | exact absurd rfl hne | decide

/-- Three bytes are loaded like the eight bytes they are padded to. -/
theorem load_bytesImage (m : Mem) : load spread m (bytesImage [65, 66, 67, 0, 0, 0, 0, 0]) =
    load spread m (bytesImage [65, 66, 67]) := by
  obtain ⟨m₁, boxed, spaces, slots, hbox, hlayout, hprep⟩ := prepare bytesImage_holds m
  obtain ⟨⟨p, flags⟩, rfl⟩ := List.length_eq_one_iff.1 hprep.length
  have hshort : load spread m (bytesImage [65, 66, 67]) = _ :=
    load_eq rfl (Or.inl rfl) hbox hlayout rfl
  have hlong : load spread m (bytesImage [65, 66, 67, 0, 0, 0, 0, 0]) = _ :=
    load_eq rfl (Or.inl rfl) hbox hlayout rfl
  have hbody : ∀ (addrs : Addresses) (m : Mem),
      writeBody addrs m p (.bytes [65, 66, 67, 0, 0, 0, 0, 0]) =
        writeBody addrs m p (.bytes [65, 66, 67]) :=
    fun addrs m => writeBody_padded addrs m p [65, 66, 67]
  rw [hshort, hlong]
  simp only [bytesImage, List.zip_cons_cons, fill, hbody]
  rfl

/-- No function gives back the objects of every image from its heap. -/
theorem not_decoded_exactly : ¬∃ decodeObjects : LoadedImage → List Object,
    ∀ env image m loaded, MemoryHolds env image → load env m image = some (.ok loaded) →
      decodeObjects loaded = image.objects := by
  rintro ⟨decodeObjects, hexact⟩
  have hholds : MemoryHolds spread (bytesImage [65, 66, 67, 0, 0, 0, 0, 0]) :=
    ⟨bytesImage_holds.aligned, bytesImage_holds.addressable, bytesImage_holds.apart⟩
  have hloadable : Loadable spread (bytesImage [65, 66, 67]) :=
    ⟨by decide, Or.inl rfl, by simp [bytesImage, slotValues, valuesOf],
      by simp [bytesImage, valuesOf]⟩
  obtain ⟨loaded, addrs, hload, -⟩ :=
    load_of_loadable bytesImage_holds hloadable (fun _ => 0#64)
  have hshort := hexact _ _ _ loaded bytesImage_holds hload
  have hlong := hexact _ _ _ loaded hholds ((load_bytesImage _).trans hload)
  rw [hshort] at hlong
  exact absurd hlong (by decide)

end Image
