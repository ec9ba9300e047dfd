import PolymlRs.Image.PexportRoundTrip
import Mathlib.Data.List.Perm.Subperm
import Mathlib.Data.List.Range

set_option autoImplicit false

/-! # What an accepted text says about its objects

The lines of a text are where the parser has read an object. Each id has one line, each reference is to
an object, and a line has as many items as it declares. Two things are not checked: the root, which the
loader looks at, and the count of a closure, which can be zero though its code address is an item. -/

namespace Pexport

/-! ## Lines -/

/-- The line of an object, with the place where it begins. -/
structure Line where
  start : Cursor
  id : ObjectId
  object : Object

/-- The object lines of what is left of a text. -/
def objectLines (nObjects : UInt32) : Nat → Cursor → List Line
  | 0, _ => []
  | fuel + 1, c =>
    let start := c.advance (c.rest.takeWhile isNewline).length
    if c.bytes.length ≤ start.pos then []
    else match parseObjectLine nObjects start with
      | .ok ((id, object), c') => { start, id, object } :: objectLines nObjects fuel c'
      | .error _ => []

/-- The counts a payload begins with. -/
def payloadCounts (ty : UInt8) : TextParser (List Nat) :=
  if ty = ascii 'K' then pure []
  else if ty = ascii 'F' then do
    let nConsts ← readUsize
    expect (ascii ',') "',' after F<constCount>"
    let nBytes ← readUsize
    pure [nConsts, nBytes]
  else do
    let n ← readUsize
    pure [n]

/-- The counts a line declares. -/
def lineCounts (nObjects : UInt32) : TextParser (List Nat) := do
  let _ ← readId nObjects
  expect (ascii ':') "':' after object id"
  let _ ← Parser.takeWhile isFlagLetter
  let ty ← bump
  payloadCounts ty

def Line.declared (nObjects : UInt32) (line : Line) : Option (List Nat) :=
  match lineCounts nObjects line.start with
  | .ok (counts, _) => some counts
  | .error _ => none

end Pexport

/-- The object lines of a text. -/
def Image.objectLines (bytes : List UInt8) : List Pexport.Line :=
  match Pexport.parseHeader ⟨bytes, 0⟩ with
  | .ok ((nObjects, _, _, _), c) => Pexport.objectLines nObjects (c.rest.length + 1) c
  | .error _ => []

/-- The items of a body, by what they are counted as: the code address of a closure is one, and
relocations are not counted. -/
def ObjectBody.counts : ObjectBody → List Nat
  | .ordinary vs | .legacyClosure vs => [vs.length]
  | .closure _ vs => [1 + vs.length]
  | .string b | .bytes b => [b.length]
  | .code b cs _ => [cs.length, b.length]
  | .entryPoint name => [name.asBytes.length]
  | .weakRef => []

/-- The ids a value refers to. -/
def Value.refs : Value → List ObjectId
  | .tagged _ => []
  | .ref id => [id]

/-- The ids a body refers to. -/
def ObjectBody.refs : ObjectBody → List ObjectId
  | .ordinary vs | .legacyClosure vs => vs.flatMap Value.refs
  | .closure codeAddr vs => codeAddr :: vs.flatMap Value.refs
  | .code _ cs rs => cs.flatMap Value.refs ++ rs.map CodeReloc.target
  | .string _ | .bytes _ | .entryPoint _ | .weakRef => []

namespace Pexport

open Parser (Yields Alongside)

/-! ## Counts -/

/-- What the counts of a payload say about the body that is read from it. -/
def Counted (body : ObjectBody) (counts : List Nat) : Prop :=
  counts = body.counts ∨ counts = [0] ∧ ∃ codeAddr, body = .closure codeAddr []

theorem alongside_values (nObjects : UInt32) (what : String) (mk : List Value → ObjectBody)
    (hmk : ∀ vs, (mk vs).counts = [vs.length]) :
    Alongside (do
        let n ← readUsize
        expect (ascii '|') what
        let vs ← parseValueList nObjects n
        pure (mk vs))
      (readUsize >>= fun n => pure [n]) Counted := by
  refine .bindAny (fun n => .stop (.bindAny (fun _ => ?_)))
  refine (yields_parseValueList nObjects n).bind (fun vs hvs => .pure (.inl ?_))
  rw [hmk, hvs.1]

theorem alongside_hex (what : String) (mk : List UInt8 → ObjectBody)
    (hmk : ∀ b, (mk b).counts = [b.length]) :
    Alongside (do
        let n ← readUsize
        expect (ascii '|') what
        let b ← readHexBytes n
        pure (mk b))
      (readUsize >>= fun n => pure [n]) Counted := by
  refine .bindAny (fun n => .stop (.bindAny (fun _ => ?_)))
  refine (yields_readHexBytes n).bind (fun b hb => .pure (.inl ?_))
  rw [hmk, hb]

theorem alongside_closure (nObjects : UInt32) :
    Alongside (parseClosure nObjects) (readUsize >>= fun n => pure [n]) Counted := by
  refine .bindAny (fun n => .stop (.bindAny (fun _ => .bindAny (fun _ => .bindAny (fun codeAddr => ?_)))))
  dsimp only
  split
  next hn =>
    refine .bindAny (fun _ => (yields_parseValueList nObjects _).bind (fun vs hvs => .pure (.inl ?_)))
    rw [ObjectBody.counts, hvs.1]
    congr 1
    omega
  next hn =>
    refine .pure ?_
    -- without a second item, the count is one or zero
    obtain rfl | rfl : n = 1 ∨ n = 0 := by omega
    · exact .inl rfl
    · exact .inr ⟨rfl, codeAddr, rfl⟩

theorem alongside_code (nObjects : UInt32) :
    Alongside (parseCode nObjects) (payloadCounts (ascii 'F')) Counted := by
  refine .bindAny (fun nConsts => .bindAny (fun _ => .bindAny (fun nBytes => .stop ?_)))
  refine .bindAny (fun _ => (yields_readHexBytes nBytes).bind (fun b hb => .bindAny (fun _ => ?_)))
  refine (yields_parseValueList nObjects nConsts).bind (fun cs hcs => .bindAny (fun _ => ?_))
  refine .bindAny (fun c => .bindAny (fun rs => .pure (.inl ?_)))
  rw [ObjectBody.counts, hb, hcs.1]

/-- A name has as many bytes as are asked for. -/
theorem yields_readName_length (n : Nat) :
    Yields (readName n) (fun name => name.asBytes.length = n) := by
  intro c name c' hr
  change (if c.pos + n > c.bytes.length then _ else _ : TextParser String) c = _ at hr
  split at hr
  · cases hr
  next hn =>
    cases hu : String.fromUTF8? (c.rest.take n).toByteArray with
    | none =>
      rw [hu] at hr
      cases hr
    | some s =>
      rw [hu] at hr
      cases hr
      rw [length_asBytes_of_fromUTF8? hu, List.length_take, Cursor.rest, List.length_drop]
      omega

theorem payloadCounts_one {ty : UInt8} (hK : ty ≠ ascii 'K') (hF : ty ≠ ascii 'F') :
    payloadCounts ty = readUsize >>= fun n => pure [n] := by
  rw [payloadCounts, if_neg hK, if_neg hF]

theorem alongside_body (nObjects : UInt32) (ty : UInt8) :
    Alongside (parseBody nObjects ty) (payloadCounts ty) Counted := by
  unfold parseBody
  split
  next h =>
    subst h
    rw [payloadCounts_one (by decide) (by decide)]
    exact alongside_values nObjects _ .ordinary (fun _ => rfl)
  split
  next h =>
    subst h
    rw [payloadCounts_one (by decide) (by decide)]
    exact alongside_closure nObjects
  split
  next h =>
    subst h
    rw [payloadCounts_one (by decide) (by decide)]
    exact alongside_values nObjects _ .legacyClosure (fun _ => rfl)
  split
  next h =>
    subst h
    rw [payloadCounts_one (by decide) (by decide)]
    exact alongside_hex _ .string (fun _ => rfl)
  split
  next h =>
    subst h
    rw [payloadCounts_one (by decide) (by decide)]
    exact alongside_hex _ .bytes (fun _ => rfl)
  split
  next h =>
    rw [h]
    exact alongside_code nObjects
  split
  next h =>
    subst h
    rw [payloadCounts_one (by decide) (by decide)]
    refine .bindAny (fun n => .stop (.bindAny (fun _ => ?_)))
    exact (yields_readName_length n).bind (fun name hname => .pure (.inl (by rw [← hname]; rfl)))
  split
  next h =>
    rw [payloadCounts, if_pos h]
    exact .stop (.pure (.inl rfl))
  · exact fun c x c' hr => nomatch hr

/-- An object that is read from a line has as many items as the line declares, unless it is a closure
with the count zero. -/
theorem alongside_objectLine (nObjects : UInt32) :
    Alongside (parseObjectLine nObjects) (lineCounts nObjects) (fun r => Counted r.2.body) := by
  refine .bindAny (fun id => .bindAny (fun _ => .bindAny (fun letters => .bindAny (fun ty => ?_))))
  refine (alongside_body nObjects ty).andThen (fun body counts hcounts => ?_)
  exact .bindAny (fun _ => .bindAny (fun _ => .pure hcounts))

/-! ## All lines -/

theorem parseObjects_succ (nObjects : UInt32) (fuel : Nat) (objects : List (Option Object))
    (observed : Nat) (c : Cursor) :
    parseObjects nObjects (fuel + 1) objects observed c =
      let start := c.advance (c.rest.takeWhile isNewline).length
      if c.bytes.length ≤ start.pos then .ok ((objects, observed), start)
      else match parseObjectLine nObjects start with
        | .ok ((id, obj), c') =>
          if objects.length ≤ id.toNat then .error (.badIndex id.toUInt64 nObjects)
          else parseObjects nObjects fuel (objects.set id.toNat (some obj))
            (min (observed + 1) (2 ^ 32 - 1)) c'
        | .error e => .error e := by
  dsimp only
  by_cases hend : c.bytes.length ≤ (c.advance (c.rest.takeWhile isNewline).length).pos
  · rw [if_pos hend]
    simp only [parseObjects, bind, StateT.bind, Parser.skipWhile, Except.bind, Parser.atEof,
      Cursor.bytes_advance, hend, decide_true, if_true]
    rfl
  · rw [if_neg hend]
    simp only [parseObjects, bind, StateT.bind, Parser.skipWhile, Except.bind, Parser.atEof,
      Cursor.bytes_advance, hend, decide_false, Bool.false_eq_true, if_false]
    cases parseObjectLine nObjects (c.advance (c.rest.takeWhile isNewline).length) with
    | error e => rfl
    | ok r =>
      dsimp only
      split <;> rfl

/-- The slots of a run: each line fills the one of its id. -/
def fill (objects : List (Option Object)) (lines : List Line) : List (Option Object) :=
  lines.foldl (fun objects line => objects.set line.id.toNat (some line.object)) objects

/-- A line that the parser has read. -/
def Line.Read (nObjects : UInt32) (line : Line) : Prop :=
  ∃ c', parseObjectLine nObjects line.start = .ok ((line.id, line.object), c')

theorem parseObjects_lines {nObjects : UInt32} {fuel : Nat} {objects filled : List (Option Object)}
    {observed total : Nat} {c c' : Cursor} (hobs : observed < 2 ^ 32)
    (h : parseObjects nObjects fuel objects observed c = .ok ((filled, total), c')) :
    filled = fill objects (objectLines nObjects fuel c) ∧
      total = min (observed + (objectLines nObjects fuel c).length) (2 ^ 32 - 1) ∧
      ∀ line ∈ objectLines nObjects fuel c, line.Read nObjects := by
  induction fuel generalizing objects observed c with
  | zero => cases h
  | succ fuel ih =>
    rw [parseObjects_succ] at h
    rw [objectLines]
    dsimp only at h ⊢
    split at h
    next hend =>
      cases h
      rw [if_pos hend]
      exact ⟨rfl, by rw [List.length_nil]; omega, by simp⟩
    next hend =>
      rw [if_neg hend]
      split at h
      next id obj c'' hline =>
        split at h
        · cases h
        next =>
          obtain ⟨hfilled, htotal, hread⟩ := ih (by omega) h
          refine ⟨hfilled, ?_, List.forall_mem_cons.2 ⟨⟨c'', hline⟩, hread⟩⟩
          rw [htotal, List.length_cons]
          omega
      · cases h

theorem length_fill (objects : List (Option Object)) (lines : List Line) :
    (fill objects lines).length = objects.length := by
  unfold fill
  induction lines generalizing objects with
  | nil => rfl
  | cons line lines ih => rw [List.foldl_cons, ih, List.length_set]

/-- A slot holds the object of some line of its id, or what it held before. -/
theorem fill_getElem? {objects : List (Option Object)} {lines : List Line} {i : Nat} {obj : Object}
    (h : (fill objects lines)[i]? = some (some obj)) :
    objects[i]? = some (some obj) ∨ ∃ line ∈ lines, line.id.toNat = i ∧ line.object = obj := by
  induction lines generalizing objects with
  | nil => exact .inl h
  | cons line lines ih =>
    rcases @ih (objects.set line.id.toNat (some line.object)) h with hi | ⟨l, hl, hid⟩
    · by_cases hne : line.id.toNat = i
      · rw [List.getElem?_set, if_pos hne] at hi
        split at hi
        · exact .inr ⟨line, List.mem_cons_self, hne, by simpa using hi⟩
        · cases hi
      · rw [List.getElem?_set, if_neg hne] at hi
        exact .inl hi
    · exact .inr ⟨l, List.mem_cons_of_mem line hl, hid⟩

theorem collectObjects_eq {nObjects : UInt32} {i : Nat} {objects : List (Option Object)}
    {objs : List Object} {c c' : Cursor}
    (h : collectObjects nObjects i objects c = .ok (objs, c')) : objects = objs.map some := by
  induction objects generalizing i objs c c' with
  | nil =>
    cases h
    rfl
  | cons o objects ih =>
    cases o with
    | none => cases h
    | some obj =>
      change (collectObjects nObjects (i + 1) objects c >>= fun r =>
        (pure (obj :: r.1) : TextParser (List Object)) r.2) = _ at h
      cases hc : collectObjects nObjects (i + 1) objects c with
      | error e =>
        rw [hc] at h
        cases h
      | ok r =>
        rw [hc] at h
        cases h
        rw [List.map_cons, ih hc]

/-- The parser behind the header. -/
theorem parseImage_eq {bytes : List UInt8} {nObjects : UInt32} {root : ObjectId} {arch : SourceArch}
    {wordSize : WordSize} {c : Cursor}
    (hhead : parseHeader ⟨bytes, 0⟩ = .ok ((nObjects, root, arch, wordSize), c)) :
    parseImage ⟨bytes, 0⟩ =
      if nObjects.toNat > c.bytes.length - c.pos then .error (.eof c.pos)
      else match parseObjects nObjects (c.rest.length + 1) (List.replicate nObjects.toNat none) 0 c with
        | .error e => .error e
        | .ok ((objects, observed), c') =>
          if observed ≠ nObjects.toNat then
            .error (.countMismatch nObjects (UInt32.ofNat observed))
          else match collectObjects nObjects 0 objects c' with
            | .error e => .error e
            | .ok (objects, c') => .ok ({ root, arch, wordSize, objects }, c') := by
  change (parseHeader ⟨bytes, 0⟩ >>= _) = _
  rw [hhead]
  split
  next hroom =>
    change (if nObjects.toNat > c.bytes.length - c.pos then _ else _ : TextParser Image) c = _
    rw [if_pos hroom]
    rfl
  next hroom =>
    change (if nObjects.toNat > c.bytes.length - c.pos then _ else _ : TextParser Image) c = _
    rw [if_neg hroom]
    change (parseObjects nObjects (c.rest.length + 1) (List.replicate nObjects.toNat none) 0 c
      >>= _) = _
    cases parseObjects nObjects (c.rest.length + 1) (List.replicate nObjects.toNat none) 0 c with
    | error e => rfl
    | ok r =>
      obtain ⟨⟨objects, observed⟩, c'⟩ := r
      change (if observed ≠ nObjects.toNat then _ else _ : TextParser Image) c' = _
      dsimp only
      split
      · rfl
      · change (collectObjects nObjects 0 objects c' >>= _) = _
        cases collectObjects nObjects 0 objects c' <;> rfl

/-- What an accepted text gives: its lines, and the slots that they fill. -/
theorem parse_lines {bytes : List UInt8} {img : Image} (h : Image.parse bytes = .ok img) :
    img.objects.map some =
        fill (List.replicate img.objects.length none) (Image.objectLines bytes) ∧
      img.objects.length = min (Image.objectLines bytes).length (2 ^ 32 - 1) ∧
      ∀ line ∈ Image.objectLines bytes, line.Read (UInt32.ofNat img.objects.length) := by
  unfold Image.parse at h
  cases hrun : parseImage ⟨bytes, 0⟩ with
  | error e =>
    rw [StateT.run, hrun] at h
    cases h
  | ok r =>
    rw [StateT.run, hrun] at h
    cases hhead : parseHeader ⟨bytes, 0⟩ with
    | error e =>
      change (parseHeader ⟨bytes, 0⟩ >>= _) = _ at hrun
      rw [hhead] at hrun
      cases hrun
    | ok head =>
      obtain ⟨⟨nObjects, root, arch, wordSize⟩, c⟩ := head
      rw [parseImage_eq hhead] at hrun
      split at hrun
      · cases hrun
      · split at hrun
        · cases hrun
        next objects observed c' hobjects =>
          split at hrun
          · cases hrun
          next hobserved =>
            split at hrun
            · cases hrun
            next objs c'' hcollect =>
              cases hrun
              cases h
              obtain ⟨hfill, htotal, hread⟩ := parseObjects_lines (by omega) hobjects
              have hmap := collectObjects_eq hcollect
              have hlen : objs.length = nObjects.toNat := by
                have := congrArg List.length (hmap.symm.trans hfill)
                rwa [List.length_map, length_fill, List.length_replicate] at this
              have hlines : Image.objectLines bytes
                  = objectLines nObjects (c.rest.length + 1) c := by
                rw [Image.objectLines, hhead]
              rw [hlines]
              refine ⟨?_, ?_, ?_⟩
              · rw [← hmap, hfill, hlen]
              · rw [hlen, ← not_not.1 hobserved, htotal, Nat.zero_add]
              · rw [hlen, UInt32.ofNat_toNat]
                exact hread

theorem exists_line {bytes : List UInt8} {img : Image} (h : Image.parse bytes = .ok img) {i : Nat}
    {obj : Object} (hi : img.objects[i]? = some obj) :
    ∃ line ∈ Image.objectLines bytes, line.id.toNat = i ∧ line.object = obj := by
  have hslot : (img.objects.map some)[i]? = some (some obj) := by rw [List.getElem?_map, hi]; rfl
  rw [(parse_lines h).1] at hslot
  rcases fill_getElem? hslot with hold | hline
  · rw [List.getElem?_replicate] at hold
    split at hold <;> cases hold
  · exact hline

/-- With fewer than `2 ^ 32` lines, their ids are those of the objects, each once. -/
theorem perm_ids {bytes : List UInt8} {img : Image} (h : Image.parse bytes = .ok img)
    (hlines : (Image.objectLines bytes).length < 2 ^ 32) :
    ((Image.objectLines bytes).map (·.id.toNat)).Perm (List.range img.objects.length) := by
  have hlen := (parse_lines h).2.1
  have hsub : List.range img.objects.length ⊆ (Image.objectLines bytes).map (·.id.toNat) := by
    intro i hi
    rw [List.mem_range] at hi
    obtain ⟨line, hline, hid, -⟩ := exists_line h (List.getElem?_eq_getElem hi)
    exact List.mem_map.2 ⟨line, hline, hid⟩
  refine ((List.subperm_of_subset List.nodup_range hsub).perm_of_length_le ?_).symm
  rw [List.length_map, List.length_range]
  omega

theorem refs_lt {nObjects : UInt32} {body : ObjectBody} (h : BodyOk nObjects body) :
    ∀ id ∈ body.refs, id.toNat < nObjects.toNat := by
  have values : ∀ vs : List Value, (∀ v ∈ vs, ValueOk nObjects v) →
      ∀ id ∈ vs.flatMap Value.refs, id.toNat < nObjects.toNat := by
    intro vs hvs id hid
    obtain ⟨v, hv, hid⟩ := List.mem_flatMap.1 hid
    have hok := hvs v hv
    cases v with
    | tagged n => cases hid
    | ref id' =>
      obtain rfl : id = id' := by simpa [Value.refs] using hid
      exact hok
  intro id hid
  cases body with
  | ordinary vs | legacyClosure vs => exact values vs h.2 id hid
  | closure codeAddr vs =>
    rcases List.mem_cons.1 hid with rfl | hid
    · exact h.1
    · exact values vs h.2.2 id hid
  | code b cs rs =>
    rcases List.mem_append.1 hid with hid | hid
    · exact values cs h.2.2.1 id hid
    · obtain ⟨r, hr, rfl⟩ := List.mem_map.1 hid
      exact h.2.2.2 r hr
  | string b | bytes b | entryPoint name => cases hid
  | weakRef => cases hid

end Pexport

open Pexport in
/-- What the parser checks: an object for each id and one line for each object, the references of the
objects, and the counts of the lines. The counter of lines saturates, and a closure line may declare no
items. -/
theorem Image.parse_checks {bytes : List UInt8} {img : Image} (h : Image.parse bytes = .ok img) :
    ((Image.objectLines bytes).length < 2 ^ 32 →
      ((Image.objectLines bytes).map (·.id.toNat)).Perm (List.range img.objects.length) ∧
      ∀ line ∈ Image.objectLines bytes, img.objects[line.id.toNat]? = some line.object) ∧
    (∀ obj ∈ img.objects, ∀ id ∈ obj.body.refs, id.toNat < img.objects.length) ∧
    ∀ line ∈ Image.objectLines bytes,
      (line.declared (UInt32.ofNat img.objects.length) = some [0] →
        ∀ codeAddr vs, line.object.body ≠ .closure codeAddr vs) →
      line.declared (UInt32.ofNat img.objects.length) = some line.object.body.counts := by
  refine ⟨fun hlines => ⟨perm_ids h hlines, fun line hline => ?_⟩, fun obj hobj id hid => ?_,
    fun line hline hclosure => ?_⟩
  · have hperm := perm_ids h hlines
    have hid : line.id.toNat < img.objects.length := by
      rw [← List.mem_range, ← hperm.mem_iff]
      exact List.mem_map.2 ⟨line, hline, rfl⟩
    obtain ⟨line', hline', hid', hobj⟩ := exists_line h (List.getElem?_eq_getElem hid)
    have hnodup : ((Image.objectLines bytes).map (·.id.toNat)).Nodup :=
      hperm.nodup_iff.2 List.nodup_range
    obtain rfl := List.inj_on_of_nodup_map hnodup hline' hline hid'
    rw [List.getElem?_eq_getElem hid, hobj]
  · have hprint := printable_of_parse h
    have := refs_lt (hprint.objects obj hobj) id hid
    rwa [UInt32.toNat_ofNat_of_lt' hprint.count] at this
  · obtain ⟨c', hread⟩ := (parse_lines h).2.2 line hline
    obtain ⟨counts, c'', hcounts, hbody⟩ := alongside_objectLine _ _ _ _ hread
    have hdeclared : line.declared (UInt32.ofNat img.objects.length) = some counts := by
      rw [Line.declared, hcounts]
    rw [hdeclared] at hclosure ⊢
    rcases hbody with rfl | ⟨rfl, codeAddr, hbody⟩
    · rfl
    · exact absurd hbody (hclosure rfl codeAddr [])

/-- The lines of `sampleText`, not in the order of the ids. -/
theorem Image.parse_checks_sampleText : Image.parse sampleText = .ok sampleImage ∧
    (Image.objectLines sampleText).map (·.id.toNat) = [0, 2, 1, 3] ∧
    ((Image.objectLines sampleText).map (·.id.toNat)).Perm (List.range 4) ∧
    (∀ line ∈ Image.objectLines sampleText, sampleImage.objects[line.id.toNat]? = some line.object) ∧
    (∀ obj ∈ sampleImage.objects, ∀ id ∈ obj.body.refs, id.toNat < 4) ∧
    ∀ line ∈ Image.objectLines sampleText, line.declared 4 = some line.object.body.counts := by
  have hlines : (Image.objectLines sampleText).length < 2 ^ 32 := by decide +kernel
  have hitems : ∀ line ∈ Image.objectLines sampleText, line.declared 4 ≠ some [0] := by decide +kernel
  obtain ⟨hperm, hrefs, hcounts⟩ := Image.parse_checks Image.parse_sampleText
  exact ⟨Image.parse_sampleText, by decide +kernel, (hperm hlines).1, (hperm hlines).2, hrefs,
    fun line hline => hcounts line hline (fun hnone => absurd hnone (hitems line hline))⟩

/-- One object, and a root that is none. -/
def noRootText : List UInt8 := "Objects\t1\nRoot\t5 I 8\n0:K\n".asBytes

/-- The root of an accepted text need not be one of its objects. -/
theorem Image.parse_noRootText : Image.parse noRootText =
    .ok { root := 5, arch := .interpreted, wordSize := .bits64, objects := [⟨.empty, .weakRef⟩] } := by
  decide +kernel

/-- A closure line without items gives a closure with a code address. -/
def noItemsText : List UInt8 := "Objects\t1\nRoot\t0 I 8\n0:C0|@0\n".asBytes

example : Image.parse noItemsText =
    .ok { root := 0, arch := .interpreted, wordSize := .bits64, objects := [⟨.empty, .closure 0 []⟩] } := by
  decide +kernel
