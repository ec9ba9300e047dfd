import Mathlib.Data.List.Basic

set_option autoImplicit false

/-! # Reading a byte string from left to right

A parser over a byte string with a read position, and the two facts a format is verified with.
`Reads` says what a parser does on the output of a printer: it consumes exactly those bytes and
returns the value they were printed from. `Yields` says what holds of every value a parser returns
on any input. Both are closed under `bind` and under repetition, so the correctness of a format is
assembled from its fields in the order in which they are written. -/

/-- A byte string and the position of the next byte to read. -/
structure Cursor where
  bytes : List UInt8
  pos : Nat
deriving DecidableEq, Repr

/-- A parser that may fail with an error of type `ε`. -/
abbrev Parser (ε α : Type) := StateT Cursor (Except ε) α

namespace Cursor

/-- What has not been read yet. -/
def rest (c : Cursor) : List UInt8 := c.bytes.drop c.pos

def advance (c : Cursor) (n : Nat) : Cursor := { c with pos := c.pos + n }

@[simp] theorem bytes_advance (c : Cursor) (n : Nat) : (c.advance n).bytes = c.bytes := rfl

@[simp] theorem pos_advance (c : Cursor) (n : Nat) : (c.advance n).pos = c.pos + n := rfl

@[simp] theorem advance_advance (c : Cursor) (m n : Nat) :
    (c.advance m).advance n = c.advance (m + n) := by
  simp only [advance, Nat.add_assoc]

/-- The same place in an input that goes on. -/
def extend (c : Cursor) (more : List UInt8) : Cursor := { c with bytes := c.bytes ++ more }

@[simp] theorem bytes_extend (c : Cursor) (more : List UInt8) :
    (c.extend more).bytes = c.bytes ++ more := rfl

@[simp] theorem pos_extend (c : Cursor) (more : List UInt8) : (c.extend more).pos = c.pos := rfl

theorem getElem?_pos (c : Cursor) : c.bytes[c.pos]? = c.rest.head? := by
  rw [rest, List.head?_drop]

theorem rest_advance {c : Cursor} {bs post : List UInt8} (h : c.rest = bs ++ post) :
    (c.advance bs.length).rest = post := by
  have hdrop : (c.advance bs.length).rest = c.rest.drop bs.length := by
    simp only [rest, bytes_advance, pos_advance, List.drop_drop]
  rw [hdrop, h, List.drop_left]

/-- The position is inside the input or at its end. -/
def Valid (c : Cursor) : Prop := c.pos ≤ c.bytes.length

theorem Valid.room {c : Cursor} (hc : c.Valid) {bs post : List UInt8} (h : c.rest = bs ++ post) :
    c.pos + bs.length ≤ c.bytes.length := by
  have hlen : c.rest.length = c.bytes.length - c.pos := List.length_drop
  rw [h, List.length_append] at hlen
  unfold Valid at hc
  omega

theorem Valid.advance {c : Cursor} (hc : c.Valid) {bs post : List UInt8} (h : c.rest = bs ++ post) :
    (c.advance bs.length).Valid := hc.room h

end Cursor

namespace Parser

variable {ε α β : Type}

/-! ## Primitive parsers -/

/-- The next byte, which stays unread; `eof` is the error at the end of the input. -/
def peek (eof : Nat → ε) : Parser ε UInt8 := fun c =>
  match c.bytes[c.pos]? with
  | some b => .ok (b, c)
  | none => .error (eof c.pos)

/-- Skip `n` bytes without looking at them. -/
def skip (n : Nat) : Parser ε Unit := fun c => .ok ((), c.advance n)

/-- Read one byte. -/
def bump (eof : Nat → ε) : Parser ε UInt8 := do
  let b ← peek eof
  skip 1
  pure b

/-- Skip the longest run of bytes that satisfy `pred`. -/
def skipWhile (pred : UInt8 → Bool) : Parser ε Unit := fun c =>
  .ok ((), c.advance (c.rest.takeWhile pred).length)

/-- Read the longest run of bytes that satisfy `pred`. -/
def takeWhile (pred : UInt8 → Bool) : Parser ε (List UInt8) := fun c =>
  .ok (c.rest.takeWhile pred, c.advance (c.rest.takeWhile pred).length)

/-- Is everything read? -/
def atEof : Parser ε Bool := fun c => .ok (decide (c.bytes.length ≤ c.pos), c)

/-- The read position. -/
def position : Parser ε Nat := fun c => .ok (c.pos, c)

/-- Run `p` a given number of times and collect the results. -/
def times (p : Parser ε α) : Nat → Parser ε (List α)
  | 0 => pure []
  | n + 1 => do
    let x ← p
    let xs ← times p n
    pure (x :: xs)

/-! ## Reading back what was printed -/

/-- On `bs`, followed by anything that satisfies `F`, the parser reads exactly `bs` and returns
`x`. -/
def Reads (F : List UInt8 → Prop) (p : Parser ε α) (bs : List UInt8) (x : α) : Prop :=
  ∀ (c : Cursor) (post : List UInt8), c.Valid → F post → c.rest = bs ++ post →
    p c = .ok (x, c.advance bs.length)

/-- What follows does not matter. -/
abbrev Anything : List UInt8 → Prop := fun _ => True

/-- What follows starts with a byte that satisfies `P`. -/
def Next (P : UInt8 → Prop) (post : List UInt8) : Prop := ∃ b t, post = b :: t ∧ P b

theorem Next.cons {P : UInt8 → Prop} {b : UInt8} (h : P b) (t : List UInt8) : Next P (b :: t) :=
  ⟨b, t, rfl, h⟩

/-- What follows does not continue a run of bytes that satisfy `pred`. -/
def Ends (pred : UInt8 → Bool) (post : List UInt8) : Prop :=
  ∀ b t, post = b :: t → pred b = false

theorem Ends.cons {pred : UInt8 → Bool} {b : UInt8} (h : pred b = false) (t : List UInt8) :
    Ends pred (b :: t) := by
  intro b' t' he
  cases he
  exact h

theorem Ends.nil {pred : UInt8 → Bool} : Ends pred [] := fun _ _ he => nomatch he

theorem Ends.takeWhile {pred : UInt8 → Bool} {bs post : List UInt8} (h : Ends pred post)
    (hall : ∀ b ∈ bs, pred b = true) : (bs ++ post).takeWhile pred = bs := by
  rw [List.takeWhile_append_of_pos hall]
  cases post with
  | nil => simp
  | cons b t => simp [h b t rfl]

namespace Reads

variable {F G : List UInt8 → Prop} {p : Parser ε α} {f : α → Parser ε β} {bs cs : List UInt8}
  {x : α} {y : β}

theorem weaken (h : Reads G p bs x) (hFG : ∀ post, F post → G post) : Reads F p bs x :=
  fun c post hc hF hr => h c post hc (hFG post hF) hr

theorem pure (x : α) : Reads F (pure x : Parser ε α) [] x := fun _ _ _ _ _ => rfl

/-- Two fields in a row; what the first field needs behind it must be provided by the second. -/
theorem bind (hp : Reads G p bs x) (hf : Reads F (f x) cs y)
    (hG : ∀ post, F post → G (cs ++ post)) : Reads F (p >>= f) (bs ++ cs) y := by
  intro c post hc hF hr
  rw [List.append_assoc] at hr
  have h1 := hp c (cs ++ post) hc (hG post hF) hr
  have h2 := hf (c.advance bs.length) post (hc.advance hr) hF (Cursor.rest_advance hr)
  have hrun : (p >>= f) c = (f x) (c.advance bs.length) := by
    show (p c >>= fun r => f r.1 r.2) = _
    rw [h1]
    rfl
  rw [hrun, h2, Cursor.advance_advance, List.length_append]

theorem bindAny (hp : Reads Anything p bs x) (hf : Reads F (f x) cs y) :
    Reads F (p >>= f) (bs ++ cs) y := hp.bind hf (fun _ _ => trivial)

/-- The second step reads nothing. -/
theorem bindNil (hp : Reads F p bs x) (hf : Reads F (f x) [] y) : Reads F (p >>= f) bs y := by
  have h : Reads F (p >>= f) (bs ++ []) y := hp.bind hf (fun post hF => by simpa using hF)
  rwa [List.append_nil] at h

/-- The last step reads nothing: it computes the result from what has been read. -/
theorem finish (hp : Reads F p bs x) (hf : f x = Pure.pure y) : Reads F (p >>= f) bs y := by
  refine hp.bindNil ?_
  rw [hf]
  exact pure y

theorem map {g : α → β} (hp : Reads F p bs x) : Reads F (p >>= fun a => Pure.pure (g a)) bs (g x) :=
  hp.finish rfl

theorem bump (eof : Nat → ε) (b : UInt8) : Reads Anything (Parser.bump eof) [b] b := by
  intro c post _ _ hr
  have hb : c.bytes[c.pos]? = some b := by rw [c.getElem?_pos, hr]; rfl
  have hpeek : peek eof c = .ok (b, c) := by simp only [peek, hb]
  show (peek eof c >>= fun r => (skip 1 >>= fun _ => Pure.pure r.1 : Parser ε UInt8) r.2) = _
  rw [hpeek]
  rfl

/-- A first byte, then the rest. -/
theorem bumpBind {eof : Nat → ε} {g : UInt8 → Parser ε β} {b : UInt8}
    (h : Reads F (g b) bs y) : Reads F (Parser.bump eof >>= g) (b :: bs) y :=
  (bump eof b).bindAny h

/-- Asking for the position reads nothing. -/
theorem withPosition {g : Nat → Parser ε β} (h : ∀ n, Reads F (g n) cs y) :
    Reads F (Parser.position >>= g) cs y := fun c post hc hF hr => h c.pos c post hc hF hr

/-- Looking ahead reads nothing. -/
theorem peekBind {eof : Nat → ε} {g : UInt8 → Parser ε β} {b : UInt8} {bs : List UInt8}
    (h : Reads F (g b) (b :: bs) y) : Reads F (Parser.peek eof >>= g) (b :: bs) y := by
  intro c post hc hF hr
  have hb : c.bytes[c.pos]? = some b := by rw [c.getElem?_pos, hr]; rfl
  have hpeek : peek eof c = .ok (b, c) := by simp only [peek, hb]
  show (peek eof c >>= fun r => g r.1 r.2) = _
  rw [hpeek]
  exact h c post hc hF hr

/-- Looking ahead past what is read here: the next byte belongs to what follows. -/
theorem peekNext {eof : Nat → ε} {g : UInt8 → Parser ε β} {P : UInt8 → Prop}
    (h : ∀ b, P b → Reads (Next P) (g b) [] y) : Reads (Next P) (Parser.peek eof >>= g) [] y := by
  intro c post hc hF hr
  obtain ⟨b, t, hpost, hP⟩ := hF
  have hb : c.bytes[c.pos]? = some b := by rw [c.getElem?_pos, hr, hpost]; rfl
  have hpeek : peek eof c = .ok (b, c) := by simp only [peek, hb]
  show (peek eof c >>= fun r => g r.1 r.2) = _
  rw [hpeek]
  exact h b hP c post hc ⟨b, t, hpost, hP⟩ hr

/-- Asking for the cursor reads nothing. -/
theorem withCursor {g : Cursor → Parser ε β}
    (h : ∀ c : Cursor, cs.length ≤ c.rest.length → Reads F (g c) cs y) :
    Reads F (get >>= g) cs y := by
  intro c post hc hF hr
  have hlen : cs.length ≤ c.rest.length := by
    rw [hr, List.length_append]
    exact Nat.le_add_right _ _
  exact h c hlen c post hc hF hr

/-- The input ends here. -/
theorem atEof : Reads (· = []) (Parser.atEof : Parser ε Bool) [] true := by
  intro c post _ hF hr
  have hrest : c.rest = [] := by rw [hr, hF, List.append_nil]
  have hend : c.bytes.length ≤ c.pos := List.drop_eq_nil_iff.1 hrest
  simp only [Parser.atEof, hend, decide_true]
  rfl

/-- There is more to read. -/
theorem moreBind {g : Bool → Parser ε β} {b : UInt8} (h : Reads F (g false) (b :: bs) y) :
    Reads F (Parser.atEof >>= g) (b :: bs) y := by
  intro c post hc hF hr
  have hmore : ¬c.bytes.length ≤ c.pos := by
    intro hend
    rw [Cursor.rest, List.drop_eq_nil_of_le hend] at hr
    cases hr
  have hrun : Parser.atEof (ε := ε) c = .ok (false, c) := by
    simp only [Parser.atEof, hmore, decide_false]
  show (Parser.atEof c >>= fun r => g r.1 r.2) = _
  rw [hrun]
  exact h c post hc hF hr

theorem skip (bs : List UInt8) : Reads F (Parser.skip bs.length : Parser ε Unit) bs () :=
  fun _ _ _ _ _ => rfl

/-- A run of bytes that satisfy `pred` ends where the first one does not. -/
theorem skipWhile {pred : UInt8 → Bool} (hall : ∀ b ∈ bs, pred b = true) :
    Reads (Ends pred) (Parser.skipWhile pred : Parser ε Unit) bs () := by
  intro c post _ hF hr
  simp only [Parser.skipWhile, hr, hF.takeWhile hall]

theorem takeWhile {pred : UInt8 → Bool} (hall : ∀ b ∈ bs, pred b = true) :
    Reads (Ends pred) (Parser.takeWhile pred : Parser ε (List UInt8)) bs bs := by
  intro c post _ hF hr
  simp only [Parser.takeWhile, hr, hF.takeWhile hall]

/-- A counted sequence of items. -/
theorem times {enc : α → List UInt8} {xs : List α} (h : ∀ x ∈ xs, Reads Anything p (enc x) x) :
    Reads Anything (Parser.times p xs.length) (xs.flatMap enc) xs := by
  induction xs with
  | nil => exact pure []
  | cons x xs ih =>
    have hxs := ih (fun y hy => h y (List.mem_cons_of_mem _ hy))
    simp only [List.length_cons, List.flatMap_cons, Parser.times]
    exact (h x List.mem_cons_self).bindAny hxs.map

end Reads

/-! ## Refusing what was printed -/

/-- On `bs`, whatever follows, the parser fails. -/
def Refuses (p : Parser ε α) (bs : List UInt8) : Prop :=
  ∀ (c : Cursor) (post : List UInt8), c.Valid → c.rest = bs ++ post → ∃ e, p c = .error e

namespace Refuses

variable {G : List UInt8 → Prop} {p : Parser ε α} {f : α → Parser ε β} {bs cs : List UInt8} {x : α}

theorem throw (e : ε) : Refuses (throw e : Parser ε α) bs := fun _ _ _ _ => ⟨e, rfl⟩

/-- The first field is refused. -/
theorem left (hp : Refuses p bs) : Refuses (p >>= f) bs := by
  intro c post hc hr
  obtain ⟨e, he⟩ := hp c post hc hr
  refine ⟨e, ?_⟩
  show (p c >>= fun r => f r.1 r.2) = _
  rw [he]
  rfl

/-- The first field is read and the second one is refused. -/
theorem bind (hp : Reads G p bs x) (hf : Refuses (f x) cs) (hG : ∀ post, G (cs ++ post)) :
    Refuses (p >>= f) (bs ++ cs) := by
  intro c post hc hr
  rw [List.append_assoc] at hr
  have h1 := hp c (cs ++ post) hc (hG post) hr
  obtain ⟨e, he⟩ := hf (c.advance bs.length) post (hc.advance hr) (Cursor.rest_advance hr)
  refine ⟨e, ?_⟩
  show (p c >>= fun r => f r.1 r.2) = _
  rw [h1]
  exact he

theorem withPosition {g : Nat → Parser ε β} (h : ∀ n, Refuses (g n) cs) :
    Refuses (Parser.position >>= g) cs := fun c post hc hr => h c.pos c post hc hr

theorem peekBind {eof : Nat → ε} {g : UInt8 → Parser ε β} {b : UInt8}
    (h : Refuses (g b) (b :: bs)) : Refuses (Parser.peek eof >>= g) (b :: bs) := by
  intro c post hc hr
  have hb : c.bytes[c.pos]? = some b := by rw [c.getElem?_pos, hr]; rfl
  have hpeek : peek eof c = .ok (b, c) := by simp only [peek, hb]
  show ∃ e, (peek eof c >>= fun r => g r.1 r.2) = _
  rw [hpeek]
  exact h c post hc hr

end Refuses

/-! ## What a parser can return -/

/-- Every value the parser returns satisfies `Q`. -/
def Yields (p : Parser ε α) (Q : α → Prop) : Prop :=
  ∀ (c : Cursor) (x : α) (c' : Cursor), p c = .ok (x, c') → Q x

namespace Yields

variable {p : Parser ε α} {f : α → Parser ε β} {P : α → Prop} {Q : β → Prop}

theorem trivial (p : Parser ε α) : Yields p (fun _ => True) := fun _ _ _ _ => True.intro

theorem weaken {R : α → Prop} (h : Yields p P) (hPR : ∀ x, P x → R x) : Yields p R :=
  fun c x c' hr => hPR x (h c x c' hr)

theorem pure {x : α} (h : P x) : Yields (pure x : Parser ε α) P := by
  intro c y c' hr
  cases hr
  exact h

theorem throw {e : ε} : Yields (throw e : Parser ε α) P := by
  intro c y c' hr
  cases hr

theorem bind (hp : Yields p P) (hf : ∀ x, P x → Yields (f x) Q) : Yields (p >>= f) Q := by
  intro c y c' hr
  change (p c >>= fun r => f r.1 r.2) = _ at hr
  cases hc : p c with
  | error e =>
    rw [hc] at hr
    cases hr
  | ok r =>
    rw [hc] at hr
    exact hf r.1 (hp c r.1 r.2 hc) r.2 y c' hr

theorem bindAny (hf : ∀ x, Yields (f x) Q) : Yields (p >>= f) Q :=
  (trivial p).bind (fun x _ => hf x)

/-- Behind a skipped run comes a byte that does not continue it. -/
theorem skipWhilePeek (pred : UInt8 → Bool) (eof : Nat → ε) :
    Yields (Parser.skipWhile pred >>= fun _ => Parser.peek eof) (fun b => pred b = false) := by
  intro c b c' hr
  change Parser.peek eof (c.advance (c.rest.takeWhile pred).length) = _ at hr
  have hrest : (c.advance (c.rest.takeWhile pred).length).rest = c.rest.dropWhile pred :=
    Cursor.rest_advance List.takeWhile_append_dropWhile.symm
  unfold Parser.peek at hr
  rw [Cursor.getElem?_pos, hrest] at hr
  have hhead := List.head?_dropWhile_not pred c.rest
  cases hd : (c.rest.dropWhile pred).head? with
  | none =>
    rw [hd] at hr
    cases hr
  | some x =>
    rw [hd] at hr hhead
    cases hr
    simpa using hhead

theorem times (h : Yields p P) : ∀ n, Yields (Parser.times p n)
    (fun xs => xs.length = n ∧ ∀ x ∈ xs, P x)
  | 0 => pure ⟨rfl, by simp⟩
  | n + 1 => h.bind (fun x hx => (times h n).bind (fun xs hxs => pure
      ⟨by simp [hxs.1], by
        intro y hy
        rcases List.mem_cons.1 hy with rfl | hy
        · exact hx
        · exact hxs.2 y hy⟩))

end Yields

/-! ## Input that goes on -/

/-- What a parser returned on some input it returns again, at the same position, when the input goes
on: it has looked at nothing behind the bytes it read, and it read no byte that was not there. -/
def Local (p : Parser ε α) : Prop :=
  ∀ (c : Cursor) (x : α) (c' : Cursor), p c = .ok (x, c') →
    c'.bytes = c.bytes ∧ (c.Valid → c'.Valid) ∧
      ∀ more, p (c.extend more) = .ok (x, c'.extend more)

namespace Local

variable {p : Parser ε α} {f : α → Parser ε β}

theorem pure (x : α) : Local (pure x : Parser ε α) := by
  intro c y c' hr
  cases hr
  exact ⟨rfl, id, fun _ => rfl⟩

theorem throw (e : ε) : Local (throw e : Parser ε α) := by
  intro c y c' hr
  cases hr

theorem bind (hp : Local p) (hf : ∀ x, Local (f x)) : Local (p >>= f) := by
  intro c y c' hr
  change (p c >>= fun r => f r.1 r.2) = _ at hr
  cases hc : p c with
  | error e =>
    rw [hc] at hr
    cases hr
  | ok r =>
    rw [hc] at hr
    obtain ⟨hb1, hv1, hm1⟩ := hp c r.1 r.2 hc
    obtain ⟨hb2, hv2, hm2⟩ := hf r.1 r.2 y c' hr
    refine ⟨hb2.trans hb1, fun hv => hv2 (hv1 hv), fun more => ?_⟩
    show (p (c.extend more) >>= fun r => f r.1 r.2) = _
    rw [hm1 more]
    exact hm2 more

theorem ite {q : Parser ε α} {P : Prop} [Decidable P] (hp : Local p) (hq : Local q) :
    Local (if P then p else q) := by
  split
  · exact hp
  · exact hq

/-- The position does not depend on what follows. -/
theorem position : Local (Parser.position : Parser ε Nat) := by
  intro c y c' hr
  cases hr
  exact ⟨rfl, id, fun _ => rfl⟩

theorem bump (eof : Nat → ε) : Local (Parser.bump eof) := by
  intro c y c' hr
  change (peek eof c >>= fun r => (skip 1 >>= fun _ => Pure.pure r.1 : Parser ε UInt8) r.2) = _ at hr
  have hrun : ∀ (d : Cursor) (b : UInt8), d.bytes[d.pos]? = some b →
      Parser.bump eof d = .ok (b, d.advance 1) := by
    intro d b hb
    have hpeek : peek eof d = .ok (b, d) := by simp only [peek, hb]
    show (peek eof d >>= fun r => (skip 1 >>= fun _ => Pure.pure r.1 : Parser ε UInt8) r.2) = _
    rw [hpeek]
    rfl
  cases hb : c.bytes[c.pos]? with
  | none =>
    have hpeek : peek eof c = .error (eof c.pos) := by simp only [peek, hb]
    rw [hpeek] at hr
    cases hr
  | some b =>
    change Parser.bump eof c = _ at hr
    rw [hrun c b hb] at hr
    cases hr
    have hlt : c.pos < c.bytes.length := (List.getElem?_eq_some_iff.1 hb).1
    refine ⟨rfl, fun _ => hlt, fun more => hrun (c.extend more) _ ?_⟩
    rw [Cursor.bytes_extend, Cursor.pos_extend, List.getElem?_append_left hlt, hb]

theorem times (hp : Local p) : ∀ n, Local (Parser.times p n)
  | 0 => pure []
  | n + 1 => hp.bind (fun x => (times hp n).bind (fun xs => pure (x :: xs)))

/-- **Truncation.** What a parser reads back it does not accept with its end cut off. -/
theorem truncated (hp : Local p) {bs pre : List UInt8} {x : α} (hr : Reads Anything p bs x)
    (hpre : pre <+: bs) (hne : pre ≠ bs) : ∃ e, p ⟨pre, 0⟩ = .error e := by
  obtain ⟨tail, rfl⟩ := hpre
  cases hrun : p ⟨pre, 0⟩ with
  | error e => exact ⟨e, rfl⟩
  | ok r =>
    obtain ⟨hbytes, hvalid, hmore⟩ := hp ⟨pre, 0⟩ r.1 r.2 hrun
    have hstop : r.2.pos ≤ pre.length := by
      have hv := hvalid (Nat.zero_le _)
      rwa [Cursor.Valid, hbytes] at hv
    have hfull := hr ⟨pre ++ tail, 0⟩ [] (Nat.zero_le _) trivial (by simp [Cursor.rest])
    have hsame := (hmore tail).symm.trans hfull
    have hpos : r.2.pos = (pre ++ tail).length := by
      have h := congrArg Cursor.pos (Prod.mk.inj (Except.ok.inj hsame)).2
      rwa [Cursor.pos_extend, Cursor.pos_advance, Nat.zero_add] at h
    have htail : 0 < tail.length := by
      rw [List.length_pos_iff]
      rintro rfl
      exact hne (List.append_nil _).symm
    rw [List.length_append] at hpos
    omega

end Local

/-! ## Two parsers at the same place -/

/-- Where `p` succeeds, so does `q` from the same place, and `R` relates the results. -/
def Alongside (p : Parser ε α) (q : Parser ε β) (R : α → β → Prop) : Prop :=
  ∀ (c : Cursor) (x : α) (c' : Cursor), p c = .ok (x, c') → ∃ y c'', q c = .ok (y, c'') ∧ R x y

namespace Alongside

variable {γ : Type} {R : α → β → Prop}

/-- The second one has read all it reads. -/
theorem stop {p : Parser ε α} {y : β} (h : Yields p (fun x => R x y)) :
    Alongside p (Pure.pure y) R := fun c x c' hr => ⟨y, c, rfl, h c x c' hr⟩

/-- Both begin with the same step. -/
theorem bind {r : Parser ε γ} {P : γ → Prop} {f : γ → Parser ε α} {g : γ → Parser ε β}
    (hr : Yields r P) (h : ∀ z, P z → Alongside (f z) (g z) R) : Alongside (r >>= f) (r >>= g) R := by
  intro c x c' hx
  change (r c >>= fun s => f s.1 s.2) = _ at hx
  change ∃ y c'', (r c >>= fun s => g s.1 s.2) = _ ∧ _
  cases hc : r c with
  | error e =>
    rw [hc] at hx
    cases hx
  | ok s =>
    rw [hc] at hx
    exact h s.1 (hr c s.1 s.2 hc) s.2 x c' hx

/-- The first one goes on. -/
theorem andThen {p : Parser ε α} {q : Parser ε β} {f : α → Parser ε γ} {S : γ → β → Prop}
    (hp : Alongside p q R) (hf : ∀ x y, R x y → Yields (f x) (fun z => S z y)) :
    Alongside (p >>= f) q S := by
  intro c z c' hz
  change (p c >>= fun s => f s.1 s.2) = _ at hz
  cases hc : p c with
  | error e =>
    rw [hc] at hz
    cases hz
  | ok s =>
    rw [hc] at hz
    obtain ⟨y, c'', hq, hR⟩ := hp c s.1 s.2 hc
    exact ⟨y, c'', hq, hf s.1 y hR s.2 z c' hz⟩

theorem bindAny {r : Parser ε γ} {f : γ → Parser ε α} {g : γ → Parser ε β}
    (h : ∀ z, Alongside (f z) (g z) R) : Alongside (r >>= f) (r >>= g) R :=
  bind (.trivial r) (fun z _ => h z)

end Alongside

end Parser
