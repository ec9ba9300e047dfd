import PolymlRs.Rts.Bignum

set_option autoImplicit false

/-! # Arbitrary-precision arithmetic

The runtime functions `PolyAddArbitrary` and its siblings, and the interpreter's `ARB_ADD`,
`ARB_SUBTRACT` and `ARB_MULTIPLY`. Each has a path for two tagged operands and falls back to big
integers when an operand is boxed or the result does not fit. -/

abbrev RtsResult := Except HeapExhausted (PolyWord × RtsContext)

/-! ## Exceptions -/

/-- A byte object with the length of the string in its first word. -/
def allocPolyString (ctx : RtsContext) (bytes : List UInt8) : RtsResult :=
  match ctx.allocSpace with
  | none => .ok (.tagged 0, ctx)
  | some space => do
    let bodyWords := (bytes.length + (wordBytes - 1)) / wordBytes
    let totalWords := 1 + bodyWords
    let (space, p) ← space.allocOrExit totalWords
    let mem := ctx.mem.setLengthWord p totalWords fByteObj
    let mem : Mem := Function.update mem p (BitVec.ofNat 64 bytes.length)
    let mem := mem.writeBytes (p + wordBytes) bytes
    let padding := bodyWords * wordBytes - bytes.length
    let mem := mem.writeBytes (p + wordBytes + bytes.length) (List.replicate padding 0)
    pure (.fromAddr p, { ctx with allocSpace := some space, mem })

/-- An ordinary object holding `words`; `absent` is returned without a nursery. -/
def allocTuple (ctx : RtsContext) (absent : PolyWord) (words : List PolyWord) : RtsResult :=
  match ctx.allocSpace with
  | none => .ok (absent, ctx)
  | some space => do
    let (space, p) ← space.allocOrExit words.length
    let mem := (ctx.mem.setLengthWord p words.length 0x00#8).putWords p words
    pure (.fromAddr p, { ctx with allocSpace := some space, mem })

/-- The packet of a nullary pervasive exception: identity, name, argument and location. -/
def makePervasiveExn (ctx : RtsContext) (exId : Int) (name : List UInt8) : RtsResult := do
  let (nameS, ctx) ← allocPolyString ctx name
  allocTuple ctx .zero [.tagged exId, nameS, .tagged 0, .tagged 0]

/-- The bytes of the exception's name. -/
def divName : List UInt8 := ['D'.toUInt8, 'i'.toUInt8, 'v'.toUInt8]

/-- `EXC_divide`. -/
def makeDivException (ctx : RtsContext) : RtsResult := makePervasiveExn ctx 7 divName

/-- The dispatcher raises the pending exception and ignores the returned word. -/
def raiseDiv (ctx : RtsContext) : RtsResult := do
  let (packet, ctx) ← makeDivException ctx
  pure (.tagged 0, { ctx with raisedException := some packet })

/-! ## Runtime functions -/

def bothTagged (a b : PolyWord) : Option (Int × Int) :=
  if a.isTagged && b.isTagged then some (a.untag, b.untag) else none

/-- Both operands as big integers. -/
def bothBigint (ctx : RtsContext) (a b : PolyWord) : Option (Int × Int) :=
  match polyWordToBigint ctx.safeSpaces ctx.mem a, polyWordToBigint ctx.safeSpaces ctx.mem b with
  | some x, some y => some (x, y)
  | _, _ => none

/-- An `i128` operation that reports overflow. -/
def checkedI128 (n : Int) : Option Int := if -(2 ^ 127) ≤ n ∧ n < 2 ^ 127 then some n else none

def arbFast (arg1 arg2 : PolyWord) (opFast : Int → Int → Option Int) : Option PolyWord :=
  match bothTagged arg2 arg1 with
  | none => none
  | some (x, y) =>
    match opFast x y with
    | none => none
    | some r => if FitsTagged r then some (.tagged r) else none

def arbSlow (ctx : RtsContext) (arg1 arg2 : PolyWord) (opSlow : Int → Int → Int) : RtsResult :=
  match bothBigint ctx arg2 arg1 with
  | none => .ok (.tagged 0, ctx)
  | some (a, b) => bigintToPolyWord ctx (opSlow a b)

/-- Computes `arg2 OP arg1`. -/
def arbBinop (ctx : RtsContext) (arg1 arg2 : PolyWord) (opFast : Int → Int → Option Int)
    (opSlow : Int → Int → Int) : RtsResult :=
  match arbFast arg1 arg2 opFast with
  | some w => .ok (w, ctx)
  | none => arbSlow ctx arg1 arg2 opSlow

def polyAddArbitrary (ctx : RtsContext) (_tid arg1 arg2 : PolyWord) : RtsResult :=
  arbBinop ctx arg1 arg2 (fun x y => checkedI128 (x + y)) (fun a b => a + b)

/-- `arbBinop` computes `arg2 OP arg1`, so the arguments are swapped. -/
def polySubtractArbitrary (ctx : RtsContext) (_tid arg1 arg2 : PolyWord) : RtsResult :=
  arbBinop ctx arg2 arg1 (fun x y => checkedI128 (x - y)) (fun a b => a - b)

def polyMultiplyArbitrary (ctx : RtsContext) (_tid arg1 arg2 : PolyWord) : RtsResult :=
  arbBinop ctx arg1 arg2 (fun x y => checkedI128 (x * y)) (fun a b => a * b)

def divRemSlow (ctx : RtsContext) (arg1 arg2 : PolyWord) (op : Int → Int → Int) : RtsResult :=
  match bothBigint ctx arg1 arg2 with
  | none => .ok (.tagged 0, ctx)
  | some (a, b) => if b = 0 then raiseDiv ctx else bigintToPolyWord ctx (op a b)

/-- `arg1` is the dividend and `arg2` the divisor. -/
def arbDivRem (ctx : RtsContext) (arg1 arg2 : PolyWord) (op : Int → Int → Int) : RtsResult :=
  match bothTagged arg2 arg1 with
  | some (dvdr, dvd) =>
    if dvdr = 0 then raiseDiv ctx
    else if ¬(dvd = PolyWord.minTagged ∧ dvdr = -1) then .ok (.tagged (op dvd dvdr), ctx)
    else divRemSlow ctx arg1 arg2 op
  | none => divRemSlow ctx arg1 arg2 op

/-- Division truncates, as Rust's `/` does. -/
def polyDivideArbitrary (ctx : RtsContext) (_tid arg1 arg2 : PolyWord) : RtsResult :=
  arbDivRem ctx arg1 arg2 Int.tdiv

/-- The remainder has the sign of the dividend, as with Rust's `%`. -/
def polyRemainderArbitrary (ctx : RtsContext) (_tid arg1 arg2 : PolyWord) : RtsResult :=
  arbDivRem ctx arg1 arg2 Int.tmod

def polyCompareArbitrary (ctx : RtsContext) (arg1 arg2 : PolyWord) : PolyWord :=
  if arg1 = arg2 then .tagged 0
  else
    match bothBigint ctx arg1 arg2 with
    | none => .tagged 0
    | some (a, b) =>
      match compare a b with
      | .lt => .tagged (-1)
      | .eq => .tagged 0
      | .gt => .tagged 1

/-- Store quotient and remainder, in this order. -/
def storeQuotRem (ctx : RtsContext) (a b : Int) :
    Except HeapExhausted (PolyWord × PolyWord × RtsContext) := do
  let (q, ctx) ← bigintToPolyWord ctx (a.tdiv b)
  let (r, ctx) ← bigintToPolyWord ctx (a.tmod b)
  pure (q, r, ctx)

/-- A two-word tuple. -/
def allocPair (ctx : RtsContext) (q r : PolyWord) : RtsResult := allocTuple ctx (.tagged 0) [q, r]

/-- `arg1` is the dividend and `arg2` the divisor. -/
def polyQuotRemArbitraryPair (ctx : RtsContext) (_tid arg1 arg2 : PolyWord) : RtsResult :=
  match bothTagged arg2 arg1 with
  | some (dvdr, dvd) =>
    if dvdr = 0 then raiseDiv ctx
    else if dvd = PolyWord.minTagged ∧ dvdr = -1 then do
      let (q, r, ctx) ← storeQuotRem ctx dvd dvdr
      allocPair ctx q r
    else allocPair ctx (.tagged (dvd.tdiv dvdr)) (.tagged (dvd.tmod dvdr))
  | none =>
    match bothBigint ctx arg1 arg2 with
    | none => .ok (.tagged 0, ctx)
    | some (a, b) =>
      if b = 0 then raiseDiv ctx
      else do
        let (q, r, ctx) ← storeQuotRem ctx a b
        allocPair ctx q r

/-! ## Interpreter instructions -/

/-- What the three instructions use of the interpreter; the stack has its top first. -/
structure ArbState where
  stack : List PolyWord
  mem : Mem
  nursery : Option MemorySpace
  safeSpaces : Option (List (Nat × Nat))

/-- How an instruction can stop the run. -/
inductive ArbStop where
  | stackUnderflow
  | exit (e : HeapExhausted)
deriving DecidableEq, Repr

def ArbState.pop (st : ArbState) : Except ArbStop (PolyWord × ArbState) :=
  match st.stack with
  | [] => .error .stackUnderflow
  | w :: rest => .ok (w, { st with stack := rest })

def ArbState.peek (st : ArbState) : Except ArbStop PolyWord :=
  match st.stack with
  | [] => .error .stackUnderflow
  | w :: _ => .ok w

/-- `self.stack[self.sp] = w`. -/
def ArbState.setTop (st : ArbState) (w : PolyWord) : ArbState :=
  { st with stack := w :: st.stack.tail }

/-- The context for reading the operands. -/
def ArbState.ctx (st : ArbState) : RtsContext :=
  { mem := st.mem, allocSpace := st.nursery, raisedException := none, safeSpaces := st.safeSpaces }

/-- The big-integer path of the instructions; the result is stored through a context of its own. -/
def arbViaBigint (st : ArbState) (x y : PolyWord) (op : Int → Int → Int) : RtsResult :=
  match bothBigint st.ctx y x with
  | none => .ok (.tagged 0, st.ctx)
  | some (a, b) => bigintToPolyWord { st.ctx with safeSpaces := none } (op a b)

/-- Pop `x`, peek `y`, replace the top with `y OP x`. -/
def arbPair (st : ArbState) (op : Int → Int → Int) : Except ArbStop ArbState := do
  let (x, st) ← st.pop
  let y ← st.peek
  if x.isTagged && y.isTagged && decide (FitsTagged (op y.untag x.untag)) then
    pure (st.setTop (.tagged (op y.untag x.untag)))
  else
    match arbViaBigint st x y op with
    | .error e => .error (.exit e)
    | .ok (w, ctx) => pure { st.setTop w with mem := ctx.mem, nursery := ctx.allocSpace }

def arbAddPair (st : ArbState) : Except ArbStop ArbState := arbPair st (fun y x => y + x)

def arbSubPair (st : ArbState) : Except ArbStop ArbState := arbPair st (fun y x => y - x)

def arbMultPair (st : ArbState) : Except ArbStop ArbState := arbPair st (fun y x => y * x)
