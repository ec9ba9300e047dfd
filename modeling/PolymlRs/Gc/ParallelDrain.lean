import Mathlib.Algebra.GroupWithZero.Nat
import Mathlib.Data.Fintype.Card
import PolymlRs.Lib.Interleaving

set_option autoImplicit false

/-! # The workers of a parallel collection

`drain` as the workers of a parallel collection run it: copied objects lie in chunks of the arena, a
worker sweeps the chunks it has until there is nothing left to scan, shares what it does not get to,
and returns when every worker is idle and nothing is shared. The objects are any type `Obj`, the
workers any type `Wid`. One step of a worker is one access to something the workers share, with what
the worker does to its own state next to it; which worker takes a step is free. -/

namespace Par

/-- How an object is scanned. -/
inductive ScanKind
  | bytes
  | code
  | closure
  | weak
  | word
deriving DecidableEq, Repr

/-- An object of the heap that is collected: its length, and for each of its slots the object the slot
points into. A slot that holds no pointer into a from-space, or one to no object, has none. -/
structure Object (Obj : Type) where
  words : Nat
  kind : ScanKind
  slots : List (Option Obj)

/-- The number of slots that a scan of the object forwards. -/
def Object.scanned {Obj : Type} (o : Object Obj) : Nat :=
  match o.kind with
  | .bytes | .weak => 0
  | .code | .closure | .word => o.slots.length

/-- What an arena holds: copies of objects, and byte objects that plug the tail of a chunk. -/
inductive Content (Obj : Type)
  | object (o : Obj)
  | filler (words : Nat)
deriving DecidableEq, Repr

/-- A slice of the arena. `unscanned` is what lies from its scan pointer to `alloc`. -/
structure Chunk (Obj : Type) where
  start : Nat
  stop : Nat
  alloc : Nat
  unscanned : List (Content Obj)
deriving DecidableEq, Repr

/-- A unit of stealable scan work: a chunk, or the slots `[lo, hi)` of one object. -/
inductive Task (Obj : Type)
  | chunk (c : Chunk Obj)
  | slots (body : Obj) (lo hi : Nat)
deriving DecidableEq, Repr

/-- The header of an object in from-space: its length word, claimed by a worker, or a tombstone. -/
inductive Header
  | normal
  | busy
  | forwarded
deriving DecidableEq, Repr

/-- `CHUNK_WORDS`. -/
def defaultChunkWords : Nat := 512 * 1024
def initialChunkWords : Nat := 4 * 1024
def splitWords : Nat := 4096

/-- What the workers share. `forwarded` says which slots of copies have been forwarded, and `overflow`
whether an assertion about the size of the arena has failed. -/
structure Shared (Obj : Type) where
  toLen : Nat
  arenaUsed : Nat
  chunkWords : Nat
  oversizeWords : Nat
  busy : Nat
  /-- The stack of tasks, the top first. -/
  steal : List (Task Obj)
  weak : List Obj
  header : Obj → Header
  forwarded : Obj → Nat → Bool
  overflow : Bool

/-- What a worker sweeps, and goes on with when an object is scanned. -/
inductive Sweep (Obj : Type)
  | own
  | foreign (c : Chunk Obj)
  /-- A range of slots only. -/
  | task
deriving DecidableEq, Repr

/-- The slots `[lo, hi)` of the copy of `body` are to be forwarded. -/
structure Job (Obj : Type) where
  sweep : Sweep Obj
  body : Obj
  lo : Nat
  hi : Nat
deriving DecidableEq, Repr

/-- Where a worker is. -/
inductive Phase (Obj : Type)
  /-- The head of the loop. -/
  | top
  /-- Between two objects of a sweep. -/
  | sweeping (sweep : Sweep Obj)
  /-- Giving away halves of a wide range. -/
  | split (j : Job Obj)
  | scan (j : Job Obj)
  /-- In `forward_object` for the target of slot `lo`. -/
  | forward (j : Job Obj) (target : Obj)
  /-- The header is claimed. -/
  | claimed (j : Job Obj) (target : Obj)
  /-- The chunk `old` is replaced, and is to be kept or shared. -/
  | sealed (j : Job Obj) (target : Obj) (old : Chunk Obj)
  /-- About to copy and publish. -/
  | copy (j : Job Obj) (target : Obj) (slice : Option (Chunk Obj))
  /-- The slice of an oversized object is to be kept or shared. -/
  | place (j : Job Obj) (slice : Chunk Obj)
  /-- Nothing local, nothing stealable; about to leave `busy`. -/
  | idling
  | probing
  /-- The queue was empty; about to load `busy`. -/
  | loading
  /-- The queue was not empty; about to enter `busy`. -/
  | entering
  | returned
  /-- The assertion of `claim_arena` has failed. -/
  | panicked (j : Job Obj) (target : Obj)
deriving DecidableEq, Repr

/-- `allocated` and `filled` count the words the worker has allocated for objects and plugged. -/
structure Worker (Obj : Type) where
  cur : Chunk Obj
  scanning : Option (Chunk Obj)
  nextChunk : Nat
  phase : Phase Obj
  allocated : Nat
  filled : Nat

/-! ## The steps of a worker -/

section Step

variable {Obj : Type} [DecidableEq Obj] (heap : Obj → Object Obj)

def Worker.goto (x : Worker Obj) (p : Phase Obj) : Worker Obj := { x with phase := p }

def Chunk.empty : Chunk Obj := { start := 0, stop := 0, alloc := 0, unscanned := [] }

/-- Bump by the `need` words of an object. -/
def Chunk.push (c : Chunk Obj) (o : Obj) (need : Nat) : Chunk Obj :=
  { c with alloc := c.alloc + need, unscanned := c.unscanned ++ [.object o] }

/-- The words behind the bump pointer. -/
def Chunk.gap (c : Chunk Obj) : Nat := c.stop - c.alloc

/-- Plug the dead tail. -/
def Chunk.plug (c : Chunk Obj) : Chunk Obj :=
  if 0 < c.gap then
    { c with alloc := c.stop, unscanned := c.unscanned ++ [.filler (c.gap - 1)] }
  else c

/-- Claim `n` words from the frontier; the first of them, unless the assertion fails. -/
def Shared.claimArena (sh : Shared Obj) (n : Nat) : Shared Obj × Option Nat :=
  if sh.arenaUsed + n ≤ sh.toLen then
    ({ sh with arenaUsed := sh.arenaUsed + n }, some sh.arenaUsed)
  else ({ sh with arenaUsed := sh.arenaUsed + n, overflow := true }, none)

def Shared.push (sh : Shared Obj) (t : Task Obj) : Shared Obj := { sh with steal := t :: sh.steal }

def Shared.setHeader (sh : Shared Obj) (o : Obj) (h : Header) : Shared Obj :=
  { sh with header := Function.update sh.header o h }

/-- Keep a chunk as the one to sweep next if there is room, otherwise share it. -/
def keepOrShare (sh : Shared Obj) (x : Worker Obj) (c : Chunk Obj) : Shared Obj × Worker Obj :=
  match x.scanning with
  | none => (sh, { x with scanning := some c })
  | some _ => (sh.push (.chunk c), x)

/-- The head of the loop of `drain`. -/
def drainTop (sh : Shared Obj) (x : Worker Obj) : Shared Obj × Worker Obj :=
  match x.scanning with
  | some sc => (sh, { x with scanning := none, phase := .sweeping (.foreign sc) })
  | none =>
    if x.cur.unscanned ≠ [] then (sh, x.goto (.sweeping .own))
    else match sh.steal with
    | .chunk sc :: rest => ({ sh with steal := rest }, x.goto (.sweeping (.foreign sc)))
    | .slots body lo hi :: rest =>
      ({ sh with steal := rest }, x.goto (.split { sweep := .task, body, lo, hi }))
    | [] => (sh, x.goto .idling)

/-- Begin to scan what the scan pointer of a sweep has passed. -/
def scanObject (sh : Shared Obj) (x : Worker Obj) (sweep : Sweep Obj) :
    Content Obj → Shared Obj × Worker Obj
  | .filler _ => (sh, x.goto (.sweeping sweep))
  | .object o =>
    let job : Job Obj := { sweep, body := o, lo := 0, hi := (heap o).slots.length }
    match (heap o).kind with
    | .bytes => (sh, x.goto (.sweeping sweep))
    | .code | .closure => (sh, x.goto (.scan job))
    -- the slots of a weak object are left to the fixup
    | .weak => ({ sh with weak := sh.weak ++ [o] }, x.goto (.sweeping sweep))
    | .word => (sh, x.goto (.split job))

/-- `sweep_own` and `sweep_foreign`. The own chunk is read afresh for each object, for a copy may
have replaced it. -/
def sweepStep (sh : Shared Obj) (x : Worker Obj) : Sweep Obj → Shared Obj × Worker Obj
  | .own => match x.cur.unscanned with
    | [] => (sh, x.goto .top)
    | e :: rest => scanObject heap sh { x with cur := { x.cur with unscanned := rest } } .own e
  | .foreign c => match c.unscanned with
    | [] => (sh, x.goto .top)
    | e :: rest => scanObject heap sh x (.foreign { c with unscanned := rest }) e
  | .task => (sh, x.goto .top)

/-- The loop of `scan_slots` that halves a wide range. -/
def splitStep (sh : Shared Obj) (x : Worker Obj) (j : Job Obj) : Shared Obj × Worker Obj :=
  if splitWords < j.hi - j.lo then
    let mid := j.lo + (j.hi - j.lo) / 2
    (sh.push (.slots j.body mid j.hi), x.goto (.split { j with hi := mid }))
  else (sh, x.goto (.scan j))

/-- Slot `lo` is done. -/
def slotDone (sh : Shared Obj) (x : Worker Obj) (j : Job Obj) : Shared Obj × Worker Obj :=
  ({ sh with forwarded :=
      Function.update sh.forwarded j.body (Function.update (sh.forwarded j.body) j.lo true) },
    x.goto (.scan { j with lo := j.lo + 1 }))

/-- `forward_slot` up to the object its word points into. -/
def scanStep (sh : Shared Obj) (x : Worker Obj) (j : Job Obj) : Shared Obj × Worker Obj :=
  if j.lo < j.hi then
    match (heap j.body).slots[j.lo]? with
    | some (some t) => (sh, x.goto (.forward j t))
    | _ => slotDone sh x j
  else (sh, x.goto (.sweeping j.sweep))

/-- The loop of `forward_object`: claim a normal header, wait for one that is claimed. -/
def forwardStep (sh : Shared Obj) (x : Worker Obj) (j : Job Obj) (t : Obj) :
    Shared Obj × Worker Obj :=
  match sh.header t with
  | .normal => (sh.setHeader t .busy, x.goto (.claimed j t))
  | .busy => (sh, x)
  | .forwarded => slotDone sh x j

/-- `seal_and_replace`. The object is bumped into the fresh chunk at once: nobody else sees it yet. -/
def sealAndReplace (sh : Shared Obj) (x : Worker Obj) (j : Job Obj) (t : Obj) (need : Nat) :
    Shared Obj × Worker Obj :=
  let size := max x.nextChunk need
  match sh.claimArena size with
  | (sh, none) => (sh, x.goto (.panicked j t))
  | (sh, some start) =>
    let fresh : Chunk Obj := { start, stop := start + size, alloc := start, unscanned := [] }
    (sh, { x with
      cur := fresh.push t need
      nextChunk := min (x.nextChunk * 2) sh.chunkWords
      allocated := x.allocated + need
      filled := x.filled + x.cur.gap
      phase := .sealed j t x.cur.plug })

/-- `alloc_obj`. -/
def allocObj (sh : Shared Obj) (x : Worker Obj) (j : Job Obj) (t : Obj) : Shared Obj × Worker Obj :=
  let need := 1 + (heap t).words
  if sh.oversizeWords < need then
    match sh.claimArena need with
    | (sh, none) => (sh, x.goto (.panicked j t))
    | (sh, some start) =>
      let slice : Chunk Obj :=
        { start, stop := start + need, alloc := start + need, unscanned := [.object t] }
      (sh, { x with allocated := x.allocated + need, phase := .copy j t (some slice) })
  else if x.cur.stop < x.cur.alloc + need then sealAndReplace sh x j t need
  else (sh, { x with
    cur := x.cur.push t need
    allocated := x.allocated + need
    phase := .copy j t none })

/-- The rest of `seal_and_replace`. -/
def sealedStep (sh : Shared Obj) (x : Worker Obj) (j : Job Obj) (t : Obj) (old : Chunk Obj) :
    Shared Obj × Worker Obj :=
  let (sh, x) := if old.unscanned ≠ [] then keepOrShare sh x old else (sh, x)
  (sh, x.goto (.copy j t none))

/-- The copy is published, and the slot written; an oversized copy still has to be made known. -/
def copyStep (sh : Shared Obj) (x : Worker Obj) (j : Job Obj) (t : Obj) :
    Option (Chunk Obj) → Shared Obj × Worker Obj
  | none => slotDone (sh.setHeader t .forwarded) x j
  | some slice => (sh.setHeader t .forwarded, x.goto (.place j slice))

def placeStep (sh : Shared Obj) (x : Worker Obj) (j : Job Obj) (slice : Chunk Obj) :
    Shared Obj × Worker Obj :=
  let (sh, x) := keepOrShare sh x slice
  slotDone sh x j

/-- One step of a worker. -/
def Worker.step (sh : Shared Obj) (x : Worker Obj) : Shared Obj × Worker Obj :=
  match x.phase with
  | .top => drainTop sh x
  | .sweeping sweep => sweepStep heap sh x sweep
  | .split j => splitStep sh x j
  | .scan j => scanStep heap sh x j
  | .forward j t => forwardStep sh x j t
  | .claimed j t => allocObj heap sh x j t
  | .sealed j t old => sealedStep sh x j t old
  | .copy j t slice => copyStep sh x j t slice
  | .place j slice => placeStep sh x j slice
  | .idling => ({ sh with busy := sh.busy - 1 }, x.goto .probing)
  | .probing => (sh, x.goto (if sh.steal ≠ [] then .entering else .loading))
  -- the filler behind the last open chunk is no state of the drain
  | .loading => (sh, x.goto (if sh.busy = 0 then .returned else .probing))
  | .entering => ({ sh with busy := sh.busy + 1 }, x.goto .top)
  | .returned | .panicked _ _ => (sh, x)

end Step

/-! ## The drain -/

/-- The workers and what they share. -/
structure State (Wid Obj : Type) where
  shared : Shared Obj
  worker : Wid → Worker Obj

section Drain

variable {Wid Obj : Type} [DecidableEq Wid] [DecidableEq Obj]

/-- Any worker that has not ended may take the next step. -/
def drain (heap : Obj → Object Obj) : Machine (State Wid Obj) Wid where
  Enabled s w := (s.worker w).phase ≠ .returned
  exec s w :=
    let (shared, x) := (s.worker w).step heap s.shared
    { shared, worker := Function.update s.worker w x }

/-- The words of some objects, with their headers. -/
def sizeOf (heap : Obj → Object Obj) (objs : List Obj) : Nat :=
  (objs.map (fun o => 1 + (heap o).words)).sum

/-- The chunk size of a collection with more than one worker. -/
def chunkSize (chunkOverride : Option Nat) : Nat := max (chunkOverride.getD defaultChunkWords) 16

/-- `Shared::new` after a root phase that has copied the objects `roots`. -/
def Shared.new (heap : Obj → Object Obj) (toLen : Nat) (roots : List Obj) (workers : Nat)
    (chunkOverride : Option Nat) : Shared Obj :=
  let rootUsed := sizeOf heap roots
  let rootChunk : Chunk Obj :=
    { start := 0, stop := rootUsed, alloc := rootUsed, unscanned := roots.map .object }
  { toLen
    arenaUsed := rootUsed
    chunkWords := chunkSize chunkOverride
    oversizeWords := max (chunkSize chunkOverride / 8) 2
    busy := workers
    steal := if 0 < rootUsed then [.chunk rootChunk] else []
    weak := []
    header := fun o => if o ∈ roots then .forwarded else .normal
    forwarded := fun _ _ => false
    overflow := false }

/-- A worker at its start. -/
def Worker.new (chunkWords : Nat) : Worker Obj :=
  { cur := .empty, scanning := none, nextChunk := min initialChunkWords chunkWords, phase := .top
    allocated := 0, filled := 0 }

def State.new [Fintype Wid] (heap : Obj → Object Obj) (toLen : Nat) (roots : List Obj)
    (chunkOverride : Option Nat) : State Wid Obj :=
  { shared := .new heap toLen roots (Fintype.card Wid) chunkOverride
    worker := fun _ => .new (chunkSize chunkOverride) }

end Drain

end Par
