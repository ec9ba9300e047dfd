import PolymlRs.Interp.RegionCall
import PolymlRs.Lib.Fallible
import PolymlRs.Sched.BlockEvents

set_option autoImplicit false

/-! # Runtime calls

`rts_call` takes the arguments off the stack, runs a runtime function, and then looks at four things in
turn: a request that is pending for the thread, an exception that the function has raised, a tail call and
a collection that it has asked for. A pending interrupt that may not be delivered ends the sequence after
the result was pushed, unless there is an exception. -/

/-! ## Flags of a thread -/

/-- `PFLAG_BROADCAST`. -/
def pflagBroadcast : PolyWord := 1#64
def pflagSynch : PolyWord := 2#64
def pflagAsynch : PolyWord := 4#64
def pflagAsynchOnce : PolyWord := 6#64
def pflagIntmask : PolyWord := 6#64

/-- What a runtime function leaves: its result, and what it has put into its context. -/
structure RtsReturn where
  result : PolyWord
  raised : Option PolyWord
  gcRequested : Bool
  bootstrapTailCall : PolyWord
deriving DecidableEq, Repr

/-- What happened that the registers do not show. -/
inductive RtsEvent
  | called (closure : PolyWord)
  | collected
deriving DecidableEq, Repr

structure RtsState where
  mem : Mem
  interp : Interpreter
  /-- The request that is pending for this thread. -/
  request : Request
  /-- The exit code, once some thread has asked for the end of the process. -/
  finish : Option Int
  /-- A signal is pending; single-threaded sessions only. -/
  sigint : Bool
  events : List RtsEvent

abbrev RtsRun := Fallible RtsState InterpError

/-- A runtime function may write the heap; when it blocks, a collection may move the thread's roots. -/
structure RtsEntry where
  name : String
  arity : Nat
  func : List PolyWord → Mem → Interpreter → RtsReturn × Mem × Interpreter

/-- What a runtime call uses. -/
structure RtsEnv where
  realThreads : Bool
  native : Native
  /-- `validate_obj` and `check_word_index`. -/
  validObj : PolyWord → Nat → Bool
  entry : PolyWord → Option RtsEntry
  /-- `try_thread_rts`: the calls that need the thread itself. -/
  tryThreadRts : RtsEntry → List PolyWord → Option (RtsRun StepResult)
  /-- The packet for a missing entry, and the heap with it. -/
  missingEntry : Mem → PolyWord → PolyWord × Mem
  interruptException : Mem → PolyWord × Mem
  collect : Mem → Interpreter → Mem × Interpreter

namespace RtsState

def setRequest (q : Request) (s : RtsState) : RtsState := { s with request := q }

/-- Word `idx` of a thread object. -/
def threadObjRead (env : RtsEnv) (s : RtsState) (obj : PolyWord) (idx : Nat) : Option PolyWord :=
  if !obj.isDataPtr || obj.addr % wordBytes != 0 then none
  else if s.interp.untrusted && !env.validObj obj idx then none
  else some (s.mem (obj.addr + wordBytes * idx))

def threadObjWrite (env : RtsEnv) (s : RtsState) (obj : PolyWord) (idx : Nat) (w : PolyWord) : RtsState :=
  if !obj.isDataPtr || obj.addr % wordBytes != 0 then s
  else if s.interp.untrusted && !env.validObj obj idx then s
  else { s with mem := Function.update s.mem (obj.addr + wordBytes * idx) w }

def threadObjFlags (env : RtsEnv) (s : RtsState) (obj : PolyWord) : Option PolyWord :=
  (s.threadObjRead env obj 1).bind (fun w => if w.isTagged then some (w.sshiftRight 1) else none)

/-- Without a thread object, those of the root thread. -/
def ownThreadFlags (env : RtsEnv) (s : RtsState) : PolyWord :=
  (s.interp.threadObject.bind (s.threadObjFlags env)).getD (pflagBroadcast ||| pflagAsynch)

def setOwnThreadFlags (env : RtsEnv) (s : RtsState) (flags : PolyWord) : RtsState :=
  match s.interp.threadObject with
  | none => s
  | some t => s.threadObjWrite env t 1 (.tagged flags.toInt)

def clearOwnRequestCopy (env : RtsEnv) (s : RtsState) : RtsState :=
  match s.interp.threadObject with
  | none => s
  | some t => s.threadObjWrite env t 3 (.tagged 0)

/-- The flags let an interrupt be delivered at a safepoint. -/
def Deliverable (env : RtsEnv) (s : RtsState) : Prop :=
  s.ownThreadFlags env &&& pflagIntmask = pflagAsynch ∨
    s.ownThreadFlags env &&& pflagIntmask = pflagAsynchOnce

instance (env : RtsEnv) (s : RtsState) : Decidable (s.Deliverable env) :=
  inferInstanceAs (Decidable (_ ∨ _))

end RtsState

namespace RtsRun

open Fallible

/-! ## Steps -/

def push (w : PolyWord) : RtsRun Unit := make fun s =>
  match s.interp.push w with
  | .error e => (.error e, s)
  | .ok interp => (.ok (), { s with interp })

def pop : RtsRun PolyWord := make fun s =>
  match s.interp.pop with
  | .error e => (.error e, s)
  | .ok (w, interp) => (.ok w, { s with interp })

/-- Pop `n` words; the one popped first comes last. -/
def popArgs : Nat → RtsRun (List PolyWord)
  | 0 => pure []
  | n + 1 => do
    let w ← pop
    let ws ← popArgs n
    pure (ws ++ [w])

def failIf (b : Bool) (e : InterpError) : RtsRun Unit := if b then throw e else pure ()

def pushContinue (w : PolyWord) : RtsRun StepResult := do
  push w
  pure .continue

/-- Push a packet and unwind to the handler. -/
def raise (packet : PolyWord) : RtsRun StepResult := do
  push packet
  make fun s =>
    let (r, interp) := s.interp.doRaiseEx
    (r, { s with interp })
  pure .continue

/-- A packet that is made on the heap. -/
def raiseNew (make' : Mem → PolyWord × Mem) : RtsRun StepResult := do
  let packet ← make fun s =>
    let (packet, mem) := make' s.mem
    (.ok packet, { s with mem })
  raise packet

/-- `do_call`; what a call that fails has pushed is left out. -/
def call (env : RtsEnv) (closure : PolyWord) : RtsRun Unit := make fun s =>
  let s := { s with events := s.events ++ [RtsEvent.called closure] }
  match s.interp.doCall env.native s.mem closure with
  | .error e => (.error e, s)
  | .ok (mem, interp) => (.ok (), { s with mem, interp })

def takeBootstrapTailCall : RtsRun (Option PolyWord) := make fun s =>
  let w := s.interp.bootstrapTailCall
  if w = PolyWord.zero then (.ok none, s)
  else (.ok (some w), { s with interp := { s.interp with bootstrapTailCall := PolyWord.zero } })

/-- `request_gc_collect`. -/
def requestGcCollect (env : RtsEnv) : RtsRun Unit := make fun s =>
  let (mem, interp) := env.collect s.mem s.interp
  (.ok (), { s with mem, interp, events := s.events ++ [RtsEvent.collected] })

/-- A kill is always delivered, an interrupt when the flags let it be. -/
def processAsynchRequests (env : RtsEnv) : RtsRun (Option StepResult) := do
  match ← look RtsState.request with
  | .kill => make fun s =>
    (.ok (some (.returned (.tagged (s.finish.getD 0)))), s.setRequest .none)
  | .interrupt =>
    if ← look (fun s => decide (s.Deliverable env)) then
      change fun s =>
        let flags := s.ownThreadFlags env
        let s := if flags &&& pflagIntmask = pflagAsynchOnce then
            s.setOwnThreadFlags env ((flags &&& ~~~pflagIntmask) ||| pflagSynch)
          else s
        (s.setRequest .none).clearOwnRequestCopy env
      some <$> raiseNew env.interruptException
    else pure none
  | .none => pure none

/-! ## The call -/

/-- Up to the function: the entry and its arguments, or the end of the call. -/
def findEntry (env : RtsEnv) (nArgs : Nat) : RtsRun (StepResult ⊕ RtsEntry × List PolyWord) := do
  let stub ← pop
  let untrusted ← look (fun s => s.interp.untrusted)
  failIf (untrusted && !env.validObj stub 0) .badImage
  let token ← look (fun s => s.mem stub.addr)
  match env.entry token with
  | none =>
    let _ ← popArgs nArgs
    .inl <$> raiseNew (fun m => env.missingEntry m stub)
  | some e =>
    let args ← popArgs nArgs
    failIf (e.arity != nArgs) .other
    pure (.inr (e, args))

/-- Run the function. Its context is seeded with the tail-call slot, and gives it back. -/
def runEntry (e : RtsEntry) (args : List PolyWord) : RtsRun RtsReturn := make fun s =>
  let (ret, mem, interp) := e.func args s.mem s.interp
  (.ok ret, { s with mem, interp := { interp with bootstrapTailCall := ret.bootstrapTailCall } })

def dispatch (env : RtsEnv) (nArgs : Nat) : RtsRun (StepResult ⊕ RtsReturn) := do
  match ← findEntry env nArgs with
  | .inl r => pure (.inl r)
  | .inr (e, args) => match env.tryThreadRts e args with
    | some run => .inl <$> run
    | none => .inr <$> runEntry e args

/-- The exception, the tail call and the collection. -/
def finishCall (env : RtsEnv) (ret : RtsReturn) : RtsRun StepResult := do
  match ret.raised with
  | some packet => raise packet
  | none => match ← takeBootstrapTailCall with
    | some fnClosure => do
      push (.tagged 0)
      call env fnClosure
      pure .continue
    | none => make fun s =>
      let (r, s) := (pushContinue ret.result).exec s
      if ret.gcRequested then (r, ((requestGcCollect env).exec s).2) else (r, s)

/-- A call that has raised has no result. -/
def pushResult (ret : RtsReturn) : RtsRun Unit :=
  if ret.raised.isNone then push ret.result else pure ()

/-- After the function. -/
def afterCall (env : RtsEnv) (ret : RtsReturn) : RtsRun StepResult := do
  let request ← look RtsState.request
  let sigint ← look RtsState.sigint
  if env.realThreads && request != .none then
    pushResult ret
    match ← processAsynchRequests env with
    | some r => pure r
    | none => if ret.raised.isNone then pure .continue else finishCall env ret
  else if !env.realThreads && sigint then
    change fun s => { s with sigint := false }
    pushResult ret
    raiseNew env.interruptException
  else finishCall env ret

def rtsCall (env : RtsEnv) (nArgs : Nat) : RtsRun StepResult := do
  match ← dispatch env nArgs with
  | .inl r => pure r
  | .inr ret => afterCall env ret

end RtsRun

namespace RtsRun

open Fallible

/-! ## What the request does not matter to -/

/-- The call does with an interrupt pending what it does without a request, and the interrupt stays. -/
def SameWhenPending (run : RtsRun StepResult) (s : RtsState) : Prop :=
  run.exec (s.setRequest .interrupt) = ((run.exec (s.setRequest .none)).1,
    (run.exec (s.setRequest .none)).2.setRequest .interrupt)

variable {env : RtsEnv} {ret : RtsReturn} {s t : RtsState}

theorem push_ignores (w : PolyWord) : Ignores RtsState.setRequest (push w) := by
  refine Ignores.make (fun q s => ?_)
  show (match s.interp.push w with
    | .error e => (Except.error e, s.setRequest q)
    | .ok interp => (Except.ok (), { s.setRequest q with interp })) = _
  cases s.interp.push w <;> rfl

theorem pop_ignores : Ignores RtsState.setRequest pop := by
  refine Ignores.make (fun q s => ?_)
  show (match s.interp.pop with
    | .error e => (Except.error e, s.setRequest q)
    | .ok (w, interp) => (Except.ok w, { s.setRequest q with interp })) = _
  rcases s.interp.pop with e | ⟨w, interp⟩ <;> rfl

theorem popArgs_ignores (n : Nat) : Ignores RtsState.setRequest (popArgs n) := by
  induction n with
  | zero => exact Ignores.pure []
  | succ n ih => exact pop_ignores.bind (fun w => ih.bind (fun ws => Ignores.pure _))

theorem pushContinue_ignores (w : PolyWord) : Ignores RtsState.setRequest (pushContinue w) :=
  (push_ignores w).bind (fun _ => Ignores.pure _)

theorem raise_ignores (packet : PolyWord) : Ignores RtsState.setRequest (raise packet) :=
  (push_ignores packet).bind (fun _ =>
    (Ignores.make (fun _ _ => rfl)).bind (fun _ => Ignores.pure _))

theorem raiseNew_ignores (make' : Mem → PolyWord × Mem) :
    Ignores RtsState.setRequest (raiseNew make') :=
  (Ignores.make (fun _ _ => rfl)).bind raise_ignores

theorem call_ignores (env : RtsEnv) (closure : PolyWord) :
    Ignores RtsState.setRequest (call env closure) := by
  refine Ignores.make (fun q s => ?_)
  show (match s.interp.doCall env.native s.mem closure with
    | .error e => _
    | .ok (mem, interp) => _) = _
  cases h : s.interp.doCall env.native s.mem closure <;> simp [h, RtsState.setRequest]

theorem takeBootstrapTailCall_ignores : Ignores RtsState.setRequest takeBootstrapTailCall := by
  refine Ignores.make (fun q s => ?_)
  by_cases h : s.interp.bootstrapTailCall = PolyWord.zero <;> simp [h, RtsState.setRequest]

theorem finishCall_ignores (env : RtsEnv) (ret : RtsReturn) :
    Ignores RtsState.setRequest (finishCall env ret) := by
  unfold finishCall
  cases ret.raised with
  | some packet => exact raise_ignores packet
  | none =>
    refine takeBootstrapTailCall_ignores.bind (fun slot => ?_)
    cases slot with
    | some fnClosure =>
      exact (push_ignores _).bind (fun _ => (call_ignores env fnClosure).bind (fun _ => Ignores.pure _))
    | none =>
      refine Ignores.make (fun q s => ?_)
      rw [pushContinue_ignores ret.result q s]
      cases ret.gcRequested <;> rfl

theorem failIf_ignores (b : Bool) (e : InterpError) : Ignores RtsState.setRequest (failIf b e) :=
  Ignores.ite (Ignores.throw e) (Ignores.pure ())

theorem findEntry_ignores (env : RtsEnv) (n : Nat) : Ignores RtsState.setRequest (findEntry env n) := by
  refine pop_ignores.bind (fun stub => ?_)
  refine Ignores.bind (Ignores.look (fun _ _ => rfl)) (fun untrusted => ?_)
  refine (failIf_ignores _ _).bind (fun _ => ?_)
  refine Ignores.bind (Ignores.look (fun _ _ => rfl)) (fun token => ?_)
  cases env.entry token with
  | none => exact (popArgs_ignores n).bind (fun _ => (raiseNew_ignores _).map _)
  | some e =>
    exact (popArgs_ignores n).bind (fun args => (failIf_ignores _ _).bind (fun _ => Ignores.pure _))

theorem runEntry_ignores (e : RtsEntry) (args : List PolyWord) :
    Ignores RtsState.setRequest (runEntry e args) := Ignores.make (fun _ _ => rfl)

/-! ## An interrupt that is not delivered -/

/-- A push changes the stack only. -/
theorem push_exec {w : PolyWord} {r : Except InterpError Unit} (h : (push w).exec s = (r, t)) :
    ∃ stack sp, t = { s with interp := s.interp.withStack stack sp } := by
  unfold push at h
  simp only [exec_make] at h
  split at h
  · cases h
    exact ⟨s.interp.stack, s.interp.sp, rfl⟩
  · next interp hpush =>
    cases h
    unfold Interpreter.push at hpush
    split at hpush
    · cases hpush
    · cases hpush
      exact ⟨_, _, rfl⟩

theorem processAsynchRequests_deferred (hreq : s.request = .interrupt) (h : ¬s.Deliverable env) :
    (processAsynchRequests env).exec s = (.ok none, s) := by
  unfold processAsynchRequests
  rw [exec_bind_ok _ (show (look RtsState.request).exec s = (.ok s.request, s) from rfl), hreq]
  have hlook : (look (fun s : RtsState => decide (s.Deliverable env)) : RtsRun Bool).exec s =
      (.ok (decide (s.Deliverable env)), s) := rfl
  rw [exec_bind_ok _ hlook, decide_eq_false h]
  rfl

/-- Without a request the call goes on. -/
theorem afterCall_none (hreal : env.realThreads = true) (s : RtsState) :
    (afterCall env ret).exec (s.setRequest .none) = (finishCall env ret).exec (s.setRequest .none) := by
  unfold afterCall
  rw [exec_bind_ok _ (show (look RtsState.request).exec (s.setRequest .none) =
      (.ok .none, s.setRequest .none) from rfl),
    exec_bind_ok _ (show (look RtsState.sigint).exec (s.setRequest .none) =
      (.ok s.sigint, s.setRequest .none) from rfl)]
  simp [hreal]

/-- With an interrupt that is not delivered a call that has not raised ends after the push. -/
theorem afterCall_deferred (hreal : env.realThreads = true) (h : ¬s.Deliverable env) :
    (afterCall env ret).exec (s.setRequest .interrupt) =
      if ret.raised.isNone then (pushContinue ret.result).exec (s.setRequest .interrupt)
      else (finishCall env ret).exec (s.setRequest .interrupt) := by
  unfold afterCall
  rw [exec_bind_ok _ (show (look RtsState.request).exec (s.setRequest .interrupt) =
      (.ok .interrupt, s.setRequest .interrupt) from rfl),
    exec_bind_ok _ (show (look RtsState.sigint).exec (s.setRequest .interrupt) =
      (.ok s.sigint, s.setRequest .interrupt) from rfl)]
  have hreq : (Request.interrupt != Request.none) = true := by decide
  simp only [hreal, hreq, Bool.and_self, if_true]
  unfold pushResult pushContinue
  cases hraised : ret.raised with
  | some packet =>
    simp only [Option.isNone_some, Bool.false_eq_true, if_false, pure_bind]
    have hdeferred : (processAsynchRequests env).exec (s.setRequest .interrupt) =
        (.ok none, s.setRequest .interrupt) := processAsynchRequests_deferred rfl h
    rw [exec_bind_ok _ hdeferred]
  | none =>
    simp only [Option.isNone_none, if_true]
    cases hpush : (push ret.result).exec (s.setRequest .interrupt) with
    | mk r t =>
      cases r with
      | error e => rw [exec_bind_error _ hpush, exec_bind_error _ hpush]
      | ok u =>
        obtain ⟨stack, sp, rfl⟩ := push_exec hpush
        have hdeferred : (processAsynchRequests env).exec
            { s.setRequest .interrupt with interp := s.interp.withStack stack sp } =
            (.ok none, { s.setRequest .interrupt with interp := s.interp.withStack stack sp }) :=
          processAsynchRequests_deferred rfl h
        rw [exec_bind_ok _ hpush, exec_bind_ok _ hpush]
        exact exec_bind_ok _ hdeferred

/-- The tail call empties the slot and is made, unless its argument does not fit. -/
theorem finishCall_tail (hraised : ret.raised = none)
    (htail : s.interp.bootstrapTailCall ≠ PolyWord.zero) :
    ((finishCall env ret).exec s).2.interp.bootstrapTailCall = PolyWord.zero ∨
      ((finishCall env ret).exec s).2.events ≠ s.events := by
  unfold finishCall
  rw [hraised]
  have htake : takeBootstrapTailCall.exec s = (.ok (some s.interp.bootstrapTailCall),
      { s with interp := { s.interp with bootstrapTailCall := PolyWord.zero } }) := by
    unfold takeBootstrapTailCall
    simp [htail]
  simp only [exec_bind_ok _ htake]
  cases hpush : (push (.tagged 0)).exec
      { s with interp := { s.interp with bootstrapTailCall := PolyWord.zero } } with
  | mk r t =>
    obtain ⟨stack, sp, rfl⟩ := push_exec hpush
    cases r with
    | error e =>
      rw [exec_bind_error _ hpush]
      exact Or.inl rfl
    | ok u =>
      rw [exec_bind_ok _ hpush, exec_bind]
      refine Or.inr ?_
      unfold call
      simp only [exec_make]
      split
      · next heq =>
        split at heq <;> cases heq
        simp
      · next heq =>
        split at heq <;> cases heq
        simp

/-- Without exception and tail call the result is pushed, and a requested collection runs. -/
theorem finishCall_result (hraised : ret.raised = none)
    (htail : s.interp.bootstrapTailCall = PolyWord.zero) :
    (finishCall env ret).exec s = (((pushContinue ret.result).exec s).1,
      if ret.gcRequested then ((requestGcCollect env).exec ((pushContinue ret.result).exec s).2).2
      else ((pushContinue ret.result).exec s).2) := by
  unfold finishCall
  rw [hraised]
  have htake : takeBootstrapTailCall.exec s = (.ok none, s) := by
    unfold takeBootstrapTailCall
    simp [htail]
  simp only [exec_bind_ok _ htake, exec_make]
  split <;> rfl

/-- A push notes no event and leaves the tail-call slot alone. -/
theorem pushContinue_exec (w : PolyWord) (s : RtsState) :
    ((pushContinue w).exec s).2.events = s.events ∧
      ((pushContinue w).exec s).2.interp.bootstrapTailCall = s.interp.bootstrapTailCall := by
  unfold pushContinue
  cases hpush : (push w).exec s with
  | mk r t =>
    obtain ⟨stack, sp, rfl⟩ := push_exec hpush
    cases r with
    | error e =>
      rw [exec_bind_error _ hpush]
      exact ⟨rfl, rfl⟩
    | ok u =>
      rw [exec_bind_ok _ hpush]
      exact ⟨rfl, rfl⟩

theorem afterCall_same_iff (hreal : env.realThreads = true) (hflags : ¬s.Deliverable env)
    (hslot : s.interp.bootstrapTailCall = ret.bootstrapTailCall) :
    SameWhenPending (afterCall env ret) s ↔
      ret.raised.isSome ∨ (ret.bootstrapTailCall = PolyWord.zero ∧ ret.gcRequested = false) := by
  have hfinish := finishCall_ignores env ret .interrupt (s.setRequest .none)
  have hpush := pushContinue_ignores ret.result .interrupt (s.setRequest .none)
  obtain ⟨hevents, htailpush⟩ := pushContinue_exec ret.result (s.setRequest .none)
  have hset : (s.setRequest .none).setRequest .interrupt = s.setRequest .interrupt := rfl
  rw [hset] at hfinish hpush
  rw [SameWhenPending, afterCall_none hreal, afterCall_deferred hreal hflags]
  cases hraised : ret.raised with
  | some packet =>
    rw [Option.isNone_some, if_neg (by decide), hfinish]
    simp
  | none =>
    rw [Option.isNone_none, if_pos rfl, hpush]
    simp only [Option.isSome_none, Bool.false_eq_true, false_or]
    by_cases htail : ret.bootstrapTailCall = PolyWord.zero
    · have hresult := @finishCall_result env ret (s.setRequest .none) hraised (hslot.trans htail)
      rw [hresult]
      cases hgc : ret.gcRequested with
      | false => simp [htail]
      | true =>
        refine iff_of_false (fun heq => ?_) (by simp)
        have hev := congrArg (fun r => r.2.events) heq
        simp [requestGcCollect, RtsState.setRequest] at hev
    · refine iff_of_false (fun heq => ?_) (fun h => htail h.1)
      have hne : (s.setRequest .none).interp.bootstrapTailCall ≠ PolyWord.zero :=
        fun h => htail (hslot.symm.trans h)
      rcases @finishCall_tail env ret _ hraised hne with hzero | hevent
      · have hsame := congrArg (fun r => r.2.interp.bootstrapTailCall) heq
        exact hne (htailpush.symm.trans (hsame.trans hzero))
      · have hsame := congrArg (fun r => r.2.events) heq
        exact hevent (hsame.symm.trans hevents)

/-! ## The call as a whole -/

/-- The call runs a runtime function, which leaves `ret`. -/
def Leaves (env : RtsEnv) (nArgs : Nat) (s : RtsState) (ret : RtsReturn) (t : RtsState) : Prop :=
  (dispatch env nArgs).exec s = (.ok (.inr ret), t)

/-- Up to there a request does not matter, and the slot is what the context holds. -/
theorem Leaves.setRequest {n : Nat} (h : Leaves env n s ret t) (q : Request) :
    Leaves env n (s.setRequest q) ret (t.setRequest q) ∧
      t.interp.bootstrapTailCall = ret.bootstrapTailCall := by
  unfold Leaves dispatch at h ⊢
  cases hfind : (findEntry env n).exec s with
  | mk r u =>
    have hset := (findEntry_ignores env n).exec_set hfind q
    rcases r with e | r
    · rw [exec_bind_error _ hfind] at h
      cases h
    rw [exec_bind_ok _ hfind] at h
    rw [exec_bind_ok _ hset]
    rcases r with r | ⟨e, args⟩
    · cases h
    cases hthread : env.tryThreadRts e args with
    | some run =>
      simp only [hthread] at h
      rw [← bind_pure_comp, exec_bind] at h
      split at h <;> cases h
    | none =>
      simp only [hthread] at h ⊢
      have hrun := (runEntry_ignores e args).map (Sum.inr : RtsReturn → StepResult ⊕ RtsReturn)
      refine ⟨hrun.exec_set h q, ?_⟩
      rw [← bind_pure_comp, exec_bind] at h
      unfold runEntry at h
      cases h
      rfl

/-- In real-thread mode, with an interrupt pending that may not be delivered: the call ends as without a
request exactly when it has raised, or asks neither for a tail call nor for a collection. -/
theorem rtsCall_same_iff {n : Nat} (hreal : env.realThreads = true) (h : Leaves env n s ret t)
    (hflags : ¬t.Deliverable env) :
    SameWhenPending (rtsCall env n) s ↔
      ret.raised.isSome ∨ (ret.bootstrapTailCall = PolyWord.zero ∧ ret.gcRequested = false) := by
  have hcall : ∀ q, (rtsCall env n).exec (s.setRequest q) = (afterCall env ret).exec (t.setRequest q) := by
    intro q
    exact exec_bind_ok _ (h.setRequest q).1
  rw [← afterCall_same_iff hreal hflags (h.setRequest .none).2, SameWhenPending, SameWhenPending, hcall,
    hcall]

/-! ## A collection that is left out -/

/-- It asks for a collection. -/
def polyFullGC : RtsEntry :=
  { name := "PolyFullGC", arity := 1
    func := fun _ m i => ({ result := .tagged 0, raised := none, gcRequested := true
                            bootstrapTailCall := i.bootstrapTailCall }, m, i) }

/-- Real threads, no compiled code; the entry has the token 7. -/
def fullGCEnv : RtsEnv :=
  { realThreads := true, native := Interpreter.interpreted, validObj := fun _ _ => true
    entry := fun token => if token = 7#64 then some polyFullGC else none
    tryThreadRts := fun _ _ => none, missingEntry := fun m _ => (.tagged 0, m)
    interruptException := fun m => (.tagged 0, m), collect := fun m i => (m, i) }

/-- The entry point at `0x5000` and the argument are on the stack; the thread object at `0x4000` says that
interrupts are synchronous. -/
def fullGCState : RtsState :=
  { mem := fun a => if a = 0x5000 then 7#64 else if a = 0x4008 then .tagged 2 else 0#64
    interp := { Interpreter.loopState with
      stack := [0x5000#64, .tagged 1, 0#64], sp := 0, threadObject := some 0x4000#64 }
    request := .none, finish := none, sigint := false, events := [] }

theorem rtsCall_same_iff_fullGC :
    SameWhenPending (rtsCall fullGCEnv 1) fullGCState ↔
      (none : Option PolyWord).isSome ∨ (PolyWord.zero = PolyWord.zero ∧ true = false) :=
  rtsCall_same_iff (h := show Leaves fullGCEnv 1 fullGCState ⟨.tagged 0, none, true, PolyWord.zero⟩
    { fullGCState with interp := { fullGCState.interp with sp := 2 } } from rfl) rfl (by decide)

/-- Without a request the collection runs, with the interrupt pending it does not. -/
theorem not_same_fullGC : ¬SameWhenPending (rtsCall fullGCEnv 1) fullGCState := by
  intro h
  have hevents := congrArg (fun r => r.2.events) h
  exact absurd hevents (by decide)

end RtsRun
