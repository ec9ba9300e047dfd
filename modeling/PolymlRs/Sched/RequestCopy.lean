import PolymlRs.Sched.BlockEvents

set_option autoImplicit false

/-! # The request copy

A pending request is an atomic of the runtime; the ML code reads a copy of it in the thread object.
The poster writes one after the other, and so does the thread that consumes the request
(`Mirrored` says what holds in between). The two pairs of writes are not ordered against each other:
`copyAgrees_of_guarded` is about the runs in which they come in a good order, and `not_copyAgrees`
gives two in which they do not. -/

namespace BlockState

variable {Tid Mid : Type}

/-- Some thread has posted a request to `t` and has not written the copy yet. -/
def Posting (s : BlockState Tid Mid) (t : Tid) : Prop := ∃ u req, s.pos u = .posting t req

/-- No request is being posted to `t`, and `t` is not consuming one. -/
def Quiet (s : BlockState Tid Mid) (t : Tid) : Prop := ¬ s.Posting t ∧ s.delivery t = .idle

/-- The ML code sees a request of `t` exactly when there is one. -/
def CopyAgrees (s : BlockState Tid Mid) (t : Tid) : Prop :=
  s.requestCopy t ≠ PolyWord.tagged 0 ↔ s.requests t ≠ .none

/-- The copy and the request agree, or one of the threads involved has still to write the copy. -/
structure Mirrored (s : BlockState Tid Mid) (t : Tid) : Prop where
  pending : s.requests t ≠ .none → s.requestCopy t ≠ PolyWord.tagged 0 ∨ s.Posting t
  consumed : s.requests t = .none →
    s.requestCopy t = PolyWord.tagged 0 ∨ s.delivery t = .clear ∨ s.Posting t

/-- The copy is not written for a request that has been consumed, not cleared for one that has been
mirrored since, and not left behind by a kill, posted or consumed, unless somebody has still to
write it. -/
def CopyGuarded (s : BlockState Tid Mid) : BlockOp Tid Mid → Prop
  | .writeCopy t => ∀ target req, s.pos t = .posting target req →
    s.requests target ≠ .none ∨ s.delivery target = .clear ∨
      ∃ u req, u ≠ t ∧ s.pos u = .posting target req
  | .clearCopy t => s.requests t = .none ∨ s.Posting t
  | .storeNone t => s.requestCopy t = PolyWord.tagged 0 ∨ s.Posting t
  | .finishStore t => ∀ u rest, s.pos t = .finishing (u :: rest) →
    s.requestCopy u ≠ PolyWord.tagged 0 ∨ s.Posting u
  | _ => True

/-- A posted request is not `NONE`. -/
def PostsRequest (s : BlockState Tid Mid) : Prop :=
  ∀ u target req, s.pos u = .posting target req → req ≠ .none

theorem tagged_code_ne {req : Request} (h : req ≠ .none) :
    PolyWord.tagged req.code ≠ PolyWord.tagged 0 := by
  cases req with
  | none => exact absurd rfl h
  | interrupt => decide
  | kill => decide

namespace Mirrored

variable {s s' : BlockState Tid Mid} {t : Tid}

/-- Between operations the two agree. -/
theorem agrees (h : s.Mirrored t) (hq : s.Quiet t) : s.CopyAgrees t := by
  constructor
  · intro hcopy hnone
    rcases h.consumed hnone with h0 | hclear | hpost
    · exact hcopy h0
    · rw [hq.2] at hclear
      cases hclear
    · exact hq.1 hpost
  · intro hreq
    exact (h.pending hreq).resolve_right hq.1

theorem frame (h : s.Mirrored t) (hreq : s'.requests t = s.requests t)
    (hcopy : s'.requestCopy t = s.requestCopy t)
    (hdel : s.delivery t = .clear → s'.delivery t = .clear) (hpost : s.Posting t → s'.Posting t) :
    s'.Mirrored t := by
  constructor
  · intro hne
    rw [hreq] at hne
    rw [hcopy]
    exact (h.pending hne).imp id hpost
  · intro heq
    rw [hreq] at heq
    rw [hcopy]
    exact (h.consumed heq).imp id (Or.imp hdel hpost)

end Mirrored

theorem AtInstruction.not_posting {s : BlockState Tid Mid} {a : Tid} (h : s.AtInstruction a)
    (target : Tid) (req : Request) : s.pos a ≠ .posting target req := by
  intro hp
  simp [AtInstruction, hp] at h

theorem AtCheck.not_posting {s : BlockState Tid Mid} {a : Tid} (h : s.AtCheck a)
    (target : Tid) (req : Request) : s.pos a ≠ .posting target req := by
  intro hp
  simp [AtCheck, hp] at h

section Steps

variable [DecidableEq Tid] {s : BlockState Tid Mid} {t a : Tid}

/-- A thread that is not posting moves. -/
theorem Posting.move (h : s.Posting t) (ha : ∀ target req, s.pos a ≠ .posting target req)
    (p : BlockPos Tid Mid) : (s.setPos a p).Posting t := by
  obtain ⟨u, req, hu⟩ := h
  refine ⟨u, req, ?_⟩
  have hua : u ≠ a := by
    rintro rfl
    exact ha t req hu
  rw [pos_setPos_ne s p hua]
  exact hu

theorem Mirrored.move (h : s.Mirrored t) (ha : ∀ target req, s.pos a ≠ .posting target req)
    (p : BlockPos Tid Mid) : (s.setPos a p).Mirrored t :=
  h.frame rfl rfl id (fun hp => hp.move ha p)

/-- The same for a thread whose position is known. -/
theorem Mirrored.move_eq (h : s.Mirrored t) {q : BlockPos Tid Mid} (hq : s.pos a = q)
    (hne : ∀ target req, q ≠ .posting target req) (p : BlockPos Tid Mid) : (s.setPos a p).Mirrored t :=
  h.move (fun target req hp => hne target req (hq.symm.trans hp)) p

/-- Posting a request, with or without a copy to write. -/
theorem Mirrored.makeThreadRequest (h : s.Mirrored t) (ha : s.pos a = .running) (target : Tid)
    (req : Request) : (s.makeThreadRequest a target req).Mirrored t := by
  simp only [BlockState.makeThreadRequest]
  by_cases htt : t = target
  · subst htt
    split
    · have hpost : ((s.setRequests t ((s.requests t).max req)).setPos a (.posting t req)).Posting t :=
        ⟨a, req, by simp⟩
      exact ⟨fun _ => Or.inr hpost, fun _ => Or.inr (Or.inr hpost)⟩
    · rename_i hle
      have hmax : (s.requests t).max req = s.requests t := by simp [Request.max, hle]
      exact h.frame (by simp [setRequests, hmax]) rfl id id
  · have hset : (s.setRequests target ((s.requests target).max req)).Mirrored t :=
      h.frame (by simp [setRequests, htt]) rfl id id
    split
    · exact hset.move_eq ha (by simp) _
    · exact hset

theorem Mirrored.writeCopy (h : s.Mirrored t) {target : Tid} {req : Request}
    (ha : s.pos a = .posting target req) (hreq : req ≠ .none)
    (hguard : s.requests target ≠ .none ∨ s.delivery target = .clear ∨
      ∃ u req, u ≠ a ∧ s.pos u = .posting target req) : (s.writeCopy a).Mirrored t := by
  simp only [BlockState.writeCopy, ha]
  by_cases htt : t = target
  · subst htt
    have hcopy : ((s.setRequestCopy t (PolyWord.tagged req.code)).setPos a .posted).requestCopy t ≠
        PolyWord.tagged 0 := by
      simpa [setRequestCopy, setPos] using tagged_code_ne hreq
    refine ⟨fun _ => Or.inl hcopy, fun hnone => Or.inr ?_⟩
    rcases hguard.resolve_left (not_not_intro hnone) with hclear | ⟨u, req', hua, hu⟩
    · exact Or.inl hclear
    · exact Or.inr ⟨u, req', by rw [pos_setPos_ne _ _ hua]; exact hu⟩
  · refine h.frame rfl (by simp [setRequestCopy, setPos, htt]) id ?_
    rintro ⟨u, req', hu⟩
    refine ⟨u, req', ?_⟩
    have hua : u ≠ a := by
      rintro rfl
      rw [ha] at hu
      exact htt (by injection hu with h1; exact h1.symm)
    rw [pos_setPos_ne _ _ hua]
    exact hu

theorem delivery_afterCheck (s : BlockState Tid Mid) (a : Tid) :
    (s.afterCheck a).delivery = s.delivery := by
  unfold afterCheck
  split <;> rfl

theorem Mirrored.afterCheck (h : s.Mirrored t) (ha : s.AtCheck a) : (s.afterCheck a).Mirrored t := by
  unfold BlockState.afterCheck
  split
  · exact h.move ha.not_posting _
  · exact h.move ha.not_posting _
  · exact h

/-- A thread that was not consuming a request changes what it does about one. -/
theorem Mirrored.setDelivery (h : s.Mirrored t) (hidle : s.delivery a ≠ .clear) (d : Delivery) :
    (s.setDelivery a d).Mirrored t := by
  refine h.frame rfl rfl (fun hclear => ?_) id
  have hta : t ≠ a := by
    rintro rfl
    exact hidle hclear
  simpa [BlockState.setDelivery, hta] using hclear

theorem Mirrored.loadRequests (h : s.Mirrored t) (hidle : s.delivery a = .idle) (ha : s.AtCheck a)
    (synch : Bool) : (s.loadRequests a synch).Mirrored t := by
  have hload : ∀ s' : BlockState Tid Mid, s'.Mirrored t → s'.AtCheck a → s'.delivery a = .idle →
      ∀ d, ((s'.afterCheck a).setDelivery a d).Mirrored t := by
    intro s' h' ha' hidle' d
    refine (h'.afterCheck ha').setDelivery ?_ d
    rw [delivery_afterCheck, hidle']
    decide
  unfold BlockState.loadRequests
  split
  · exact hload s h ha hidle _
  · split
    · unfold downgrade
      split
      · exact hload (s.setInterruptState a .synch) (h.frame rfl rfl id id) ha hidle _
      · exact hload s h ha hidle _
    · exact h.afterCheck ha
  · exact h.afterCheck ha

theorem Mirrored.finishStore (h : s.Mirrored t) {u : Tid} {rest : List Tid}
    (ha : s.pos a = .finishing (u :: rest))
    (hguard : s.requestCopy u ≠ PolyWord.tagged 0 ∨ s.Posting u) : (s.finishStore a).Mirrored t := by
  simp only [BlockState.finishStore, ha]
  have hset : (s.setRequests u .kill).Mirrored t := by
    by_cases htu : t = u
    · subst htu
      refine ⟨fun _ => hguard, fun hnone => ?_⟩
      simp [setRequests] at hnone
    · exact h.frame (by simp [setRequests, htu]) rfl id id
  exact hset.move_eq ha (by simp) _

/-- Consuming a request that no copy shows, or that somebody has still to mirror. -/
theorem Mirrored.storeNone (h : s.Mirrored t) (ha : s.AtInstruction a)
    (hguard : s.requestCopy a = PolyWord.tagged 0 ∨ s.Posting a) : (s.storeNone a).Mirrored t := by
  have hset : ((s.setRequests a .none).setDelivery a .idle).Mirrored t := by
    by_cases hta : t = a
    · subst hta
      refine ⟨fun hne => ?_, fun _ => hguard.imp id Or.inr⟩
      simp [setRequests, BlockState.setDelivery] at hne
    · exact h.frame (by simp [setRequests, BlockState.setDelivery, hta]) rfl
        (by simp [setRequests, BlockState.setDelivery, hta]) id
  exact hset.move ha.not_posting _

/-- From here on the thread has to clear the copy. -/
theorem Mirrored.exchangeNone (h : s.Mirrored t) (ha : s.delivery a = .interrupt) :
    (s.exchangeNone a).Mirrored t := by
  have hne : s.delivery a ≠ .clear := by simp [ha]
  unfold BlockState.exchangeNone
  split
  · by_cases hta : t = a
    · subst hta
      refine ⟨fun hne => ?_, fun _ => Or.inr (Or.inl ?_)⟩
      · simp [setRequests, BlockState.setDelivery] at hne
      · simp [BlockState.setDelivery]
    · exact h.frame (by simp [setRequests, BlockState.setDelivery, hta]) rfl
        (by simp [setRequests, BlockState.setDelivery, hta]) id
  · exact h.setDelivery hne _

theorem Mirrored.clearCopy (h : s.Mirrored t) (ha : s.AtInstruction a)
    (hguard : s.requests a = .none ∨ s.Posting a) : (s.clearCopy a).Mirrored t := by
  have hset : ((s.setRequestCopy a (PolyWord.tagged 0)).setDelivery a .idle).Mirrored t := by
    by_cases hta : t = a
    · subst hta
      refine ⟨fun hne => Or.inr (hguard.resolve_left hne), fun _ => Or.inl ?_⟩
      simp [setRequestCopy, BlockState.setDelivery]
    · exact h.frame rfl (by simp [setRequestCopy, BlockState.setDelivery, hta])
        (by simp [setRequestCopy, BlockState.setDelivery, hta]) id
  exact hset.move ha.not_posting _

/-- A new thread has no request and an empty copy. -/
theorem Mirrored.fork (h : s.Mirrored t) {child : Tid} (hc : s.pos child = .unborn)
    (st : InterruptState) : (s.fork child st).Mirrored t := by
  have hpos : ∀ target req, s.pos child ≠ .posting target req := by simp [hc]
  by_cases htc : t = child
  · subst htc
    refine ⟨fun hne => ?_, fun _ => Or.inl ?_⟩
    · simp [BlockState.fork, setRequests, setRequestCopy, BlockState.setDelivery, setInterruptState,
        setPos] at hne
    · simp [BlockState.fork, setRequests, setRequestCopy, BlockState.setDelivery, setInterruptState,
        setPos]
  · have hmove : (s.setPos child .running).Mirrored t := h.move hpos _
    exact hmove.frame (by simp [BlockState.fork, setRequests, setRequestCopy,
        BlockState.setDelivery, setInterruptState, setPos, htc])
      (by simp [BlockState.fork, setRequests, setRequestCopy, BlockState.setDelivery,
        setInterruptState, setPos, htc])
      (by simp [BlockState.fork, setRequests, setRequestCopy, BlockState.setDelivery,
        setInterruptState, setPos, htc]) id

end Steps

/-! ## What a guarded run preserves -/

section Runs

variable [DecidableEq Tid] {s : BlockState Tid Mid} {a : Tid}

/-- Every thread's request is mirrored, and every post is of a request. -/
structure CopyInv (s : BlockState Tid Mid) : Prop where
  mirrored : ∀ t, s.Mirrored t
  posts : s.PostsRequest

theorem PostsRequest.setPos (h : s.PostsRequest) {p : BlockPos Tid Mid}
    (hp : ∀ target req, p = .posting target req → req ≠ .none) : (s.setPos a p).PostsRequest := by
  intro u target req hu
  by_cases hua : u = a
  · subst hua
    rw [pos_setPos_self] at hu
    exact hp target req hu
  · rw [pos_setPos_ne s p hua] at hu
    exact h u target req hu

namespace CopyInv

/-- A step that moves a thread which is not posting and does not begin to post. -/
theorem move (h : s.CopyInv) {q : BlockPos Tid Mid} (hq : s.pos a = q)
    (hne : ∀ target req, q ≠ .posting target req) {p : BlockPos Tid Mid}
    (hp : ∀ target req, p ≠ .posting target req) : (s.setPos a p).CopyInv :=
  ⟨fun t => (h.mirrored t).move_eq hq hne p,
    h.posts.setPos (fun target req he => absurd he (hp target req))⟩

theorem new (main : Tid) (st : InterruptState) (word : Mid → PolyWord) :
    (BlockState.new main st word).CopyInv := by
  constructor
  · exact fun t => ⟨fun h => absurd rfl h, fun _ => Or.inl rfl⟩
  · intro u target req hu
    simp only [BlockState.new, Function.update_apply] at hu
    split at hu <;> cases hu

theorem makeThreadRequest (h : s.CopyInv) (ha : s.pos a = .running) (target : Tid) {req : Request}
    (hreq : req ≠ .none) : (s.makeThreadRequest a target req).CopyInv := by
  refine ⟨fun t => (h.mirrored t).makeThreadRequest ha target req, ?_⟩
  simp only [BlockState.makeThreadRequest]
  have hset : (s.setRequests target ((s.requests target).max req)).PostsRequest := h.posts
  split
  · exact hset.setPos (fun _ _ he => by injection he with _ hr; exact hr ▸ hreq)
  · exact hset

theorem writeCopy (h : s.CopyInv) {target : Tid} {req : Request} (ha : s.pos a = .posting target req)
    (hguard : s.requests target ≠ .none ∨ s.delivery target = .clear ∨
      ∃ u req, u ≠ a ∧ s.pos u = .posting target req) : (s.writeCopy a).CopyInv := by
  refine ⟨fun t => (h.mirrored t).writeCopy ha (h.posts a target req ha) hguard, ?_⟩
  simp only [BlockState.writeCopy, ha]
  have hset : (s.setRequestCopy target (PolyWord.tagged req.code)).PostsRequest := h.posts
  exact hset.setPos (by simp)

theorem finishStore (h : s.CopyInv) {u : Tid} {rest : List Tid}
    (ha : s.pos a = .finishing (u :: rest))
    (hguard : s.requestCopy u ≠ PolyWord.tagged 0 ∨ s.Posting u) : (s.finishStore a).CopyInv := by
  refine ⟨fun t => (h.mirrored t).finishStore ha hguard, ?_⟩
  simp only [BlockState.finishStore, ha]
  have hset : (s.setRequests u .kill).PostsRequest := h.posts
  exact hset.setPos (by simp)

theorem afterCheck_posts (h : s.PostsRequest) (a : Tid) : (s.afterCheck a).PostsRequest := by
  unfold afterCheck
  split
  · exact h.setPos (by simp)
  · exact h.setPos (by simp)
  · exact h

theorem loadRequests (h : s.CopyInv) (hidle : s.delivery a = .idle) (ha : s.AtCheck a)
    (synch : Bool) : (s.loadRequests a synch).CopyInv := by
  refine ⟨fun t => (h.mirrored t).loadRequests hidle ha synch, ?_⟩
  unfold BlockState.loadRequests
  split
  · exact afterCheck_posts h.posts a
  · split
    · unfold downgrade
      split
      · exact afterCheck_posts (s := s.setInterruptState a .synch) h.posts a
      · exact afterCheck_posts h.posts a
    · exact afterCheck_posts h.posts a
  · exact afterCheck_posts h.posts a

theorem storeNone (h : s.CopyInv) (ha : s.AtInstruction a)
    (hguard : s.requestCopy a = PolyWord.tagged 0 ∨ s.Posting a) : (s.storeNone a).CopyInv := by
  refine ⟨fun t => (h.mirrored t).storeNone ha hguard, ?_⟩
  have hset : ((s.setRequests a .none).setDelivery a .idle).PostsRequest := h.posts
  exact hset.setPos (by simp)

theorem exchangeNone (h : s.CopyInv) (ha : s.delivery a = .interrupt) : (s.exchangeNone a).CopyInv := by
  refine ⟨fun t => (h.mirrored t).exchangeNone ha, ?_⟩
  unfold BlockState.exchangeNone
  split <;> exact h.posts

theorem clearCopy (h : s.CopyInv) (ha : s.AtInstruction a)
    (hguard : s.requests a = .none ∨ s.Posting a) : (s.clearCopy a).CopyInv := by
  refine ⟨fun t => (h.mirrored t).clearCopy ha hguard, ?_⟩
  have hset : ((s.setRequestCopy a (PolyWord.tagged 0)).setDelivery a .idle).PostsRequest := h.posts
  exact hset.setPos (by simp)

theorem fork (h : s.CopyInv) {child : Tid} (hc : s.pos child = .unborn) (st : InterruptState) :
    (s.fork child st).CopyInv := by
  refine ⟨fun t => (h.mirrored t).fork hc st, ?_⟩
  have hset : ((((s.setRequests child .none).setRequestCopy child
    (PolyWord.tagged 0)).setInterruptState child st).setDelivery child .idle).PostsRequest := h.posts
  exact hset.setPos (p := .running) (by simp)

omit [DecidableEq Tid] in
/-- Only the requests, their copies and the positions matter. -/
theorem congr {s' : BlockState Tid Mid} (h : s.CopyInv) (hreq : s'.requests = s.requests)
    (hcopy : s'.requestCopy = s.requestCopy) (hdel : s'.delivery = s.delivery)
    (hpos : s'.pos = s.pos) : s'.CopyInv := by
  constructor
  · intro t
    refine (h.mirrored t).frame (by rw [hreq]) (by rw [hcopy]) (by rw [hdel]; exact id) ?_
    rintro ⟨u, req, hu⟩
    exact ⟨u, req, by rw [hpos]; exact hu⟩
  · intro u target req hu
    rw [hpos] at hu
    exact h.posts u target req hu

/-- A step that only moves a thread, whatever the step found, keeps the invariant. -/
theorem notify (h : s.CopyInv) (a : Tid) : (s.notify a).CopyInv := by
  have hbump : s.bump.CopyInv := h.congr rfl rfl rfl rfl
  unfold BlockState.notify
  split <;> rename_i hpos
  · exact hbump.move hpos (by simp) (by simp)
  · exact hbump.move hpos (by simp) (by simp)
  · exact hbump.move hpos (by simp) (by simp)
  · exact (hbump.move (p := .running) hpos (by simp) (by simp)).congr rfl rfl rfl rfl
  · exact hbump.move hpos (by simp) (by simp)
  · exact hbump.move hpos (by simp) (by simp)
  · exact h

variable [DecidableEq Mid]

/-- One guarded step. -/
theorem exec {op : BlockOp Tid Mid} (h : s.CopyInv) (he : s.Enabled op) (hg : s.CopyGuarded op) :
    (s.exec op).CopyInv := by
  cases op with
  | lockMutex t m =>
    have hword : (s.setWord m (s.word m + 2#64)).CopyInv := h.congr rfl rfl rfl rfl
    have hnew : ∀ (target : Tid) (req : Request), (if s.word m = PolyWord.tagged 0 then .running
        else .refused m : BlockPos Tid Mid) ≠ .posting target req := by
      intro target req
      split <;> simp
    rcases he.2 with hpos | hpos
    · exact hword.move hpos (by simp) hnew
    · exact hword.move hpos (by simp) hnew
  | tryLockMutex t m =>
    simp only [BlockState.exec, BlockState.tryLockMutex]
    split
    · exact h.congr rfl rfl rfl rfl
    · exact h
  | atomicReset t m =>
    have hword : (s.setWord m (PolyWord.tagged 0)).CopyInv := h.congr rfl rfl rfl rfl
    refine hword.move he.2 (by simp) ?_
    intro target req
    split <;> simp
  | mutexBlock t =>
    obtain ⟨m, hpos⟩ := he.2
    simp only [BlockState.exec, BlockState.mutexBlock, hpos]
    split
    · have hword : (s.setWord m (PolyWord.tagged 0)).CopyInv := h.congr rfl rfl rfl rfl
      exact hword.move hpos (by simp) (by simp)
    · exact h.move hpos (by simp) (by simp)
  | blockCheck t =>
    obtain ⟨m, hpos⟩ := he
    simp only [BlockState.exec, BlockState.blockCheck, hpos]
    refine h.move hpos (by simp) ?_
    intro target req
    split <;> simp
  | blockSample t =>
    obtain ⟨m, hpos⟩ := he
    simp only [BlockState.exec, BlockState.blockSample, hpos]
    exact h.move hpos (by simp) (by simp)
  | blockRecheck t =>
    obtain ⟨m, since, hpos⟩ := he
    simp only [BlockState.exec, BlockState.blockRecheck, hpos]
    refine h.move hpos (by simp) ?_
    intro target req
    split <;> simp
  | mutexUnlock t m =>
    have hword : (s.setWord m (PolyWord.tagged 0)).CopyInv := h.congr rfl rfl rfl rfl
    rcases he.2 with hpos | hpos
    · exact hword.move hpos (by simp) (by simp)
    · exact hword.move hpos (by simp) (by simp)
  | condVarWait t m timed =>
    simp only [BlockState.exec, BlockState.condVarWait]
    split
    · exact h
    · exact h.move he.2 (by simp) (by simp)
  | condSample t =>
    obtain ⟨m, timed, hpos⟩ := he
    simp only [BlockState.exec, BlockState.condSample, hpos]
    exact h.move hpos (by simp) (by simp)
  | condRelease t =>
    obtain ⟨m, since, timed, hpos⟩ := he
    simp only [BlockState.exec, BlockState.condRelease, hpos]
    have hword : (s.setWord m (PolyWord.tagged 0)).CopyInv := h.congr rfl rfl rfl rfl
    exact (hword.move (p := .condReleased m since timed) hpos (by simp) (by simp)).congr rfl rfl rfl
      rfl
  | condCheck t =>
    obtain ⟨since, timed, hpos⟩ := he
    simp only [BlockState.exec, BlockState.condCheck, hpos]
    refine h.move hpos (by simp) ?_
    intro target req
    split <;> simp
  | condVarWake t target =>
    simp only [BlockState.exec, BlockState.condVarWake]
    split
    · exact h.move he.2 (by simp) (by simp)
    · exact h
  | wakeCheck t ignored =>
    obtain ⟨target, hpos⟩ := he
    simp only [BlockState.exec, BlockState.wakeCheck, hpos]
    split
    · exact h.move hpos (by simp) (by simp)
    · exact (h.move (p := .running) hpos (by simp) (by simp)).congr rfl rfl rfl rfl
  | waitForSignal t => exact h.move he.2 (by simp) (by simp)
  | signalSample t => exact h.move he (by simp) (by simp)
  | signalCheck t =>
    refine h.move he (by simp) ?_
    intro target req
    split <;> simp
  | wake t =>
    simp only [BlockState.exec, BlockState.wake]
    split <;> rename_i hpos
    · split
      · exact h
      · exact h.move hpos (by simp) (by simp)
    · split
      · exact h
      · exact h.move hpos (by simp) (by simp)
    · split
      · exact h
      · exact h.move hpos (by simp) (by simp)
    · exact h
  | notify t => exact h.notify t
  | makeThreadRequest t target req => exact h.makeThreadRequest he.2.1 target he.2.2.2
  | writeCopy t =>
    obtain ⟨target, req, hpos⟩ := he
    exact h.writeCopy hpos (hg target req hpos)
  | finish t =>
    refine ⟨fun u => (h.mirrored u).move he.2.not_posting _, h.posts.setPos ?_⟩
    intro target req hp
    split at hp <;> cases hp
  | finishSnapshot t => exact h.move he (by simp) (by simp)
  | finishStore t =>
    obtain ⟨u, rest, hpos⟩ := he
    exact h.finishStore hpos (hg u rest hpos)
  | loadRequests t synch => exact h.loadRequests he.1 he.2.1 synch
  | storeNone t => exact h.storeNone he.2 hg
  | exchangeNone t => exact h.exchangeNone he.1
  | clearCopy t => exact h.clearCopy he.2 hg
  | setAttributes t st => exact h.congr rfl rfl rfl rfl
  | fork t child st => exact h.fork he.2.2 st
  | killSelf t => exact h.move he.2 (by simp) (by simp)
  | exitParked t =>
    refine (h.move (p := if t = s.main then .exited else .exiting) he (by simp) ?_).congr rfl rfl rfl
      rfl
    intro target req
    split <;> simp

end CopyInv

/-- In a guarded run, whenever no request is being posted to a thread or consumed by it, the copy
shows a request exactly when one is pending. -/
theorem copyAgrees_of_guarded [DecidableEq Mid] {main : Tid} {st : InterruptState}
    {word : Mid → PolyWord} {s : BlockState Tid Mid}
    (hrun : (blockMachine Tid Mid).Run CopyGuarded (new main st word) s) {t : Tid}
    (hq : s.Quiet t) : s.CopyAgrees t := by
  have hinv : s.CopyInv := hrun.invariant (CopyInv.new main st word)
    (fun _ _ h he hg => h.exec he hg)
  exact (hinv.mirrored t).agrees hq

end Runs

/-! ## Runs of two threads -/

section Traces

attribute [local instance] BlockState.neZero_two

/-- Thread 1 consumes the interrupt after thread 0 has written the copy. -/
def orderedRun : List (BlockOp (Fin 2) Unit) :=
  [.fork 0 1 .asynch, .makeThreadRequest 0 1 .interrupt, .writeCopy 0, .notify 0,
    .loadRequests 1 false, .exchangeNone 1, .clearCopy 1]

/-- Thread 1 consumes the interrupt before thread 0 writes the copy. -/
def lateCopyRun : List (BlockOp (Fin 2) Unit) :=
  [.fork 0 1 .asynch, .makeThreadRequest 0 1 .interrupt, .loadRequests 1 false, .exchangeNone 1,
    .clearCopy 1, .writeCopy 0, .notify 0]

/-- Thread 0 interrupts again before thread 1 clears the copy of the first interrupt. -/
def clearedCopyRun : List (BlockOp (Fin 2) Unit) :=
  [.fork 0 1 .asynch, .makeThreadRequest 0 1 .interrupt, .writeCopy 0, .notify 0,
    .loadRequests 1 false, .exchangeNone 1, .makeThreadRequest 0 1 .interrupt, .writeCopy 0,
    .notify 0, .clearCopy 1]

theorem not_posting_of_two {s : BlockState (Fin 2) Unit} {t : Fin 2}
    (h0 : s.pos 0 = .running) (h1 : s.pos 1 = .running) : ¬ s.Posting t := by
  rintro ⟨u, req, hu⟩
  have hrun : ∀ v, s.pos v = .running := Fin.forall_fin_two.2 ⟨h0, h1⟩
  rw [hrun u] at hu
  cases hu

theorem copyAgrees_of_guarded_run :
    (orderedRun.foldl (blockMachine (Fin 2) Unit).exec alone).CopyAgrees 1 := by
  have htrace : (blockMachine (Fin 2) Unit).Trace CopyGuarded alone orderedRun := by
    simp [alone, orderedRun, Machine.Trace, blockMachine, Enabled, CopyGuarded, exec, new,
      BlockState.fork, AtCheck, AtInstruction, makeThreadRequest, loadRequests, exchangeNone, setPos,
      setRequests, setRequestCopy, setInterruptState, setDelivery, Request.code, Request.max, notify,
      bump, writeCopy, deliverable, downgrade, afterCheck, InterruptState.isAsynch, Function.update]
  refine copyAgrees_of_guarded htrace.run ⟨?_, by decide⟩
  exact not_posting_of_two (by decide) (by decide)

/-- The copy shows a request that has been consumed, and misses one that is pending. -/
theorem not_copyAgrees :
    (∃ s, (blockMachine (Fin 2) Unit).Reachable alone s ∧ s.Quiet 1 ∧ s.requests 1 = .none ∧
      s.requestCopy 1 ≠ PolyWord.tagged 0) ∧
    ∃ s, (blockMachine (Fin 2) Unit).Reachable alone s ∧ s.Quiet 1 ∧ s.requests 1 ≠ .none ∧
      s.requestCopy 1 = PolyWord.tagged 0 := by
  constructor
  · have htrace : (blockMachine (Fin 2) Unit).Trace (fun _ _ => True) alone lateCopyRun := by
      simp [alone, lateCopyRun, Machine.Trace, blockMachine, Enabled, exec, new, BlockState.fork,
        AtCheck, AtInstruction, makeThreadRequest, loadRequests, exchangeNone, setPos, setRequests,
        setRequestCopy, setInterruptState, setDelivery, Request.code, Request.max, clearCopy,
        writeCopy, deliverable, downgrade, afterCheck, InterruptState.isAsynch, Function.update]
    exact ⟨_, htrace.run, ⟨not_posting_of_two (by decide) (by decide), by decide⟩, by decide, by decide⟩
  · have htrace : (blockMachine (Fin 2) Unit).Trace (fun _ _ => True) alone clearedCopyRun := by
      simp [alone, clearedCopyRun, Machine.Trace, blockMachine, Enabled, exec, new, BlockState.fork,
        AtCheck, AtInstruction, makeThreadRequest, loadRequests, exchangeNone, setPos, setRequests,
        setRequestCopy, setInterruptState, setDelivery, Request.code, Request.max, notify,
        bump, writeCopy, deliverable, downgrade, afterCheck, InterruptState.isAsynch, Function.update]
    exact ⟨_, htrace.run, ⟨not_posting_of_two (by decide) (by decide), by decide⟩, by decide, by decide⟩

end Traces

end BlockState
