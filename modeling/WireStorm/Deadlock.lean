import WireStorm.Locks

/-!
# No deadlock

A thread takes the lock of the status mask with an `args.lock` held, and no mutex in another
way with one held (`server_inOrder`), so the waits for mutexes form no cycle
(`waits_acyclic`). A step inside a mutex brings its thread closer to giving it back
(`step_left`), so every thread that neither sleeps nor is still to be created gets to take a
step, whatever mutex it waits for (`no_thread_stuck`).
-/

namespace WireStorm

open Mutex (InOrder Discipline WaitsFor)

/-- Thread `t` waits for an event, not for a mutex: on `msg_cond` or `args.cond` without a
wake-up, or it has not been created. -/
def System.parked (s : System) : Tid → Bool
  | .src | .dispatcher => false
  | .cleanup => s.cleanup.pc.waits && s.queue.asleep .cleanup
  | .worker i =>
    match (s.workers i).pc with
    | .idle => true
    | .body _ .asleep => (s.workers i).asleep
    | pc => pc.waits && s.queue.asleep (.worker i)

/-! ## The order of the mutexes -/

/-- The mutexes in the order in which they are taken. -/
def Lock.rank : Lock → Nat
  | .args _ => 0
  | .msg | .mask => 1

/-- A mutex that is taken comes behind those that are held. -/
def LockUse.Ordered (u : LockUse) : Prop :=
  ∀ r r', u.wants = some r → r' ∈ u.holds → r'.rank < r.rank

theorem GetPc.use_ordered (g : GetPc) : g.use.Ordered := by
  cases g <;> simp [use, LockUse.Ordered, LockUse.none]

theorem System.use_ordered (args : Args) (s : System) (t : Tid) : (s.use args t).Ordered := by
  cases t with
  | src => cases h : s.src <;> simp [use, h, SrcPc.use, LockUse.Ordered, LockUse.none]
  | dispatcher =>
    cases h : s.dispatcher.pc with
    | lockProbe fd i =>
      simp only [use, h, DispatcherPc.use]
      split <;> simp [LockUse.Ordered, LockUse.none]
    | hand fd k wake a =>
      cases wake <;> cases a <;>
        simp [use, h, DispatcherPc.use, HandPc.use, HandPc.use.outer, LockUse.Ordered, LockUse.none,
          Lock.rank]
    | _ => simp [use, h, DispatcherPc.use, LockUse.Ordered, LockUse.none]
  | cleanup =>
    cases h : s.cleanup.pc with
    | get current g =>
      simp only [use, h, CleanupPc.use]
      exact g.use_ordered
    | _ => simp [use, h, CleanupPc.use, LockUse.Ordered, LockUse.none]
  | worker i =>
    cases h : (s.workers i).pc with
    | idle => simp [use, h, WorkerPc.use, LockUse.Ordered, LockUse.none]
    | get current g =>
      simp only [use, h, WorkerPc.use]
      exact g.use_ordered
    | body e l =>
      cases l <;> simp [use, h, WorkerPc.use, LoopPc.use, LockUse.Ordered, LockUse.none, Lock.rank]

section
variable {args : Args} {start : Timespec} {s s' : System}

/-! ## Progress -/

/-- A step of `get_msg_entry` in its critical section. -/
theorem getMsgEntry_left {t : Tid} {current prev : Option Nat} {toStart : Bool} {g : GetPc}
    {q q' : MsgQueue} {r : GetMsg} (hin : g.use.holds ≠ [])
    (hs : getMsgEntry t current prev toStart g q = some (q', r)) :
    (match r with
      | .more g' => g'.use.left
      | .ret _ => 0) < g.use.left := by
  cases getMsgEntry_move hs <;> simp [GetPc.use, LockUse.none] at hin ⊢

theorem handStep_left {fd k : Nat} {wake : Bool} {a : HandPc} (hp : Pool args.numWorkers s)
    (hpc : s.dispatcher.pc = .hand fd k wake a) (hin : (a.use k wake).holds ≠ [])
    (hs : s.handStep fd k wake a = some s') :
    (s'.dispatcher.pc.use args.numWorkers).left < (a.use k wake).left ∧ s'.fault = s.fault := by
  have hok := hp.worker k
  rw [System.stage, hpc, stage_hand] at hok
  cases a with
  | assertReady | lockArgs | initArgs | create => exact absurd rfl hin
  | lockMask =>
    obtain ⟨mask, -, rfl⟩ := Option.map_eq_some_iff.mp hs
    exact ⟨Nat.lt_succ_self _, rfl⟩
  | setTime =>
    cases hs
    cases wake with
    | false => exact absurd rfl hin
    | true => exact ⟨Nat.lt_succ_self _, rfl⟩
  | setFd | setBusy | setBit | unlockMask | signal | unlockArgs =>
    cases hs
    exact ⟨Nat.lt_succ_self _, rfl⟩

theorem dispatcherStep_left {accepts : Bool} (hp : Pool args.numWorkers s)
    (hin : (s.dispatcher.pc.use args.numWorkers).holds ≠ [])
    (hs : s.dispatcherStep args accepts = some s') :
    (s'.dispatcher.pc.use args.numWorkers).left < (s.dispatcher.pc.use args.numWorkers).left ∧
      s'.fault = s.fault := by
  have hprobe : ∀ fd i, (DispatcherPc.lockProbe fd i).use args.numWorkers =
      if i < args.numWorkers then ⟨[], some .mask, 0⟩ else .none := fun _ _ => rfl
  unfold System.dispatcherStep at hs
  split at hs <;> rename_i hpc <;> rw [hpc] at hin ⊢
  · exact absurd rfl hin
  · exact absurd rfl hin
  · rw [hprobe] at hin
    split at hin <;> exact absurd rfl hin
  · cases hs
    exact ⟨Nat.lt_succ_self _, rfl⟩
  · rename_i fd i isIdle
    cases hs
    refine ⟨?_, rfl⟩
    have hleft : ((if isIdle then DispatcherPc.switch fd i else .lockProbe fd (i + 1)).use
        args.numWorkers).left = 0 := by
      cases isIdle
      · rw [if_neg (by simp), hprobe]
        split <;> rfl
      · rfl
    exact Nat.lt_of_le_of_lt (Nat.le_of_eq hleft) (Nat.lt_succ_self _)
  · exact absurd rfl hin
  · exact absurd rfl hin
  · exact handStep_left hp hpc hin hs

theorem WorkerView.step_left {i : Nat} {o : Outcome} {v v' : WorkerView}
    (hin : (v.worker.pc.use i).holds ≠ []) (hs : v.step i o = some v') :
    (v'.worker.pc.use i).left < (v.worker.pc.use i).left ∧ v'.fault = v.fault := by
  cases WorkerView.step_move hs with
  | seek hpc hget =>
    rw [hpc] at hin ⊢
    exact ⟨getMsgEntry_left hin hget, rfl⟩
  | found hpc hget =>
    rw [hpc] at hin ⊢
    exact ⟨getMsgEntry_left hin hget, rfl⟩
  | @quiet _ l _ _ _ hpc hl =>
    rw [hpc] at hin ⊢
    refine ⟨?_, rfl⟩
    cases l <;> cases hl
    · exact absurd rfl hin
    · exact absurd rfl hin
    · exact Nat.lt_succ_self _
    · exact Nat.lt_succ_self _
    · exact Nat.lt_succ_self _
  | fault hpc _ hf =>
    rw [hpc] at hin
    cases hf <;> exact absurd rfl hin
  | dead hpc | refuse hpc | start hpc | write hpc | sent hpc | mark hpc | test hpc | close hpc
  | lockArgs hpc | wake hpc | advance hpc =>
    rw [hpc] at hin
    exact absurd rfl hin
  | readNext hpc | setReady hpc | clearBit hpc | busy hpc | reset hpc | unlockArgs hpc =>
    rw [hpc]
    exact ⟨Nat.lt_succ_self _, rfl⟩
  | sleep hpc =>
    rw [hpc]
    exact ⟨Nat.succ_pos _, rfl⟩

/-- **A step inside a mutex** brings the thread closer to being inside none, and is no fault. -/
theorem step_left {l : Label} {t : Tid} (hp : Pool args.numWorkers s)
    (hs : s.step args l = some s') (hl : l.tid = some t) (hin : (s.use args t).holds ≠ []) :
    (s'.use args t).left < (s.use args t).left ∧ s'.fault = s.fault := by
  cases step_move hs with
  | src hstep =>
    cases hl
    refine ⟨?_, (srcStep_frame hstep).fault⟩
    simp only [System.use] at hin ⊢
    cases srcStep_move hstep with
    | nothing hpc | parsed hpc | stamp hpc | lock hpc =>
      rw [hpc] at hin
      exact absurd rfl hin
    | insert hpc | broadcast hpc | unlock hpc =>
      rw [hpc]
      exact Nat.lt_succ_self _
  | dispatcher hstep =>
    cases hl
    exact dispatcherStep_left hp hin hstep
  | worker hstep =>
    cases hl
    rename_i i o
    obtain ⟨fd, v', -, hv, rfl⟩ := workerStep_eq hstep
    have hleft := WorkerView.step_left (v := s.view i fd) hin hv
    simp only [System.use, System.setView, Function.update_self]
    exact hleft
  | cleanup hstep =>
    cases hl
    refine ⟨?_, (cleanupStep_frame hstep).1.fault⟩
    simp only [System.use] at hin ⊢
    cases cleanupStep_move hstep with
    | seek hpc hget =>
      rw [hpc] at hin ⊢
      exact getMsgEntry_left hin hget
    | found hpc hget =>
      rw [hpc] at hin ⊢
      exact getMsgEntry_left hin hget
    | expired hpc | skip hpc | lockFree hpc | lockNext hpc | advance hpc =>
      rw [hpc] at hin
      exact absurd rfl hin
    | free hpc | unlockFree hpc | readNext hpc | unlockNext hpc =>
      rw [hpc]
      exact Nat.lt_succ_self _
  | tick | wakeMsg | wakeArgs => cases hl

/-! ## Threads that can step -/

/-- A call of `get_msg_entry` has a step when it need not wait. -/
theorem exists_getMsgEntry (t : Tid) (current prev : Option Nat) (toStart : Bool) {g : GetPc}
    {q : MsgQueue} (hawake : (g.waits && q.asleep t) = false)
    (hfree : g.use.wants = some .msg → q.lock = none) :
    ∃ r, getMsgEntry t current prev toStart g q = some r := by
  have hacquire : g.use.wants = some .msg → q.acquire t = some { q with lock := some t } :=
    fun hwants => if_pos (hfree hwants)
  have hresume : g.waits = true → g.use.wants = some .msg →
      q.resume t = some { q with lock := some t } := by
    intro hwaits hwants
    rw [hwaits, Bool.true_and] at hawake
    rw [MsgQueue.resume, hawake, if_neg (by simp), hacquire hwants]
  rw [← Option.ne_none_iff_exists']
  cases g with
  | test => cases current <;> simp [getMsgEntry]
  | lock => simp [getMsgEntry, hacquire rfl]
  | first | next p =>
    simp only [getMsgEntry]
    split <;> simp
  | waitFirst | waitNext p => simp [getMsgEntry, hresume rfl rfl]
  | unlock e => simp [getMsgEntry]

theorem cleanup_can_step (hwalk : Walk s.queue.entries.length s.cleanup)
    (hawake : (s.cleanup.pc.waits && s.queue.asleep .cleanup) = false)
    (hfree : s.cleanup.pc.use.wants = some .msg → s.queue.lock = none) :
    ∃ s', s.cleanupStep args = some s' := by
  rw [← Option.ne_none_iff_exists']
  unfold Walk at hwalk
  unfold System.cleanupStep
  cases hpc : s.cleanup.pc with
  | get current g =>
    rw [hpc] at hawake hfree
    obtain ⟨⟨q, r⟩, hget⟩ := exists_getMsgEntry .cleanup current s.cleanup.prev true hawake hfree
    cases r <;> simp [hget]
  | check e =>
    rw [hpc] at hwalk
    simp only [List.getElem?_eq_getElem hwalk]
    split <;> simp
  | free e =>
    rw [hpc] at hwalk
    simp [List.getElem?_eq_getElem hwalk]
  | lockFree e | lockNext e =>
    rw [hpc] at hfree
    simp [MsgQueue.acquire, hfree rfl]
  | unlockFree e | readNext e | unlockNext e | advance e => simp

theorem handStep_can_step {fd k : Nat} {wake : Bool} {a : HandPc}
    (hfree : ∀ r, (a.use k wake).wants = some r → s.owner r = none) :
    ∃ s', s.handStep fd k wake a = some s' := by
  rw [← Option.ne_none_iff_exists']
  cases a with
  | assertReady =>
    simp only [System.handStep]
    split <;> simp
  | lockArgs =>
    have hunlocked : (s.workers k).lock = none := hfree _ rfl
    simp [System.handStep, hunlocked]
  | lockMask =>
    have hunlocked : s.mask.lock = none := hfree _ rfl
    simp [System.handStep, StatusMask.acquire, hunlocked]
  | initArgs | setFd | setBusy | setBit | unlockMask | setTime | create | signal | unlockArgs =>
    simp [System.handStep]

theorem dispatcher_can_step
    (hfree : ∀ r, (s.dispatcher.pc.use args.numWorkers).wants = some r → s.owner r = none) :
    ∃ s', s.dispatcherStep args true = some s' := by
  rw [← Option.ne_none_iff_exists']
  unfold System.dispatcherStep
  cases hpc : s.dispatcher.pc with
  | lockProbe fd i =>
    rw [hpc] at hfree
    simp only
    split
    · rename_i hi
      have hunlocked : s.mask.lock = none := hfree .mask (by simp [DispatcherPc.use, hi])
      simp [StatusMask.acquire, hunlocked]
    · simp
  | switch fd k =>
    simp only
    split <;> simp
  | hand fd k wake a =>
    rw [hpc] at hfree
    exact Option.ne_none_iff_exists'.mpr (handStep_can_step hfree)
  | accept | clock fd | readProbe fd i | unlockProbe fd i isIdle | backoff fd => simp

theorem WorkerView.can_step {i : Nat} {v : WorkerView} (o : Outcome)
    (hcursor : Cursor v.queue.entries.length v.worker)
    (hstarted : v.worker.pc ≠ .idle) (hawake : (v.worker.pc.waits && v.queue.asleep (.worker i)) = false)
    (hwoken : ∀ e, v.worker.pc = .body e .asleep → v.worker.asleep = false)
    (hmsg : (v.worker.pc.use i).wants = some .msg → v.queue.lock = none)
    (hmask : (v.worker.pc.use i).wants = some .mask → v.mask.lock = none)
    (hargs : (v.worker.pc.use i).wants = some (.args i) → v.worker.lock = none) :
    ∃ v', v.step i o = some v' := by
  rw [← Option.ne_none_iff_exists']
  unfold WorkerView.step
  unfold Cursor at hcursor
  cases hpc : v.worker.pc with
  | idle => exact absurd hpc hstarted
  | get current g =>
    rw [hpc] at hawake hmsg
    obtain ⟨⟨q, r⟩, hget⟩ := exists_getMsgEntry (.worker i) current v.worker.prev false hawake hmsg
    cases r <;> simp [hget]
  | body e l =>
    rw [hpc] at hcursor hmsg hmask hargs
    have hentry := List.getElem?_eq_getElem hcursor.1
    cases l with
    | alive =>
      simp only [WorkerView.bodyStep]
      split <;> simp
    | forward | mark | reset =>
      simp only [WorkerView.bodyStep, hentry]
      split <;> simp
    | send p =>
      simp only [WorkerView.bodyStep, hentry]
      split
      · simp
      · split <;> simp
    | lockNext => simp [WorkerView.bodyStep, MsgQueue.acquire, hmsg rfl]
    | lockArgs => simp [WorkerView.bodyStep, hargs rfl]
    | lockMask => simp [WorkerView.bodyStep, StatusMask.acquire, hmask rfl]
    | asleep => simp [WorkerView.bodyStep, hargs rfl, hwoken e hpc]
    | waitBusy =>
      simp only [WorkerView.bodyStep]
      split <;> simp
    | readNext | unlockNext | test | close | setReady | clearBit | unlockMask | unlockArgs
    | advance => simp [WorkerView.bodyStep]

/-- A worker that was created has a connection. -/
theorem Owned.exists_clientFd {n i : Nat} (h : Owned n s) (hpc : (s.workers i).pc ≠ .idle) :
    ∃ fd, (s.workers i).clientFd = some fd := by
  have hlinked := h.linked i
  have hlink : (s.workers i).link (s.stage i) ≠ .absent := by
    unfold Worker.link
    cases hw : (s.workers i).pc with
    | idle => exact absurd hw hpc
    | get current g => simp
    | body e l =>
      cases l with
      | asleep =>
        cases s.stage i with
        | none =>
          simp only
          split <;> simp
        | some st =>
          obtain ⟨wake, a⟩ := st
          cases a <;> simp [HandPc.link]
      | waitBusy =>
        simp only
        split <;> simp
      | _ => simp
  cases hl : (s.workers i).link (s.stage i) with
  | absent => exact absurd hl hlink
  | pending | live | closed =>
    rw [hl] at hlinked
    obtain ⟨fd, hfd, -⟩ := hlinked
    exact ⟨fd, hfd⟩

/-- **A thread that need not wait** has a step. -/
theorem can_step (hr : (server args start).Reachable s) (hfault : s.fault = none) {t : Tid}
    (hparked : s.parked t = false) (hfree : ∀ r, (s.use args t).wants = some r → s.owner r = none) :
    ∃ l s', l.tid = some t ∧ s.step args l = some s' := by
  have hg := reachable_good hr
  cases t with
  | src =>
    obtain ⟨s', hs⟩ : ∃ s', s.srcStep none = some s' := by
      rw [← Option.ne_none_iff_exists']
      simp only [System.use] at hfree
      unfold System.srcStep
      cases hpc : s.src with
      | lock entry =>
        have hunlocked : s.queue.lock = none := hfree .msg (by rw [hpc]; rfl)
        simp [MsgQueue.acquire, hunlocked]
      | parse | stamp msg | insert entry | broadcast | unlock => simp
    refine ⟨.src none, s', rfl, ?_⟩
    simp only [System.step, hfault, Option.isSome_none, Bool.false_eq_true, if_false, hs]
  | dispatcher =>
    obtain ⟨s', hs⟩ := dispatcher_can_step hfree
    refine ⟨.dispatcher true, s', rfl, ?_⟩
    simp only [System.step, hfault, Option.isSome_none, Bool.false_eq_true, if_false, hs]
  | cleanup =>
    obtain ⟨s', hs⟩ : ∃ s', s.cleanupStep args = some s' :=
      cleanup_can_step (reachable_walk hr) hparked (hfree .msg)
    refine ⟨.cleanup, s', rfl, ?_⟩
    simp only [System.step, hfault, Option.isSome_none, Bool.false_eq_true, if_false, hs]
  | worker i =>
    have hstarted : (s.workers i).pc ≠ .idle := by
      intro hidle
      simp [System.parked, hidle] at hparked
    obtain ⟨fd, hfd⟩ := hg.owned.exists_clientFd hstarted
    have hwoken : ∀ e, (s.workers i).pc = .body e .asleep → (s.workers i).asleep = false := by
      intro e hpc
      simpa [System.parked, hpc] using hparked
    have hawake : ((s.workers i).pc.waits && s.queue.asleep (.worker i)) = false := by
      cases hpc : (s.workers i).pc with
      | idle | body e l => rfl
      | get current g => simpa [System.parked, hpc] using hparked
    obtain ⟨v', hv⟩ := WorkerView.can_step (v := s.view i fd) ⟨true, .eintr⟩ (hg.cursors i) hstarted
      hawake hwoken (hfree .msg) (hfree .mask) (hfree (.args i))
    refine ⟨.worker i ⟨true, .eintr⟩, s.setView i fd v', rfl, ?_⟩
    simp only [System.step, hfault, Option.isSome_none, Bool.false_eq_true, if_false,
      System.workerStep, hfd, hv, Option.map_some]

/-! ## No deadlock -/

/-- The states of the runs up to the first fault. -/
def Sound (args : Args) (start : Timespec) (s : System) : Prop :=
  (server args start).Reachable s ∧ s.fault = none

/-- A thread that is parked holds no mutex. -/
theorem holds_of_parked {t : Tid} (hparked : s.parked t = true) : (s.use args t).holds = [] := by
  have hget : ∀ {g : GetPc}, g.waits = true → g.use.holds = [] := by
    intro g hwaits
    cases g <;> first | rfl | cases hwaits
  cases t with
  | src | dispatcher => cases hparked
  | cleanup =>
    obtain ⟨hwaits, -⟩ := Bool.and_eq_true_iff.mp hparked
    simp only [System.use]
    cases hpc : s.cleanup.pc with
    | get current g =>
      rw [hpc] at hwaits
      exact hget hwaits
    | _ =>
      rw [hpc] at hwaits
      cases hwaits
  | worker i =>
    simp only [System.use]
    cases hpc : (s.workers i).pc with
    | idle => rfl
    | get current g =>
      simp only [System.parked, hpc] at hparked
      exact hget (Bool.and_eq_true_iff.mp hparked).1
    | body e l =>
      simp only [System.parked, hpc] at hparked
      cases l <;> first | rfl | cases hparked

/-- The server takes its mutexes in order. -/
theorem server_inOrder (hr : (server args start).Reachable s) :
    InOrder s.owner (fun t => (s.use args t).wants) Lock.rank := by
  intro t r r' hwants howner
  have hinside := (reachable_mutexes hr r' t).mp howner
  exact s.use_ordered args t r r' hwants (of_decide_eq_true hinside)

/-- **The mutexes of the server**: they are taken in order, and a thread that holds one and need
not wait has a step towards giving it back. -/
theorem server_discipline :
    Discipline (server args start) Label.tid System.owner (fun s t => (s.use args t).wants)
      (fun s t => (s.use args t).left) Lock.rank (Sound args start) where
  inOrder _ h := server_inOrder h.1
  progress := by
    rintro s t r ⟨hr, hfault⟩ howner hfree
    have hin := of_decide_eq_true (((reachable_mutexes hr) r t).mp howner)
    have hparked : s.parked t = false := by
      refine Bool.eq_false_iff.mpr fun hparked => ?_
      rw [holds_of_parked hparked] at hin
      cases hin
    obtain ⟨l, s', hl, hs⟩ := can_step hr hfault hparked hfree
    obtain ⟨hleft, hfault'⟩ := step_left (reachable_pool hr) hs hl (List.ne_nil_of_mem hin)
    exact ⟨l, s', hl, hs, ⟨.step hr trivial hs, hfault'.trans hfault⟩, hleft⟩
  frame := by
    rintro s l s' t u ⟨hr, -⟩ hs hl hut
    have huse := step_use (reachable_pool hr) hs hl (Ne.symm hut)
    refine ⟨by rw [huse], by rw [huse], fun r => ?_⟩
    rw [reachable_mutexes hr r t, reachable_mutexes (.step hr trivial hs) r t, System.inside,
      System.inside, huse]

/-- A hand-over puts no worker to sleep. -/
theorem handStep_asleep {fd k : Nat} {wake : Bool} {a : HandPc}
    (hs : s.handStep fd k wake a = some s') :
    ∃ w, s'.workers = Function.update s.workers k w ∧
      (w.asleep = true → (s.workers k).asleep = true) := by
  have hself : s.workers = Function.update s.workers k (s.workers k) := by simp
  cases a with
  | assertReady =>
    simp only [System.handStep] at hs
    split at hs <;> cases hs <;> exact ⟨_, hself, id⟩
  | lockArgs =>
    simp only [System.handStep] at hs
    split at hs <;> cases hs
    exact ⟨_, rfl, id⟩
  | lockMask =>
    obtain ⟨mask, -, rfl⟩ := Option.map_eq_some_iff.mp hs
    exact ⟨_, hself, id⟩
  | setBit | unlockMask =>
    cases hs
    exact ⟨_, hself, id⟩
  | setFd | setBusy | setTime | create | unlockArgs =>
    cases hs
    exact ⟨_, rfl, id⟩
  | initArgs | signal =>
    cases hs
    refine ⟨_, rfl, fun h => ?_⟩
    cases h

theorem dispatcherStep_asleep {accepts : Bool} (hs : s.dispatcherStep args accepts = some s')
    {i : Nat} (hasleep : (s'.workers i).asleep = true) : (s.workers i).asleep = true := by
  unfold System.dispatcherStep at hs
  split at hs
  · split at hs <;> cases hs <;> exact hasleep
  · cases hs
    exact hasleep
  · split at hs
    · obtain ⟨mask, -, rfl⟩ := Option.map_eq_some_iff.mp hs
      exact hasleep
    · cases hs
      exact hasleep
  · cases hs
    exact hasleep
  · cases hs
    exact hasleep
  · cases hs
    exact hasleep
  · split at hs <;> cases hs <;> exact hasleep
  · rename_i fd k wake a hpc
    obtain ⟨w, hworkers, hw⟩ := handStep_asleep hs
    rw [hworkers] at hasleep
    by_cases hi : i = k
    · subst hi
      rw [Function.update_self] at hasleep
      exact hw hasleep
    · rwa [Function.update_of_ne hi] at hasleep

theorem srcStep_asleep {msg : Option CtmpMsg} (hs : s.srcStep msg = some s') {t : Tid}
    (hasleep : s'.queue.asleep t = true) : s.queue.asleep t = true := by
  cases srcStep_move hs with
  | nothing | parsed | stamp | insert | unlock => exact hasleep
  | lock hpc hq => rwa [asleep_acquire hq] at hasleep
  | broadcast => cases hasleep

/-- A thread puts no other thread to sleep on `msg_cond`. -/
theorem SleepMove.of_ne {t u : Tid} {q q' : MsgQueue} {waits waits' : Bool} {prev' : Option Nat}
    (h : SleepMove u q q' waits waits' prev') (ht : t ≠ u) (hasleep : q'.asleep t = true) :
    q.asleep t = true := by
  cases h with
  | awake _ hsame => rwa [hsame] at hasleep
  | wait hsame => rwa [hsame, Function.update_of_ne ht] at hasleep

theorem WorkerView.sleepMove {i : Nat} {o : Outcome} {v v' : WorkerView}
    (hcursor : Cursor v.queue.entries.length v.worker) (hs : v.step i o = some v') :
    SleepMove (.worker i) v.queue v'.queue v.worker.pc.waits v'.worker.pc.waits v'.worker.prev := by
  unfold WorkerView.step at hs
  split at hs
  · cases hs
  · rename_i current g hpc
    simp only [Cursor, hpc] at hcursor
    split at hs
    · cases hs
    all_goals
      rename_i hget
      cases hs
      rw [hpc]
      exact (getMsgEntry_monitor (fun hg => hcursor.1.first (.inl hg))
        (fun p hg => hcursor.1.next p (.inl hg)) hget).2
  · rename_i hpc
    exact (bodyStep_monitor hpc hs).2

/-- A step of another thread parks no thread. -/
theorem step_parked {l : Label} {t u : Tid} (hr : (server args start).Reachable s)
    (hs : s.step args l = some s') (hl : l.tid = some u) (hut : u ≠ t) (h : s.parked t = false) :
    s'.parked t = false := by
  have hg := reachable_good hr
  -- where the thread is, and what it sleeps on
  have hframe : (∀ i, t = .worker i → (s'.workers i).pc = (s.workers i).pc ∧
        ((s'.workers i).asleep = true → (s.workers i).asleep = true)) →
      (t = .cleanup → s'.cleanup = s.cleanup) →
      (s'.queue.asleep t = true → s.queue.asleep t = true) → s'.parked t = false := by
    intro hworker hcleanup hqueue
    have hand : ∀ {a b c : Bool}, (b = true → c = true) → (a && c) = false → (a && b) = false := by
      decide
    cases t with
    | src | dispatcher => rfl
    | cleanup =>
      simp only [System.parked, hcleanup rfl] at h ⊢
      exact hand hqueue h
    | worker i =>
      obtain ⟨hpc, hasleep⟩ := hworker i rfl
      simp only [System.parked, hpc] at h ⊢
      split at h
      · cases h
      · exact Bool.eq_false_iff.mpr fun hyes => by
          rw [hasleep hyes] at h
          cases h
      · exact hand hqueue h
  cases step_move hs with
  | src hstep =>
    cases hl
    refine hframe (fun i _ => ?_) (fun _ => (srcStep_others hstep).1) (srcStep_asleep hstep)
    rw [(srcStep_frame hstep).workers]
    exact ⟨rfl, id⟩
  | dispatcher hstep =>
    cases hl
    refine hframe (fun i ht => ⟨?_, dispatcherStep_asleep hstep⟩)
      (fun _ => (dispatcherStep_frame hstep).cleanup) ?_
    · refine (dispatcherStep_pc hg.pool hstep i).resolve_right fun hnew => ?_
      simp only [ht, System.parked, hnew.1] at h
      cases h
    · rw [dispatcherStep_queue hg.pool hstep]
      exact id
  | worker hstep =>
    cases hl
    rename_i j o
    obtain ⟨fd, v', -, hv, rfl⟩ := workerStep_eq hstep
    refine hframe (fun i ht => ?_) (fun _ => rfl) ?_
    · have hi : i ≠ j := fun hi => hut (by rw [ht, hi])
      simp [System.setView, hi]
    · exact (WorkerView.sleepMove (hg.cursors j) hv).of_ne (Ne.symm hut)
  | cleanup hstep =>
    cases hl
    refine hframe (fun i _ => ?_) (fun ht => absurd ht.symm hut) ?_
    · rw [(cleanupStep_frame hstep).1.workers]
      exact ⟨rfl, id⟩
    · exact ((cleanupStep_move hstep).monitor (reachable_walk hr)).2.of_ne (Ne.symm hut)
  | tick | wakeMsg | wakeArgs => cases hl

theorem Lock.rank_lt (r : Lock) : r.rank < 2 := by
  cases r <;> simp [Lock.rank]

/-- **The waits for mutexes** form no cycle: no thread waits for a mutex of a thread that waits,
through any number of others, for a mutex of its own. -/
theorem waits_acyclic (hr : (server args start).Reachable s) (t : Tid) :
    ¬Relation.TransGen (WaitsFor s.owner fun t => (s.use args t).wants) t t :=
  (server_inOrder hr).acyclic t

/-- **No thread is stuck at a mutex**: a thread that is not parked gets to take a step, after
steps of other threads that hold a mutex. -/
theorem no_thread_stuck (hr : (server args start).Reachable s) (hfault : s.fault = none) {t : Tid}
    (hparked : s.parked t = false) :
    ∃ s', (server args start).Steps
        (fun s l _ => ∃ u r, l.tid = some u ∧ u ≠ t ∧ s.owner r = some u) s s' ∧
      ∃ l s'', l.tid = some t ∧ s'.step args l = some s'' := by
  cases hwants : (s.use args t).wants with
  | none => exact ⟨s, .refl s, can_step hr hfault hparked (by simp [hwants])⟩
  | some r =>
    obtain ⟨s', hsteps, ⟨hr', hfault'⟩, hfree, hwants'⟩ :=
      server_discipline.exists_granted Lock.rank_lt ⟨hr, hfault⟩ hwants
    have hparked' : s'.parked t = false := by
      refine hsteps.invariant (P := fun s => s.parked t = false) ?_ hparked
      rintro s l s' h ⟨⟨hr, -⟩, u, r, hl, hne, -⟩ hs
      exact step_parked hr hs hl hne h
    refine ⟨s', hsteps.mono fun _ _ _ h => h.2, can_step hr' hfault' hparked' fun r' hr' => ?_⟩
    rw [hwants'] at hr'
    cases hr'
    exact hfree

end

/-- The dispatcher waits for a mutex of worker 0. -/
theorem waits_acyclic_probe :
    ∃ s : System, (s.use .default .dispatcher).wants = some .mask ∧
      ¬Relation.TransGen (WaitsFor s.owner fun t => (s.use .default t).wants) .dispatcher
        .dispatcher := by
  obtain ⟨s, hs, -, -, hwants, -⟩ := exists_probe
  exact ⟨s, hwants, waits_acyclic hs .dispatcher⟩

/-- The dispatcher gets the mask from worker 0. -/
theorem no_thread_stuck_probe :
    ∃ s s' : System, (s.use .default .dispatcher).wants = some .mask ∧
      (server .default ⟨0, 0⟩).Steps
        (fun s l _ => ∃ u r, l.tid = some u ∧ u ≠ .dispatcher ∧ s.owner r = some u) s s' ∧
      ∃ l s'', l.tid = some .dispatcher ∧ s'.step .default l = some s'' := by
  obtain ⟨s, hs, -, -, hwants, hfault⟩ := exists_probe
  obtain ⟨s', hrun⟩ := no_thread_stuck hs (Option.isNone_iff_eq_none.mp hfault)
    (show s.parked .dispatcher = false from rfl)
  exact ⟨s, s', hwants, hrun⟩

end WireStorm
