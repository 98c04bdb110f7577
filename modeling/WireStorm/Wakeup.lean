import WireStorm.Lib.Mutex
import WireStorm.Receiver
import WireStorm.Walk

/-!
# Wake-ups

The two condition variables of the server. Every access to the queue that changes
it or waits for it happens in a critical section of `msg_lock` (`Mutex.Guards`), so a
thread that sleeps on `msg_cond` although its entry is there sleeps no longer than
until the source, which holds the lock, broadcasts (`Sleeps`). A worker asleep on
its `args.cond` is given a new connection by the dispatcher, which holds
`args.lock` from before it writes the status until after it signals (`Rouses`).
No thread misses its wake-up (`no_lost_wakeup`).
-/

namespace WireStorm

/-! ## Critical sections -/

/-- `get_msg_entry` holds `msg_lock`. -/
def GetPc.locked : GetPc → Bool
  | .first | .next _ | .unlock _ => true
  | _ => false

/-- `get_msg_entry` is in `pthread_cond_wait`. -/
def GetPc.waits : GetPc → Bool
  | .waitFirst | .waitNext _ => true
  | _ => false

def SrcPc.locked : SrcPc → Bool
  | .insert _ | .broadcast | .unlock => true
  | _ => false

def LoopPc.locked : LoopPc → Bool
  | .readNext | .unlockNext => true
  | _ => false

def WorkerPc.locked : WorkerPc → Bool
  | .idle => false
  | .get _ g => g.locked
  | .body _ l => l.locked

def WorkerPc.waits : WorkerPc → Bool
  | .get _ g => g.waits
  | _ => false

def CleanupPc.locked : CleanupPc → Bool
  | .get _ g => g.locked
  | .free _ | .unlockFree _ | .readNext _ | .unlockNext _ => true
  | _ => false

def CleanupPc.waits : CleanupPc → Bool
  | .get _ g => g.waits
  | _ => false

namespace System

/-- Thread `t` is in a critical section of `msg_lock`. -/
def locked (s : System) : Tid → Bool
  | .src => s.src.locked
  | .dispatcher => false
  | .cleanup => s.cleanup.pc.locked
  | .worker i => (s.workers i).pc.locked

/-- Thread `t` is in a wait on `msg_cond`. -/
def waits (s : System) : Tid → Bool
  | .src | .dispatcher => false
  | .cleanup => s.cleanup.pc.waits
  | .worker i => (s.workers i).pc.waits

/-- The `prev` of the thread's walk over the queue. -/
def prevOf (s : System) : Tid → Option Nat
  | .src | .dispatcher => none
  | .cleanup => s.cleanup.prev
  | .worker i => (s.workers i).prev

end System

/-- The entry that a walk with `prev` waits for is in the queue: any entry without
`prev`, else a successor of it. -/
def Awaited (len : Nat) (prev : Option Nat) : Prop :=
  match prev with
  | none => 0 < len
  | some p => p + 1 < len

theorem acquire_move {t : Tid} {q q' : MsgQueue} {before : Bool} (h : q.acquire t = some q') :
    Mutex.Move t q.lock q'.lock before true := by
  unfold MsgQueue.acquire at h
  split at h <;> cases h
  exact .take (by assumption) rfl rfl

/-- A thread asleep on `msg_cond` is in a wait, and if its entry is there the source
is about to broadcast. -/
def Sleeps (s : System) : Prop :=
  ∀ t, s.queue.asleep t = true →
    s.waits t = true ∧ (Awaited s.queue.entries.length (s.prevOf t) → s.src = .broadcast)

section
variable {args : Args} {start : Timespec} {s s' : System} {l : Label} {t : Tid}

/-- What a step of thread `t` does to the threads asleep on `msg_cond`. -/
inductive SleepMove (t : Tid) (q q' : MsgQueue) (waits waits' : Bool) (prev' : Option Nat) : Prop
  | awake (hawake : waits = true → q.asleep t = false) (hsame : q'.asleep = q.asleep)
  | wait (hsame : q'.asleep = Function.update q.asleep t true) (hwaits : waits' = true)
      (hnot : ¬Awaited q'.entries.length prev')

/-- One thread other than the source steps, and leaves the length of the queue alone. -/
theorem SleepMove.sleeps (h : Sleeps s)
    (hmove : SleepMove t s.queue s'.queue (s.waits t) (s'.waits t) (s'.prevOf t))
    (hlen : s'.queue.entries.length = s.queue.entries.length) (hsrc : s'.src = s.src)
    (hothers : ∀ u, u ≠ t → s'.waits u = s.waits u ∧ s'.prevOf u = s.prevOf u) : Sleeps s' := by
  intro u hu
  by_cases hut : u = t
  · subst hut
    cases hmove with
    | awake hawake hsame =>
      rw [hsame] at hu
      rw [hawake (h u hu).1] at hu
      cases hu
    | wait hsame hwaits hnot => exact ⟨hwaits, fun hin => absurd hin hnot⟩
  · have hold : s.queue.asleep u = true := by
      cases hmove with
      | awake hawake hsame => rwa [hsame] at hu
      | wait hsame hwaits hnot => rwa [hsame, Function.update_of_ne hut] at hu
    obtain ⟨hwaits, hprev⟩ := hothers u hut
    rw [hwaits, hprev, hlen, hsrc]
    exact h u hold

/-! ## `get_msg_entry` -/

/-- In a critical section after a step of `get_msg_entry`. -/
def GetMsg.locked : GetMsg → Bool
  | .more g => g.locked
  | .ret _ => false

def GetMsg.waits : GetMsg → Bool
  | .more g => g.waits
  | .ret _ => false

theorem asleep_acquire {q q' : MsgQueue} (h : q.acquire t = some q') : q'.asleep = q.asleep := by
  unfold MsgQueue.acquire at h
  split at h <;> cases h
  rfl

theorem resume_eq {q q' : MsgQueue} (h : q.resume t = some q') :
    q.asleep t = false ∧ q.acquire t = some q' := by
  unfold MsgQueue.resume at h
  split at h
  · cases h
  · rename_i hawake
    exact ⟨Bool.eq_false_iff.mpr hawake, h⟩

/-- `get_msg_entry` waits in its critical section, and only for what is not there. -/
theorem getMsgEntry_monitor {current prev : Option Nat} {toStart : Bool} {g : GetPc}
    {q q' : MsgQueue} {r : GetMsg} (hfirst : g = .first → prev = none)
    (hnext : ∀ p, g = .next p → prev = some p)
    (h : getMsgEntry t current prev toStart g q = some (q', r)) :
    Mutex.Move t q.lock q'.lock g.locked r.locked ∧ SleepMove t q q' g.waits r.waits prev := by
  cases getMsgEntry_move h with
  | enter | keep | first | next =>
    exact ⟨.keep rfl rfl, .awake (by simp [GetPc.waits]) rfl⟩
  | lockFirst hq | lockNext hq =>
    exact ⟨acquire_move hq, .awake (by simp [GetPc.waits]) (asleep_acquire hq)⟩
  | sleepFirst hempty =>
    refine ⟨.give rfl rfl rfl, .wait rfl rfl ?_⟩
    rw [hfirst rfl]
    simpa [Awaited] using hempty
  | sleepNext hlast =>
    refine ⟨.give rfl rfl rfl, .wait rfl rfl ?_⟩
    rw [hnext _ rfl]
    exact hlast
  | wakeFirst hq | wakeNext hq =>
    obtain ⟨hawake, hacquire⟩ := resume_eq hq
    exact ⟨acquire_move hacquire, .awake (fun _ => hawake) (asleep_acquire hacquire)⟩
  | unlock => exact ⟨.give rfl rfl rfl, .awake (by simp [GetPc.waits]) rfl⟩

/-! ## `msg_cond` -/

/-- The threads that wait for an entry, over every run. -/
structure Monitor (s : System) : Prop where
  excludes : Mutex.Guards s.queue.lock s.locked
  sleeps : Sleeps s

/-- A step that leaves the queue and the threads that use it alone. -/
theorem Monitor.frame (h : Monitor s) (hqueue : s'.queue = s.queue) (hsrc : s'.src = s.src)
    (hcleanup : s'.cleanup = s.cleanup)
    (hlocked : ∀ i, (s'.workers i).pc.locked = (s.workers i).pc.locked)
    (hwaits : ∀ i, (s'.workers i).pc.waits = (s.workers i).pc.waits)
    (hprev : ∀ i, (s.workers i).pc.waits = true → (s'.workers i).prev = (s.workers i).prev) :
    Monitor s' where
  excludes t := by
    rw [hqueue, h.excludes t]
    cases t with
    | src => rw [System.locked, System.locked, hsrc]
    | dispatcher => rfl
    | cleanup => rw [System.locked, System.locked, hcleanup]
    | worker i => rw [System.locked, System.locked, hlocked]
  sleeps t ht := by
    rw [hqueue] at ht
    obtain ⟨hw, hin⟩ := h.sleeps t ht
    rw [hqueue, hsrc]
    cases t with
    | src | dispatcher => cases hw
    | cleanup =>
      rw [System.waits, System.prevOf, hcleanup]
      exact ⟨hw, hin⟩
    | worker i =>
      rw [System.waits, System.prevOf, hwaits, hprev i hw]
      exact ⟨hw, hin⟩

theorem srcStep_monitor {msg : Option CtmpMsg} (h : Monitor s) (hs : s.srcStep msg = some s') :
    Monitor s' := by
  have hcleanup := (srcStep_others hs).1
  have hworkers := (srcStep_frame hs).workers
  -- the other threads are where they were
  have hothers : ∀ t, t ≠ .src → s'.locked t = s.locked t := by
    intro t ht
    cases t with
    | src => exact absurd rfl ht
    | dispatcher => rfl
    | cleanup => rw [System.locked, System.locked, hcleanup]
    | worker i => rw [System.locked, System.locked, hworkers]
  have hwaits : ∀ t, s'.waits t = s.waits t ∧ s'.prevOf t = s.prevOf t := by
    intro t
    cases t with
    | src | dispatcher => exact ⟨rfl, rfl⟩
    | cleanup => simp only [System.waits, System.prevOf, hcleanup, and_self]
    | worker i => simp only [System.waits, System.prevOf, hworkers, and_self]
  -- before the broadcast no thread sleeps although its entry is there
  have hsleeps : s'.queue.entries.length = s.queue.entries.length →
      s'.queue.asleep = s.queue.asleep → s.src ≠ .broadcast → Sleeps s' := by
    intro hlen hasleep hsrc t ht
    rw [hasleep] at ht
    obtain ⟨hw, hin⟩ := h.sleeps t ht
    rw [(hwaits t).1, (hwaits t).2, hlen]
    exact ⟨hw, fun hawaited => absurd (hin hawaited) hsrc⟩
  have hexcludes : Mutex.Move .src s.queue.lock s'.queue.lock s.src.locked s'.src.locked →
      Mutex.Guards s'.queue.lock s'.locked :=
    fun hmove => h.excludes.step hmove hothers
  cases srcStep_move hs with
  | nothing => exact h
  | parsed hpc | stamp hpc =>
    exact ⟨hexcludes (.keep rfl (by rw [hpc]; rfl)), hsleeps rfl rfl (by simp [hpc])⟩
  | lock hpc hq =>
    exact ⟨hexcludes (acquire_move hq),
      hsleeps (by rw [MsgQueue.entries_acquire hq]) (asleep_acquire hq) (by simp [hpc])⟩
  | insert hpc =>
    refine ⟨hexcludes (.keep rfl (by rw [hpc]; rfl)), fun t ht => ?_⟩
    obtain ⟨hw, -⟩ := h.sleeps t ht
    rw [(hwaits t).1]
    exact ⟨hw, fun _ => rfl⟩
  | broadcast hpc =>
    exact ⟨hexcludes (.keep rfl (by rw [hpc]; rfl)), fun t ht => by cases ht⟩
  | unlock hpc =>
    exact ⟨hexcludes (.give rfl (by rw [hpc]; rfl) rfl), hsleeps rfl rfl (by simp [hpc])⟩

/-- The body of the loop of a worker waits for no entry. -/
theorem bodyStep_monitor {i e : Nat} {o : Outcome} {lp : LoopPc} {v v' : WorkerView}
    (hpc : v.worker.pc = .body e lp) (hs : v.bodyStep i o e lp = some v') :
    Mutex.Move (.worker i) v.queue.lock v'.queue.lock v.worker.pc.locked v'.worker.pc.locked ∧
      SleepMove (.worker i) v.queue v'.queue v.worker.pc.waits v'.worker.pc.waits
        v'.worker.prev := by
  have hwaits : v.worker.pc.waits = true → v.queue.asleep (.worker i) = false := by
    rw [hpc]
    rintro ⟨⟩
  -- steps outside a critical section
  have hkeep : v.worker.pc.locked = false → v'.worker.pc.locked = false →
      v'.queue.lock = v.queue.lock → v'.queue.asleep = v.queue.asleep →
      Mutex.Move (.worker i) v.queue.lock v'.queue.lock v.worker.pc.locked v'.worker.pc.locked ∧
        SleepMove (.worker i) v.queue v'.queue v.worker.pc.waits v'.worker.pc.waits v'.worker.prev :=
    fun hbefore hafter hlock hasleep =>
      ⟨.keep hlock (hafter.trans hbefore.symm), .awake hwaits hasleep⟩
  cases lp with
  | lockNext =>
    obtain ⟨q, hq, rfl⟩ := Option.map_eq_some_iff.mp hs
    exact ⟨acquire_move hq, .awake hwaits (asleep_acquire hq)⟩
  | readNext =>
    cases hs
    exact ⟨.keep rfl (by rw [hpc]; rfl), .awake hwaits rfl⟩
  | unlockNext =>
    cases hs
    exact ⟨.give rfl (by rw [hpc]; rfl) rfl, .awake hwaits rfl⟩
  | alive =>
    simp only [WorkerView.bodyStep] at hs
    split at hs <;> cases hs
    · exact hkeep (by rw [hpc]; rfl) rfl rfl rfl
    · exact hkeep (by rw [hpc]; rfl) rfl rfl rfl
  | test =>
    cases hs
    refine hkeep (by rw [hpc]; rfl) ?_ rfl rfl
    simp only [WorkerView.goto]
    split <;> rfl
  | lockMask =>
    obtain ⟨mask, -, rfl⟩ := Option.map_eq_some_iff.mp hs
    exact hkeep (by rw [hpc]; rfl) rfl rfl rfl
  | forward | mark | reset =>
    simp only [WorkerView.bodyStep] at hs
    split at hs
    · cases hs
    · split at hs <;> cases hs
      all_goals
        refine hkeep (by rw [hpc]; rfl) ?_ rfl rfl
        first | rfl | (rw [hpc]; rfl)
  | send p =>
    simp only [WorkerView.bodyStep] at hs
    split at hs
    · cases hs
    · split at hs
      · cases hs
        exact hkeep (by rw [hpc]; rfl) (by rw [hpc]; rfl) rfl rfl
      · split at hs <;> cases hs
        · exact hkeep (by rw [hpc]; rfl) rfl rfl rfl
        · exact hkeep (by rw [hpc]; rfl) rfl rfl rfl
  | lockArgs | waitBusy | asleep =>
    simp only [WorkerView.bodyStep] at hs
    split at hs <;> cases hs
    all_goals exact hkeep (by rw [hpc]; rfl) rfl rfl rfl
  | close | setReady | clearBit | unlockMask | unlockArgs | advance =>
    cases hs
    exact hkeep (by rw [hpc]; rfl) rfl rfl rfl

theorem workerStep_monitor {i : Nat} {o : Outcome} (hg : Good args.numWorkers s) (h : Monitor s)
    (hs : s.workerStep i o = some s') : Monitor s' := by
  obtain ⟨fd, v', hfd, hv, rfl⟩ := workerStep_eq hs
  have hlen := length_entries (WorkerView.step_move hv)
  obtain ⟨hlock, hsleep⟩ : Mutex.Move (.worker i) s.queue.lock v'.queue.lock (s.workers i).pc.locked
      v'.worker.pc.locked ∧ SleepMove (.worker i) s.queue v'.queue (s.workers i).pc.waits
      v'.worker.pc.waits v'.worker.prev := by
    have hcursor := hg.cursors i
    unfold WorkerView.step at hv
    split at hv
    · cases hv
    · rename_i current g hpc
      have hpc : (s.workers i).pc = .get current g := hpc
      simp only [Cursor, hpc] at hcursor
      split at hv
      · cases hv
      all_goals
        rename_i hget
        cases hv
        rw [hpc]
        exact getMsgEntry_monitor (fun hg => hcursor.1.first (.inl hg))
          (fun p hg => hcursor.1.next p (.inl hg)) hget
    · rename_i hpc
      exact bodyStep_monitor hpc hv
  have hsame : ∀ t, t ≠ .worker i → (s.setView i fd v').locked t = s.locked t ∧
      (s.setView i fd v').waits t = s.waits t ∧ (s.setView i fd v').prevOf t = s.prevOf t := by
    intro t ht
    cases t with
    | src | dispatcher | cleanup => exact ⟨rfl, rfl, rfl⟩
    | worker j =>
      have hj : j ≠ i := fun hj => ht (hj ▸ rfl)
      simp [System.locked, System.waits, System.prevOf, System.setView, hj]
  constructor
  · refine h.excludes.step (t := .worker i) ?_ fun t ht => (hsame t ht).1
    simpa [System.locked, System.setView] using hlock
  · refine SleepMove.sleeps (t := .worker i) h.sleeps ?_ hlen rfl fun t ht => (hsame t ht).2
    simpa [System.waits, System.prevOf, System.setView] using hsleep

theorem CleanupMove.length_entries (hmove : CleanupMove args s s') :
    s'.queue.entries.length = s.queue.entries.length := by
  cases hmove with
  | seek hpc hget | found hpc hget => exact congrArg List.length (entries_getMsgEntry hget)
  | lockFree _ hq | lockNext _ hq => exact congrArg List.length (MsgQueue.entries_acquire hq)
  | free => exact List.length_set
  | expired | skip | unlockFree | readNext | unlockNext | advance => rfl

theorem CleanupMove.monitor (hmove : CleanupMove args s s')
    (hwalk : Walk s.queue.entries.length s.cleanup) :
    Mutex.Move .cleanup s.queue.lock s'.queue.lock s.cleanup.pc.locked s'.cleanup.pc.locked ∧
      SleepMove .cleanup s.queue s'.queue s.cleanup.pc.waits s'.cleanup.pc.waits s'.cleanup.prev := by
  -- steps of the body do not wait
  have hawake : ∀ {pc}, s.cleanup.pc = pc → pc.waits = false →
      s.cleanup.pc.waits = true → s.queue.asleep .cleanup = false := by
    rintro pc rfl hno hyes
    rw [hno] at hyes
    cases hyes
  unfold Walk at hwalk
  cases hmove with
  | seek hpc hget | found hpc hget =>
    rw [hpc] at hwalk
    rw [hpc]
    exact getMsgEntry_monitor (fun hg => hwalk.first (.inl hg))
      (fun p hg => hwalk.next p (.inl hg)) hget
  | lockFree hpc hq | lockNext hpc hq =>
    exact ⟨acquire_move hq, .awake (hawake hpc rfl) (asleep_acquire hq)⟩
  | unlockFree hpc | unlockNext hpc =>
    exact ⟨.give rfl (by rw [hpc]; rfl) rfl, .awake (hawake hpc rfl) rfl⟩
  | expired hpc | skip hpc | free hpc | readNext hpc | advance hpc =>
    exact ⟨.keep rfl (by rw [hpc]; rfl), .awake (hawake hpc rfl) rfl⟩

theorem cleanupStep_monitor (hwalk : Walk s.queue.entries.length s.cleanup) (h : Monitor s)
    (hs : s.cleanupStep args = some s') : Monitor s' := by
  have hmove := cleanupStep_move hs
  obtain ⟨hlock, hsleep⟩ := hmove.monitor hwalk
  obtain ⟨hframe, hsrc⟩ := cleanupStep_frame hs
  have hsame : ∀ t, t ≠ .cleanup →
      s'.locked t = s.locked t ∧ s'.waits t = s.waits t ∧ s'.prevOf t = s.prevOf t := by
    intro t ht
    cases t with
    | src => exact ⟨by rw [System.locked, System.locked, hsrc], rfl, rfl⟩
    | dispatcher => exact ⟨rfl, rfl, rfl⟩
    | cleanup => exact absurd rfl ht
    | worker i => simp only [System.locked, System.waits, System.prevOf, hframe.workers, and_self]
  exact ⟨h.excludes.step (t := .cleanup) hlock fun t ht => (hsame t ht).1,
    SleepMove.sleeps (t := .cleanup) h.sleeps hsleep hmove.length_entries hsrc
      fun t ht => (hsame t ht).2⟩

theorem dispatcherStep_monitor {accepts : Bool} (hg : Good args.numWorkers s) (h : Monitor s)
    (hs : s.dispatcherStep args accepts = some s') : Monitor s' := by
  obtain ⟨hsrc, hcleanup, -⟩ := dispatcherStep_frame hs
  have hqueue := dispatcherStep_queue hg.pool hs
  -- the worker that the dispatcher works on stays where it is, or starts
  have hframe : (∀ i, (s'.workers i).pc = (s.workers i).pc ∧ (s'.workers i).prev = (s.workers i).prev ∨
      (s.workers i).pc = .idle ∧ (s'.workers i).pc = .get none .test) → Monitor s' := by
    intro hpc
    refine h.frame hqueue hsrc hcleanup (fun i => ?_) (fun i => ?_) fun i hw => ?_
    · rcases hpc i with ⟨heq, -⟩ | ⟨hidle, hget⟩
      · rw [heq]
      · rw [hidle, hget]
        rfl
    · rcases hpc i with ⟨heq, -⟩ | ⟨hidle, hget⟩
      · rw [heq]
      · rw [hidle, hget]
        rfl
    · rcases hpc i with ⟨-, heq⟩ | ⟨hidle, -⟩
      · exact heq
      · rw [hidle] at hw
        cases hw
  cases dispatcherStep_move hg.pool hs with
  | calm _ _ _ _ _ _ _ _ hloop => exact hframe fun i => .inl ⟨(hloop i).pc, (hloop i).prev⟩
  | accept | clock => exact hframe fun i => .inl ⟨rfl, rfl⟩
  | setFd hpc | setTime hpc =>
    rename_i fd k wake
    refine hframe fun i => .inl ?_
    by_cases hi : i = k
    · subst hi
      simp
    · simp [hi]
  | create hpc hidle =>
    rename_i fd k wake
    refine hframe fun i => ?_
    by_cases hi : i = k
    · subst hi
      exact .inr ⟨hidle, by simp⟩
    · exact .inl (by simp [hi])

theorem step_keeps_monitor (hg : Good args.numWorkers s)
    (hwalk : Walk s.queue.entries.length s.cleanup) (h : Monitor s) (hs : s.step args l = some s') :
    Monitor s' := by
  cases step_move hs with
  | src hstep => exact srcStep_monitor h hstep
  | dispatcher hstep => exact dispatcherStep_monitor hg h hstep
  | worker hstep => exact workerStep_monitor hg h hstep
  | cleanup hstep => exact cleanupStep_monitor hwalk h hstep
  | tick => exact h.frame rfl rfl rfl (fun _ => rfl) (fun _ => rfl) fun _ _ => rfl
  | @wakeMsg t =>
    refine ⟨h.excludes, fun u hu => h.sleeps u ?_⟩
    by_cases hut : u = t
    · subst hut
      simp [MsgQueue.wakeUp] at hu
    · simpa [MsgQueue.wakeUp, hut] using hu
  | @wakeArgs j =>
    have hsame : ∀ i, ((s.setWorker j { s.workers j with asleep := false }).workers i).pc =
        (s.workers i).pc ∧ ((s.setWorker j { s.workers j with asleep := false }).workers i).prev =
          (s.workers i).prev := by
      intro i
      by_cases hi : i = j
      · subst hi
        simp
      · simp [hi]
    exact h.frame rfl rfl rfl (fun i => by rw [(hsame i).1]) (fun i => by rw [(hsame i).1])
      fun i _ => (hsame i).2

/-- **The monitor of the queue** is in order in every run. -/
theorem reachable_monitor (h : (server args start).Reachable s) : Monitor s := by
  refine LTS.ReachVia.invariant_ofFn (I := Monitor) ⟨fun t => ?_, fun t ht => by cases ht⟩
    (fun _ _ _ hr hi _ hs => step_keeps_monitor (reachable_good hr.reachable)
      (reachable_walk hr.reachable) hi hs) h
  cases t <;> simp [System.init, System.locked, MsgQueue.empty, SrcPc.locked, CleanupPc.locked,
    GetPc.locked, Worker.init, WorkerPc.locked]

/-- While `msg_lock` is free no thread sleeps although its entry is there. -/
theorem Monitor.not_awaited (h : Monitor s) (hfree : s.queue.lock = none)
    (hasleep : s.queue.asleep t = true) : ¬Awaited s.queue.entries.length (s.prevOf t) := by
  intro hin
  have hsrc := (h.sleeps t hasleep).2 hin
  have hheld := (h.excludes .src).mpr (by rw [System.locked, hsrc]; rfl)
  rw [hfree] at hheld
  cases hheld

/-! ## `args.cond` -/

/-- A worker asleep on `args.cond` is in its wait, and once its status is busy the
dispatcher is about to signal. -/
def Roused (st : Stage) (w : Worker) : Prop :=
  w.asleep = true → w.pc.place = .asleep ∧
    (w.status = .busy → ∃ h, st = some (true, h) ∧ h.busy = true ∧ h ≠ .unlockArgs)

def Rouses (s : System) : Prop := ∀ i, Roused (s.stage i) (s.workers i)

/-- A step of a worker puts it to sleep only when its status is not busy. -/
theorem WorkerMove.roused {st : Stage} {i : Nat} {v v' : WorkerView} (hmove : WorkerMove i v v')
    (h : Roused st v.worker) : Roused st v'.worker := by
  -- a sleeping worker makes no step
  have hawake : ∀ {e lp}, v.worker.pc = .body e lp → lp.place ≠ .asleep →
      v.worker.asleep = true → False := by
    intro e lp hpc hne hasleep
    obtain ⟨hplace, -⟩ := h hasleep
    rw [hpc] at hplace
    exact hne hplace
  intro hasleep
  cases hmove with
  | sleep hpc hbusy => exact ⟨rfl, fun hyes => absurd hyes hbusy⟩
  | wake hpc hwoken =>
    rw [hwoken] at hasleep
    cases hasleep
  | seek hpc | found hpc =>
    have hplace := (h hasleep).1
    rw [hpc] at hplace
    cases hplace
  | quiet hpc hl hq hmask =>
    rename_i e lp lp' q mask
    refine (hawake hpc ?_ hasleep).elim
    cases lp <;> cases hl <;> decide
  | fault hpc _ hf =>
    refine (hawake hpc ?_ hasleep).elim
    cases hf <;> exact fun h => by cases h
  | dead hpc | refuse hpc | start hpc | write hpc | sent hpc | mark hpc | readNext hpc | test hpc
  | close hpc | lockArgs hpc | setReady hpc | clearBit hpc | busy hpc | reset hpc | unlockArgs hpc
  | advance hpc =>
    exact (hawake hpc (fun h => by cases h) hasleep).elim

theorem handStep_rouses {fd k : Nat} {wake : Bool} {a : HandPc} (hp : Pool args.numWorkers s)
    (h : Rouses s) (hpc : s.dispatcher.pc = .hand fd k wake a)
    (hs : s.handStep fd k wake a = some s') : Rouses s' := by
  have hok := hp.worker k
  have hk := h k
  rw [System.stage, hpc, stage_hand] at hok hk
  -- the other workers are not handed a connection
  have hothers : ∀ {s' : System} {w : Worker}, s'.workers = Function.update s.workers k w →
      (∀ i, i ≠ k → s'.stage i = none) → Roused (s'.stage k) w → Rouses s' := by
    intro s' w hworkers hstage hw i
    by_cases hi : i = k
    · subst hi
      rwa [hworkers, Function.update_self]
    · have hold := h i
      rw [System.stage, hpc, stage_hand_of_ne _ _ hi] at hold
      rwa [hworkers, Function.update_of_ne hi, hstage i hi]
  -- a step that leaves the status and the sleep alone
  have hnext : ∀ {b : HandPc} {w : Worker}, w.asleep = (s.workers k).asleep →
      w.pc = (s.workers k).pc → w.status = (s.workers k).status → (a.busy = true → a ≠ .unlockArgs →
        b.busy = true ∧ b ≠ .unlockArgs) → Roused (some (wake, b)) w := by
    intro b w hasleep hwpc hstatus hb hw
    rw [hasleep] at hw
    obtain ⟨hplace, hbusy⟩ := hk hw
    rw [hwpc, hstatus]
    refine ⟨hplace, fun hyes => ?_⟩
    obtain ⟨h, heq, hh, hne⟩ := hbusy hyes
    cases heq
    obtain ⟨hb, hne⟩ := hb hh hne
    exact ⟨b, rfl, hb, hne⟩
  have hself : s.workers = Function.update s.workers k (s.workers k) := by simp
  cases a with
  | assertReady =>
    simp only [System.handStep] at hs
    split at hs <;> cases hs
    · refine hothers hself (fun i hi => stage_hand_of_ne _ _ hi) ?_
      simp only [System.stage, System.dispatcher_dispatcherAt, stage_hand]
      exact hnext rfl rfl rfl fun h => by cases h
    · exact h
  | lockArgs =>
    simp only [System.handStep] at hs
    split at hs <;> cases hs
    refine hothers rfl (fun i hi => stage_hand_of_ne _ _ hi) ?_
    simp only [System.stage, System.dispatcher_dispatcherAt, stage_hand]
    exact hnext rfl rfl rfl fun h => by cases h
  | initArgs | signal =>
    cases hs
    exact hothers rfl (fun i hi => stage_hand_of_ne _ _ hi) fun hasleep => by cases hasleep
  | setFd =>
    cases hs
    refine hothers rfl (fun i hi => stage_hand_of_ne _ _ hi) ?_
    simp only [System.stage, System.dispatcher_dispatcherAt, stage_hand]
    exact hnext rfl rfl rfl fun h => by cases h
  | setBusy =>
    cases hs
    refine hothers rfl (fun i hi => stage_hand_of_ne _ _ hi) fun hasleep => ?_
    obtain ⟨hplace, -⟩ := hk hasleep
    refine ⟨hplace, fun _ => ⟨.lockMask, ?_, rfl, by simp⟩⟩
    simp only [System.stage, System.dispatcher_dispatcherAt, stage_hand]
    cases wake with
    | true => rfl
    | false =>
      rw [(workerOk_init.mp hok).1] at hplace
      cases hplace
  | lockMask =>
    obtain ⟨mask, -, rfl⟩ := Option.map_eq_some_iff.mp hs
    refine hothers hself (fun i hi => stage_hand_of_ne _ _ hi) ?_
    simp only [System.stage, System.dispatcher_dispatcherAt, stage_hand]
    exact hnext rfl rfl rfl fun _ _ => ⟨rfl, by simp⟩
  | setBit | unlockMask =>
    cases hs
    refine hothers hself (fun i hi => stage_hand_of_ne _ _ hi) ?_
    simp only [System.stage, System.dispatcher_dispatcherAt, stage_hand]
    exact hnext rfl rfl rfl fun _ _ => ⟨rfl, by simp⟩
  | setTime =>
    cases hs
    refine hothers rfl (fun i hi => stage_hand_of_ne _ _ hi) ?_
    simp only [System.stage, System.dispatcher_dispatcherAt, stage_hand]
    exact hnext rfl rfl rfl fun _ _ => by cases wake <;> exact ⟨rfl, by simp⟩
  | create =>
    cases hs
    refine hothers rfl (fun i hi => rfl) fun hasleep => ?_
    obtain ⟨hplace, -⟩ := hk hasleep
    cases wake with
    | true => rcases workerOk_wake.mp hok with ⟨-, hno, -⟩ | ⟨-, hno, -⟩ <;> cases hno
    | false =>
      rw [(workerOk_init.mp hok).1] at hplace
      cases hplace
  | unlockArgs =>
    cases hs
    refine hothers rfl (fun i hi => rfl) fun hasleep => ?_
    obtain ⟨hplace, hbusy⟩ := hk hasleep
    refine ⟨hplace, fun hyes => ?_⟩
    obtain ⟨h, heq, -, hne⟩ := hbusy hyes
    cases heq
    exact absurd rfl hne

theorem dispatcherStep_rouses {accepts : Bool} (hp : Pool args.numWorkers s) (h : Rouses s)
    (hs : s.dispatcherStep args accepts = some s') : Rouses s' := by
  -- between hand-overs no sleeping worker is busy
  have hidle : (∀ i, s.stage i = none) → s'.workers = s.workers → Rouses s' := by
    intro hnone hworkers i hasleep
    rw [hworkers] at hasleep ⊢
    obtain ⟨hplace, hbusy⟩ := h i hasleep
    refine ⟨hplace, fun hyes => ?_⟩
    obtain ⟨_, heq, -⟩ := hbusy hyes
    rw [hnone i] at heq
    cases heq
  have hstage : ∀ {pc}, s.dispatcher.pc = pc → pc.stage = (fun _ => none) →
      ∀ i, s.stage i = none := by
    intro pc hpc hnone i
    rw [System.stage, hpc, hnone]
  unfold System.dispatcherStep at hs
  split at hs
  · rename_i hpc
    split at hs <;> cases hs
    · exact hidle (hstage hpc rfl) rfl
    · exact h
  · rename_i hpc
    cases hs
    exact hidle (hstage hpc rfl) rfl
  · rename_i hpc
    split at hs
    · obtain ⟨mask, -, rfl⟩ := Option.map_eq_some_iff.mp hs
      exact hidle (hstage hpc rfl) rfl
    · cases hs
      exact hidle (hstage hpc rfl) rfl
  · rename_i hpc
    cases hs
    exact hidle (hstage hpc rfl) rfl
  · rename_i hpc
    cases hs
    exact hidle (hstage hpc rfl) rfl
  · rename_i hpc
    cases hs
    exact hidle (hstage hpc rfl) rfl
  · rename_i hpc
    split at hs <;> cases hs
    all_goals exact hidle (hstage hpc rfl) rfl
  · rename_i hpc
    exact handStep_rouses hp h hpc hs

theorem step_keeps_rouses (hp : Pool args.numWorkers s) (h : Rouses s) (hs : s.step args l = some s') :
    Rouses s' := by
  have hframe : s'.workers = s.workers → s'.dispatcher = s.dispatcher → Rouses s' := by
    intro hworkers hdisp i
    rw [hworkers, System.stage, hdisp]
    exact h i
  cases step_move hs with
  | src hstep => exact hframe (srcStep_frame hstep).workers (srcStep_frame hstep).dispatcher
  | dispatcher hstep => exact dispatcherStep_rouses hp h hstep
  | @worker j o _ hstep =>
    obtain ⟨fd, v', -, hv, rfl⟩ := workerStep_eq hstep
    intro i
    by_cases hi : i = j
    · subst hi
      simpa [System.setView, System.stage] using (WorkerView.step_move hv).roused (h i)
    · simpa [System.setView, System.stage, hi] using h i
  | cleanup hstep =>
    exact hframe (cleanupStep_frame hstep).1.workers (cleanupStep_frame hstep).1.dispatcher
  | tick | wakeMsg => exact hframe rfl rfl
  | @wakeArgs j =>
    intro i
    by_cases hi : i = j
    · subst hi
      intro hasleep
      simp at hasleep
    · simpa [System.stage, hi] using h i

theorem reachable_rouses (h : (server args start).Reachable s) : Rouses s := by
  refine LTS.ReachVia.invariant_ofFn (I := Rouses) ?_
    (fun _ _ _ hr hi _ hs => step_keeps_rouses (reachable_pool hr.reachable) hi hs) h
  intro i hasleep
  cases hasleep

/-- A worker asleep on `args.cond` whose status is busy: the dispatcher holds `args.lock`. -/
theorem Rouses.locked {i : Nat} (h : Rouses s) (hp : Pool args.numWorkers s)
    (hasleep : (s.workers i).asleep = true) (hbusy : (s.workers i).status = .busy) :
    (s.workers i).lock = some .dispatcher := by
  obtain ⟨hplace, hstage⟩ := h i hasleep
  obtain ⟨a, hst, hab, -⟩ := hstage hbusy
  have hok := hp.worker i
  rw [hst] at hok
  have hearly : a.early = false := by cases a <;> first | rfl | cases hab
  exact (workerOk_late hok hearly).2.1 rfl

/-- **No wake-up is lost**: with `msg_lock` free no thread is asleep on `msg_cond` while
the entry it waits for is in the queue, and with `args.lock` free no worker is asleep on
`args.cond` while its status is busy. -/
theorem no_lost_wakeup (h : (server args start).Reachable s) :
    (∀ t, ¬(s.queue.asleep t = true ∧ s.queue.lock = none ∧
        Awaited s.queue.entries.length (s.prevOf t))) ∧
      ∀ i, ¬((s.workers i).asleep = true ∧ (s.workers i).lock = none ∧
        (s.workers i).status = .busy) := by
  constructor
  · rintro t ⟨hasleep, hfree, hin⟩
    exact (reachable_monitor h).not_awaited hfree hasleep hin
  · rintro i ⟨hasleep, hfree, hbusy⟩
    have hheld := (reachable_rouses h).locked (reachable_pool h) hasleep hbusy
    rw [hfree] at hheld
    cases hheld

end

/-- Worker 0 gives up its receiver, the cleanup worker waits for a second message, the
source has inserted it, and the dispatcher hands another receiver to worker 0. -/
def sleepLabels : List Label :=
  connectLabels ++ .tick ⟨1, 0⟩ :: enqueueLabels sampleMsg ++ workerLabels 0 6 .eintr ++
    workerLabels 0 13 (.error .epipe) ++ List.replicate 12 .cleanup ++
    .src (some sampleMsg) :: List.replicate 3 (.src none) ++ List.replicate 10 (.dispatcher true)

/-- Both wake-ups are on their way. -/
theorem no_lost_wakeup_pending :
    ∃ s : System, s.queue.asleep .cleanup = true ∧ Awaited s.queue.entries.length (s.prevOf .cleanup) ∧
      s.queue.lock ≠ none ∧ (s.workers 0).asleep = true ∧ (s.workers 0).status = .busy ∧
      (s.workers 0).lock ≠ none := by
  obtain ⟨s, hs, hp⟩ := LTS.exists_reachable (System.step .default) (.init ⟨0, 0⟩) sleepLabels
    (fun s => s.queue.asleep .cleanup = true ∧ s.cleanup.prev = some 0 ∧
      s.queue.entries.length = 2 ∧ (s.workers 0).asleep = true ∧ (s.workers 0).status = .busy)
    (by decide)
  obtain ⟨hasleep, hprev, hlen, hasleep₀, hbusy⟩ := of_decide_eq_true hp
  have hin : Awaited s.queue.entries.length (s.prevOf .cleanup) := by
    rw [hlen, System.prevOf, hprev]
    exact Nat.lt_succ_self 1
  obtain ⟨hqueue, hargs⟩ := no_lost_wakeup hs
  exact ⟨s, hasleep, hin, fun hfree => hqueue .cleanup ⟨hasleep, hfree, hin⟩, hasleep₀, hbusy,
    fun hfree => hargs 0 ⟨hasleep₀, hfree, hbusy⟩⟩

end WireStorm
