import WireStorm.Args
import WireStorm.Lib.Transition
import WireStorm.Worker

/-!
# The server

The threads of `ws_server.c` over their shared state (`System`): the enqueueing
part of `run_src_server`, `run_dst_server` with `find_idle_thread`,
`init_thread_info` and `wake_up_thread` of `lib/thread.c`, the workers, and
`run_cleanup_worker`. `System.step` is one step of one thread, chosen by a
`Label`, and `server` the transition system of all runs. What a step can do is listed
once (`StepMove`, `SrcMove`, `CleanupMove`), for every later case analysis.
-/

namespace WireStorm

/-! ## State -/

/-- Where the loop of `run_src_server` is. -/
inductive SrcPc
  | parse
  | stamp (msg : CtmpMsg)
  | lock (entry : MsgEntry)
  | insert (entry : MsgEntry)
  | broadcast
  | unlock

/-- Where `init_thread_info` and `pthread_create`, or `wake_up_thread`, are. -/
inductive HandPc
  | assertReady
  | lockArgs
  | initArgs
  | setFd
  | setBusy
  | lockMask
  | setBit
  | unlockMask
  | setTime
  | create
  | signal
  | unlockArgs
  deriving DecidableEq, Repr

/-- Where the loop of `run_dst_server` is, with its `new_fd`. -/
inductive DispatcherPc
  | accept
  | clock (fd : Nat)
  | lockProbe (fd i : Nat)
  | readProbe (fd i : Nat)
  | unlockProbe (fd i : Nat) (isIdle : Bool)
  | backoff (fd : Nat)
  | switch (fd threadIndex : Nat)
  | hand (fd threadIndex : Nat) (wake : Bool) (h : HandPc)
  deriving DecidableEq, Repr

/-- The dispatcher with its `client_ts`. -/
structure Dispatcher where
  pc : DispatcherPc
  clientTs : Timespec

/-- Where `run_cleanup_worker` is. -/
inductive CleanupPc
  | get (current : Option Nat) (g : GetPc)
  | check (current : Nat)
  | lockFree (current : Nat)
  | free (current : Nat)
  | unlockFree (current : Nat)
  | lockNext (current : Nat)
  | readNext (current : Nat)
  | unlockNext (current : Nat)
  | advance (current : Nat)
  deriving DecidableEq, Repr

/-- The cleanup worker with its local pointers. -/
structure Cleanup where
  pc : CleanupPc
  prev : Option Nat
  next : Option Nat

/-- The state of the server. Accepted connections are numbered in the order of
their acceptance, and a descriptor is the number of its connection. -/
structure System where
  queue : MsgQueue
  now : Timespec
  mask : StatusMask
  workers : Nat → Worker
  clients : Nat → Client
  accepted : Nat
  src : SrcPc
  dispatcher : Dispatcher
  cleanup : Cleanup
  fault : Option Fault

/-- A worker before its thread is created (`init_workers`). -/
def Worker.init (now : Timespec) : Worker where
  status := .available
  clientFd := none
  timestamp := now
  lock := none
  asleep := false
  pc := .idle
  prev := none
  next := none
  bytesSent := 0

/-- The server when its threads start, at clock reading `now`. -/
def System.init (now : Timespec) : System where
  queue := .empty
  now := now
  mask := ⟨0, none⟩
  workers _ := .init now
  clients _ := .accept now
  accepted := 0
  src := .parse
  dispatcher := ⟨.accept, now⟩
  cleanup := ⟨.get none .test, none, none⟩
  fault := none

/-- One step of one thread with what its calls return: the message that the
source parses, whether `accept` succeeds, how `is_alive` and `send` turn out. The
clock may advance, and a condition wait may end without a signal. -/
inductive Label
  | src (msg : Option CtmpMsg)
  | dispatcher (accepts : Bool)
  | worker (i : Nat) (o : Outcome)
  | cleanup
  | tick (now : Timespec)
  | wakeMsg (t : Tid)
  | wakeArgs (i : Nat)
  deriving DecidableEq, Repr

namespace System

def setWorker (s : System) (i : Nat) (w : Worker) : System :=
  { s with workers := Function.update s.workers i w }

def setClient (s : System) (fd : Nat) (c : Client) : System :=
  { s with clients := Function.update s.clients fd c }

def dispatcherAt (s : System) (pc : DispatcherPc) : System :=
  { s with dispatcher := { s.dispatcher with pc := pc } }

section
variable (s : System) (i : Nat) (w : Worker) (c : Client) (pc : DispatcherPc)

@[simp] theorem workers_setWorker : (s.setWorker i w).workers = Function.update s.workers i w := rfl
@[simp] theorem clients_setWorker : (s.setWorker i w).clients = s.clients := rfl
@[simp] theorem accepted_setWorker : (s.setWorker i w).accepted = s.accepted := rfl
@[simp] theorem dispatcher_setWorker : (s.setWorker i w).dispatcher = s.dispatcher := rfl
@[simp] theorem queue_setWorker : (s.setWorker i w).queue = s.queue := rfl
@[simp] theorem setWorker_self : s.setWorker i (s.workers i) = s := by simp [setWorker]
@[simp] theorem workers_setClient : (s.setClient i c).workers = s.workers := rfl
@[simp] theorem clients_setClient : (s.setClient i c).clients = Function.update s.clients i c := rfl
@[simp] theorem accepted_setClient : (s.setClient i c).accepted = s.accepted := rfl
@[simp] theorem dispatcher_setClient : (s.setClient i c).dispatcher = s.dispatcher := rfl
@[simp] theorem queue_setClient : (s.setClient i c).queue = s.queue := rfl
@[simp] theorem workers_dispatcherAt : (s.dispatcherAt pc).workers = s.workers := rfl
@[simp] theorem clients_dispatcherAt : (s.dispatcherAt pc).clients = s.clients := rfl
@[simp] theorem accepted_dispatcherAt : (s.dispatcherAt pc).accepted = s.accepted := rfl
@[simp] theorem queue_dispatcherAt : (s.dispatcherAt pc).queue = s.queue := rfl
@[simp] theorem dispatcher_dispatcherAt :
    (s.dispatcherAt pc).dispatcher = ⟨pc, s.dispatcher.clientTs⟩ := rfl

end

/-! ## The source -/

/-- A step of the source: it enqueues the messages that the parser returns. -/
def srcStep (s : System) (msg : Option CtmpMsg) : Option System :=
  match s.src with
  | .parse =>
    match msg with
    | none => some s
    | some m => some { s with src := .stamp m }
  | .stamp m => some { s with src := .lock (initMsgEntry s.now m) }
  | .lock entry => (s.queue.acquire .src).map fun q => { s with queue := q, src := .insert entry }
  | .insert entry => some { s with queue := s.queue.insertTail entry, src := .broadcast }
  | .broadcast => some { s with queue := s.queue.broadcast, src := .unlock }
  | .unlock => some { s with queue := s.queue.release, src := .parse }

/-! ## The dispatcher -/

/-- A step of `init_thread_info` and `pthread_create` (`wake = false`), or of
`wake_up_thread` (`wake = true`), for connection `fd` and worker `k`. -/
def handStep (s : System) (fd k : Nat) (wake : Bool) (h : HandPc) : Option System :=
  let w := s.workers k
  let goto (s : System) (h : HandPc) : System := s.dispatcherAt (.hand fd k wake h)
  match h with
  | .assertReady =>
    if w.status = .ready then
      some (goto s .lockArgs)
    else
      some { s with fault := some .assertion }
  | .lockArgs =>
    if w.lock = none then
      some (goto (s.setWorker k { w with lock := some .dispatcher }) .setFd)
    else
      none
  | .initArgs => some (goto (s.setWorker k { w with lock := none, asleep := false }) .setFd)
  | .setFd =>
    let c := s.clients fd
    some (goto ((s.setWorker k { w with clientFd := some fd }).setClient fd
      { c with handedTo := c.handedTo ++ [k] }) .setBusy)
  | .setBusy => some (goto (s.setWorker k { w with status := .busy }) .lockMask)
  | .lockMask =>
    (s.mask.acquire .dispatcher).map fun mask => goto { s with mask := mask } .setBit
  | .setBit =>
    some (goto { s with mask := { s.mask with data := setBit s.mask.data k true } } .unlockMask)
  | .unlockMask => some (goto { s with mask := s.mask.release } .setTime)
  | .setTime =>
    let c := s.clients fd
    some (goto ((s.setWorker k { w with timestamp := s.dispatcher.clientTs }).setClient fd
      { c with assigned := true }) (if wake then .signal else .create))
  | .create =>
    -- the new thread starts with its local variables initialised
    some ((s.setWorker k { w with
      pc := .get none .test, prev := none, next := none, bytesSent := 0 }).dispatcherAt .accept)
  | .signal => some (goto (s.setWorker k { w with asleep := false }) .unlockArgs)
  | .unlockArgs => some ((s.setWorker k { w with lock := none }).dispatcherAt .accept)

/-- A step of the dispatcher. -/
def dispatcherStep (args : Args) (s : System) (accepts : Bool) : Option System :=
  match s.dispatcher.pc with
  | .accept =>
    if accepts then
      some ({ s with accepted := s.accepted + 1 }.dispatcherAt (.clock s.accepted))
    else
      -- error accepting connection: retry
      some s
  | .clock fd =>
    -- set timestamp to be time of accepting the connection
    some { s.setClient fd (.accept s.now) with dispatcher := ⟨.lockProbe fd 0, s.now⟩ }
  | .lockProbe fd i =>
    if i < args.numWorkers then
      (s.mask.acquire .dispatcher).map fun mask =>
        { s with mask := mask }.dispatcherAt (.readProbe fd i)
    else
      -- all threads are busy
      some (s.dispatcherAt (.backoff fd))
  | .readProbe fd i => some (s.dispatcherAt (.unlockProbe fd i !(isSet s.mask.data i)))
  | .unlockProbe fd i isIdle =>
    some ({ s with mask := s.mask.release }.dispatcherAt
      (if isIdle then .switch fd i else .lockProbe fd (i + 1)))
  | .backoff fd => some (s.dispatcherAt (.lockProbe fd 0))
  | .switch fd k =>
    match (s.workers k).status with
    | .available => some (s.dispatcherAt (.hand fd k false .initArgs))
    | .ready => some (s.dispatcherAt (.hand fd k true .assertReady))
    -- `default`: the descriptor is dropped
    | .busy => some (s.dispatcherAt .accept)
  | .hand fd k wake h => s.handStep fd k wake h

/-! ## The cleanup worker -/

end System

/-- The time to live of the entry has passed. -/
def MsgEntry.Expired (entry : MsgEntry) (args : Args) (now : Timespec) : Prop :=
  compareTimes (entry.timestamp.addSec args.ttl) now = true

instance (entry : MsgEntry) (args : Args) (now : Timespec) : Decidable (entry.Expired args now) :=
  inferInstanceAs (Decidable (_ = true))

namespace System

/-- A step of the cleanup worker. -/
def cleanupStep (args : Args) (s : System) : Option System :=
  let goto (s : System) (pc : CleanupPc) : System := { s with cleanup := { s.cleanup with pc := pc } }
  match s.cleanup.pc with
  | .get current g =>
    match getMsgEntry .cleanup current s.cleanup.prev true g s.queue with
    | none => none
    | some (q, .more g') => some (goto { s with queue := q } (.get current g'))
    | some (q, .ret e) => some (goto { s with queue := q } (.check e))
  | .check e =>
    match s.queue.entries[e]? with
    | none => none
    | some entry =>
      -- free the entry if its TTL has passed
      if entry.msg.isSome ∧ compareTimes (entry.timestamp.addSec args.ttl) s.now = true then
        some (goto s (.lockFree e))
      else
        some (goto s (.lockNext e))
  | .lockFree e => (s.queue.acquire .cleanup).map fun q => goto { s with queue := q } (.free e)
  | .free e =>
    match s.queue.entries[e]? with
    | none => none
    | some entry => some (goto { s with queue := s.queue.setEntry e entry.freeMsgData } (.unlockFree e))
  | .unlockFree e => some (goto { s with queue := s.queue.release } (.lockNext e))
  | .lockNext e => (s.queue.acquire .cleanup).map fun q => goto { s with queue := q } (.readNext e)
  | .readNext e => some { s with cleanup := ⟨.unlockNext e, s.cleanup.prev, s.queue.next e⟩ }
  | .unlockNext e => some (goto { s with queue := s.queue.release } (.advance e))
  | .advance e => some { s with cleanup := ⟨.get s.cleanup.next .test, some e, s.cleanup.next⟩ }

/-! ## All threads -/

/-- What worker `i` works on, with `client_fd` `fd`. -/
def view (s : System) (i fd : Nat) : WorkerView :=
  ⟨s.queue, s.mask, s.workers i, s.clients fd, s.fault⟩

/-- Put back what worker `i` worked on. -/
def setView (s : System) (i fd : Nat) (v : WorkerView) : System :=
  { s with
    queue := v.queue
    mask := v.mask
    workers := Function.update s.workers i v.worker
    clients := Function.update s.clients fd v.client
    fault := v.fault }

/-- A step of worker `i`. -/
def workerStep (s : System) (i : Nat) (o : Outcome) : Option System :=
  match (s.workers i).clientFd with
  | none => none
  | some fd => ((s.view i fd).step i o).map (s.setView i fd)

/-- One step of the server. No step follows a fault. -/
def step (args : Args) (s : System) (l : Label) : Option System :=
  if s.fault.isSome then
    none
  else
    match l with
    | .src msg => s.srcStep msg
    | .dispatcher accepts => s.dispatcherStep args accepts
    | .worker i o => s.workerStep i o
    | .cleanup => s.cleanupStep args
    | .tick now => if s.now ≤ now then some { s with now := now } else none
    | .wakeMsg t => some { s with queue := s.queue.wakeUp t }
    | .wakeArgs i => some (s.setWorker i { s.workers i with asleep := false })

end System

/-- The runs of the server, started at clock reading `start`. -/
def server (args : Args) (start : Timespec) : LTS System Label :=
  .ofFn (.init start) (System.step args)

/-! ## What a step can do -/

theorem fault_of_step {args : Args} {s s' : System} {l : Label} (hs : s.step args l = some s') :
    s.fault = none := by
  unfold System.step at hs
  split at hs
  · cases hs
  · rename_i hfault
    simpa using hfault

/-- A step of one thread, an advance of the clock, or a wake-up without a signal. -/
inductive StepMove (args : Args) (s : System) : Label → System → Prop
  | src {msg : Option CtmpMsg} {s' : System} (hstep : s.srcStep msg = some s') :
      StepMove args s (.src msg) s'
  | dispatcher {accepts : Bool} {s' : System} (hstep : s.dispatcherStep args accepts = some s') :
      StepMove args s (.dispatcher accepts) s'
  | worker {i : Nat} {o : Outcome} {s' : System} (hstep : s.workerStep i o = some s') :
      StepMove args s (.worker i o) s'
  | cleanup {s' : System} (hstep : s.cleanupStep args = some s') : StepMove args s .cleanup s'
  | tick {now : Timespec} (hle : s.now ≤ now) : StepMove args s (.tick now) { s with now := now }
  | wakeMsg {t : Tid} : StepMove args s (.wakeMsg t) { s with queue := s.queue.wakeUp t }
  | wakeArgs {i : Nat} :
      StepMove args s (.wakeArgs i) (s.setWorker i { s.workers i with asleep := false })

/-- **A step of the server** is one of the moves. -/
theorem step_move {args : Args} {s s' : System} {l : Label} (hs : s.step args l = some s') :
    StepMove args s l s' := by
  unfold System.step at hs
  split at hs
  · cases hs
  · cases l with
    | src msg => exact .src hs
    | dispatcher accepts => exact .dispatcher hs
    | worker i o => exact .worker hs
    | cleanup => exact .cleanup hs
    | tick now =>
      simp only at hs
      split at hs
      · cases hs
        exact .tick (by assumption)
      · cases hs
    | wakeMsg t =>
      cases hs
      exact .wakeMsg
    | wakeArgs i =>
      cases hs
      exact .wakeArgs

theorem workerStep_of_step {args : Args} {s s' : System} {i : Nat} {o : Outcome}
    (hs : s.step args (.worker i o) = some s') : s.workerStep i o = some s' := by
  cases step_move hs with
  | worker hstep => exact hstep

/-! ## What the source can do -/

/-- What a step of the source can do. -/
inductive SrcMove (s : System) : System → Prop
  | nothing (hpc : s.src = .parse) : SrcMove s s
  | parsed {msg : CtmpMsg} (hpc : s.src = .parse) : SrcMove s { s with src := .stamp msg }
  | stamp {msg : CtmpMsg} (hpc : s.src = .stamp msg) :
      SrcMove s { s with src := .lock (initMsgEntry s.now msg) }
  | lock {entry : MsgEntry} {q : MsgQueue} (hpc : s.src = .lock entry)
      (hq : s.queue.acquire .src = some q) :
      SrcMove s { s with queue := q, src := .insert entry }
  | insert {entry : MsgEntry} (hpc : s.src = .insert entry) :
      SrcMove s { s with queue := s.queue.insertTail entry, src := .broadcast }
  | broadcast (hpc : s.src = .broadcast) :
      SrcMove s { s with queue := s.queue.broadcast, src := .unlock }
  | unlock (hpc : s.src = .unlock) : SrcMove s { s with queue := s.queue.release, src := .parse }

/-- **A step of the source** is one of the moves. -/
theorem srcStep_move {s s' : System} {msg : Option CtmpMsg} (hs : s.srcStep msg = some s') :
    SrcMove s s' := by
  unfold System.srcStep at hs
  split at hs
  · rename_i hpc
    split at hs <;> cases hs
    · exact .nothing hpc
    · exact .parsed hpc
  · rename_i hpc
    cases hs
    exact .stamp hpc
  · rename_i hpc
    obtain ⟨q, hq, rfl⟩ := Option.map_eq_some_iff.mp hs
    exact .lock hpc hq
  · rename_i hpc
    cases hs
    exact .insert hpc
  · rename_i hpc
    cases hs
    exact .broadcast hpc
  · rename_i hpc
    cases hs
    exact .unlock hpc

/-! ## What the cleanup worker can do -/

/-- Go on at `pc`. -/
def System.cleanupAt (s : System) (pc : CleanupPc) : System :=
  { s with cleanup := { s.cleanup with pc := pc } }

/-- What a step of the cleanup worker can do. -/
inductive CleanupMove (args : Args) (s : System) : System → Prop
  | seek {current : Option Nat} {g g' : GetPc} {q : MsgQueue} (hpc : s.cleanup.pc = .get current g)
      (hget : getMsgEntry .cleanup current s.cleanup.prev true g s.queue = some (q, .more g')) :
      CleanupMove args s ({ s with queue := q }.cleanupAt (.get current g'))
  | found {current : Option Nat} {g : GetPc} {q : MsgQueue} {e : Nat}
      (hpc : s.cleanup.pc = .get current g)
      (hget : getMsgEntry .cleanup current s.cleanup.prev true g s.queue = some (q, .ret e)) :
      CleanupMove args s ({ s with queue := q }.cleanupAt (.check e))
  | expired {e : Nat} {entry : MsgEntry} (hpc : s.cleanup.pc = .check e)
      (hentry : s.queue.entries[e]? = some entry) (hheld : ¬entry.Freed)
      (hexpired : entry.Expired args s.now) : CleanupMove args s (s.cleanupAt (.lockFree e))
  | skip {e : Nat} {entry : MsgEntry} (hpc : s.cleanup.pc = .check e)
      (hentry : s.queue.entries[e]? = some entry)
      (hskip : entry.Freed ∨ ¬entry.Expired args s.now) :
      CleanupMove args s (s.cleanupAt (.lockNext e))
  | lockFree {e : Nat} {q : MsgQueue} (hpc : s.cleanup.pc = .lockFree e)
      (hq : s.queue.acquire .cleanup = some q) :
      CleanupMove args s ({ s with queue := q }.cleanupAt (.free e))
  | free {e : Nat} {entry : MsgEntry} (hpc : s.cleanup.pc = .free e)
      (hentry : s.queue.entries[e]? = some entry) :
      CleanupMove args s
        ({ s with queue := s.queue.setEntry e entry.freeMsgData }.cleanupAt (.unlockFree e))
  | unlockFree {e : Nat} (hpc : s.cleanup.pc = .unlockFree e) :
      CleanupMove args s ({ s with queue := s.queue.release }.cleanupAt (.lockNext e))
  | lockNext {e : Nat} {q : MsgQueue} (hpc : s.cleanup.pc = .lockNext e)
      (hq : s.queue.acquire .cleanup = some q) :
      CleanupMove args s ({ s with queue := q }.cleanupAt (.readNext e))
  | readNext {e : Nat} (hpc : s.cleanup.pc = .readNext e) :
      CleanupMove args s { s with cleanup := ⟨.unlockNext e, s.cleanup.prev, s.queue.next e⟩ }
  | unlockNext {e : Nat} (hpc : s.cleanup.pc = .unlockNext e) :
      CleanupMove args s ({ s with queue := s.queue.release }.cleanupAt (.advance e))
  | advance {e : Nat} (hpc : s.cleanup.pc = .advance e) :
      CleanupMove args s
        { s with cleanup := ⟨.get s.cleanup.next .test, some e, s.cleanup.next⟩ }

/-- **A step of the cleanup worker** is one of the moves. -/
theorem cleanupStep_move {args : Args} {s s' : System} (hs : s.cleanupStep args = some s') :
    CleanupMove args s s' := by
  unfold System.cleanupStep at hs
  split at hs
  · rename_i current g hpc
    split at hs
    · cases hs
    · rename_i hget
      cases hs
      exact .seek hpc hget
    · rename_i hget
      cases hs
      exact .found hpc hget
  · rename_i e hpc
    split at hs
    · cases hs
    · rename_i entry hentry
      split at hs
      · rename_i hcond
        cases hs
        exact .expired hpc hentry (MsgEntry.not_freed_iff.mpr hcond.1) hcond.2
      · rename_i hcond
        cases hs
        refine .skip hpc hentry ?_
        rw [← MsgEntry.not_freed_iff, not_and_or, not_not] at hcond
        exact hcond
  · rename_i e hpc
    obtain ⟨q, hq, rfl⟩ := Option.map_eq_some_iff.mp hs
    exact .lockFree hpc hq
  · rename_i e hpc
    split at hs
    · cases hs
    · rename_i entry hentry
      cases hs
      exact .free hpc hentry
  · rename_i e hpc
    cases hs
    exact .unlockFree hpc
  · rename_i e hpc
    obtain ⟨q, hq, rfl⟩ := Option.map_eq_some_iff.mp hs
    exact .lockNext hpc hq
  · rename_i e hpc
    cases hs
    exact .readNext hpc
  · rename_i e hpc
    cases hs
    exact .unlockNext hpc
  · rename_i e hpc
    cases hs
    exact .advance hpc

end WireStorm
