import WireStorm.Ctmp.Send
import WireStorm.Queue

/-!
# Destination workers

The loop of `run_dst_worker`, one step for each access to what it shares with
other threads (`WorkerView.step`): the calls of `send(2)` one by one, each mutex
operation, and the two halves of each condition wait. `Worker.pos` is the
position of the queue that the worker will process next.
-/

namespace WireStorm

/-! ## What a worker works on -/

/-- `THREAD_AVAILABLE`, `THREAD_BUSY`, `THREAD_READY`. -/
inductive Status
  | available
  | busy
  | ready
  deriving DecidableEq, Repr

/-- `struct status_mask`: 0 = idle, 1 = busy. -/
structure StatusMask where
  data : BitVec 64
  lock : Option Tid

/-- `pthread_mutex_lock(&threads_status.lock)`, once the mutex is free. -/
def StatusMask.acquire (mask : StatusMask) (t : Tid) : Option StatusMask :=
  if mask.lock = none then some { mask with lock := some t } else none

def StatusMask.release (mask : StatusMask) : StatusMask := { mask with lock := none }

/-- Undefined behaviour and failed assertions: the run ends there. -/
inductive Fault
  /-- The mask of an entry is read or written after it was freed. -/
  | freedSent
  /-- A message is sent after it was freed. -/
  | freedMsg
  /-- `assert(thread->status == THREAD_READY)` failed. -/
  | assertion
  deriving DecidableEq, Repr

/-- An accepted receiver connection and what happened to it: the workers whose
`client_fd` was set to it, whether its hand-over was completed, the bytes written
to it, the positions of the entries sent to it in full, the entry being sent with
the number of bytes written of it, the results of `send_ctmp_msg` on it, whether
`is_alive` found it dead, and whether it was closed. -/
structure Client where
  acceptTs : Timespec
  handedTo : List Nat
  assigned : Bool
  out : List UInt8
  delivered : List Nat
  unfinished : Option (Nat × Nat)
  sends : List Int
  deadSeen : Bool
  closed : Bool
  deriving DecidableEq, Repr

/-- A connection accepted at `acceptTs`. -/
def Client.accept (acceptTs : Timespec) : Client where
  acceptTs := acceptTs
  handedTo := []
  assigned := false
  out := []
  delivered := []
  unfinished := none
  sends := []
  deadSeen := false
  closed := false

/-- A `send_ctmp_msg` to the connection returned a negative value. -/
def Client.SendFailed (c : Client) : Prop := ∃ res ∈ c.sends, res < 0

instance (c : Client) : Decidable c.SendFailed :=
  inferInstanceAs (Decidable (∃ res ∈ c.sends, res < 0))

/-- Where a worker is in the body of its loop. -/
inductive LoopPc
  | alive
  | forward
  | send (p : SendPc)
  | mark
  | lockNext
  | readNext
  | unlockNext
  | test
  | close
  | lockArgs
  | setReady
  | lockMask
  | clearBit
  | unlockMask
  | waitBusy
  | asleep
  | reset
  | unlockArgs
  | advance
  deriving DecidableEq, Repr

/-- Where a worker is: not created yet, in `get_msg_entry`, or in the body of the
loop with its `current` entry. -/
inductive WorkerPc
  | idle
  | get (current : Option Nat) (g : GetPc)
  | body (current : Nat) (l : LoopPc)
  deriving DecidableEq, Repr

/-- `struct worker` with its `struct worker_args` (`lock` holds the owner of
`args.lock`, `asleep` says that the worker waits on `args.cond` without a
wake-up) and the local variables of `run_dst_worker`. -/
structure Worker where
  status : Status
  clientFd : Option Nat
  timestamp : Timespec
  lock : Option Tid
  asleep : Bool
  pc : WorkerPc
  prev : Option Nat
  next : Option Nat
  bytesSent : Int

/-- The part of the server that a worker works on: the queue, the status mask,
its own record, and the connection behind its `client_fd`. -/
structure WorkerView where
  queue : MsgQueue
  mask : StatusMask
  worker : Worker
  client : Client
  fault : Option Fault

/-- How `is_alive` and `send` turn out, where a step calls them. -/
structure Outcome where
  alive : Bool
  send : SendEvent
  deriving DecidableEq, Repr

/-! ## The loop -/

namespace Client

/-- A call of `send` wrote `bs`, and `send_ctmp_msg` goes on. -/
def wrote (c : Client) (e : Nat) (p : SendPc) (bs : List UInt8) : Client :=
  { c with out := c.out ++ bs, unfinished := some (e, p.written + bs.length) }

/-- A call of `send` wrote `bs`, and `send_ctmp_msg` returned `res`. -/
def sent (c : Client) (e : Nat) (p : SendPc) (bs : List UInt8) (res : Int) : Client :=
  if res < 0 then
    { c with
      out := c.out ++ bs
      unfinished := some (e, p.written + bs.length)
      sends := c.sends ++ [res] }
  else
    { c with
      out := c.out ++ bs
      unfinished := none
      delivered := c.delivered ++ [e]
      sends := c.sends ++ [res] }

end Client

namespace WorkerView

/-- Go on at `l` with the same `current` entry. -/
def goto (v : WorkerView) (e : Nat) (l : LoopPc) : WorkerView :=
  { v with worker := { v.worker with pc := .body e l } }

/-- The body of the loop of worker `i`, at `l` with `current` entry `e`. -/
def bodyStep (i : Nat) (o : Outcome) (v : WorkerView) (e : Nat) (l : LoopPc) : Option WorkerView :=
  let w := v.worker
  match l with
  | .alive =>
    -- check the connection is open before attempting to send
    if o.alive then
      some (v.goto e .forward)
    else
      some { v.goto e .close with client := { v.client with deadSeen := true } }
  | .forward =>
    match v.queue.entries[e]? with
    | none => none
    | some entry =>
      match entry.canForward i w.timestamp with
      | none => some { v with fault := some .freedSent }
      | some false => some (v.goto e .lockNext)
      | some true =>
        some { v.goto e (.send (.header 0)) with
          client := { v.client with unfinished := some (e, 0) } }
  | .send p =>
    match v.queue.entries[e]? with
    | none => none
    | some entry =>
      match entry.msg with
      | none => some { v with fault := some .freedMsg }
      | some msg =>
        match sendCtmpMsgRound msg p o.send with
        | (bs, .more p') => some { v.goto e (.send p') with client := v.client.wrote e p bs }
        | (bs, .ret res) =>
          some { v with
            worker := { w with pc := .body e .mark, bytesSent := res }
            client := v.client.sent e p bs res }
  | .mark =>
    match v.queue.entries[e]? with
    | none => none
    | some entry =>
      match entry.setSent i true with
      | none => some { v with fault := some .freedSent }
      | some entry' => some { v.goto e .lockNext with queue := v.queue.setEntry e entry' }
  | .lockNext =>
    (v.queue.acquire (.worker i)).map fun q => { v.goto e .readNext with queue := q }
  | .readNext =>
    some { v with worker := { w with pc := .body e .unlockNext, next := v.queue.next e } }
  | .unlockNext => some { v.goto e .test with queue := v.queue.release }
  | .test => some (v.goto e (if w.bytesSent < 0 then .close else .advance))
  | .close =>
    -- close old client fd
    some { v.goto e .lockArgs with client := { v.client with closed := true } }
  | .lockArgs =>
    if w.lock = none then
      some { v with worker := { w with pc := .body e .setReady, lock := some (.worker i) } }
    else
      none
  | .setReady => some { v with worker := { w with pc := .body e .lockMask, status := .ready } }
  | .lockMask =>
    (v.mask.acquire (.worker i)).map fun mask => { v.goto e .clearBit with mask := mask }
  | .clearBit =>
    some { v.goto e .unlockMask with
      mask := { v.mask with data := setBit v.mask.data i false } }
  | .unlockMask => some { v.goto e .waitBusy with mask := v.mask.release }
  | .waitBusy =>
    if w.status = .busy then
      some (v.goto e .reset)
    else
      some { v with worker := { w with pc := .body e .asleep, lock := none, asleep := true } }
  | .asleep =>
    -- a worker that was woken up takes `args.lock` again
    if w.asleep = false ∧ w.lock = none then
      some { v with worker := { w with pc := .body e .waitBusy, lock := some (.worker i) } }
    else
      none
  | .reset =>
    match v.queue.entries[e]? with
    | none => none
    | some entry =>
      -- reset sent status for new connection, if the mask is still there
      match entry.setSent i false with
      | none => some (v.goto e .unlockArgs)
      | some entry' => some { v.goto e .unlockArgs with queue := v.queue.setEntry e entry' }
  | .unlockArgs => some { v with worker := { w with pc := .body e .advance, lock := none } }
  | .advance => some { v with worker := { w with pc := .get w.next .test, prev := some e } }

/-- A step of worker `i`. -/
def step (i : Nat) (o : Outcome) (v : WorkerView) : Option WorkerView :=
  match v.worker.pc with
  | .idle => none
  | .get current g =>
    match getMsgEntry (.worker i) current v.worker.prev false g v.queue with
    | none => none
    | some (q, .more g') =>
      some { v with queue := q, worker := { v.worker with pc := .get current g' } }
    | some (q, .ret e) => some { v.goto e .alive with queue := q }
  | .body e l => v.bodyStep i o e l

end WorkerView

/-! ## What a step can do -/

/-- The steps that only move on in the body of the loop, up to the mutexes of the
queue and the mask. -/
def LoopPc.quietNext : LoopPc → Option LoopPc
  | .alive => some .forward
  | .lockNext => some .readNext
  | .unlockNext => some .test
  | .lockMask => some .clearBit
  | .unlockMask => some .waitBusy
  | _ => none

/-- Worker `i` touches freed data of its current entry. -/
inductive Touches (i : Nat) (v : WorkerView) (entry : MsgEntry) : LoopPc → Fault → Prop
  | forward (h : entry.canForward i v.worker.timestamp = none) : Touches i v entry .forward .freedSent
  | send {p : SendPc} (h : entry.msg = none) : Touches i v entry (.send p) .freedMsg
  | mark (h : entry.setSent i true = none) : Touches i v entry .mark .freedSent

/-- What a step of worker `i` can do. -/
inductive WorkerMove (i : Nat) (v : WorkerView) : WorkerView → Prop
  | seek {current : Option Nat} {g g' : GetPc} {q : MsgQueue}
      (hpc : v.worker.pc = .get current g)
      (hget : getMsgEntry (.worker i) current v.worker.prev false g v.queue = some (q, .more g')) :
      WorkerMove i v { v with queue := q, worker := { v.worker with pc := .get current g' } }
  | found {current : Option Nat} {g : GetPc} {q : MsgQueue} {e : Nat}
      (hpc : v.worker.pc = .get current g)
      (hget : getMsgEntry (.worker i) current v.worker.prev false g v.queue = some (q, .ret e)) :
      WorkerMove i v { v.goto e .alive with queue := q }
  | quiet {e : Nat} {l l' : LoopPc} {q : MsgQueue} {mask : StatusMask}
      (hpc : v.worker.pc = .body e l) (hl : l.quietNext = some l')
      (hq : q.entries = v.queue.entries) (hmask : mask.data = v.mask.data) :
      WorkerMove i v { v.goto e l' with queue := q, mask := mask }
  | dead {e : Nat} (hpc : v.worker.pc = .body e .alive) :
      WorkerMove i v { v.goto e .close with client := { v.client with deadSeen := true } }
  | refuse {e : Nat} {entry : MsgEntry} (hpc : v.worker.pc = .body e .forward)
      (hentry : v.queue.entries[e]? = some entry)
      (hno : entry.canForward i v.worker.timestamp = some false) :
      WorkerMove i v (v.goto e .lockNext)
  | start {e : Nat} {entry : MsgEntry} (hpc : v.worker.pc = .body e .forward)
      (hentry : v.queue.entries[e]? = some entry)
      (hyes : entry.canForward i v.worker.timestamp = some true) :
      WorkerMove i v { v.goto e (.send (.header 0)) with
        client := { v.client with unfinished := some (e, 0) } }
  | write {e : Nat} {entry : MsgEntry} {msg : CtmpMsg} {p p' : SendPc} {ev : SendEvent}
      {bs : List UInt8} (hpc : v.worker.pc = .body e (.send p))
      (hentry : v.queue.entries[e]? = some entry) (hmsg : entry.msg = some msg)
      (hround : sendCtmpMsgRound msg p ev = (bs, .more p')) :
      WorkerMove i v { v.goto e (.send p') with client := v.client.wrote e p bs }
  | sent {e : Nat} {entry : MsgEntry} {msg : CtmpMsg} {p : SendPc} {ev : SendEvent}
      {bs : List UInt8} {res : Int} (hpc : v.worker.pc = .body e (.send p))
      (hentry : v.queue.entries[e]? = some entry) (hmsg : entry.msg = some msg)
      (hround : sendCtmpMsgRound msg p ev = (bs, .ret res)) :
      WorkerMove i v { v with
        worker := { v.worker with pc := .body e .mark, bytesSent := res }
        client := v.client.sent e p bs res }
  | mark {e : Nat} {entry entry' : MsgEntry} (hpc : v.worker.pc = .body e .mark)
      (hentry : v.queue.entries[e]? = some entry) (hset : entry.setSent i true = some entry') :
      WorkerMove i v { v.goto e .lockNext with queue := v.queue.setEntry e entry' }
  | fault {e : Nat} {l : LoopPc} {entry : MsgEntry} {f : Fault}
      (hpc : v.worker.pc = .body e l) (hentry : v.queue.entries[e]? = some entry)
      (hf : Touches i v entry l f) : WorkerMove i v { v with fault := some f }
  | readNext {e : Nat} (hpc : v.worker.pc = .body e .readNext) :
      WorkerMove i v { v with
        worker := { v.worker with pc := .body e .unlockNext, next := v.queue.next e } }
  | test {e : Nat} (hpc : v.worker.pc = .body e .test) :
      WorkerMove i v (v.goto e (if v.worker.bytesSent < 0 then .close else .advance))
  | close {e : Nat} (hpc : v.worker.pc = .body e .close) :
      WorkerMove i v { v.goto e .lockArgs with client := { v.client with closed := true } }
  | lockArgs {e : Nat} (hpc : v.worker.pc = .body e .lockArgs) (hfree : v.worker.lock = none) :
      WorkerMove i v { v with
        worker := { v.worker with pc := .body e .setReady, lock := some (.worker i) } }
  | setReady {e : Nat} (hpc : v.worker.pc = .body e .setReady) :
      WorkerMove i v { v with worker := { v.worker with pc := .body e .lockMask, status := .ready } }
  | clearBit {e : Nat} (hpc : v.worker.pc = .body e .clearBit) :
      WorkerMove i v { v.goto e .unlockMask with
        mask := { v.mask with data := setBit v.mask.data i false } }
  | busy {e : Nat} (hpc : v.worker.pc = .body e .waitBusy) (hbusy : v.worker.status = .busy) :
      WorkerMove i v (v.goto e .reset)
  | sleep {e : Nat} (hpc : v.worker.pc = .body e .waitBusy) (hbusy : v.worker.status ≠ .busy) :
      WorkerMove i v { v with
        worker := { v.worker with pc := .body e .asleep, lock := none, asleep := true } }
  | wake {e : Nat} (hpc : v.worker.pc = .body e .asleep) (hwoken : v.worker.asleep = false)
      (hfree : v.worker.lock = none) :
      WorkerMove i v { v with
        worker := { v.worker with pc := .body e .waitBusy, lock := some (.worker i) } }
  | reset {e : Nat} {q : MsgQueue} (hpc : v.worker.pc = .body e .reset)
      (hq : q = v.queue ∨ ∃ entry entry', v.queue.entries[e]? = some entry ∧
        entry.setSent i false = some entry' ∧ q = v.queue.setEntry e entry') :
      WorkerMove i v { v.goto e .unlockArgs with queue := q }
  | unlockArgs {e : Nat} (hpc : v.worker.pc = .body e .unlockArgs) :
      WorkerMove i v { v with worker := { v.worker with pc := .body e .advance, lock := none } }
  | advance {e : Nat} (hpc : v.worker.pc = .body e .advance) :
      WorkerMove i v { v with
        worker := { v.worker with pc := .get v.worker.next .test, prev := some e } }

theorem StatusMask.data_acquire {mask mask' : StatusMask} {t : Tid}
    (h : mask.acquire t = some mask') : mask'.data = mask.data := by
  unfold acquire at h
  split at h
  · cases h
    rfl
  · cases h

theorem WorkerView.bodyStep_move {i : Nat} {o : Outcome} {v v' : WorkerView} {e : Nat} {l : LoopPc}
    (hpc : v.worker.pc = .body e l) (h : v.bodyStep i o e l = some v') : WorkerMove i v v' := by
  cases l with
  | alive =>
    simp only [bodyStep] at h
    split at h
    · cases h
      exact .quiet hpc rfl rfl rfl
    · cases h
      exact .dead hpc
  | forward =>
    simp only [bodyStep] at h
    split at h
    · cases h
    · rename_i entry hentry
      split at h
      · rename_i hnone
        cases h
        exact .fault hpc hentry (.forward hnone)
      · rename_i hno
        cases h
        exact .refuse hpc hentry hno
      · rename_i hyes
        cases h
        exact .start hpc hentry hyes
  | send p =>
    simp only [bodyStep] at h
    split at h
    · cases h
    · rename_i entry hentry
      split at h
      · rename_i hnone
        cases h
        exact .fault hpc hentry (.send hnone)
      · rename_i msg hmsg
        split at h
        · rename_i hround
          cases h
          exact .write hpc hentry hmsg hround
        · rename_i hround
          cases h
          exact .sent hpc hentry hmsg hround
  | mark =>
    simp only [bodyStep] at h
    split at h
    · cases h
    · rename_i entry hentry
      split at h
      · rename_i hnone
        cases h
        exact .fault hpc hentry (.mark hnone)
      · rename_i hset
        cases h
        exact .mark hpc hentry hset
  | lockNext =>
    obtain ⟨q, hq, rfl⟩ := Option.map_eq_some_iff.mp h
    exact .quiet hpc rfl (MsgQueue.entries_acquire hq) rfl
  | readNext =>
    cases h
    exact .readNext hpc
  | unlockNext =>
    cases h
    exact .quiet hpc rfl rfl rfl
  | test =>
    cases h
    exact .test hpc
  | close =>
    cases h
    exact .close hpc
  | lockArgs =>
    simp only [bodyStep] at h
    split at h
    · rename_i hfree
      cases h
      exact .lockArgs hpc hfree
    · cases h
  | setReady =>
    cases h
    exact .setReady hpc
  | lockMask =>
    obtain ⟨mask, hmask, rfl⟩ := Option.map_eq_some_iff.mp h
    exact .quiet hpc rfl rfl (StatusMask.data_acquire hmask)
  | clearBit =>
    cases h
    exact .clearBit hpc
  | unlockMask =>
    cases h
    exact .quiet hpc rfl rfl rfl
  | waitBusy =>
    simp only [bodyStep] at h
    split at h
    · rename_i hbusy
      cases h
      exact .busy hpc hbusy
    · rename_i hbusy
      cases h
      exact .sleep hpc hbusy
  | asleep =>
    simp only [bodyStep] at h
    split at h
    · rename_i hwoken
      cases h
      exact .wake hpc hwoken.1 hwoken.2
    · cases h
  | reset =>
    simp only [bodyStep] at h
    split at h
    · cases h
    · rename_i entry hentry
      split at h
      · cases h
        exact .reset hpc (.inl rfl)
      · rename_i entry' hset
        cases h
        exact .reset hpc (.inr ⟨entry, entry', hentry, hset, rfl⟩)
  | unlockArgs =>
    cases h
    exact .unlockArgs hpc
  | advance =>
    cases h
    exact .advance hpc

/-- **A step of a worker** is one of the moves. -/
theorem WorkerView.step_move {i : Nat} {o : Outcome} {v v' : WorkerView}
    (h : v.step i o = some v') : WorkerMove i v v' := by
  unfold step at h
  split at h
  · cases h
  · rename_i current g hpc
    split at h
    · cases h
    · rename_i hget
      cases h
      exact .seek hpc hget
    · rename_i hget
      cases h
      exact .found hpc hget
  · rename_i e l hpc
    exact bodyStep_move hpc h

/-! ## The position of a worker -/

/-- The position of the queue that the worker will process next. -/
def Worker.pos (w : Worker) : Nat :=
  match w.pc with
  | .idle => 0
  | .get current _ => seekPos current w.prev
  | .body e l =>
    match l with
    | .alive | .forward | .send _ | .mark => e
    | .lockNext | .readNext | .unlockNext | .test => e + 1
    | _ => w.next.getD (e + 1)

end WireStorm
