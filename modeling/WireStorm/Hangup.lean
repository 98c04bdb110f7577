import WireStorm.Loss

/-!
# Closing connections

One destination worker among threads that may do anything to what it shares with
them (`WorkerRun`), and the connections that are assigned to it one after another.
It closes a connection for a cause (`ClosedForCause`) unless `bytes_sent` is still
negative from a send to an earlier connection when `can_forward` refuses an entry
(`NoStaleFailure`).
-/

namespace WireStorm

/-! ## Runs of one worker -/

/-- A destination worker, with the results of `send_ctmp_msg` on the connections
before the present one. -/
structure WorkerRun where
  view : WorkerView
  earlier : List Int

/-- A step of the worker; what other threads do to the queue, to the mask, and to
the lock and the wake-up of the worker's arguments; and the hand-over of a
connection accepted at `acceptTs`. -/
inductive RunLabel
  | worker (o : Outcome)
  | queue (q : MsgQueue)
  | mask (mask : StatusMask)
  | args (lock : Option Tid) (asleep : Bool)
  | assign (fd : Nat) (acceptTs : Timespec)

namespace WorkerRun

/-- The worker before it is created. -/
def init (now : Timespec) : WorkerRun where
  view := ⟨.empty, ⟨0, none⟩, .init now, .accept now, none⟩
  earlier := []

/-- `init_thread_info` with `pthread_create`, or `wake_up_thread`, which holds
`args.lock` while it writes. -/
def assign (i : Nat) (r : WorkerRun) (fd : Nat) (acceptTs : Timespec) : Option WorkerRun :=
  let w := { r.view.worker with
    clientFd := some fd, status := .busy, timestamp := acceptTs, lock := none, asleep := false }
  let client := { Client.accept acceptTs with handedTo := [i], assigned := true }
  match r.view.worker.pc with
  | .idle =>
    let w := { w with pc := .get none .test, prev := none, next := none, bytesSent := 0 }
    some ⟨{ r.view with worker := w, client := client }, []⟩
  | .body _ .asleep =>
    if r.view.worker.status = .ready ∧ r.view.worker.lock = none then
      some ⟨{ r.view with worker := w, client := client }, r.earlier ++ r.view.client.sends⟩
    else
      none
  | _ => none

/-- One step among the other threads. No step follows a fault. -/
def step (i : Nat) (r : WorkerRun) (l : RunLabel) : Option WorkerRun :=
  if r.view.fault.isSome then
    none
  else
    match l with
    | .worker o => (r.view.step i o).map fun v => { r with view := v }
    | .queue q => some { r with view := { r.view with queue := q } }
    | .mask mask => some { r with view := { r.view with mask := mask } }
    | .args lock asleep =>
      some { r with view := { r.view with
        worker := { r.view.worker with lock := lock, asleep := asleep } } }
    | .assign fd acceptTs => r.assign i fd acceptTs

end WorkerRun

/-- The runs of worker `i`. -/
def workerRuns (i : Nat) (start : Timespec) : LTS WorkerRun RunLabel :=
  .ofFn (.init start) (WorkerRun.step i)

/-! ## Causes -/

/-- `is_alive` found the connection dead, or a send to it failed. -/
def Client.Failed (c : Client) : Prop := c.deadSeen = true ∨ c.SendFailed

instance (c : Client) : Decidable c.Failed := inferInstanceAs (Decidable (_ ∨ _))

/-- A connection is only closed for a cause. -/
def ClosedForCause (r : WorkerRun) : Prop := r.view.client.closed = true → r.view.client.Failed

/-- **The condition on a step**: when `can_forward` refuses an entry for a
connection that nothing was sent to yet, the last send before had not failed. -/
def NoStaleFailure (i : Nat) (r : WorkerRun) : RunLabel → Prop
  | .worker _ => ∀ e ∈ r.view.worker.pc.reading, ∀ entry ∈ r.view.queue.entries[e]?,
      entry.canForward i r.view.worker.timestamp = some false → r.view.client.sends = [] →
        ∀ res ∈ r.earlier.getLast?, 0 ≤ res
  | _ => True

instance (i : Nat) (r : WorkerRun) (l : RunLabel) : Decidable (NoStaleFailure i r l) :=
  match l with
  | .worker _ => inferInstanceAs (Decidable (∀ e ∈ r.view.worker.pc.reading,
      ∀ entry ∈ r.view.queue.entries[e]?,
        entry.canForward i r.view.worker.timestamp = some false → r.view.client.sends = [] →
          ∀ res ∈ r.earlier.getLast?, 0 ≤ res))
  | .queue _ | .mask _ | .args _ _ | .assign _ _ => isTrue trivial

/-! ## What is kept -/

/-- **The history of a worker**: `bytes_sent` is the result of the last send to any
connection, and the worker gives a connection up for a cause. -/
structure History (r : WorkerRun) : Prop where
  bytesSent : r.view.worker.bytesSent = ((r.earlier ++ r.view.client.sends).getLast?).getD 0
  cause : r.view.client.closed = true ∨ r.view.worker.task.givesUp = true → r.view.client.Failed

theorem History.closedForCause {r : WorkerRun} (h : History r) : ClosedForCause r :=
  fun hclosed => h.cause (.inl hclosed)

/-- A failed result that was left behind by the present connection. -/
theorem History.sendFailed {r : WorkerRun} (h : History r) (hneg : r.view.worker.bytesSent < 0)
    (hlast : r.view.client.sends = [] → ∀ res ∈ r.earlier.getLast?, 0 ≤ res) :
    r.view.client.SendFailed := by
  rw [h.bytesSent, List.getLast?_append] at hneg
  cases hsends : r.view.client.sends.getLast? with
  | some res =>
    rw [hsends] at hneg
    exact ⟨res, List.mem_of_getLast? hsends, hneg⟩
  | none =>
    rw [hsends] at hneg
    cases hearlier : r.earlier.getLast? with
    | none =>
      rw [hearlier] at hneg
      cases hneg
    | some res =>
      rw [hearlier] at hneg
      have hres := hlast (List.getLast?_eq_none_iff.mp hsends) res hearlier
      exact absurd hneg (Int.not_lt.mpr hres)

/-- A failure on the connection stays. -/
theorem Client.Failed.mono {c c' : Client} (h : c.Failed) (hdead : c'.deadSeen = c.deadSeen)
    (hsends : c.sends <+: c'.sends) : c'.Failed := by
  rcases h with hseen | ⟨res, hres, hneg⟩
  · exact .inl (hdead.trans hseen)
  · exact .inr ⟨res, hsends.mem hres, hneg⟩

/-- A step of the worker that sends nothing, does not close the connection and
does not start to give it up. -/
theorem History.quiet {r : WorkerRun} {v : WorkerView} (h : History r)
    (hsends : v.client.sends = r.view.client.sends) (hclosed : v.client.closed = r.view.client.closed)
    (hdead : v.client.deadSeen = r.view.client.deadSeen)
    (hbytes : v.worker.bytesSent = r.view.worker.bytesSent)
    (htask : v.worker.task.givesUp = true → r.view.worker.task.givesUp = true) :
    History { r with view := v } where
  bytesSent := by
    rw [hbytes, hsends]
    exact h.bytesSent
  cause hv := by
    refine (h.cause ?_).mono hdead (hsends ▸ List.prefix_rfl)
    rcases hv with hv | hv
    · exact .inl (hclosed.symm.trans hv)
    · exact .inr (htask hv)

theorem quietNext_task {l l' : LoopPc} (h : l.quietNext = some l') {e : Nat} {w : Worker}
    (hpc : w.pc = .body e l) : ({ w with pc := .body e l' } : Worker).task = w.task := by
  cases l <;> cases h <;> simp only [Worker.task, hpc]

/-- **A step of the worker** keeps the history. -/
theorem WorkerMove.history {i : Nat} {r : WorkerRun} {v : WorkerView} (hmove : WorkerMove i r.view v)
    (h : History r) (hstale : ∀ e ∈ r.view.worker.pc.reading, ∀ entry ∈ r.view.queue.entries[e]?,
      entry.canForward i r.view.worker.timestamp = some false → r.view.client.sends = [] →
        ∀ res ∈ r.earlier.getLast?, 0 ≤ res) : History { r with view := v } := by
  have ⟨hbytes, hcause⟩ := h
  cases hmove with
  | seek | found | start | write | lockArgs | setReady | clearBit | busy | sleep | wake | reset
  | unlockArgs | advance => exact h.quiet rfl rfl rfl rfl nofun
  | quiet hpc hl =>
    have htask := quietNext_task hl hpc
    exact h.quiet rfl rfl rfl rfl fun hgive => htask ▸ hgive
  | fault => exact h.quiet rfl rfl rfl rfl id
  | readNext hpc | mark hpc =>
    refine h.quiet rfl rfl rfl rfl fun hgive => ?_
    simp only [Worker.task, hpc]
    exact hgive
  | test hpc =>
    refine h.quiet rfl rfl rfl rfl fun hgive => ?_
    simp only [Worker.task, hpc, Task.givesUp]
    by_cases hneg : r.view.worker.bytesSent < 0
    · exact decide_eq_true hneg
    · simp only [hneg, if_false] at hgive
      cases hgive
  | refuse hpc hentry hno =>
    rename_i e entry
    refine ⟨hbytes, ?_⟩
    rintro (hclosed | hgive)
    · exact hcause (.inl hclosed)
    · have hneg : r.view.worker.bytesSent < 0 := of_decide_eq_true hgive
      exact .inr (h.sendFailed hneg (hstale e (by rw [hpc]; rfl) entry hentry hno))
  | dead => exact ⟨hbytes, fun _ => .inl rfl⟩
  | sent hpc hentry hmsg hround =>
    rename_i e entry msg p ev bs res
    have hsends : (r.view.client.sent e p bs res).sends = r.view.client.sends ++ [res] := by
      rw [Client.sent]
      split <;> rfl
    have hsame : (r.view.client.sent e p bs res).closed = r.view.client.closed ∧
        (r.view.client.sent e p bs res).deadSeen = r.view.client.deadSeen := by
      rw [Client.sent]
      split <;> exact ⟨rfl, rfl⟩
    constructor
    · simp [hsends]
    · rintro (hclosed | hgive)
      · refine (hcause (.inl (hsame.1.symm.trans hclosed))).mono hsame.2 ?_
        rw [hsends]
        exact List.prefix_append _ _
      · have hneg : res < 0 := of_decide_eq_true hgive
        exact .inr ⟨res, by rw [hsends]; simp, hneg⟩
  | close hpc =>
    refine ⟨hbytes, fun _ => ?_⟩
    exact (hcause (.inr (by simp only [Worker.task, hpc, Task.givesUp]))).mono rfl List.prefix_rfl

/-- The history goes on with a new connection. -/
theorem assign_history {i fd : Nat} {acceptTs : Timespec} {r r' : WorkerRun} (h : History r)
    (hs : r.assign i fd acceptTs = some r') : History r' := by
  unfold WorkerRun.assign at hs
  split at hs
  · cases hs
    exact ⟨rfl, by rintro (hclosed | hgive) <;> contradiction⟩
  · rename_i e hpc
    split at hs
    · cases hs
      refine ⟨?_, ?_⟩
      · simpa [Client.accept] using h.bytesSent
      · rintro (hclosed | hgive)
        · cases hclosed
        · simp only [Worker.task, hpc] at hgive
          cases hgive
    · cases hs
  · cases hs

theorem step_keeps_history {i : Nat} {r r' : WorkerRun} {l : RunLabel} (h : History r)
    (hstale : NoStaleFailure i r l) (hs : r.step i l = some r') : History r' := by
  unfold WorkerRun.step at hs
  split at hs
  · cases hs
  · cases l with
    | worker o =>
      obtain ⟨v, hv, rfl⟩ := Option.map_eq_some_iff.mp hs
      exact (WorkerView.step_move hv).history h hstale
    | queue | mask | args =>
      cases hs
      exact h.quiet rfl rfl rfl rfl id
    | assign fd acceptTs => exact assign_history h hs

/-- **A worker closes a connection for a cause** in a run in which no failure of a
send to an earlier connection is left behind. -/
theorem closedForCause_of_noStaleFailure {i : Nat} {start : Timespec} {r : WorkerRun}
    (h : (workerRuns i start).ReachVia (fun r l _ => NoStaleFailure i r l) r) : ClosedForCause r := by
  apply History.closedForCause
  refine LTS.ReachVia.invariant_ofFn (I := History) ?_ (fun _ _ _ _ hi hstale hs => ?_) h
  · exact ⟨rfl, by rintro (hclosed | hgive) <;> contradiction⟩
  · exact step_keeps_history hi hstale hs

/-- Two messages, enqueued one second after another. -/
def sampleQueue : MsgQueue where
  entries := [initMsgEntry ⟨1, 0⟩ sampleMsg, initMsgEntry ⟨2, 0⟩ sampleMsg]
  lock := none
  asleep _ := false

/-- The first connection is assigned, and the worker closes it after a failed send. -/
def failedLabels : List RunLabel :=
  [.queue sampleQueue, .assign 0 ⟨0, 0⟩] ++
    List.replicate 13 (.worker ⟨true, .error .epipe⟩)

/-- A connection closed after a failed send. -/
theorem closedForCause_of_noStaleFailure_sent :
    ∃ r : WorkerRun, r.view.client.closed = true ∧ r.view.client.deadSeen = false ∧
      r.view.client.Failed := by
  obtain ⟨r, hr, hp⟩ := LTS.exists_reachVia (WorkerRun.step 0) (fun r l _ => NoStaleFailure 0 r l)
    (.init ⟨0, 0⟩) failedLabels
    (fun r => r.view.client.closed = true ∧ r.view.client.deadSeen = false) (by decide)
  obtain ⟨hclosed, hdead⟩ := of_decide_eq_true hp
  exact ⟨r, hclosed, hdead, closedForCause_of_noStaleFailure hr hclosed⟩

/-! ## What goes wrong -/

/-- The worker hangs up on a second connection, accepted behind both entries: it is
not entitled to the second one, and `bytes_sent` is left from the first connection. -/
theorem not_closedForCause :
    ¬∀ i start r, (workerRuns i start).Reachable r → ClosedForCause r := by
  intro h
  obtain ⟨r, hr, hp⟩ := LTS.exists_reachable (WorkerRun.step 0) (.init ⟨0, 0⟩)
    (failedLabels ++ List.replicate 6 (.worker ⟨true, .eintr⟩) ++ .assign 1 ⟨3, 0⟩ ::
      List.replicate 13 (.worker ⟨true, .eintr⟩))
    (fun r => r.view.client.closed = true ∧ ¬r.view.client.Failed) (by decide)
  obtain ⟨hclosed, hfailed⟩ := of_decide_eq_true hp
  exact hfailed (h 0 ⟨0, 0⟩ r hr hclosed)

end WireStorm
