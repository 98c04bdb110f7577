import WireStorm.Cursor
import WireStorm.Traverse

/-!
# The order in which a worker takes the entries

As long as `is_alive` does not find its connection closed, the pointers of a worker move
as in a walk over the queue (`WorkerMove.walk`), through every failed send and every
new connection: the entries returned to it are those that the source appended, in that
order (`worker_returned_eq_appended`).
-/

namespace WireStorm

/-! ## A worker as a walk -/

/-- Where the body of the loop with `current` entry `e` is in the walk. -/
def LoopPc.walkPc (l : LoopPc) (e : Nat) : WalkPc :=
  match l with
  | .alive | .forward | .send _ | .mark | .lockNext => .lockNext e
  | .readNext => .readNext e
  | .unlockNext => .unlockNext e
  | _ => .advance e

/-- The walk of a worker, with what it does to an entry left out. -/
def Worker.walker (w : Worker) : Walker :=
  match w.pc with
  | .idle => .init
  | .get current g => ⟨.get current g, w.prev, w.next⟩
  | .body e l => ⟨l.walkPc e, w.prev, w.next⟩

theorem SameLoop.walker {w w' : Worker} (h : SameLoop w w') : w'.walker = w.walker := by
  unfold Worker.walker
  rw [h.pc, h.prev, h.next]

theorem walker_body {w : Worker} {e : Nat} {l : LoopPc} (hpc : w.pc = .body e l) :
    w.walker = ⟨l.walkPc e, w.prev, w.next⟩ := by
  simp only [Worker.walker, hpc]

theorem walkReturns_body {t : Tid} {q : MsgQueue} {w : Worker} {e : Nat} {l : LoopPc}
    (hpc : w.pc = .body e l) : walkReturns t q w.walker = none := by
  rw [walker_body hpc]
  cases l <;> rfl

/-- A step of thread `t` that leaves the pointers of its walk alone. -/
structure Rest (t : Tid) (q q' : MsgQueue) (w w' : Walker) : Prop where
  length : q'.entries.length = q.entries.length
  walker : w' = w
  returns : walkReturns t q w = none

/-- A step in the body of the loop that does not move on in the walk. -/
theorem Rest.body {t : Tid} {q q' : MsgQueue} {w w' : Worker} {e : Nat} {l l' : LoopPc}
    (hpc : w.pc = .body e l) (hpc' : w'.pc = .body e l')
    (hlen : q'.entries.length = q.entries.length) (hprev : w'.prev = w.prev)
    (hnext : w'.next = w.next) (hwalk : l'.walkPc e = l.walkPc e) :
    Rest t q q' w.walker w'.walker := by
  refine ⟨hlen, ?_, walkReturns_body hpc⟩
  rw [walker_body hpc, walker_body hpc', hprev, hnext, hwalk]

/-- **A worker walks over the queue**, unless it finds its connection closed. -/
theorem WorkerMove.walk {i : Nat} {v v' : WorkerView} (hmove : WorkerMove i v v')
    (hopen : ∀ e, v.worker.pc = .body e .alive → v'.worker.pc ≠ .body e .close) :
    (∃ r, WalkMove (.worker i) v.queue v.worker.walker r v'.queue v'.worker.walker) ∨
      Rest (.worker i) v.queue v'.queue v.worker.walker v'.worker.walker := by
  cases hmove with
  | seek hpc hget =>
    rename_i current g g' q
    have hw : v.worker.walker = ⟨.get current g, v.worker.prev, v.worker.next⟩ := by
      simp only [Worker.walker, hpc]
    rw [hw]
    exact .inl ⟨_, .seek rfl hget⟩
  | found hpc hget =>
    rename_i current g q e
    have hw : v.worker.walker = ⟨.get current g, v.worker.prev, v.worker.next⟩ := by
      simp only [Worker.walker, hpc]
    rw [hw]
    exact .inl ⟨_, .found rfl hget⟩
  | quiet hpc hl hq =>
    have hlen := congrArg List.length hq
    rename_i l l' _ _ _
    cases l with
    | lockNext =>
      cases hl
      rw [walker_body hpc]
      exact .inl ⟨_, .lockNext rfl hq⟩
    | unlockNext =>
      cases hl
      rw [walker_body hpc]
      exact .inl ⟨_, .unlockNext rfl hq⟩
    | alive | lockMask | unlockMask =>
      cases hl
      exact .inr (.body hpc rfl hlen rfl rfl rfl)
    | _ => cases hl
  | dead hpc => exact absurd rfl (hopen _ hpc)
  | readNext hpc =>
    rw [walker_body hpc]
    exact .inl ⟨_, .readNext rfl⟩
  | advance hpc =>
    rw [walker_body hpc]
    exact .inl ⟨_, .advance rfl⟩
  | test hpc =>
    refine .inr (.body hpc rfl rfl rfl rfl ?_)
    split <;> rfl
  | fault hpc => exact .inr ⟨rfl, rfl, walkReturns_body hpc⟩
  | mark hpc => exact .inr (.body hpc rfl List.length_set rfl rfl rfl)
  | reset hpc hq =>
    refine .inr (.body hpc rfl ?_ rfl rfl rfl)
    rcases hq with rfl | ⟨_, _, -, -, rfl⟩
    · rfl
    · exact List.length_set
  | refuse hpc | start hpc | write hpc | sent hpc | close hpc | lockArgs hpc | setReady hpc
  | clearBit hpc | busy hpc | sleep hpc | wake hpc | unlockArgs hpc =>
    exact .inr (.body hpc rfl rfl rfl rfl rfl)

/-! ## What is appended and returned -/

/-- The entry that the source inserts in its next step. -/
def SrcPc.inserts : SrcPc → Option MsgEntry
  | .insert entry => some entry
  | .parse | .stamp _ | .lock _ | .broadcast | .unlock => none

def System.observeQueue (s : System) (l : Label) : Option WalkEvent :=
  match l with
  | .src _ => s.src.inserts.map (.appended · s.queue.entries.length)
  | .worker i _ => (walkReturns (.worker i) s.queue (s.workers i).walker).map (.returned i)
  | _ => none

/-- `is_alive` does not find the connection of worker `i` closed. -/
def Steady (i : Nat) (s : System) (l : Label) (_ : System) : Prop :=
  ∀ o e, l = .worker i o → (s.workers i).pc = .body e .alive → o.alive = true

section
variable {args : Args} {start : Timespec} {s s' : System} {l : Label} {i : Nat}

theorem workerStep_walk {o : Outcome} {fd : Nat} {v' : WorkerView}
    (hv : (s.view i fd).step i o = some v') (hsteady : Steady i s (.worker i o) s') :
    (∃ r, WalkMove (.worker i) s.queue (s.workers i).walker r v'.queue v'.worker.walker) ∨
      Rest (.worker i) s.queue v'.queue (s.workers i).walker v'.worker.walker := by
  refine (WorkerView.step_move hv).walk fun e hpc => ?_
  have halive := hsteady o e rfl hpc
  simp only [WorkerView.step, hpc, WorkerView.bodyStep, halive, if_true] at hv
  cases hv
  simp [WorkerView.goto]

/-- Only worker `i` moves on in its walk. -/
theorem walker_frame (hp : Pool args.numWorkers s) (hs : s.step args l = some s')
    (hl : ∀ o, l ≠ .worker i o) : (s'.workers i).walker = (s.workers i).walker := by
  have hworkers : s'.workers = s.workers → (s'.workers i).walker = (s.workers i).walker :=
    fun heq => by rw [heq]
  cases step_move hs with
  | src hstep => exact hworkers (srcStep_frame hstep).workers
  | dispatcher hstep =>
    cases dispatcherStep_move hp hstep with
    | calm _ _ _ _ _ _ _ _ hloop => exact (hloop i).walker
    | accept | clock => rfl
    | setFd hpc | setTime hpc =>
      rename_i fd k wake
      by_cases hi : i = k
      · subst hi
        simp [Worker.walker]
      · simp [hi]
    | create hpc hidle =>
      rename_i fd k wake
      by_cases hi : i = k
      · subst hi
        simp [Worker.walker, hidle, Walker.init]
      · simp [hi]
  | @worker j o _ hstep =>
    obtain ⟨fd, v', -, -, rfl⟩ := workerStep_eq hstep
    have hij : i ≠ j := fun h => hl o (h ▸ rfl)
    simp [System.setView, hij]
  | cleanup hstep => exact hworkers (cleanupStep_frame hstep).1.workers
  | tick | wakeMsg => rfl
  | @wakeArgs j =>
    by_cases hi : i = j
    · subst hi
      simp [Worker.walker]
    · simp [hi]

/-- **A step of the server** in the walk of worker `i`: the pointers stay in order, and the
worker is given the entry that is seen to be returned to it. -/
theorem step_walk (hg : Good args.numWorkers s) (hs : s.step args l = some s')
    (hsteady : Steady i s l s') (h : (s.workers i).walker.Placed s.queue.entries.length) :
    (s'.workers i).walker.Placed s'.queue.entries.length ∧
      List.range (s'.workers i).walker.given = List.range (s.workers i).walker.given ++
        (s.observeQueue l).toList.filterMap (WalkEvent.returnedTo i) := by
  have hlen := (step_entries hg.pool hg.cursors hs).keeps.length_le
  by_cases hl : ∃ o, l = .worker i o
  · obtain ⟨o, rfl⟩ := hl
    obtain ⟨fd, v', -, hv, rfl⟩ := workerStep_eq (workerStep_of_step hs)
    simp only [System.setView, Function.update_self, System.observeQueue, returnedTo_self]
      at hlen ⊢
    rcases workerStep_walk hv hsteady with ⟨r, hmove⟩ | hrest
    · rw [hmove.returns]
      exact ⟨(hmove.placed h).mono hlen, hmove.range_given h⟩
    · rw [hrest.walker, hrest.length, hrest.returns]
      exact ⟨h, (List.append_nil _).symm⟩
  · have hseen : (s.observeQueue l).toList.filterMap (WalkEvent.returnedTo i) = [] := by
      cases l with
      | src msg => exact returnedTo_appended _ _ _
      | worker j o => exact returnedTo_of_ne _ fun heq => hl ⟨o, heq ▸ rfl⟩
      | _ => rfl
    rw [walker_frame hg.pool hs fun o heq => hl ⟨o, heq⟩, hseen]
    exact ⟨h.mono hlen, (List.append_nil _).symm⟩

/-! ## What is appended -/

/-- What no step on an entry changes. -/
def MsgEntry.origin (entry : MsgEntry) : Timespec × CtmpMsg := (entry.timestamp, entry.carried)

theorem MsgEntry.SameMsg.origin {a b : MsgEntry} (h : a.SameMsg b) : b.origin = a.origin := by
  rw [MsgEntry.origin, MsgEntry.origin, h.1, h.2]

theorem srcStep_inserts {msg : Option CtmpMsg} (hs : s.srcStep msg = some s') :
    s'.queue.entries = s.queue.entries ++ s.src.inserts.toList := by
  cases srcStep_move hs with
  | lock hpc hq =>
    rw [hpc]
    exact (MsgQueue.entries_acquire hq).trans (List.append_nil _).symm
  | insert hpc =>
    rw [hpc]
    rfl
  | nothing hpc | parsed hpc | stamp hpc | broadcast hpc | unlock hpc =>
    rw [hpc]
    exact (List.append_nil _).symm

/-- Only the source changes the origins of the entries. -/
theorem step_origins (hg : Good args.numWorkers s) (hs : s.step args l = some s') :
    s'.queue.entries.map MsgEntry.origin = s.queue.entries.map MsgEntry.origin ++
      match l with
      | .src _ => s.src.inserts.toList.map MsgEntry.origin
      | _ => [] := by
  have hsame : s'.queue.entries = s.queue.entries → s'.queue.entries.map MsgEntry.origin =
      s.queue.entries.map MsgEntry.origin ++ [] := fun hes => by rw [hes, List.append_nil]
  cases step_move hs with
  | src hstep => rw [srcStep_inserts hstep, List.map_append]
  | dispatcher hstep => exact hsame (congrArg _ (dispatcherStep_queue hg.pool hstep))
  | worker hstep =>
    obtain ⟨fd, v', hfd, hv, rfl⟩ := workerStep_eq hstep
    have heffect := (WorkerView.step_move hv).effect (hg.cursors _)
    rcases heffect.entries with hes | ⟨e, entry, entry', val, hentry, hset, hes⟩
    · exact hsame hes
    · simp only [System.setView, hes, List.append_nil]
      exact map_set_of_eq hentry (MsgEntry.setSent_eq_some hset).1.origin
  | cleanup hstep =>
    rcases cleanupStep_entries hstep with hes | ⟨e, entry, hpc, hentry, hes⟩
    · exact hsame hes
    · rw [hes, List.append_nil]
      exact map_set_of_eq hentry entry.freeMsgData_sameMsg.origin
  | tick | wakeMsg | wakeArgs => exact hsame rfl

/-- **The log of the source**: the origins of the queue grow by the one that is seen to be
appended. -/
theorem step_appended_origins (hg : Good args.numWorkers s) (hs : s.step args l = some s') :
    (s'.queue.entries.map MsgEntry.origin).zipIdx =
      (s.queue.entries.map MsgEntry.origin).zipIdx ++
        ((s.observeQueue l).toList.filterMap WalkEvent.appendedEntry).map
          (Prod.map MsgEntry.origin id) := by
  rw [step_origins hg hs]
  cases l with
  | src msg =>
    simp only [System.observeQueue, appendedEntry_appended]
    cases s.src.inserts with
    | none => simp
    | some entry => simp [List.zipIdx_append]
  | worker j o =>
    simp only [System.observeQueue, appendedEntry_returned, List.map_nil, List.append_nil]
  | _ => simp [System.observeQueue]

/-! ## Every run -/

/-- The runs in which `is_alive` never finds the connection of worker `i` closed. -/
def steadyServer (args : Args) (start : Timespec) (i : Nat) : LTS System Label :=
  (server args start).restrict (Steady i)

theorem reachable_walker (h : (steadyServer args start i).Reachable s) :
    (s.workers i).walker.Placed s.queue.entries.length := by
  refine h.of_restrict.invariant_ofFn
    (I := fun s => (s.workers i).walker.Placed s.queue.entries.length) ?_
    fun _ _ _ hr hi hc hs => (step_walk (reachable_good hr.reachable) hs hc hi).1
  exact ⟨by simp, by simp [System.init, Worker.init, Worker.walker, Walker.init], fun _ => rfl,
    by simp, by simp, by simp⟩

theorem worker_returned_eq_range {es : List WalkEvent}
    (h : (steadyServer args start i).Observed System.observeQueue es s) :
    returned i es = List.range (s.workers i).walker.given := by
  refine h.filterMap_eq (L := fun s => List.range (s.workers i).walker.given) ?_ ?_
  · rintro s rfl
    rfl
  · rintro s l s' hr ⟨hsteady, hs⟩
    exact (step_walk (reachable_good hr.of_restrict.reachable) hs hsteady (reachable_walker hr)).2

theorem appended_origins {es : List WalkEvent}
    (h : (steadyServer args start i).Observed System.observeQueue es s) :
    (appended es).map (Prod.map MsgEntry.origin id) =
      (s.queue.entries.map MsgEntry.origin).zipIdx := by
  rw [appended, List.map_filterMap]
  refine h.filterMap_eq (L := fun s => (s.queue.entries.map MsgEntry.origin).zipIdx) ?_ ?_
  · rintro s rfl
    rfl
  · intro s l s' hr hs
    rw [← List.map_filterMap]
    exact step_appended_origins (reachable_good hr.of_restrict.reachable) hs.2

/-- **A worker neither skips nor repeats** an entry while its connections stay open: the
entry returned to it in the `n`-th place is the one that was appended in the `n`-th place. -/
theorem worker_returned_eq_appended {es : List WalkEvent}
    (h : (steadyServer args start i).Observed System.observeQueue es s) :
    (returned i es).Nodup ∧ ∀ n e : Nat, (returned i es)[n]? = some e →
      ∃ entry entry', (appended es)[n]? = some (entry, e) ∧ s.queue.entries[e]? = some entry' ∧
        entry.SameMsg entry' := by
  rw [worker_returned_eq_range h]
  refine ⟨List.nodup_range, fun n e hn => ?_⟩
  obtain ⟨rfl, entry', hentry⟩ := (reachable_walker h.reachable).exists_entry hn
  have happended := congrArg (·[e]?) (appended_origins h)
  simp only [List.getElem?_map, List.getElem?_zipIdx, hentry, Option.map_some, Nat.zero_add]
    at happended
  obtain ⟨⟨entry, e⟩, hentry', heq⟩ := Option.map_eq_some_iff.mp happended
  obtain ⟨horigin, rfl⟩ := Prod.mk.inj heq
  refine ⟨entry, entry', hentry', hentry, ?_, ?_⟩
  · exact (congrArg (·.1) horigin).symm
  · exact (congrArg (·.2) horigin).symm

end

end WireStorm
