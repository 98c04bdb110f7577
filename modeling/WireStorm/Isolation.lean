import WireStorm.Receiver
import WireStorm.View

/-!
# Workers and their neighbours

Two runs of the server that look alike to one worker. The worker's view of the
server (`LocalView`) is made of the entries as it sees them, its own variables and
what was written to the connections handed to it; what concerns it in a run is a
sequence of events (`System.observe`). The other steps leave the view alone as
long as no two workers share a flag (`hidden_localView`), and an event changes it
in a way that depends on the view alone (`env_localView`, `own_localView`). So the
worker writes the same bytes to the same connections in both runs, whatever the
other workers do (`written_unaffected`).
-/

namespace WireStorm

/-! ## The view of a worker -/

/-- The connections handed to worker `i`, in the order in which they were accepted. -/
def System.handed (s : System) (i : Nat) : List Nat :=
  (List.range s.accepted).filter fun c => (s.clients c).handedTo = [i]

/-- The bytes written to each of them. -/
def System.written (s : System) (i : Nat) : List (List UInt8) :=
  (s.handed i).map fun c => (s.clients c).out

/-- What worker `i` sees of the server. -/
structure LocalView where
  entries : List (Timespec × CtmpMsg × Option Bool)
  core : Worker
  written : List (List UInt8)

def System.localView (i : Nat) (s : System) : LocalView :=
  ⟨s.queue.entries.map (·.seenBy i), (s.workers i).core, s.written i⟩

/-- What concerns a worker in a run: an entry is appended or freed, the writes of a
hand-over to the worker, and its own steps with what its connection would answer. -/
inductive Event
  | append (timestamp : Timespec) (msg : CtmpMsg)
  | free (e : Nat)
  | setFd
  | setBusy
  | setTime (acceptTs : Timespec)
  | create
  | own (o : Outcome)
  deriving DecidableEq, Repr

/-- The events of a hand-over of a connection accepted at `acceptTs`. -/
def HandPc.event (acceptTs : Timespec) : HandPc → Option Event
  | .setFd => some .setFd
  | .setBusy => some .setBusy
  | .setTime => some (.setTime acceptTs)
  | .create => some .create
  | _ => none

/-- What worker `i` sees of a step. -/
def System.observe (i : Nat) (s : System) : Label → Option Event
  | .src _ =>
    match s.src with
    | .insert entry => some (.append entry.timestamp entry.carried)
    | _ => none
  | .dispatcher _ =>
    match s.dispatcher.pc with
    | .hand _ k _ h => if k = i then h.event s.dispatcher.clientTs else none
    | _ => none
  | .worker j o => if j = i then some (.own o) else none
  | .cleanup =>
    match s.cleanup.pc with
    | .free e => some (.free e)
    | _ => none
  | .tick _ | .wakeMsg _ | .wakeArgs _ => none

/-! ## The order of the connections -/

/-- The dispatcher works on the connection accepted last, and the connection of a
worker is the last one handed to it. -/
structure Ordered (s : System) : Prop where
  held : ∀ fd, s.dispatcher.pc.held = some fd → fd + 1 = s.accepted
  latest : ∀ i c, (s.workers i).clientFd = some c → ∀ c', (s.clients c').handedTo = [i] → c' ≤ c

section
variable {args : Args} {start : Timespec} {s s' : System} {l : Label} {i j c : Nat}

theorem ordered_init (start : Timespec) : Ordered (.init start) where
  held _ h := by cases h
  latest _ _ h := by cases h

/-- A step that hands nothing over. -/
theorem Ordered.frame (h : Ordered s) (hfd : ∀ i, (s'.workers i).clientFd = (s.workers i).clientFd)
    (hhanded : ∀ c i, (s'.clients c).handedTo = [i] → (s.clients c).handedTo = [i])
    (hacc : s'.accepted = s.accepted)
    (hheld : ∀ fd, s'.dispatcher.pc.held = some fd → s.dispatcher.pc.held = some fd) :
    Ordered s' where
  held fd hfd' := by
    rw [hacc]
    exact h.held fd (hheld fd hfd')
  latest i c hc c' hc' := by
    rw [hfd] at hc
    exact h.latest i c hc c' (hhanded c' i hc')

theorem dispatcherStep_ordered {accepts : Bool} (hg : Good args.numWorkers s) (h : Ordered s)
    (hs : s.dispatcherStep args accepts = some s') : Ordered s' := by
  cases dispatcherStep_move hg.pool hs with
  | calm _ hclients haccepted _ _ hheld _ _ hloop =>
    refine h.frame (fun i => (hloop i).clientFd) (fun c i hc => ?_) haccepted fun fd hfd => ?_
    · rwa [hclients] at hc
    · rwa [hheld] at hfd
  | accept hpc =>
    refine ⟨?_, h.latest⟩
    rintro fd ⟨⟩
    rfl
  | clock hpc =>
    rename_i fd
    refine h.frame (fun i => rfl) (fun c i hc => ?_) rfl fun fd' hfd => ?_
    · by_cases hcfd : c = fd
      · subst hcfd
        simp [Client.accept] at hc
      · simpa [hcfd] using hc
    · rw [hpc]
      exact hfd
  | setFd hpc =>
    rename_i fd k wake
    have hheld : s.dispatcher.pc.held = some fd := by rw [hpc]; rfl
    have hlast := h.held fd hheld
    have hnew := (hg.owned.held fd hheld).2.1
    refine ⟨fun fd' hfd => (by cases hfd), fun i c hc c' hc' => ?_⟩
    by_cases hcfd : c' = fd
    · subst hcfd
      have hi : i = k := by simpa [hnew] using hc'.symm
      subst hi
      have hc : c' = c := by simpa using hc
      exact Nat.le_of_eq hc
    · have hold : (s.clients c').handedTo = [i] := by simpa [hcfd] using hc'
      by_cases hi : i = k
      · subst hi
        have hc : fd = c := by simpa using hc
        have hlt : c' < s.accepted := by
          by_contra hge
          rw [(hg.owned.fresh c' (Nat.le_of_not_lt hge)).1] at hold
          cases hold
        omega
      · exact h.latest i c (by simpa [hi] using hc) c' hold
  | setTime hpc =>
    rename_i fd k wake
    refine h.frame (fun i => ?_) (fun c i hc => ?_) rfl fun fd' hfd => ?_
    · by_cases hi : i = k
      · subst hi
        simp
      · simp [hi]
    · by_cases hcfd : c = fd
      · subst hcfd
        simpa using hc
      · simpa [hcfd] using hc
    · cases wake <;> cases hfd
  | create hpc =>
    rename_i fd k wake _
    refine h.frame (fun i => ?_) (fun c i hc => hc) rfl fun fd' hfd => by cases hfd
    by_cases hi : i = k
    · subst hi
      simp
    · simp [hi]

theorem step_keeps_ordered (hg : Good args.numWorkers s) (h : Ordered s)
    (hs : s.step args l = some s') : Ordered s' := by
  have hsame : ∀ {s' : System}, s'.workers = s.workers → s'.clients = s.clients →
      s'.accepted = s.accepted → s'.dispatcher = s.dispatcher → Ordered s' := by
    intro s' hworkers hclients hacc hdisp
    refine h.frame (fun i => by rw [hworkers]) (fun c i hc => ?_) hacc fun fd hfd => ?_
    · rwa [hclients] at hc
    · rwa [hdisp] at hfd
  cases step_move hs with
  | src hstep =>
    have hframe := srcStep_frame hstep
    exact hsame hframe.workers hframe.clients hframe.accepted hframe.dispatcher
  | dispatcher hstep => exact dispatcherStep_ordered hg h hstep
  | @worker j o _ hstep =>
    obtain ⟨fd, v', hfd, hv, rfl⟩ := workerStep_eq hstep
    obtain ⟨hfd', -, -, hhanded, -⟩ := (WorkerView.step_move hv).frame
    refine h.frame (fun i => ?_) (fun c i hc => ?_) rfl fun _ hheld => hheld
    · by_cases hi : i = j
      · subst hi
        simpa [System.setView, System.view] using hfd'
      · simp [System.setView, hi]
    · by_cases hcfd : c = fd
      · subst hcfd
        simpa [System.setView, System.view, hhanded] using hc
      · simpa [System.setView, hcfd] using hc
  | cleanup hstep =>
    have hframe := (cleanupStep_frame hstep).1
    exact hsame hframe.workers hframe.clients hframe.accepted hframe.dispatcher
  | tick | wakeMsg => exact hsame rfl rfl rfl rfl
  | @wakeArgs j =>
    refine h.frame (fun i => ?_) (fun _ _ hc => hc) rfl fun _ hheld => hheld
    by_cases hi : i = j
    · subst hi
      simp
    · simp [hi]

theorem reachable_ordered (h : (server args start).Reachable s) : Ordered s :=
  LTS.ReachVia.invariant_ofFn (I := Ordered) (ordered_init start)
    (fun _ _ _ hr hi _ hs => step_keeps_ordered (reachable_good hr.reachable) hi hs) h

/-! ## What was written -/

/-- The connections up to the last one handed to a worker. -/
theorem filter_range_last {p : Nat → Bool} {n c : Nat} (hc : c < n) (hpc : p c = true)
    (hlast : ∀ c' < n, p c' = true → c' ≤ c) :
    (List.range n).filter p = (List.range c).filter p ++ [c] := by
  induction n with
  | zero => exact absurd hc (Nat.not_lt_zero c)
  | succ n ih =>
    rw [List.range_succ, List.filter_append]
    rcases Nat.lt_succ_iff_lt_or_eq.mp hc with hlt | rfl
    · have hn : p n = false := by
        cases hpn : p n with
        | false => rfl
        | true =>
          have := hlast n (Nat.lt_succ_self n) hpn
          omega
      rw [ih hlt fun c' hc' => hlast c' (Nat.lt_succ_of_lt hc'), List.filter_singleton, hn]
      simp
    · rw [List.filter_singleton, hpc]
      rfl

/-- The connection of a worker is the last one handed to it. -/
theorem Ordered.handed_eq (h : Ordered s) (hg : Good args.numWorkers s)
    (hfd : (s.workers i).clientFd = some c) :
    s.handed i = (List.range c).filter (fun c' => (s.clients c').handedTo = [i]) ++ [c] := by
  obtain ⟨hlt, hhanded⟩ := hg.owned.owner i c hfd
  refine filter_range_last hlt (by simpa using hhanded) fun c' _ hc' => ?_
  exact h.latest i c hfd c' (by simpa using hc')

theorem written_congr (hacc : s'.accepted = s.accepted)
    (hhanded : ∀ c, (s'.clients c).handedTo = [i] ↔ (s.clients c).handedTo = [i])
    (hout : ∀ c, (s.clients c).handedTo = [i] → (s'.clients c).out = (s.clients c).out) :
    s'.written i = s.written i := by
  have hlist : s'.handed i = s.handed i := by
    rw [System.handed, System.handed, hacc]
    exact List.filter_congr fun c _ => by simp only [hhanded]
  rw [System.written, System.written, hlist]
  refine List.map_congr_left fun c hc => hout c ?_
  simpa using (List.mem_filter.mp hc).2

/-! ## Steps that the worker does not see -/

theorem core_setWorker {k : Nat} {w : Worker} (hk : k = i → w.core = (s.workers k).core) :
    ((s.setWorker k w).workers i).core = (s.workers i).core := by
  by_cases hi : i = k
  · subst hi
    simpa using hk rfl
  · simp [hi]

/-- A step of `init_thread_info` or `wake_up_thread` that worker `i` does not see. -/
theorem handStep_core {fd k : Nat} {wake : Bool} {a : HandPc} (hs : s.handStep fd k wake a = some s')
    (hno : k = i → a.event s.dispatcher.clientTs = none) :
    (s'.workers i).core = (s.workers i).core := by
  cases a with
  | assertReady | lockArgs =>
    simp only [System.handStep] at hs
    split at hs <;> cases hs
    · first | rfl | exact core_setWorker fun _ => rfl
    all_goals rfl
  | lockMask =>
    obtain ⟨mask, -, rfl⟩ := Option.map_eq_some_iff.mp hs
    rfl
  | setBit | unlockMask =>
    cases hs
    rfl
  | initArgs | signal | unlockArgs =>
    cases hs
    exact core_setWorker fun _ => rfl
  | setFd =>
    cases hs
    refine core_setWorker fun _ => rfl
  | setBusy | setTime | create =>
    cases hs
    refine core_setWorker fun hk => ?_
    cases hno hk

theorem dispatcherStep_core {accepts : Bool} (hs : s.dispatcherStep args accepts = some s')
    (hno : s.observe i (.dispatcher accepts) = none) :
    (s'.workers i).core = (s.workers i).core := by
  unfold System.dispatcherStep at hs
  split at hs
  · split at hs <;> cases hs <;> rfl
  · cases hs
    rfl
  · split at hs
    · obtain ⟨mask, -, rfl⟩ := Option.map_eq_some_iff.mp hs
      rfl
    · cases hs
      rfl
  · cases hs
    rfl
  · cases hs
    rfl
  · cases hs
    rfl
  · split at hs <;> cases hs <;> rfl
  · rename_i fd k wake a hpc
    refine handStep_core hs fun hk => ?_
    simpa [System.observe, hpc, hk] using hno

theorem dispatcherStep_written {accepts : Bool} (hg : Good args.numWorkers s)
    (hs : s.dispatcherStep args accepts = some s')
    (hno : s.observe i (.dispatcher accepts) = none) : s'.written i = s.written i := by
  cases dispatcherStep_move hg.pool hs with
  | calm _ hclients haccepted =>
    exact written_congr haccepted (fun c => by rw [hclients]) fun c _ => by rw [hclients]
  | accept hpc =>
    have hfresh := (hg.owned.fresh s.accepted (Nat.le_refl _)).1
    have hlist : ({ s with accepted := s.accepted + 1 }.dispatcherAt (.clock s.accepted)).handed i =
        s.handed i := by
      simp only [System.handed, System.accepted_dispatcherAt, System.clients_dispatcherAt,
        List.range_succ, List.filter_append]
      simp only [hfresh, List.filter_singleton, List.nil_eq, reduceCtorEq, decide_false,
        cond_false, List.append_nil]
      rfl
    rw [System.written, System.written, hlist]
    rfl
  | clock hpc =>
    rename_i fd
    have hnew := (hg.owned.held fd (by rw [hpc]; rfl)).2.1
    refine written_congr rfl (fun c => ?_) fun c hc => ?_
    · by_cases hcfd : c = fd
      · subst hcfd
        simp [Client.accept, hnew]
      · simp [hcfd]
    · have hcfd : c ≠ fd := by
        rintro rfl
        rw [hnew] at hc
        cases hc
      simp [hcfd]
  | setFd hpc =>
    rename_i fd k wake
    have hnew := (hg.owned.held fd (by rw [hpc]; rfl)).2.1
    have hk : k ≠ i := by
      rintro rfl
      simp [System.observe, hpc, HandPc.event] at hno
    refine written_congr rfl (fun c => ?_) fun c hc => ?_
    · by_cases hcfd : c = fd
      · subst hcfd
        simp [hnew, hk]
      · simp [hcfd]
    · by_cases hcfd : c = fd
      · subst hcfd
        simp
      · simp [hcfd]
  | setTime hpc =>
    rename_i fd k wake
    refine written_congr rfl (fun c => ?_) fun c hc => ?_
    · by_cases hcfd : c = fd
      · subst hcfd
        simp
      · simp [hcfd]
    · by_cases hcfd : c = fd
      · subst hcfd
        simp
      · simp [hcfd]
  | create hpc => exact written_congr rfl (fun c => Iff.rfl) fun c _ => rfl

/-- A step of another worker, which does not share the flag. -/
theorem workerStep_hidden {o : Outcome} (hn : args.numWorkers ≤ 32) (hi : i < args.numWorkers)
    (hji : j ≠ i) (hg : Good args.numWorkers s) (hs : s.workerStep j o = some s') :
    s'.localView i = s.localView i := by
  obtain ⟨fd, v', hfd, hv, rfl⟩ := workerStep_eq hs
  have hmove := WorkerView.step_move hv
  have hj : j < args.numWorkers := by
    by_contra hj
    have hidle := hg.pool.started j (Nat.le_of_not_lt hj)
    simp only [WorkerView.step, System.view, hidle] at hv
    cases hv
  have hmod : j % 32 ≠ i % 32 := by
    rw [Nat.mod_eq_of_lt (by omega), Nat.mod_eq_of_lt (by omega)]
    exact hji
  have hentries : v'.queue.entries.map (·.seenBy i) = s.queue.entries.map (·.seenBy i) := by
    rcases (hmove.effect (hg.cursors j)).entries with hes | ⟨e, entry, entry', val, hentry, hset, hes⟩
    · rw [hes]
      rfl
    · rw [hes]
      exact map_set_of_eq (f := (·.seenBy i)) hentry (MsgEntry.seenBy_setSent_of_ne hmod hset)
  have hwritten : (s.setView j fd v').written i = s.written i := by
    obtain ⟨-, -, -, hhanded, -⟩ := hmove.frame
    have howner := (hg.owned.owner j fd hfd).2
    have hne : (s.clients fd).handedTo ≠ [i] := by
      rw [howner]
      simpa using hji
    refine written_congr rfl (fun c => ?_) fun c hc => ?_
    · by_cases hcfd : c = fd
      · subst hcfd
        simp [System.setView, System.view, hhanded]
      · simp [System.setView, hcfd]
    · have hcfd : c ≠ fd := fun hcfd => hne (hcfd ▸ hc)
      simp [System.setView, hcfd]
  simp only [System.localView, hwritten, LocalView.mk.injEq, and_true]
  refine ⟨hentries, ?_⟩
  simp [System.setView, Ne.symm hji]

theorem localView_congr (hentries : s'.queue.entries = s.queue.entries)
    (hcore : (s'.workers i).core = (s.workers i).core) (hwritten : s'.written i = s.written i) :
    s'.localView i = s.localView i := by
  rw [System.localView, System.localView, hentries, hcore, hwritten]

/-- **A step that worker `i` sees nothing of** leaves its view alone. -/
theorem hidden_localView (hn : args.numWorkers ≤ 32) (hi : i < args.numWorkers)
    (hg : Good args.numWorkers s) (hs : s.step args l = some s') (hno : s.observe i l = none) :
    s'.localView i = s.localView i := by
  -- steps that leave workers and connections alone
  have hsame : ∀ {s' : System}, s'.queue.entries = s.queue.entries → s'.workers = s.workers →
      s'.clients = s.clients → s'.accepted = s.accepted → s'.localView i = s.localView i := by
    intro s' hentries hworkers hclients hacc
    refine localView_congr hentries (by rw [hworkers]) ?_
    exact written_congr hacc (fun c => by rw [hclients]) fun c _ => by rw [hclients]
  cases step_move hs with
  | src hstep =>
    have hframe := srcStep_frame hstep
    rcases srcStep_entries hstep with hentries | ⟨entry, hsrc, -⟩
    · exact hsame hentries hframe.workers hframe.clients hframe.accepted
    · simp [System.observe, hsrc] at hno
  | dispatcher hstep =>
    exact localView_congr (congrArg _ (dispatcherStep_queue hg.pool hstep))
      (dispatcherStep_core hstep hno) (dispatcherStep_written hg hstep hno)
  | @worker j o _ hstep =>
    have hji : j ≠ i := by
      rintro rfl
      simp [System.observe] at hno
    exact workerStep_hidden hn hi hji hg hstep
  | cleanup hstep =>
    have hframe := (cleanupStep_frame hstep).1
    rcases cleanupStep_entries hstep with hentries | ⟨e, entry, hpc, -, -⟩
    · exact hsame hentries hframe.workers hframe.clients hframe.accepted
    · simp [System.observe, hpc] at hno
  | tick | wakeMsg => exact hsame rfl rfl rfl rfl
  | wakeArgs =>
    refine localView_congr rfl ?_ (written_congr rfl (fun c => Iff.rfl) fun c _ => rfl)
    exact core_setWorker fun _ => rfl

/-! ## Steps that the worker sees -/

/-- What an event that is not its own step does to the view of a worker. -/
def LocalView.env (lv : LocalView) : Event → LocalView
  | .append ts msg => { lv with entries := lv.entries ++ [(ts, msg, some false)] }
  | .free e => { lv with entries := lv.entries.modify e fun x => (x.1, x.2.1, none) }
  | .setFd => { lv with written := lv.written ++ [[]] }
  | .setBusy => { lv with core := { lv.core with status := .busy } }
  | .setTime ts => { lv with core := { lv.core with timestamp := ts } }
  | .create =>
    { lv with core := { lv.core with
      pc := .get none .test, prev := none, next := none, bytesSent := 0 } }
  | .own _ => lv

/-- A connection is handed to worker `i`. -/
theorem written_setFd {fd : Nat} (hlast : fd + 1 = s.accepted) (hnew : (s.clients fd).handedTo = [])
    (hout : (s.clients fd).out = []) (hacc : s'.accepted = s.accepted)
    (hclients : s'.clients = Function.update s.clients fd
      { s.clients fd with handedTo := (s.clients fd).handedTo ++ [i] }) :
    s'.written i = s.written i ++ [[]] := by
  have hbefore : ∀ c ∈ List.range fd, s'.clients c = s.clients c := by
    intro c hc
    rw [hclients, Function.update_of_ne (Nat.ne_of_lt (List.mem_range.mp hc))]
  have hfd : s'.clients fd = { s.clients fd with handedTo := [i] } := by
    rw [hclients, Function.update_self, hnew]
    rfl
  have hold : s.handed i = (List.range fd).filter fun c => (s.clients c).handedTo = [i] := by
    rw [System.handed, ← hlast, List.range_succ, List.filter_append, List.filter_singleton, hnew]
    simp
  have hhanded : s'.handed i = s.handed i ++ [fd] := by
    rw [hold, System.handed, hacc, ← hlast, List.range_succ, List.filter_append,
      List.filter_singleton, hfd]
    simp only [decide_true, cond_true, List.append_cancel_right_eq]
    exact List.filter_congr fun c hc => by rw [hbefore c hc]
  rw [System.written, hhanded, List.map_append, List.map_singleton, hfd, hout, System.written]
  refine congrArg (· ++ [[]]) (List.map_congr_left fun c hc => ?_)
  rw [hold] at hc
  rw [hbefore c (List.mem_filter.mp hc).1]

/-- The steps of a hand-over to worker `i`. -/
theorem handStep_localView {fd : Nat} {wake : Bool} {a : HandPc} {ev : Event}
    (hg : Good args.numWorkers s) (ho : Ordered s) (hpc : s.dispatcher.pc = .hand fd i wake a)
    (hs : s.handStep fd i wake a = some s') (hev : a.event s.dispatcher.clientTs = some ev) :
    s'.localView i = (s.localView i).env ev := by
  cases a with
  | setFd =>
    cases hs
    cases hev
    have hheld : s.dispatcher.pc.held = some fd := by rw [hpc]; rfl
    obtain ⟨hlt, hnew, hassigned⟩ := hg.owned.held fd hheld
    have hlast := ho.held fd hheld
    have hout := (hg.owned.untouched fd hassigned).out
    simp only [System.localView, LocalView.env, LocalView.mk.injEq]
    exact ⟨rfl, core_setWorker fun _ => rfl, written_setFd hlast hnew hout rfl rfl⟩
  | setBusy | create =>
    cases hs
    cases hev
    simp only [System.localView, LocalView.env, LocalView.mk.injEq, System.workers_dispatcherAt,
      System.workers_setWorker, Function.update_self]
    exact ⟨rfl, rfl, written_congr rfl (fun c => Iff.rfl) fun c _ => rfl⟩
  | setTime =>
    cases hs
    cases hev
    simp only [System.localView, LocalView.env, LocalView.mk.injEq, System.workers_dispatcherAt,
      System.workers_setClient, System.workers_setWorker, Function.update_self]
    refine ⟨rfl, rfl, written_congr rfl (fun c => ?_) fun c _ => ?_⟩
    · by_cases hc : c = fd
      · subst hc
        simp
      · simp [hc]
    · by_cases hc : c = fd
      · subst hc
        simp
      · simp [hc]
  | _ => cases hev

/-- **An event that is not a step of the worker** changes its view by `LocalView.env`. -/
theorem env_localView {ev : Event} (hev : ∀ o, ev ≠ .own o) (hg : Good args.numWorkers s)
    (ho : Ordered s) (hfresh : SrcFresh s) (hs : s.step args l = some s')
    (hobs : s.observe i l = some ev) : s'.localView i = (s.localView i).env ev := by
  cases step_move hs with
  | src hstep =>
    simp only [System.observe] at hobs
    split at hobs
    · rename_i entry hsrc
      cases hobs
      simp only [System.srcStep, hsrc, Option.some.injEq] at hstep
      subst hstep
      have hentry := hfresh entry (.inr hsrc)
      have hseen : entry.seenBy i = (entry.timestamp, entry.carried, some false) := by
        rw [hentry]
        simp [MsgEntry.seenBy, initMsgEntry, MsgEntry.isSent]
      simp only [System.localView, LocalView.env, MsgQueue.entries_insertTail, List.map_append,
        List.map_singleton, hseen, LocalView.mk.injEq, true_and]
      exact written_congr rfl (fun c => Iff.rfl) fun c _ => rfl
    · cases hobs
  | dispatcher hstep =>
    simp only [System.observe] at hobs
    split at hobs
    · rename_i fd k wake a hpc
      split at hobs
      · rename_i hk
        subst hk
        simp only [System.dispatcherStep, hpc] at hstep
        exact handStep_localView hg ho hpc hstep hobs
      · cases hobs
    · cases hobs
  | worker hstep =>
    simp only [System.observe] at hobs
    split at hobs <;> cases hobs
    exact absurd rfl (hev _)
  | cleanup hstep =>
    simp only [System.observe] at hobs
    split at hobs
    · rename_i e hpc
      cases hobs
      simp only [System.cleanupStep, hpc] at hstep
      split at hstep
      · cases hstep
      · rename_i entry hentry
        cases hstep
        have hfreed : (s.queue.entries.set e entry.freeMsgData).map (·.seenBy i) =
            (s.queue.entries.map (·.seenBy i)).modify e fun x => (x.1, x.2.1, none) :=
          map_set_eq_modify hentry rfl
        simp only [System.localView, LocalView.env, MsgQueue.entries_setEntry, hfreed,
          LocalView.mk.injEq, true_and]
        exact written_congr rfl (fun c => Iff.rfl) fun c _ => rfl
    · cases hobs
  | tick | wakeMsg | wakeArgs => cases hobs

/-- A step of worker `i` on its connection. -/
theorem written_own {fd : Nat} {v' : WorkerView} (hg : Good args.numWorkers s) (ho : Ordered s)
    (hfd : (s.workers i).clientFd = some fd) (hhanded : v'.client.handedTo = (s.clients fd).handedTo) :
    ∃ before, s.written i = before ++ [(s.clients fd).out] ∧
      (s.setView i fd v').written i = before ++ [v'.client.out] := by
  have hlist : (s.setView i fd v').handed i = s.handed i := by
    refine List.filter_congr fun c _ => ?_
    by_cases hc : c = fd
    · subst hc
      simp [System.setView, hhanded]
    · simp [System.setView, hc]
  refine ⟨((List.range fd).filter fun c => (s.clients c).handedTo = [i]).map
    fun c => (s.clients c).out, ?_, ?_⟩
  · rw [System.written, ho.handed_eq hg hfd, List.map_append, List.map_singleton]
  · rw [System.written, hlist, ho.handed_eq hg hfd, List.map_append, List.map_singleton]
    congr 1
    · refine List.map_congr_left fun c hc => ?_
      have hlt := List.mem_range.mp (List.mem_filter.mp hc).1
      simp [System.setView, Nat.ne_of_lt hlt]
    · simp [System.setView]

/-- Only the steps of worker `i` are its own events. -/
theorem observe_own {o : Outcome} (hobs : s.observe i l = some (.own o)) : l = .worker i o := by
  cases l with
  | worker j o' =>
    simp only [System.observe] at hobs
    split at hobs
    · rename_i hj
      subst hj
      cases hobs
      rfl
    · cases hobs
  | src =>
    simp only [System.observe] at hobs
    split at hobs <;> cases hobs
  | dispatcher =>
    simp only [System.observe] at hobs
    split at hobs
    · rename_i a _
      split at hobs
      · cases a <;> cases hobs
      · cases hobs
    · cases hobs
  | cleanup =>
    simp only [System.observe] at hobs
    split at hobs <;> cases hobs
  | tick | wakeMsg | wakeArgs => cases hobs

/-- **The steps of the worker itself** from views that are the same. -/
theorem own_localView {t t' : System} {m : Label} {o : Outcome} (hs : s.step args l = some s')
    (ht : t.step args m = some t') (hg : Good args.numWorkers s) (hg' : Good args.numWorkers t)
    (ho : Ordered s) (ho' : Ordered t) (hview : s.localView i = t.localView i)
    (hobs : s.observe i l = some (.own o)) (hobs' : t.observe i m = some (.own o)) :
    s'.localView i = t'.localView i := by
  obtain rfl := observe_own hobs
  obtain rfl := observe_own hobs'
  obtain ⟨fd, v, hfd, hv, rfl⟩ := workerStep_eq (workerStep_of_step hs)
  obtain ⟨fd', w, hfd', hw, rfl⟩ := workerStep_eq (workerStep_of_step ht)
  obtain ⟨-, -, -, hhanded, -⟩ := (WorkerView.step_move hv).frame
  obtain ⟨-, -, -, hhanded', -⟩ := (WorkerView.step_move hw).frame
  obtain ⟨before, hwritten, hafter⟩ := written_own hg ho hfd hhanded
  obtain ⟨before', hwritten', hafter'⟩ := written_own hg' ho' hfd' hhanded'
  simp only [System.localView, LocalView.mk.injEq] at hview
  obtain ⟨hentries, hcore, hlists⟩ := hview
  -- both connections are the last ones handed to the worker
  obtain ⟨hbefore, hout⟩ : before = before' ∧ (s.clients fd).out = (t.clients fd').out := by
    rw [hwritten, hwritten'] at hlists
    obtain ⟨hbefore, hlast⟩ := List.append_inj' hlists rfl
    exact ⟨hbefore, List.singleton_inj.mp hlast⟩
  have hagree : Agree i (s.view i fd) (t.view i fd') := ⟨hentries, hcore, hout⟩
  have hafterAgree := hagree.step hv hw
  simp only [System.localView, LocalView.mk.injEq, hafter, hafter', hbefore, hafterAgree.out,
    and_true]
  refine ⟨hafterAgree.entries, ?_⟩
  simpa [System.setView] using hafterAgree.core

end

/-! ## Two runs -/

/-- **Receivers do not influence each other**: in two runs in which worker `i` sees the
same events it writes the same bytes to the same of its connections. -/
theorem written_unaffected {args : Args} {start : Timespec} {i : Nat} {es : List Event}
    {s t : System} (hn : args.numWorkers ≤ 32) (hi : i < args.numWorkers)
    (hs : (server args start).Observed (System.observe i) es s)
    (ht : (server args start).Observed (System.observe i) es t) : s.written i = t.written i := by
  have hview : s.localView i = t.localView i := by
    refine LTS.Observed.view_eq ?_ ?_ ?_ hs ht
    · rintro s t rfl rfl
      rfl
    · intro s l s' hr hstep hno
      exact hidden_localView hn hi (reachable_good hr) hstep hno
    · intro s l s' t m t' ev hr hr' hview hobs hobs' hstep hstep'
      have hg := reachable_good hr
      have hg' := reachable_good hr'
      have ho := reachable_ordered hr
      have ho' := reachable_ordered hr'
      by_cases hown : ∃ o, ev = .own o
      · obtain ⟨o, rfl⟩ := hown
        exact own_localView hstep hstep' hg hg' ho ho' hview hobs hobs'
      · have hev : ∀ o, ev ≠ .own o := fun o ho => hown ⟨o, ho⟩
        rw [env_localView hev hg ho (reachable_srcFresh hr) hstep hobs,
          env_localView hev hg' ho' (reachable_srcFresh hr') hstep' hobs', hview]
  exact congrArg LocalView.written hview

/-- Worker 0 forwards a message to its receiver. -/
def aloneLabels : List Label :=
  connectLabels ++ .tick ⟨1, 0⟩ :: enqueueLabels sampleMsg ++ workerLabels 0 12 (.bytes 8)

/-- In between, another receiver is accepted, a send to it fails, and its worker sets its flag
of the entry. -/
def sharedLabels : List Label :=
  connectLabels ++ List.replicate 17 (.dispatcher true) ++
    .tick ⟨1, 0⟩ :: enqueueLabels sampleMsg ++ workerLabels 1 6 .eintr ++
    workerLabels 1 2 (.error .epipe) ++ workerLabels 0 12 (.bytes 8)

/-- The second receiver makes no difference to the first. -/
theorem written_unaffected_shared :
    ∃ es s t, (server .default ⟨0, 0⟩).Observed (System.observe 0) es s ∧
      (server .default ⟨0, 0⟩).Observed (System.observe 0) es t ∧
      s.written 0 = [[0xcc, 0, 0, 1, 0, 0, 0, 0, 0x41]] ∧ s.accepted = 1 ∧
      (t.clients 1).SendFailed ∧ (∃ entry ∈ t.queue.entries, entry.isSent 1 = some true) ∧
      s.written 0 = t.written 0 := by
  obtain ⟨s, hs, hp⟩ := LTS.exists_observed (System.step .default) (System.observe 0)
    (.init ⟨0, 0⟩) aloneLabels
    (fun s => s.written 0 = [[0xcc, 0, 0, 1, 0, 0, 0, 0, 0x41]] ∧ s.accepted = 1) (by decide)
  obtain ⟨t, ht, hq⟩ := LTS.exists_observed (System.step .default) (System.observe 0)
    (.init ⟨0, 0⟩) sharedLabels (fun t => (t.clients 1).SendFailed ∧
      ∃ entry ∈ t.queue.entries, entry.isSent 1 = some true) (by decide)
  have hseen : LTS.seen (System.step .default) (System.observe 0) (.init ⟨0, 0⟩) aloneLabels =
      LTS.seen (System.step .default) (System.observe 0) (.init ⟨0, 0⟩) sharedLabels := by decide
  rw [← hseen] at ht
  obtain ⟨hwritten, haccepted⟩ : s.written 0 = [[0xcc, 0, 0, 1, 0, 0, 0, 0, 0x41]] ∧
      s.accepted = 1 := by simpa using hp
  obtain ⟨hfailed, hmarked⟩ := of_decide_eq_true hq
  exact ⟨_, s, t, hs, ht, hwritten, haccepted, hfailed, hmarked,
    written_unaffected (by decide) (by decide) hs ht⟩

end WireStorm
