import WireStorm.Cursor

/-!
# Sessions

A session is the time in which a worker serves one connection (`Serving`), from
the `set_time` of its hand-over to the `close`. This file says what one step of
the server does to a connection (`ClientMove`) and to a session (`SessionMove`);
what holds of every session follows from the cases of the latter.
-/

namespace WireStorm

/-- Worker `i` serves connection `c`. -/
structure Serving (s : System) (i c : Nat) : Prop where
  fd : (s.workers i).clientFd = some c
  assigned : (s.clients c).assigned = true
  live : (s.clients c).closed = false

/-! ## Workers in a session -/

theorem SameLoop.pos {w w' : Worker} (h : SameLoop w w') : w'.pos = w.pos := by
  simp only [Worker.pos, h.pc, h.prev, h.next]

theorem SameLoop.task {w w' : Worker} (h : SameLoop w w') : w'.task = w.task := by
  simp only [Worker.task, h.pc, h.bytesSent]

section
variable {n : Nat} {s s' : System} {i j c : Nat}

/-- A worker that serves a connection has its timestamp. -/
theorem Owned.serving_link (h : Owned n s) (hs : Serving s i c) :
    (s.workers i).link (s.stage i) = .live ∧ (s.workers i).timestamp = (s.clients c).acceptTs := by
  have hlinked := h.linked i
  cases hlink : (s.workers i).link (s.stage i) with
  | absent =>
    rw [hlink] at hlinked
    exact absurd (hs.fd.symm.trans hlinked) (by simp)
  | pending =>
    rw [hlink] at hlinked
    obtain ⟨d, hd, hassigned⟩ := hlinked
    rw [hs.fd] at hd
    cases hd
    rw [hs.assigned] at hassigned
    cases hassigned
  | live =>
    rw [hlink] at hlinked
    obtain ⟨d, hd, -, -, hts⟩ := hlinked
    rw [hs.fd] at hd
    cases hd
    exact ⟨rfl, hts⟩
  | closed =>
    rw [hlink] at hlinked
    obtain ⟨d, hd, -, hclosed⟩ := hlinked
    rw [hs.fd] at hd
    cases hd
    rw [hs.live] at hclosed
    cases hclosed

theorem Owned.serving_of_link (h : Owned n s) (hlink : (s.workers i).link (s.stage i) = .live)
    (hfd : (s.workers i).clientFd = some c) : Serving s i c := by
  have hlinked := h.linked i
  rw [hlink] at hlinked
  obtain ⟨d, hd, hassigned, hclosed, -⟩ := hlinked
  rw [hfd] at hd
  cases hd
  exact ⟨hfd, hassigned, hclosed⟩

/-- A connection is served by one worker. -/
theorem Owned.serving_unique (h : Owned n s) (hi : Serving s i c) (hj : Serving s j c) : i = j := by
  by_contra hij
  exact h.ne_of_fd hi.fd hj.fd (Ne.symm hij) rfl

/-- A worker whose hand-over lacks the timestamp stands still. -/
theorem task_setTime {wake : Bool} {w : Worker} (hok : WorkerOk (some (wake, .setTime)) i w) :
    w.task = .seek := by
  cases wake with
  | false =>
    rw [Worker.task, place_fresh (workerOk_init.mp hok).1]
  | true =>
    rcases workerOk_wake.mp hok with ⟨-, hearly, -⟩ | ⟨hplace, -⟩
    · cases hearly
    · obtain ⟨e, he⟩ := place_asleep hplace
      rw [Worker.task, he]

/-- A worker and its connection when the hand-over lacks the timestamp. -/
theorem Good.setTime {fd k : Nat} {wake : Bool} (h : Good n s)
    (hpc : s.dispatcher.pc = .hand fd k wake .setTime) :
    (s.workers k).clientFd = some fd ∧ (s.clients fd).assigned = false ∧
      (s.workers k).task = .seek := by
  obtain ⟨hfd, hassigned⟩ := h.owned.unassigned h.pool hpc
  have hok := h.pool.worker k
  rw [System.stage, hpc, stage_hand] at hok
  exact ⟨hfd, hassigned, task_setTime hok⟩

end

/-! ## What a step does to a connection -/

/-- What a step does to connection `c`. -/
inductive ClientMove (s s' : System) (l : Label) (c : Nat) : Prop
  | same (hclient : s'.clients c = s.clients c)
  | setup (hunassigned : (s.clients c).assigned = false) (huntouched : (s'.clients c).Untouched)
      (hserving : (s'.clients c).assigned = true → ∃ i, Serving s' i c)
  | own {i : Nat} {o : Outcome} (hl : l = .worker i o) (hserving : Serving s i c)
      (heffect : Effect i (s.view i c) (s'.view i c))

/-- What a step does to the session of worker `i` with connection `c`. -/
inductive SessionMove (s s' : System) (l : Label) (i c : Nat) : Prop
  | frame (hserving : Serving s i c) (hclient : s'.clients c = s.clients c)
      (hpos : (s'.workers i).pos = (s.workers i).pos)
      (htask : (s'.workers i).task = (s.workers i).task)
  | assign {wake accepts : Bool} (hl : l = .dispatcher accepts)
      (hpc : s.dispatcher.pc = .hand c i wake .setTime)
      (hunassigned : (s.clients c).assigned = false) (huntouched : (s'.clients c).Untouched)
      (hts : (s'.clients c).acceptTs = (s.clients c).acceptTs)
      (hpos : (s'.workers i).pos = (s.workers i).pos) (htask : (s'.workers i).task = .seek)
      (hentries : s'.queue.entries = s.queue.entries)
  | own {o : Outcome} (hl : l = .worker i o) (hserving : Serving s i c)
      (heffect : Effect i (s.view i c) (s'.view i c))

section
variable {args : Args} {s s' : System} {l : Label} {i c : Nat}

theorem view_setView (s : System) (i fd : Nat) (v : WorkerView) : (s.setView i fd v).view i fd = v := by
  simp [System.view, System.setView]

/-- A step of the server that leaves workers and connections alone. -/
theorem SessionMove.of_eq (hserving : Serving s' i c) (hworkers : s'.workers = s.workers)
    (hclients : s'.clients = s.clients) : SessionMove s s' l i c := by
  obtain ⟨hfd, hassigned, hlive⟩ := hserving
  rw [hworkers] at hfd
  rw [hclients] at hassigned hlive
  exact .frame ⟨hfd, hassigned, hlive⟩ (by rw [hclients]) (by rw [hworkers]) (by rw [hworkers])

/-- What no step of a worker changes about the connection. -/
theorem Effect.frame {v v' : WorkerView} (h : Effect i v v') :
    v'.client.acceptTs = v.client.acceptTs ∧ v'.client.assigned = v.client.assigned ∧
      (v'.client.closed = false → v.client.closed = false) := by
  cases h with
  | quiet _ hclient | dead _ hclient | refuse _ _ _ _ hclient | start _ _ _ hclient
  | write _ _ _ _ hclient | mark _ _ _ hclient | reset _ _ _ hclient =>
    rw [hclient]
    exact ⟨rfl, rfl, id⟩
  | sent _ _ _ _ hclient =>
    rw [hclient, Client.sent]
    split <;> exact ⟨rfl, rfl, id⟩
  | closed _ hclient =>
    rw [hclient]
    exact ⟨rfl, rfl, by simp⟩
  | fault _ _ _ hv =>
    rw [hv]
    exact ⟨rfl, rfl, id⟩

theorem workerStep_session {j : Nat} {o : Outcome} (h : Good args.numWorkers s)
    (hs : s.workerStep j o = some s') (hserving : Serving s' i c) :
    SessionMove s s' (.worker j o) i c := by
  obtain ⟨fd, v', hfd, hv, rfl⟩ := workerStep_eq hs
  have hmove := WorkerView.step_move hv
  obtain ⟨hserv, hassigned, hlive⟩ := hserving
  by_cases hij : i = j
  · subst hij
    have hc : fd = c := by
      simp only [System.setView, Function.update_self] at hserv
      rw [hmove.frame.1] at hserv
      exact Option.some.inj (hfd.symm.trans hserv)
    subst hc
    have heffect := hmove.effect (h.cursors i)
    rw [← view_setView s i fd v'] at heffect
    obtain ⟨-, hframe, hclosed⟩ := heffect.frame
    exact .own rfl ⟨hfd, hframe.symm.trans hassigned, hclosed hlive⟩ heffect
  · simp only [System.setView, Function.update_of_ne hij] at hserv
    have hne : c ≠ fd := h.owned.ne_of_fd hfd hserv hij
    have hclient : (s.setView j fd v').clients c = s.clients c := by simp [System.setView, hne]
    rw [hclient] at hassigned hlive
    refine .frame ⟨hserv, hassigned, hlive⟩ hclient ?_ ?_
    · simp [System.setView, hij]
    · simp [System.setView, hij]

theorem dispatcherStep_session {accepts : Bool} (h : Good args.numWorkers s)
    (hs : s.dispatcherStep args accepts = some s') (hserving : Serving s' i c) :
    SessionMove s s' (.dispatcher accepts) i c := by
  have ho' := dispatcherStep_owned h.pool h.owned hs
  have hqueue := dispatcherStep_queue h.pool hs
  cases dispatcherStep_move h.pool hs with
  | calm _ hclients _ _ _ _ _ _ hloop =>
    obtain ⟨hfd, hassigned, hlive⟩ := hserving
    rw [(hloop i).clientFd] at hfd
    rw [hclients] at hassigned hlive
    exact .frame ⟨hfd, hassigned, hlive⟩ (by rw [hclients]) (hloop i).pos (hloop i).task
  | accept => exact .of_eq hserving rfl rfl
  | clock hpc =>
    rename_i fd
    obtain ⟨hfd, hassigned, hlive⟩ := hserving
    have hne : c ≠ fd := h.owned.ne_of_held (by rw [hpc]; rfl) hfd
    simp only [System.clients_setClient, Function.update_of_ne hne] at hassigned hlive
    exact .frame ⟨hfd, hassigned, hlive⟩ (by simp [hne]) rfl rfl
  | setFd hpc =>
    rename_i fd k wake
    obtain ⟨hfd, hassigned, hlive⟩ := hserving
    have hheld : s.dispatcher.pc.held = some fd := by rw [hpc]; rfl
    have hne : c ≠ fd := by
      rintro rfl
      simp [(h.owned.held c hheld).2.2] at hassigned
    have hik : i ≠ k := by
      rintro rfl
      simp only [System.workers_dispatcherAt, System.workers_setClient, System.workers_setWorker,
        Function.update_self] at hfd
      exact hne (Option.some.inj hfd).symm
    simp only [System.clients_dispatcherAt, System.clients_setClient, Function.update_of_ne hne]
      at hassigned hlive
    simp only [System.workers_dispatcherAt, System.workers_setClient, System.workers_setWorker,
      Function.update_of_ne hik] at hfd
    exact .frame ⟨hfd, hassigned, hlive⟩ (by simp [hne]) (by simp [hik]) (by simp [hik])
  | setTime hpc =>
    rename_i fd k wake
    obtain ⟨hpend, hunassigned, htask⟩ := h.setTime hpc
    by_cases hik : i = k
    · subst hik
      have hc : fd = c := by
        have hfd := hserving.fd
        simp only [System.workers_dispatcherAt, System.workers_setClient, System.workers_setWorker,
          Function.update_self] at hfd
        exact Option.some.inj (hpend.symm.trans hfd)
      subst hc
      obtain ⟨hout, hdel, hunf, hsends, hdead, hclosed⟩ := h.owned.untouched fd hunassigned
      have hpos : ∀ ts, ({ s.workers i with timestamp := ts } : Worker).pos = (s.workers i).pos :=
        fun _ => rfl
      refine .assign rfl hpc hunassigned ?_ (by simp) (by simp [hpos]) ?_ rfl
      · simp only [System.clients_dispatcherAt, System.clients_setClient, Function.update_self]
        exact ⟨hout, hdel, hunf, hsends, hdead, hclosed⟩
      · simp only [System.workers_dispatcherAt, System.workers_setClient, System.workers_setWorker,
          Function.update_self]
        exact htask
    · obtain ⟨hfd, hassigned, hlive⟩ := hserving
      simp only [System.workers_dispatcherAt, System.workers_setClient, System.workers_setWorker,
        Function.update_of_ne hik] at hfd
      have hne : c ≠ fd := h.owned.ne_of_fd hpend hfd hik
      simp only [System.clients_dispatcherAt, System.clients_setClient, Function.update_of_ne hne]
        at hassigned hlive
      exact .frame ⟨hfd, hassigned, hlive⟩ (by simp [hne]) (by simp [hik]) (by simp [hik])
  | create hpc hidle =>
    rename_i fd k wake
    by_cases hik : i = k
    · subst hik
      obtain ⟨hfd, hassigned, hlive⟩ := hserving
      simp only [System.workers_dispatcherAt, System.workers_setWorker, Function.update_self] at hfd
      refine .frame ⟨hfd, hassigned, hlive⟩ rfl ?_ ?_
      · simp [Worker.pos, seekPos, hidle]
      · simp [Worker.task, hidle]
    · obtain ⟨hfd, hassigned, hlive⟩ := hserving
      simp only [System.workers_dispatcherAt, System.workers_setWorker, Function.update_of_ne hik]
        at hfd
      exact .frame ⟨hfd, hassigned, hlive⟩ rfl (by simp [hik]) (by simp [hik])

/-- **A step of the server** does one of the moves to a session. -/
theorem step_session (h : Good args.numWorkers s) (hs : s.step args l = some s')
    (hserving : Serving s' i c) : SessionMove s s' l i c := by
  cases step_move hs with
  | src hstep => exact .of_eq hserving (srcStep_frame hstep).workers (srcStep_frame hstep).clients
  | dispatcher hstep => exact dispatcherStep_session h hstep hserving
  | worker hstep => exact workerStep_session h hstep hserving
  | cleanup hstep =>
    exact .of_eq hserving (cleanupStep_frame hstep).1.workers (cleanupStep_frame hstep).1.clients
  | tick | wakeMsg => exact .of_eq hserving rfl rfl
  | @wakeArgs j =>
    obtain ⟨hfd, hassigned, hlive⟩ := hserving
    have hloop : SameLoop (s.workers i)
        ((s.setWorker j { s.workers j with asleep := false }).workers i) := by
      by_cases hij : i = j
      · subst hij
        constructor <;> simp
      · simp only [System.workers_setWorker, Function.update_of_ne hij]
        exact .refl _
    rw [hloop.clientFd] at hfd
    exact .frame ⟨hfd, hassigned, hlive⟩ rfl hloop.pos hloop.task

/-- **A step of the server** does one of the moves to a connection. -/
theorem step_client (h : Good args.numWorkers s) (hs : s.step args l = some s') (c : Nat) :
    ClientMove s s' l c := by
  have ho' := step_keeps_owned h.pool h.owned hs
  -- a step that leaves the connection unassigned
  have hsetup : (s.clients c).assigned = false → (s'.clients c).assigned = false →
      ClientMove s s' l c := by
    intro hold hnew
    exact .setup hold (ho'.untouched c hnew) fun hassigned =>
      absurd (hnew.symm.trans hassigned) (by simp)
  cases step_move hs with
  | src hstep => exact .same (congrFun (srcStep_frame hstep).clients c)
  | dispatcher hstep =>
    cases dispatcherStep_move h.pool hstep with
    | calm _ hclients => exact .same (congrFun hclients c)
    | accept => exact .same rfl
    | clock hpc =>
      rename_i fd
      by_cases hc : c = fd
      · subst hc
        refine hsetup (h.owned.held c (by rw [hpc]; rfl)).2.2 ?_
        simp [Client.accept]
      · exact .same (by simp [hc])
    | setFd hpc =>
      rename_i fd k wake
      by_cases hc : c = fd
      · subst hc
        have hold := (h.owned.held c (by rw [hpc]; rfl)).2.2
        exact hsetup hold (by simpa using hold)
      · exact .same (by simp [hc])
    | setTime hpc =>
      rename_i fd k wake
      obtain ⟨hpend, hunassigned, -⟩ := h.setTime hpc
      by_cases hc : c = fd
      · subst hc
        obtain ⟨hout, hdel, hunf, hsends, hdead, hclosed⟩ := h.owned.untouched c hunassigned
        refine .setup hunassigned ?_ fun hassigned => ⟨k, ?_, hassigned, ?_⟩
        · simp only [System.clients_dispatcherAt, System.clients_setClient, Function.update_self]
          exact ⟨hout, hdel, hunf, hsends, hdead, hclosed⟩
        · simpa using hpend
        · simpa using hclosed
      · exact .same (by simp [hc])
    | create => exact .same rfl
  | @worker i o _ hstep =>
    obtain ⟨fd, v', hfd, hv, rfl⟩ := workerStep_eq hstep
    have hmove := WorkerView.step_move hv
    by_cases hc : c = fd
    · subst hc
      have heffect := hmove.effect (h.cursors i)
      rw [← view_setView s i c v'] at heffect
      rcases hmove.link (h.pool.worker i) with ⟨-, hsame | ⟨hlink, -⟩⟩ | ⟨hlink, -⟩
      · refine .same ?_
        simpa [System.setView, System.view] using hsame
      · exact .own rfl (h.owned.serving_of_link hlink hfd) heffect
      · exact .own rfl (h.owned.serving_of_link hlink hfd) heffect
    · exact .same (by simp [System.setView, hc])
  | cleanup hstep => exact .same (congrFun (cleanupStep_frame hstep).1.clients c)
  | tick | wakeMsg | wakeArgs => exact .same rfl

/-- A session goes on until its connection is closed. -/
theorem Serving.next (h : Good args.numWorkers s) (hs : s.step args l = some s')
    (hserving : Serving s i c) : (s'.clients c).closed = true ∨ Serving s' i c := by
  have hfd : (s'.workers i).clientFd = some c := by
    by_contra hne
    exact absurd (hserving.live.symm.trans (replaced_closed h.pool h.owned hs hserving.fd hne)) (by simp)
  have hassigned : (s'.clients c).assigned = true := by
    cases hc : (s'.clients c).assigned with
    | true => rfl
    | false =>
      cases step_client h hs c with
      | same hclient =>
        rw [hclient, hserving.assigned] at hc
        cases hc
      | setup hunassigned => exact absurd (hunassigned.symm.trans hserving.assigned) (by simp)
      | own _ _ heffect =>
        exact absurd (hc.symm.trans (heffect.frame.2.1.trans hserving.assigned)) (by simp)
  cases hclosed : (s'.clients c).closed with
  | true => exact .inl rfl
  | false => exact .inr ⟨hfd, hassigned, hclosed⟩

end

/-- An assigned connection is served by a worker until it is closed. -/
def Served (s : System) : Prop :=
  ∀ c, (s.clients c).assigned = true → (s.clients c).closed = true ∨ ∃ i, Serving s i c

theorem step_keeps_served {args : Args} {s s' : System} {l : Label} (h : Good args.numWorkers s)
    (hserved : Served s) (hs : s.step args l = some s') : Served s' := by
  intro c hc
  cases step_client h hs c with
  | same hclient =>
    rw [hclient] at hc ⊢
    rcases hserved c hc with hclosed | ⟨i, hi⟩
    · exact .inl hclosed
    · rw [← hclient]
      exact (hi.next h hs).imp_right fun hi' => ⟨i, hi'⟩
  | setup _ _ hserving => exact .inr (hserving hc)
  | own _ hi => exact (hi.next h hs).imp_right fun hi' => ⟨_, hi'⟩

theorem reachable_served {args : Args} {start : Timespec} {s : System}
    (h : (server args start).Reachable s) : Served s := by
  refine LTS.ReachVia.invariant_ofFn (I := Served) ?_ (fun _ _ _ hr hi _ hs => ?_) h
  · intro c hc
    cases hc
  · exact step_keeps_served (reachable_good hr) hi hs

end WireStorm
