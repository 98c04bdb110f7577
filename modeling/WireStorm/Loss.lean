import WireStorm.Receiver

/-!
# Lost entries

Whether a worker passes an entry that its receiver should have got (`NoneLost`).
It does when a connection is assigned to a worker that is already behind an entry
stamped after the connection was accepted, and when the bit of the entry was set
by another worker with the same index mod 32. `KeepsUp` says that a step does
neither; these steps lose nothing, and every other step does.
-/

namespace WireStorm

/-! ## The condition -/

/-- The connection and the worker whose hand-over is completed by the next step. -/
def DispatcherPc.assigning : DispatcherPc → Option (Nat × Nat)
  | .hand fd k _ .setTime => some (fd, k)
  | _ => none

/-- The entry that the next step of the worker calls `can_forward` on. -/
def WorkerPc.reading : WorkerPc → Option Nat
  | .body e .forward => some e
  | _ => none

theorem assigning_eq {pc : DispatcherPc} {fd k : Nat} (h : (fd, k) ∈ pc.assigning) :
    ∃ wake, pc = .hand fd k wake .setTime := by
  unfold DispatcherPc.assigning at h
  split at h
  · cases h
    exact ⟨_, rfl⟩
  · cases h

theorem reading_eq {pc : WorkerPc} {e : Nat} (h : e ∈ pc.reading) : pc = .body e .forward := by
  unfold WorkerPc.reading at h
  split at h
  · cases h
    rfl
  · cases h

instance (es : List MsgEntry) (c : Client) (e : Nat) : Decidable (Entitled es c e) :=
  match h : es[e]? with
  | none => isFalse (by simp [Entitled, h])
  | some entry => decidable_of_iff (c.acceptTs < entry.timestamp) (by simp [Entitled, h])

/-- **The condition on a step**: a connection is assigned to a worker that has not
passed an entry stamped after the connection was accepted, and `can_forward` does
not find the bit of such an entry set. -/
def KeepsUp (s : System) : Label → Prop
  | .dispatcher _ => ∀ p ∈ s.dispatcher.pc.assigning, ∀ e < (s.workers p.2).pos,
      ¬Entitled s.queue.entries (s.clients p.1) e
  | .worker i _ => ∀ e ∈ (s.workers i).pc.reading, ∀ entry ∈ s.queue.entries[e]?,
      (s.workers i).timestamp < entry.timestamp → entry.isSent i ≠ some true
  | _ => True

instance (s : System) (l : Label) : Decidable (KeepsUp s l) :=
  match l with
  | .dispatcher _ => inferInstanceAs (Decidable (∀ p ∈ s.dispatcher.pc.assigning,
      ∀ e < (s.workers p.2).pos, ¬Entitled s.queue.entries (s.clients p.1) e))
  | .worker i _ => inferInstanceAs (Decidable (∀ e ∈ (s.workers i).pc.reading,
      ∀ entry ∈ s.queue.entries[e]?,
        (s.workers i).timestamp < entry.timestamp → entry.isSent i ≠ some true))
  | .src _ | .cleanup | .tick _ | .wakeMsg _ | .wakeArgs _ => isTrue trivial

/-! ## What is kept -/

/-- Every entry that the connection is entitled to and that lies before `bound`
was sent to it, as long as it is alive and no send to it failed. -/
def SentBefore (es : List MsgEntry) (bound : Nat) (c : Client) : Prop :=
  c.deadSeen = false → ¬c.SendFailed → ∀ e < bound, Entitled es c e → e ∈ c.delivered

/-- **Nothing is lost**: a worker has sent what lies before the position that it
will process next. -/
def NoneLost (s : System) : Prop :=
  ∀ i c, Serving s i c → SentBefore s.queue.entries (s.workers i).pos (s.clients c)

/-- Stronger than `NoneLost` while the entry at the position is being marked. -/
def NoneMissed (s : System) : Prop :=
  ∀ i c, Serving s i c →
    SentBefore s.queue.entries ((s.workers i).task.done (s.workers i).pos) (s.clients c)

theorem Task.le_done (t : Task) (pos : Nat) : pos ≤ t.done pos := by
  cases t <;> simp [Task.done]

theorem NoneMissed.noneLost {s : System} (h : NoneMissed s) : NoneLost s :=
  fun i c hserving hdead hfail e he =>
    h i c hserving hdead hfail e (Nat.lt_of_lt_of_le he (Task.le_done _ _))

theorem Cursor.done_le {len : Nat} {w : Worker} (h : Cursor len w) : w.task.done w.pos ≤ len := by
  have hpos := h.pos_le
  cases hpc : w.pc with
  | idle | get => simpa [Worker.task, hpc, Task.done] using hpos
  | body e l =>
    simp only [Cursor, hpc] at h
    cases l with
    | mark =>
      simp only [Worker.task, Worker.pos, hpc, Task.done]
      exact h.1
    | _ => simpa [Worker.task, hpc, Task.done] using hpos

/-- An entry that was already in the queue. -/
theorem Entitled.of_keeps {es es' : List MsgEntry} {c : Client} {e : Nat} (h : Entitled es' c e)
    (hk : Keeps es es') (he : e < es.length) : Entitled es c e := by
  obtain ⟨entry', hentry', hts⟩ := h
  have hentry : es[e]? = some es[e] := List.getElem?_eq_getElem he
  obtain ⟨entry₂, hentry₂, hsame⟩ := hk e _ hentry
  rw [hentry'] at hentry₂
  cases hentry₂
  exact ⟨es[e], hentry, by rwa [← hsame.1]⟩

theorem SentBefore.keeps {es es' : List MsgEntry} {bound : Nat} {c : Client}
    (h : SentBefore es bound c) (hk : Keeps es es') (hbound : bound ≤ es.length) :
    SentBefore es' bound c :=
  fun hdead hfail e he hent =>
    h hdead hfail e he (hent.of_keeps hk (Nat.lt_of_lt_of_le he hbound))

/-- **A step of the worker** that keeps up leaves nothing behind unsent. -/
theorem Effect.sentBefore {i : Nat} {v v' : WorkerView} (h : Effect i v v')
    (hts : v.worker.timestamp = v.client.acceptTs)
    (hsession : Session v.queue.entries v.worker.pos v.worker.task v.client)
    (hlive : v'.client.closed = false)
    (hkeeps : ∀ e ∈ v.worker.pc.reading, ∀ entry ∈ v.queue.entries[e]?,
      v.worker.timestamp < entry.timestamp → entry.isSent i ≠ some true)
    (hsent : SentBefore v.queue.entries (v.worker.task.done v.worker.pos) v.client) :
    SentBefore v.queue.entries (v'.worker.task.done v'.worker.pos) v'.client := by
  cases h with
  | quiet hentries hclient hpos htask =>
    rw [hclient, hpos]
    generalize v.worker.task = t at *
    generalize v'.worker.task = t' at *
    cases htask <;> exact hsent
  | dead hentries hclient =>
    rw [hclient]
    intro hdead
    cases hdead
  | closed hentries hclient =>
    rw [hclient] at hlive
    cases hlive
  | refuse hentry hno hpc hentries hclient hpos htask htask' =>
    rename_i entry
    rw [htask] at hsent
    rw [hclient, hpos, htask']
    intro hdead hfail e he hent
    rcases Nat.lt_succ_iff_lt_or_eq.mp he with he | rfl
    · exact hsent hdead hfail e he hent
    · obtain ⟨entry', hentry', hlater⟩ := hent
      rw [hentry] at hentry'
      cases hentry'
      rw [← hts] at hlater
      rcases MsgEntry.canForward_eq_some_false.mp hno with hnot | hset
      · exact absurd hlater hnot
      · exact absurd hset (hkeeps _ (by rw [hpc]; rfl) entry hentry hlater)
  | start hentry hyes hentries hclient hpos htask htask' =>
    rw [htask] at hsent
    rw [hclient, hpos, htask']
    exact hsent
  | write hentry hmsg hround hentries hclient hpos htask htask' =>
    rw [htask] at hsent
    rw [hclient, hpos, htask']
    exact hsent
  | sent hentry hmsg hround hentries hclient hpos htask htask' =>
    rename_i entry msg p ev bs res
    rw [htask] at hsession hsent
    rw [hclient, hpos, htask']
    obtain ⟨-, hnofail, -⟩ := hsession.round hentry hmsg hround
    intro hdead hfail e he hent
    by_cases hres : res < 0
    · rw [Client.sent, if_pos hres, sendFailed_append hnofail rfl] at hfail
      exact absurd hres hfail
    · rw [Client.sent, if_neg hres] at hdead hent ⊢
      rcases Nat.lt_succ_iff_lt_or_eq.mp he with he | rfl
      · exact List.mem_append_left _ (hsent hdead hnofail e he hent)
      · exact List.mem_append_right _ (List.mem_singleton_self _)
  | mark hentry hset hentries hclient hpos htask htask' =>
    rw [htask] at hsent
    rw [hclient, hpos, htask']
    exact hsent
  | reset hentry hset hentries hclient hpos htask htask' =>
    rw [htask] at hsent
    rw [hclient, hpos, htask']
    exact hsent
  | fault hentry hpc hf hv =>
    rw [hv]
    exact hsent

section
variable {args : Args} {start : Timespec} {s s' : System} {l : Label}

theorem step_keeps_noneMissed (h : Good args.numWorkers s) (hstreams : Streams s)
    (hmissed : NoneMissed s) (hkeeps : KeepsUp s l) (hs : s.step args l = some s') :
    NoneMissed s' := by
  have hentries := step_entries h.pool h.cursors hs
  intro i c hserving'
  cases step_session h hs hserving' with
  | frame hserving hclient hpos htask =>
    rw [hclient, hpos, htask]
    exact (hmissed i c hserving).keeps hentries.keeps (h.cursors i).done_le
  | assign hl hpc _ _ hts hpos htask hsame =>
    subst hl
    rw [hsame, htask, hpos]
    intro _ _ e he hent
    have hent' : Entitled s.queue.entries (s.clients c) e := by
      obtain ⟨entry, hentry, hlater⟩ := hent
      exact ⟨entry, hentry, by rwa [hts] at hlater⟩
    exact absurd hent' (hkeeps (c, i) (by rw [hpc]; rfl) e he)
  | own hl hserving heffect =>
    subst hl
    have hts := (h.owned.serving_link hserving).2
    have hsent := heffect.sentBefore hts (hstreams.session i c hserving) hserving'.live hkeeps
      (hmissed i c hserving)
    refine hsent.keeps hentries.keeps ?_
    rw [← heffect.length_entries]
    exact (step_keeps_cursors h.pool h.cursors hs i).done_le

/-- A connection assigned behind an entry that it is entitled to loses it. -/
theorem assign_in_time {fd k : Nat} {wake accepts : Bool} (h : Good args.numWorkers s)
    (hpc : s.dispatcher.pc = .hand fd k wake .setTime)
    (hs : s.dispatcherStep args accepts = some s') (hlost : NoneLost s') :
    ∀ e < (s.workers k).pos, ¬Entitled s.queue.entries (s.clients fd) e := by
  obtain ⟨hfd, hunassigned, -⟩ := h.setTime hpc
  obtain ⟨-, hdelivered, -, hsends, hdead, hclosed⟩ := h.owned.untouched fd hunassigned
  simp only [System.dispatcherStep, hpc, System.handStep, Option.some.injEq] at hs
  subst hs
  intro e he hent
  have hserving := hlost k fd ⟨by simpa using hfd, by simp, by simpa using hclosed⟩
  have hmem : e ∈ (s.clients fd).delivered := by
    simpa using hserving (by simpa using hdead) (by simp [Client.SendFailed, hsends]) e
      (by simpa [Worker.pos] using he) (by simpa [Entitled] using hent)
  rw [hdelivered] at hmem
  cases hmem

/-- A worker that finds the bit of an entry set that its receiver is entitled to
loses it. -/
theorem forward_unset {i e : Nat} {o : Outcome} {entry : MsgEntry} (h : Good args.numWorkers s)
    (hstreams : Streams s) (hpc : (s.workers i).pc = .body e .forward)
    (hentry : s.queue.entries[e]? = some entry) (hlater : (s.workers i).timestamp < entry.timestamp)
    (hs : s.workerStep i o = some s') (hlost : NoneLost s') : entry.isSent i ≠ some true := by
  intro hset
  obtain ⟨fd, v', hfd, hv, rfl⟩ := workerStep_eq hs
  have hserving : Serving s i fd := h.owned.serving_of_link (by simp only [Worker.link, hpc]) hfd
  obtain ⟨-, hts⟩ := h.owned.serving_link hserving
  -- `can_forward` refuses the entry, and the worker passes it
  have hno : entry.canForward i (s.workers i).timestamp = some false :=
    MsgEntry.canForward_eq_some_false.mpr (.inr hset)
  have hpass : (s.view i fd).step i o = some ((s.view i fd).goto e .lockNext) := by
    simp only [WorkerView.step, System.view, hpc, WorkerView.bodyStep, hentry, hno]
  cases hv.symm.trans hpass
  have hview := view_setView s i fd ((s.view i fd).goto e .lockNext)
  have hworker : ((s.setView i fd ((s.view i fd).goto e .lockNext)).workers i).pos = e + 1 :=
    congrArg (·.worker.pos) hview
  have hclient : (s.setView i fd ((s.view i fd).goto e .lockNext)).clients fd = s.clients fd :=
    congrArg WorkerView.client hview
  have hsession := hstreams.session i fd hserving
  have htask : (s.workers i).task = .seek := by simp only [Worker.task, hpc]
  have hpos : (s.workers i).pos = e := by simp only [Worker.pos, hpc]
  rw [htask, hpos] at hsession
  have hsent := hlost i fd ⟨(congrArg (·.worker.clientFd) hview).trans hfd,
    by rw [hclient, hserving.assigned], by rw [hclient, hserving.live]⟩
  rw [hworker, hclient] at hsent
  rw [hts] at hlater
  have hmem := hsent (hsession.alive (by simp)) hsession.progress.2 e (Nat.lt_succ_self e)
    ⟨entry, hentry, hlater⟩
  exact absurd (hsession.behind e hmem) (Nat.lt_irrefl e)

/-- **Every other step** loses an entry. -/
theorem keepsUp_of_noneLost (h : Good args.numWorkers s) (hstreams : Streams s)
    (hs : s.step args l = some s') (hlost : NoneLost s') : KeepsUp s l := by
  cases step_move hs with
  | src | cleanup | tick | wakeMsg | wakeArgs => trivial
  | dispatcher hstep =>
    rintro ⟨fd, k⟩ hp
    obtain ⟨wake, hpc⟩ := assigning_eq hp
    exact assign_in_time h hpc hstep hlost
  | worker hstep =>
    intro e he entry hentry hlater
    exact forward_unset h hstreams (reading_eq he) hentry hlater hstep hlost

/-- **Nothing is lost** in a run whose steps keep up, and it stays so with exactly
the steps that keep up. -/
theorem keepsUp_loses_nothing
    (h : (server args start).ReachVia (fun s l _ => KeepsUp s l) s) :
    NoneLost s ∧ ∀ l s', (server args start).step s l s' → (NoneLost s' ↔ KeepsUp s l) := by
  have hmissed : NoneMissed s := by
    refine LTS.ReachVia.invariant_ofFn (I := NoneMissed) ?_ (fun _ _ _ hr hi hk hs => ?_) h
    · intro i c hserving
      cases hserving.fd
    · exact step_keeps_noneMissed (reachable_good hr.reachable) (reachable_streams hr.reachable)
        hi hk hs
  have hgood := reachable_good h.reachable
  have hstreams := reachable_streams h.reachable
  refine ⟨hmissed.noneLost, fun l s' hs => ⟨keepsUp_of_noneLost hgood hstreams hs, fun hk => ?_⟩⟩
  exact (step_keeps_noneMissed hgood hstreams hmissed hk hs).noneLost

end

/-- A run with one receiver, which got the only entry. -/
theorem keepsUp_loses_nothing_first :
    ∃ s, Serving s 0 0 ∧ (s.workers 0).pos = 1 ∧ Entitled s.queue.entries (s.clients 0) 0 ∧
      NoneLost s := by
  obtain ⟨s, hs, hp⟩ := LTS.exists_reachVia (System.step .default) (fun s l _ => KeepsUp s l)
    (.init ⟨0, 0⟩) (connectLabels ++ .tick ⟨1, 0⟩ :: enqueueLabels sampleMsg ++ workerLabels 0 9 (.bytes 8))
    (fun s => (s.workers 0).clientFd = some 0 ∧ (s.clients 0).assigned = true ∧
      (s.clients 0).closed = false ∧ (s.workers 0).pos = 1 ∧
      Entitled s.queue.entries (s.clients 0) 0) (by decide)
  have ⟨hfd, hassigned, hlive, hpos, hent⟩ := of_decide_eq_true hp
  exact ⟨s, ⟨hfd, hassigned, hlive⟩, hpos, hent, (keepsUp_loses_nothing hs).1⟩

/-! ## What goes wrong -/

/-- No entry is lost as long as none expires. -/
def LosesNothing (args : Args) (start : Timespec) : Prop :=
  ∀ s, (server args start).Reachable s → (∀ entry ∈ s.queue.entries, ¬entry.Expired args s.now) →
    NoneLost s

/-- One worker. -/
def Args.single : Args := ⟨1, 5, rfl, rfl⟩

/-- The second of two receivers is accepted while the only worker waits for the
first entry. The worker gets that entry, finds the first connection dead, and goes
on behind the entry with the second connection. -/
def staleLabels : List Label :=
  connectLabels ++ List.replicate 6 (.dispatcher true) ++ .tick ⟨1, 0⟩ :: enqueueLabels sampleMsg ++
    workerLabels 0 4 .eintr ++ List.replicate 8 (.worker 0 ⟨false, .eintr⟩) ++
    List.replicate 15 (.dispatcher true) ++ workerLabels 0 8 .eintr

/-- A worker loses an entry for a connection that was accepted before the entry
was enqueued. -/
theorem not_losesNothing : ¬∀ args start, LosesNothing args start := by
  intro h
  obtain ⟨s, hs, hp⟩ := LTS.exists_reachable (System.step .single) (.init ⟨0, 0⟩) staleLabels
    (fun s => (∀ entry ∈ s.queue.entries, ¬entry.Expired .single s.now) ∧
      (s.workers 0).clientFd = some 1 ∧ (s.clients 1).assigned = true ∧
      (s.clients 1).closed = false ∧ (s.clients 1).deadSeen = false ∧ ¬(s.clients 1).SendFailed ∧
      0 < (s.workers 0).pos ∧ Entitled s.queue.entries (s.clients 1) 0 ∧
      0 ∉ (s.clients 1).delivered) (by decide)
  have ⟨hexpired, hfd, hassigned, hlive, hdead, hfail, hpos, hent, hmem⟩ := of_decide_eq_true hp
  exact hmem (h .single ⟨0, 0⟩ s hs hexpired 0 1 ⟨hfd, hassigned, hlive⟩ hdead hfail 0 hpos hent)

end WireStorm
