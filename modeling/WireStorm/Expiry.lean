import WireStorm.Loss

/-!
# Expired entries

Whether a worker can be left with an entry whose data the cleanup worker has
freed (`Untouched`). A serving worker needs the entries from its position on that
its receiver is entitled to (`Needs`); `can_forward`, `send_ctmp_msg` and
`set_sent` find their data in the runs in which no such entry is freed and no
worker gets a connection that needs a freed one (`FreesBehind`). Nothing in the
program ensures that: the time to live of an entry is all that the cleanup worker
looks at.
-/

namespace WireStorm

/-! ## The condition -/

/-- The entry that the next step of the cleanup worker frees. -/
def CleanupPc.freeing : CleanupPc → Option Nat
  | .free e => some e
  | _ => none

/-- A worker at position `pos` needs the entry at `e` for its connection. -/
def Needs (es : List MsgEntry) (pos : Nat) (c : Client) (e : Nat) : Prop :=
  pos ≤ e ∧ Entitled es c e

instance (es : List MsgEntry) (pos : Nat) (c : Client) (e : Nat) : Decidable (Needs es pos c e) :=
  inferInstanceAs (Decidable (_ ∧ _))

instance (s : System) (i c : Nat) : Decidable (Serving s i c) :=
  decidable_of_iff ((s.workers i).clientFd = some c ∧ (s.clients c).assigned = true ∧
      (s.clients c).closed = false)
    ⟨fun ⟨hfd, hassigned, hlive⟩ => ⟨hfd, hassigned, hlive⟩,
      fun ⟨hfd, hassigned, hlive⟩ => ⟨hfd, hassigned, hlive⟩⟩

/-- **The condition on a step**: an entry is freed when no worker needs it, and a
connection is assigned to a worker when it needs no freed entry. -/
def FreesBehind (args : Args) (s : System) : Label → Prop
  | .cleanup => ∀ e ∈ s.cleanup.pc.freeing, ∀ i < args.numWorkers,
      ∀ c ∈ (s.workers i).clientFd, Serving s i c →
        ¬Needs s.queue.entries (s.workers i).pos (s.clients c) e
  | .dispatcher _ => ∀ p ∈ s.dispatcher.pc.assigning, ∀ e < s.queue.entries.length,
      Needs s.queue.entries (s.workers p.2).pos (s.clients p.1) e →
        ∀ entry ∈ s.queue.entries[e]?, ¬entry.Freed
  | _ => True

instance (args : Args) (s : System) (l : Label) : Decidable (FreesBehind args s l) :=
  match l with
  | .cleanup => inferInstanceAs (Decidable (∀ e ∈ s.cleanup.pc.freeing, ∀ i < args.numWorkers,
      ∀ c ∈ (s.workers i).clientFd, Serving s i c →
        ¬Needs s.queue.entries (s.workers i).pos (s.clients c) e))
  | .dispatcher _ => inferInstanceAs (Decidable (∀ p ∈ s.dispatcher.pc.assigning,
      ∀ e < s.queue.entries.length, Needs s.queue.entries (s.workers p.2).pos (s.clients p.1) e →
        ∀ entry ∈ s.queue.entries[e]?, ¬entry.Freed))
  | .src _ | .worker _ _ | .tick _ | .wakeMsg _ | .wakeArgs _ => isTrue trivial

/-- No worker has touched freed data. -/
def Untouched (s : System) : Prop := s.fault ≠ some .freedSent ∧ s.fault ≠ some .freedMsg

/-! ## What is kept -/

/-- The worker is between `can_forward` and `set_sent`. -/
def Task.atEntry : Task → Bool
  | .send _ | .mark _ => true
  | _ => false

/-- **What a session needs is there**: the data of the entries from its position
on, and the receiver is entitled to the one that is being sent. -/
structure Stocked (es : List MsgEntry) (pos : Nat) (task : Task) (c : Client) : Prop where
  held : ∀ e, Needs es pos c e → ∀ entry, es[e]? = some entry → ¬entry.Freed
  current : task.atEntry = true → Entitled es c pos

theorem freed_of_setSent {entry entry' : MsgEntry} {i : Nat} {val : Bool}
    (h : entry.setSent i val = some entry') : entry'.Freed ↔ entry.Freed := by
  simp only [MsgEntry.Freed, (MsgEntry.setSent_eq_some h).2.1]

/-- The entries that wait to be inserted hold their data. -/
def SrcHolds (s : System) : Prop :=
  ∀ entry, s.src = .lock entry ∨ s.src = .insert entry → ¬entry.Freed

theorem Needs.of_keeps {es es' : List MsgEntry} {pos e : Nat} {c : Client}
    (h : Needs es' pos c e) (hk : Keeps es es') (he : e < es.length) : Needs es pos c e :=
  ⟨h.1, h.2.of_keeps hk he⟩

/-- The entry at `e` in a queue in which the one at `k` was replaced. -/
theorem getElem?_set_cases {es : List MsgEntry} {e k : Nat} {entry entry' : MsgEntry}
    (h : (es.set k entry')[e]? = some entry) :
    e < es.length ∧ (e = k ∧ entry = entry' ∨ e ≠ k ∧ es[e]? = some entry) := by
  have hlt : e < es.length := by simpa using (List.getElem?_eq_some_iff.mp h).1
  refine ⟨hlt, ?_⟩
  by_cases he : e = k
  · subst he
    rw [List.getElem?_set_self hlt] at h
    exact .inl ⟨rfl, (Option.some.inj h).symm⟩
  · rw [List.getElem?_set_ne (Ne.symm he)] at h
    exact .inr ⟨he, h⟩

section
variable {args : Args} {start : Timespec} {s s' : System} {l : Label}

/-- A step that frees nothing the session needs leaves it stocked. -/
theorem Stocked.move {es : List MsgEntry} {pos : Nat} {task : Task} {c : Client}
    (h : Stocked s.queue.entries pos task c) (hmove : EntriesMove s l es) (hsrc : SrcHolds s)
    (hfree : l = .cleanup → ∀ e ∈ s.cleanup.pc.freeing, ¬Needs s.queue.entries pos c e) :
    Stocked es pos task c := by
  refine ⟨fun e hneeds entry hentry => ?_, fun htask => (h.current htask).keeps hmove.keeps⟩
  cases hmove with
  | same hes =>
    subst hes
    exact h.held e hneeds entry hentry
  | append hins hes =>
    rename_i entry'
    subst hes
    rcases Nat.lt_or_ge e s.queue.entries.length with hlt | hge
    · rw [List.getElem?_append_left hlt] at hentry
      exact h.held e (hneeds.of_keeps (keeps_append _ _) hlt) entry hentry
    · rw [List.getElem?_append_right hge] at hentry
      rw [List.mem_singleton.mp (List.mem_of_getElem? hentry)]
      exact hsrc entry' (.inr hins)
  | mark hl hentry₀ hset hes =>
    rename_i i o k entry₀ entry' val
    subst hes
    obtain ⟨hlt, hcases⟩ := getElem?_set_cases hentry
    have hneeds₀ := hneeds.of_keeps (keeps_set hentry₀ (MsgEntry.setSent_eq_some hset).1) hlt
    rcases hcases with ⟨rfl, rfl⟩ | ⟨-, hentry⟩
    · rw [freed_of_setSent hset]
      exact h.held e hneeds₀ entry₀ hentry₀
    · exact h.held e hneeds₀ entry hentry
  | free hl hpc hentry₀ hes =>
    subst hes
    obtain ⟨hlt, hcases⟩ := getElem?_set_cases hentry
    have hneeds₀ := hneeds.of_keeps (keeps_set hentry₀ (MsgEntry.freeMsgData_sameMsg _)) hlt
    rcases hcases with ⟨rfl, -⟩ | ⟨-, hentry⟩
    · exact absurd hneeds₀ (hfree hl e (by rw [hpc]; rfl))
    · exact h.held e hneeds₀ entry hentry

/-- A worker moves on to a later position, with the entries as they are. -/
theorem Stocked.later {es : List MsgEntry} {pos pos' : Nat} {task task' : Task} {c c' : Client}
    (h : Stocked es pos task c) (hpos : pos ≤ pos') (hts : c'.acceptTs = c.acceptTs)
    (hcurrent : task'.atEntry = true → Entitled es c' pos') : Stocked es pos' task' c' where
  held e hneeds entry hentry := by
    obtain ⟨hle, entry', hentry', hlater⟩ := hneeds
    rw [hts] at hlater
    exact h.held e ⟨Nat.le_trans hpos hle, entry', hentry', hlater⟩ entry hentry
  current := hcurrent

/-- **A step of the worker** keeps the session stocked. -/
theorem Effect.stocked {i : Nat} {v v' : WorkerView} (h : Effect i v v')
    (hts : v.worker.timestamp = v.client.acceptTs)
    (hstocked : Stocked v.queue.entries v.worker.pos v.worker.task v.client)
    (hlive : v'.client.closed = false) :
    Stocked v.queue.entries v'.worker.pos v'.worker.task v'.client := by
  have hacc := h.frame.1
  cases h with
  | quiet hentries hclient hpos htask =>
    refine hstocked.later (Nat.le_of_eq hpos.symm) hacc fun hat => ?_
    generalize v.worker.task = t at *
    generalize v'.worker.task = t' at *
    cases htask <;> cases hat
  | dead hentries hclient hpos htask htask' =>
    refine hstocked.later hpos hacc fun hat => ?_
    rw [htask'] at hat
    cases hat
  | closed hentries hclient =>
    rw [hclient] at hlive
    cases hlive
  | refuse hentry hno hpc hentries hclient hpos htask htask' =>
    refine hstocked.later (by omega) hacc fun hat => ?_
    rw [htask'] at hat
    cases hat
  | start hentry hyes hentries hclient hpos htask htask' =>
    refine hstocked.later (Nat.le_of_eq hpos.symm) hacc fun _ => ?_
    have hlater := (MsgEntry.canForward_eq_some_true.mp hyes).1
    rw [hts, ← hacc] at hlater
    rw [hpos]
    exact ⟨_, hentry, hlater⟩
  | write hentry hmsg hround hentries hclient hpos htask htask'
  | sent hentry hmsg hround hentries hclient hpos htask htask' =>
    refine hstocked.later (Nat.le_of_eq hpos.symm) hacc fun _ => ?_
    obtain ⟨entry, hentry, hlater⟩ := hstocked.current (by rw [htask]; rfl)
    rw [hpos]
    exact ⟨entry, hentry, by rwa [hacc]⟩
  | mark hentry hset hentries hclient hpos htask htask' =>
    refine hstocked.later (by omega) hacc fun hat => ?_
    rw [htask'] at hat
    cases hat
  | reset hentry hset hentries hclient hpos htask htask' =>
    refine hstocked.later (Nat.le_of_eq hpos.symm) hacc fun hat => ?_
    rw [htask'] at hat
    cases hat
  | fault hentry hpc hf hv =>
    rw [hv]
    exact hstocked

/-- A stocked session touches no freed data. -/
theorem Stocked.not_touches {i e : Nat} {lp : LoopPc} {entry : MsgEntry} {f : Fault}
    {v : WorkerView} (h : Stocked v.queue.entries v.worker.pos v.worker.task v.client)
    (hts : v.worker.timestamp = v.client.acceptTs) (hpc : v.worker.pc = .body e lp)
    (hentry : v.queue.entries[e]? = some entry) : ¬Touches i v entry lp f := by
  intro htouch
  have hpos : v.worker.pos = e := by cases htouch <;> simp only [Worker.pos, hpc]
  have hfree : Entitled v.queue.entries v.client e → ¬entry.Freed := fun hent =>
    h.held e ⟨Nat.le_of_eq hpos, hent⟩ entry hentry
  have hcurrent := h.current
  rw [hpos] at hcurrent
  cases htouch with
  | forward hnone =>
    obtain ⟨hlater, hfreed⟩ := MsgEntry.canForward_eq_none.mp hnone
    rw [hts] at hlater
    exact hfree ⟨entry, hentry, hlater⟩ hfreed
  | send hnone =>
    exact hfree (hcurrent (by simp only [Worker.task, hpc, Task.atEntry])) hnone
  | mark hnone =>
    exact hfree (hcurrent (by simp only [Worker.task, hpc, Task.atEntry]))
      (MsgEntry.setSent_eq_none.mp hnone)

/-! ## Every run -/

/-- The sessions of all workers are stocked. -/
structure Supplied (s : System) : Prop where
  source : SrcHolds s
  session : ∀ i c, Serving s i c →
    Stocked s.queue.entries (s.workers i).pos (s.workers i).task (s.clients c)

theorem SrcFresh.holds (h : SrcFresh s) : SrcHolds s := by
  intro entry hsrc
  rw [h entry hsrc]
  simp [MsgEntry.Freed, initMsgEntry]

/-- A worker that serves a connection is one of the `num_workers`. -/
theorem Owned.serving_lt {n i c : Nat} (h : Owned n s) (hserving : Serving s i c) : i < n := by
  obtain ⟨hlt, hhanded⟩ := h.owner i c hserving.fd
  have hheld : s.dispatcher.pc.held ≠ some c := by
    intro hheld
    rw [(h.held c hheld).2.1] at hhanded
    cases hhanded
  obtain ⟨j, hj, hhanded'⟩ := h.given c hlt hheld
  rw [hhanded] at hhanded'
  cases hhanded'
  exact hj

theorem step_keeps_supplied (h : Good args.numWorkers s) (hfresh : SrcFresh s)
    (hsupplied : Supplied s) (hfrees : FreesBehind args s l) (hs : s.step args l = some s') :
    Supplied s' := by
  refine ⟨(step_keeps_srcFresh hfresh hs).holds, fun i c hserving' => ?_⟩
  have hentries := step_entries h.pool h.cursors hs
  cases step_session h hs hserving' with
  | frame hserving hclient hpos htask =>
    rw [hclient, hpos, htask]
    refine (hsupplied.session i c hserving).move hentries hsupplied.source fun hl e he => ?_
    subst hl
    exact hfrees e he i (h.owned.serving_lt hserving) c hserving.fd hserving
  | assign hl hpc _ _ hts hpos htask hsame =>
    subst hl
    rw [hsame, hpos, htask]
    refine ⟨fun e hneeds entry hentry => ?_, by simp [Task.atEntry]⟩
    obtain ⟨hle, entry', hentry', hlater⟩ := hneeds
    rw [hts] at hlater
    exact hfrees (c, i) (by rw [hpc]; rfl) e (List.getElem?_eq_some_iff.mp hentry).1
      ⟨hle, entry', hentry', hlater⟩ entry hentry
  | own hl hserving heffect =>
    have hts := (h.owned.serving_link hserving).2
    have hstocked := heffect.stocked hts (hsupplied.session i c hserving) hserving'.live
    refine hstocked.move hentries hsupplied.source fun hl' => ?_
    rw [hl] at hl'
    cases hl'

theorem step_keeps_untouched (h : Good args.numWorkers s) (hsupplied : Supplied s)
    (hs : s.step args l = some s') : Untouched s' := by
  rcases step_fault h.pool hs with hnone | ⟨i, fd, e, lp, entry, f, hfd, hpc, hentry, htouch, -⟩
  · rw [Untouched, hnone]
    exact ⟨by simp, by simp⟩
  · have hserving : Serving s i fd := by
      refine h.owned.serving_of_link ?_ hfd
      cases htouch <;> simp only [Worker.link, hpc]
    have hts := (h.owned.serving_link hserving).2
    have hstocked := hsupplied.session i fd hserving
    exact absurd htouch (Stocked.not_touches (v := s.view i fd) hstocked hts hpc hentry)

/-- **No worker touches freed data** in a run whose steps meet the condition. -/
theorem freesBehind_untouched
    (h : (server args start).ReachVia (fun s l _ => FreesBehind args s l) s) : Untouched s := by
  have hsupplied : ∀ {s}, (server args start).ReachVia (fun s l _ => FreesBehind args s l) s →
      Supplied s := by
    intro s h
    refine LTS.ReachVia.invariant_ofFn (I := Supplied) ?_ (fun _ _ _ hr hi hf hs => ?_) h
    · constructor
      · rintro entry (hsrc | hsrc)
        · cases hsrc
        · cases hsrc
      · intro i c hserving
        cases hserving.fd
    · exact step_keeps_supplied (reachable_good hr.reachable) (reachable_srcFresh hr.reachable)
        hi hf hs
  cases h with
  | init h =>
    rw [show s = System.init start from h]
    exact ⟨by simp [System.init], by simp [System.init]⟩
  | step hr hc hs => exact step_keeps_untouched (reachable_good hr.reachable) (hsupplied hr) hs

end

/-- The clock advances, and the cleanup worker frees the first entry. -/
def expireLabels : List Label := .tick ⟨10, 0⟩ :: List.replicate 7 .cleanup

/-- A run in which an entry is freed behind the only receiver. -/
theorem freesBehind_untouched_behind :
    ∃ s, Serving s 0 0 ∧ (∃ entry ∈ s.queue.entries[0]?, entry.Freed) ∧ Untouched s := by
  obtain ⟨s, hs, hp⟩ := LTS.exists_reachVia (System.step .default)
    (fun s l _ => FreesBehind .default s l) (.init ⟨0, 0⟩)
    (connectLabels ++ .tick ⟨1, 0⟩ :: enqueueLabels sampleMsg ++ workerLabels 0 9 (.bytes 8) ++
      expireLabels)
    (fun s => Serving s 0 0 ∧ ∃ entry ∈ s.queue.entries[0]?, entry.Freed) (by decide)
  obtain ⟨hserving, hfreed⟩ := of_decide_eq_true hp
  exact ⟨s, hserving, hfreed, freesBehind_untouched hs⟩

/-! ## What goes wrong -/

/-- The worker is about to call `can_forward` on an entry when that expires. -/
theorem not_untouched :
    ¬∀ args start s, (server args start).Reachable s → Untouched s := by
  intro h
  obtain ⟨s, hs, hp⟩ := LTS.exists_reachable (System.step .default) (.init ⟨0, 0⟩)
    (connectLabels ++ .tick ⟨1, 0⟩ :: enqueueLabels sampleMsg ++ workerLabels 0 5 .eintr ++
      expireLabels ++ workerLabels 0 1 .eintr)
    (fun s => s.fault = some .freedSent) (by decide)
  exact (h .default ⟨0, 0⟩ s hs).1 (of_decide_eq_true hp)

end WireStorm
