import WireStorm.CatchUp
import WireStorm.Intake

/-!
# Everything arrives

What the sources send goes all the way. The loop of `run_src_server` reads an open
connection to its end, by its own steps and steps of threads that give back a mutex, and all
messages of the sources are in the queue then (`source_drained`). A receiver is written the
images of all of them but those that were there before it, byte for byte
(`relay_completed`).
-/

namespace WireStorm

open Mutex (Discipline OthersStep)

/-! ## The threads of the server and its sources -/

/-- The thread that takes the step. -/
def IntakeLabel.tid : IntakeLabel → Option Tid
  | .accept _ | .src => some .src
  | .other l => l.tid

/-- The states of the runs up to the first fault, while the process runs. -/
structure Running (args : Args) (mode : Mode) (host : Endian) (start : Timespec) (f : Intake) :
    Prop where
  reachable : (intake args mode host start).Reachable f
  exited : f.exited = none
  fault : f.sys.fault = none

/-- A step of another thread than `t` that holds a mutex. -/
def Intake.HolderStep (t : Tid) (f : Intake) (l : IntakeLabel) : Prop :=
  ∃ u r, l.tid = some u ∧ u ≠ t ∧ f.sys.owner r = some u

section
variable {args : Args} {mode : Mode} {host : Endian} {start : Timespec} {f f' : Intake}
  {l : IntakeLabel}

theorem Running.sound (h : Running args mode host start f) : Sound args start f.sys :=
  ⟨intake_reachable h.reachable, h.fault⟩

/-- A step of the sources leaves the server alone, or is a step of the server by the same
thread. -/
theorem intakeStep_sys (hs : f.step args mode host l = some f') :
    f'.sys = f.sys ∨ ∃ l', f.sys.step args l' = some f'.sys ∧ l'.tid = l.tid := by
  cases intakeStep_move hs with
  | accept | exit | close => exact .inl rfl
  | parse _ _ _ hstep | enqueue _ _ hstep | other _ hstep => exact .inr ⟨_, hstep, rfl⟩

/-- Between two connections the source thread is out of its loop. -/
def Reading (f : Intake) : Prop := f.conn = none → f.sys.src = .parse

theorem reachable_reading (h : (intake args mode host start).Reachable f) : Reading f := by
  refine h.invariant (I := Reading) ?_ fun f l f' _ hi hs hconn => ?_
  · rintro f rfl -
    rfl
  cases intakeStep_move hs with
  | accept | parse => cases hconn
  | exit hnone => exact hi hnone
  | close _ _ hpc => exact hpc
  | enqueue hsome =>
    rw [hsome] at hconn
    cases hconn
  | other hl hstep =>
    rcases step_src hstep with heq | ⟨msg, heq, -⟩
    · exact heq.trans (hi hconn)
    · exact absurd heq (hl msg)

/-- What the parser returns matters only at the call of the parser. -/
theorem srcStep_of_ne_parse {s : System} (hpc : s.src ≠ .parse) (msg msg' : Option CtmpMsg) :
    s.srcStep msg = s.srcStep msg' := by
  unfold System.srcStep
  cases hsrc : s.src with
  | parse => exact absurd hsrc hpc
  | stamp | lock | insert | broadcast | unlock => rfl

/-- The source thread has each of its steps behind the parser. -/
theorem exists_enqueueStep {sys : System} {msg : Option CtmpMsg}
    (h : Running args mode host start f) (hpc : f.sys.src ≠ .parse)
    (hs : f.sys.step args (.src msg) = some sys) :
    f.step args mode host .src = some { f with sys := sys } := by
  obtain ⟨c, hconn⟩ : ∃ c, f.conn = some c := by
    rw [← Option.ne_none_iff_exists']
    exact fun hnone => hpc (reachable_reading h.reachable hnone)
  have hstep : f.sys.step args (.src none) = some sys := by
    have hsys := srcStep_of_step hs
    simp only [System.step, h.fault, Option.isSome_none, Bool.false_eq_true, if_false]
    rwa [srcStep_of_ne_parse hpc none msg]
  have hloop : f.loopStep args mode host c = some { f with sys := sys } := by
    unfold Intake.loopStep
    split
    · rename_i hparse
      exact absurd hparse hpc
    · rw [hstep]
      rfl
  simp only [Intake.step, h.exited, h.fault, Option.isSome_none, Bool.false_eq_true, or_self,
    if_false, hconn, Option.bind_some, hloop]

/-- The other threads have all their steps. -/
theorem exists_otherStep {sys : System} {l : Label} (h : Running args mode host start f)
    (hl : ∀ msg, l ≠ .src msg) (hs : f.sys.step args l = some sys) :
    f.step args mode host (.other l) = some { f with sys := sys } := by
  cases l with
  | src msg => exact absurd rfl (hl msg)
  | dispatcher | worker | cleanup | tick | wakeMsg | wakeArgs =>
    simp only [Intake.step, h.exited, h.fault, Option.isSome_none, Bool.false_eq_true, or_self,
      if_false, hs, Option.map_some]

theorem Running.step {sys : System} (h : Running args mode host start f)
    (hs : f.step args mode host l = some { f with sys := sys }) (hfault : sys.fault = none) :
    Running args mode host start { f with sys := sys } :=
  ⟨.step h.reachable trivial hs, h.exited, hfault⟩

/-- **The mutexes of the server with its sources** are taken in order. -/
theorem intake_discipline :
    Discipline (intake args mode host start) IntakeLabel.tid (fun f => f.sys.owner)
      (fun f t => (f.sys.use args t).wants) (fun f t => (f.sys.use args t).left) Lock.rank
      (Running args mode host start) := by
  refine server_discipline.lift Intake.sys (fun f h => h.sound)
    (fun f l f' _ hs => intakeStep_sys hs) ?_
  intro f t r l s' h howner hl hs hsound
  by_cases hsrc : ∃ msg, l = .src msg
  · obtain ⟨msg, rfl⟩ := hsrc
    cases hl
    have hpc : f.sys.src ≠ .parse := by
      intro hpc
      have hin := of_decide_eq_true ((reachable_mutexes h.sound.1 r .src).mp howner)
      rw [System.use, hpc] at hin
      cases hin
    have hstep := exists_enqueueStep h hpc hs
    exact ⟨.src, _, rfl, hstep, rfl, h.step hstep hsound.2⟩
  · have hstep := exists_otherStep h (fun msg heq => hsrc ⟨msg, heq⟩) hs
    exact ⟨.other l, _, hl, hstep, rfl, h.step hstep hsound.2⟩

/-! ## A connection is read to its end -/

/-- A bound on the steps up to the next call of the parser. -/
def SrcPc.toGo : SrcPc → Nat
  | .parse => 0
  | .stamp _ => 5
  | .lock _ => 4
  | .insert _ => 3
  | .broadcast => 2
  | .unlock => 1

theorem SrcPc.toGo_le (pc : SrcPc) : pc.toGo ≤ 5 := by
  cases pc <;> simp [toGo]

/-- A bound on the steps of the source thread to the end of its connection. -/
def Intake.toGo (f : Intake) : Nat :=
  f.conn.elim 0 (fun c => (c.measure + 1) * 6) + f.sys.src.toGo

/-- A step behind the parser brings the source thread closer to the next call. -/
theorem enqueueStep_toGo {s s' : System} {msg : Option CtmpMsg} (hpc : s.src ≠ .parse)
    (hs : s.srcStep msg = some s') : s'.src.toGo < s.src.toGo := by
  cases srcStep_move hs with
  | nothing hparse | parsed hparse => exact absurd hparse hpc
  | stamp hpc | lock hpc | insert hpc | broadcast hpc | unlock hpc =>
    rw [hpc]
    exact Nat.lt_succ_self _

/-- A step of another thread leaves the source thread alone. -/
theorem intakeStep_of_ne {t : Tid} (hs : f.step args mode host l = some f')
    (hl : l.tid = some t) (ht : t ≠ .src) :
    ∃ l' sys, l = .other l' ∧ f.sys.step args l' = some sys ∧ f' = { f with sys := sys } ∧
      sys.src = f.sys.src := by
  cases intakeStep_move hs with
  | accept | exit | parse | close | enqueue => exact absurd (Option.some.inj hl).symm ht
  | other hne hstep =>
    refine ⟨_, _, rfl, hstep, rfl, ?_⟩
    rcases step_src hstep with heq | ⟨msg, heq, -⟩
    · exact heq
    · exact absurd heq (hne msg)

/-- A call of the parser on an open connection. -/
theorem exists_parseStep {c : Conn} (h : Running args mode host start f) (hconn : f.conn = some c)
    (hpc : f.sys.src = .parse) (halive : c.isAlive = true) :
    ∃ sys, f.step args mode host .src =
        some { f with sys := sys, conn := some (ctmpParse mode host c).conn } ∧
      sys.fault = none := by
  obtain ⟨sys, hs⟩ : ∃ sys, f.sys.srcStep (ctmpParse mode host c).msg = some sys := by
    unfold System.srcStep
    rw [hpc]
    cases (ctmpParse mode host c).msg with
    | none | some m => exact ⟨_, rfl⟩
  have hstep : f.sys.step args (.src (ctmpParse mode host c).msg) = some sys := by
    simp only [System.step, h.fault, Option.isSome_none, Bool.false_eq_true, if_false, hs]
  refine ⟨sys, ?_, (srcStep_frame hs).fault.trans h.fault⟩
  have hloop : f.loopStep args mode host c =
      some { f with sys := sys, conn := some (ctmpParse mode host c).conn } := by
    simp only [Intake.loopStep, hpc, halive, if_true, hstep, Option.map_some]
  simp only [Intake.step, h.exited, h.fault, Option.isSome_none, Bool.false_eq_true, or_self,
    if_false, hconn, Option.bind_some, hloop]

/-- The end of a connection. -/
theorem exists_closeStep {c : Conn} (h : Running args mode host start f) (hconn : f.conn = some c)
    (hpc : f.sys.src = .parse) (hdead : c.isAlive = false) :
    f.step args mode host .src = some { f with conn := none } := by
  have hloop : f.loopStep args mode host c = some { f with conn := none } := by
    simp only [Intake.loopStep, hpc, hdead, Bool.false_eq_true, if_false]
  simp only [Intake.step, h.exited, h.fault, Option.isSome_none, Bool.false_eq_true, or_self,
    if_false, hconn, Option.bind_some, hloop]

/-- **A step of the source thread** in its loop brings it closer to the end of its connection. -/
theorem exists_srcStep {c : Conn} (h : Running args mode host start f) (hconn : f.conn = some c)
    (hfree : ∀ r, (f.sys.use args .src).wants = some r → f.sys.owner r = none) :
    ∃ f', f.step args mode host .src = some f' ∧ Running args mode host start f' ∧
      f'.toGo < f.toGo := by
  have hrun : ∀ {f'}, f.step args mode host .src = some f' → f'.exited = none →
      f'.sys.fault = none → Running args mode host start f' :=
    fun hs hexited hfault => ⟨.step h.reachable trivial hs, hexited, hfault⟩
  by_cases hpc : f.sys.src = .parse
  · cases halive : c.isAlive with
    | true =>
      obtain ⟨sys, hs, hfault⟩ := exists_parseStep h hconn hpc halive
      refine ⟨_, hs, hrun hs h.exited hfault, ?_⟩
      have hmeasure := ctmpParse_measure mode host halive
      have hle := sys.src.toGo_le
      simp only [Intake.toGo, hconn, hpc, Option.elim_some]
      omega
    | false =>
      have hs := exists_closeStep h hconn hpc halive
      refine ⟨_, hs, hrun hs h.exited h.fault, ?_⟩
      simp only [Intake.toGo, hconn, hpc, Option.elim_some, Option.elim_none]
      omega
  · obtain ⟨l, sys, hl, hs⟩ := can_step h.sound.1 h.fault (t := .src) rfl hfree
    cases step_move hs with
    | src hstep =>
      have hs' := exists_enqueueStep h hpc hs
      refine ⟨_, hs', hrun hs' h.exited ((srcStep_frame hstep).fault.trans h.fault), ?_⟩
      exact Nat.add_lt_add_left (enqueueStep_toGo hpc hstep) _
    | dispatcher | worker | cleanup | tick | wakeMsg | wakeArgs => cases hl

/-- The source thread gets to the end of its connection, with all that these steps keep. -/
theorem exists_drained {P : Intake → Prop}
    (hP : ∀ f l f', Running args mode host start f → P f → l = .src ∨ f.HolderStep .src l →
      f.step args mode host l = some f' → P f')
    (h : Running args mode host start f) (hp : P f) :
    ∃ f', (intake args mode host start).Steps (fun f l _ => l = .src ∨ f.HolderStep .src l) f f' ∧
      Running args mode host start f' ∧ P f' ∧ f'.conn = none := by
  have hown : ∀ f, Running args mode host start f → P f →
      (∀ r, (f.sys.use args .src).wants = some r → f.sys.owner r = none) →
      (Running args mode host start f ∧ P f ∧ f.conn = none) ∨
        ∃ l f', l = .src ∧ (intake args mode host start).step f l f' ∧
          ((Running args mode host start f' ∧ P f' ∧ f'.conn = none) ∨
            Running args mode host start f' ∧ P f' ∧ f'.toGo < f.toGo) := by
    intro f h hp hfree
    cases hconn : f.conn with
    | none => exact .inl ⟨h, hp, rfl⟩
    | some c =>
      obtain ⟨f', hs, h', hlt⟩ := exists_srcStep h hconn hfree
      exact .inr ⟨_, f', rfl, hs, .inr ⟨h', hP f _ f' h hp (.inl rfl) hs, hlt⟩⟩
  have hothers : ∀ f l f', P f → OthersStep IntakeLabel.tid (fun f => f.sys.owner)
      (Running args mode host start) .src f l f' → (intake args mode host start).step f l f' →
      P f' ∧ f'.toGo ≤ f.toGo := by
    rintro f l f' hp ⟨h, hholder⟩ hs
    refine ⟨hP f l f' h hp (.inr hholder) hs, ?_⟩
    obtain ⟨u, r, hl, hne, -⟩ := hholder
    obtain ⟨l', sys, -, -, rfl, hsrc⟩ := intakeStep_of_ne hs hl hne
    simp only [Intake.toGo, hsrc]
    exact le_refl _
  obtain ⟨f', hsteps, hend⟩ := intake_discipline.exists_done Lock.rank_lt
    (C := fun _ l _ => l = .src) Intake.toGo hothers hown h hp
  exact ⟨f', hsteps.mono fun _ _ _ hc => hc.imp_right And.right, hend⟩

/-- Between two connections the queue holds the messages of all sources. -/
theorem Running.entries (h : Running args mode host start f) (hconn : f.conn = none) :
    f.sys.queue.entries.map MsgEntry.carried = f.sources.flatMap (messagesOf mode host) := by
  have htaken := taken_append_ahead h.reachable
  rw [System.taken, reachable_reading h.reachable hconn] at htaken
  simpa [SrcPc.pending, Intake.ahead, hconn] using htaken

/-- The peer has closed its end of the open connection: no read waits for the peer. -/
def Intake.PeerClosed (f : Intake) : Prop := ∀ c, f.conn = some c → c.peerOpen = false

/-- A source does not open its end again, and the loop accepts no connection. -/
theorem step_keeps_peerClosed (h : f.PeerClosed) (hl : l = .src ∨ f.HolderStep .src l)
    (hs : f.step args mode host l = some f') : f'.PeerClosed ∧ f'.sources = f.sources := by
  cases intakeStep_move hs with
  | accept =>
    rcases hl with heq | ⟨u, r, hl, hne, -⟩
    · cases heq
    · exact absurd (Option.some.inj hl).symm hne
  | exit | enqueue | other => exact ⟨h, rfl⟩
  | @parse c sys hconn =>
    refine ⟨fun c' hconn' => ?_, rfl⟩
    cases hconn'
    have hopen : (readCtmpHeader c).conn.peerOpen = false :=
      readMsgLoop_peerOpen headerLength [] (h c hconn)
    exact ctmpParse_leaves (P := fun c' => c'.peerOpen = false) mode host hopen
      fun len => readMsgLoop_peerOpen len.toNat [] hopen
  | close =>
    refine ⟨fun c' hconn' => ?_, rfl⟩
    cases hconn'

/-- **A source connection is read to its end** once the peer has closed it: by steps of the
source thread, and of threads that hold a mutex, none of which waits for the peer, the open
connection is read and closed, and the queue holds the messages of all sources, in their
order. -/
theorem source_drained (h : (intake args mode host start).Reachable f) (hexited : f.exited = none)
    (hfault : f.sys.fault = none) (hclosed : f.PeerClosed) :
    ∃ f', (intake args mode host start).Steps
        (fun f l _ => (l = .src ∨ f.HolderStep .src l) ∧ f.PeerClosed) f f' ∧
      f'.conn = none ∧ f'.sources = f.sources ∧
      f'.sys.queue.entries.map MsgEntry.carried = f.sources.flatMap (messagesOf mode host) := by
  have hP : ∀ f₁ l f₂, Running args mode host start f₁ →
      f₁.PeerClosed ∧ f₁.sources = f.sources → l = .src ∨ f₁.HolderStep .src l →
      f₁.step args mode host l = some f₂ → f₂.PeerClosed ∧ f₂.sources = f.sources := by
    rintro f₁ l f₂ _ ⟨hclosed₁, hsources⟩ hl hs
    exact (step_keeps_peerClosed hclosed₁ hl hs).imp_right fun hsame => hsame.trans hsources
  obtain ⟨f', hsteps, h', ⟨-, hsources⟩, hconn⟩ :=
    exists_drained hP ⟨h, hexited, hfault⟩ ⟨hclosed, rfl⟩
  refine ⟨f', hsteps.strengthen (fun _ _ _ h hl hs => ?_) hclosed, hconn, hsources,
    hsources ▸ h'.entries hconn⟩
  exact (step_keeps_peerClosed h hl hs).1

end

/-! ## A receiver among its messages -/

/-- The number of entries that are not stamped after `ts`. -/
def System.older (s : System) (ts : Timespec) : Nat := s.stamps.countP fun t => decide (t ≤ ts)

/-- All entries that come are stamped after `ts`, and `k` entries are not. -/
structure Later (s : System) (ts : Timespec) (k : Nat) : Prop where
  older : s.older ts = k
  pending : ∀ entry, s.src = .lock entry ∨ s.src = .insert entry → ts < entry.timestamp
  now : ts < s.now

/-- **Worker `i` catches up for a receiver** that is not entitled to `k` entries of the queue,
but to all that come. -/
structure Prompt (s : System) (i c k : Nat) : Prop where
  catching : CatchingUp s i c
  later : Later s (s.clients c).acceptTs k

section
variable {args : Args} {start : Timespec} {s s' : System} {l : Label} {i c : Nat} {t : Tid}

theorem step_keeps_later {ts : Timespec} {k : Nat} (hg : Good args.numWorkers s)
    (h : Later s ts k) (hs : s.step args l = some s') : Later s' ts k := by
  have hinserts : (s.src.inserts.toList.map MsgEntry.timestamp).countP
      (fun t => decide (t ≤ ts)) = 0 := by
    refine List.countP_eq_zero.mpr fun t ht => ?_
    obtain ⟨entry, hentry, rfl⟩ := List.mem_map.mp ht
    cases hpc : s.src with
    | insert new =>
      rw [hpc] at hentry
      cases List.mem_singleton.mp hentry
      simpa using h.pending entry (.inr hpc)
    | parse | stamp | lock | broadcast | unlock =>
      rw [hpc] at hentry
      cases hentry
  refine ⟨?_, ?_, lt_of_lt_of_le h.now (step_now hs)⟩
  · rw [System.older, step_stamps hg hs, List.countP_append, ← System.older, h.older]
    cases l with
    | src msg => rw [hinserts, Nat.add_zero]
    | _ => rfl
  · rcases step_src hs with heq | ⟨msg, -, hstep⟩
    · rw [heq]
      exact h.pending
    · intro entry hentry
      cases srcStep_move hstep with
      | nothing => exact h.pending entry hentry
      | stamp hpc =>
        rcases hentry with hentry | hentry <;> cases hentry
        exact h.now
      | lock hpc =>
        rcases hentry with hentry | hentry <;> cases hentry
        exact h.pending _ (.inl hpc)
      | parsed | insert | broadcast | unlock => rcases hentry with hentry | hentry <;> cases hentry

/-- The entries stamped after `ts` are those behind the others. -/
theorem filter_later {es : List MsgEntry} {ts : Timespec}
    (hsorted : (es.map MsgEntry.timestamp).Pairwise (· ≤ ·)) :
    (es.filter fun entry => decide (ts < entry.timestamp)) =
      es.drop ((es.map MsgEntry.timestamp).countP fun t => decide (t ≤ ts)) := by
  induction es with
  | nil => rfl
  | cons entry es ih =>
    obtain ⟨hhead, htail⟩ := List.pairwise_cons.mp hsorted
    rw [List.map_cons, List.countP_cons]
    by_cases hlater : ts < entry.timestamp
    · have hall : ∀ e ∈ es, ts < e.timestamp := fun e he =>
        lt_of_lt_of_le hlater (hhead _ (List.mem_map_of_mem he))
      have hnone : (es.map MsgEntry.timestamp).countP (fun t => decide (t ≤ ts)) = 0 := by
        refine List.countP_eq_zero.mpr fun t ht => ?_
        obtain ⟨e, he, rfl⟩ := List.mem_map.mp ht
        simpa using hall e he
      have hself : es.filter (fun e => decide (ts < e.timestamp)) = es :=
        List.filter_eq_self.mpr fun e he => decide_eq_true (hall e he)
      rw [hnone, if_neg (by simpa using hlater), List.filter_cons_of_pos (by simpa using hlater),
        hself]
      rfl
    · have hle : entry.timestamp ≤ ts := not_lt.mp hlater
      rw [if_pos (by simpa using hle), List.filter_cons_of_neg (by simpa using hle), ih htail]
      rfl

/-- The time of acceptance stays during a session. -/
theorem Serving.acceptTs (hg : Good args.numWorkers s) (hserving : Serving s i c)
    (hs : s.step args l = some s') : (s'.clients c).acceptTs = (s.clients c).acceptTs := by
  cases step_client hg hs c with
  | same hclient => rw [hclient]
  | setup hunassigned => exact absurd (hunassigned.symm.trans hserving.assigned) (by simp)
  | own _ _ heffect => exact heffect.frame.1

/-- In a critical section a worker makes no call whose outcome matters. -/
theorem WorkerView.step_outcome {v : WorkerView} (hin : (v.worker.pc.use i).holds ≠ [])
    (o o' : Outcome) : v.step i o = v.step i o' := by
  unfold WorkerView.step
  cases hpc : v.worker.pc with
  | idle | get current g => rfl
  | body e lp =>
    rw [hpc] at hin
    cases lp with
    | alive | send p => exact absurd rfl hin
    | _ => rfl

/-- Steps that keep a receiver on its way: those of its worker, with its connection alive and
`send` writing what it is given, those of the source, and those of threads that hold a mutex. -/
inductive Helps (s : System) (i : Nat) : Label → Prop
  | own : Helps s i (.worker i .ready)
  | src (msg : Option CtmpMsg) : Helps s i (.src msg)
  | holder {l : Label} {t : Tid} {r : Lock} (hl : l.tid = some t) (howner : s.owner r = some t) :
      Helps s i l

/-- **These steps** keep the receiver on its way. -/
theorem Prompt.step {k : Nat} (h : Prompt s i c k) (hn : args.numWorkers ≤ 32)
    (hr : (server args start).Reachable s) (hl : Helps s i l) (hs : s.step args l = some s') :
    Prompt s' i c k := by
  have hg := reachable_good hr
  refine ⟨?_, ?_⟩
  · cases hl with
    | own => exact (h.catching.own hn hr hs).2.1
    | src msg =>
      exact (h.catching.kept hr hs rfl (by simp) fun heq => by cases heq).1
    | @holder _ t r hl howner =>
      by_cases ht : t = .worker i
      · subst ht
        cases step_move hs with
        | @worker j o _ hstep =>
          cases hl
          have hin := of_decide_eq_true ((reachable_mutexes hr r (.worker i)).mp howner)
          have hready : s.step args (.worker i .ready) = some s' := by
            rw [← hs]
            simp only [System.step, System.workerStep, h.catching.serving.fd]
            rw [WorkerView.step_outcome (v := s.view i c) (List.ne_nil_of_mem hin) .ready o]
          exact (h.catching.own hn hr hready).2.1
        | src | dispatcher | cleanup | tick | wakeMsg | wakeArgs => cases hl
      · exact (h.catching.kept hr hs hl ht (sparesEntries_of_holder hr hl howner)).1
  · rw [h.catching.serving.acceptTs hg hs]
    exact step_keeps_later hg h.later hs

/-- At the end of the queue the receiver has been written all but the first `k` entries. -/
theorem Prompt.out_eq {k : Nat} (h : Prompt s i c k) (hr : (server args start).Reachable s)
    (hend : AtEnd s i) :
    (s.clients c).out = ((s.queue.entries.map MsgEntry.carried).drop k).flatMap CtmpMsg.image := by
  have hcount : (s.queue.entries.map MsgEntry.timestamp).countP
      (fun t => decide (t ≤ (s.clients c).acceptTs)) = k := h.later.older
  rw [(h.catching.out_eq hr hend).2, filter_later (reachable_stamped hr).sorted, hcount,
    ← List.map_drop, List.flatMap_map]

end

/-! ## All of it -/

/-- A step of the source thread, of worker `i` with its connection alive and `send` writing what
it is given, or of a thread that holds a mutex. -/
def Intake.Helps (i : Nat) (f : Intake) (l : IntakeLabel) (_ : Intake) : Prop :=
  l = .src ∨ l = .other (.worker i .ready) ∨ ∃ t r, l.tid = some t ∧ f.sys.owner r = some t

section
variable {args : Args} {mode : Mode} {host : Endian} {start : Timespec} {f f' : Intake}
  {l : IntakeLabel} {i c k : Nat}

/-- These steps keep the receiver on its way, and accept no connection. -/
theorem Running.helped (h : Running args mode host start f) (hn : args.numWorkers ≤ 32)
    (hprompt : Prompt f.sys i c k) (hl : f.Helps i l f') (hs : f.step args mode host l = some f') :
    Prompt f'.sys i c k ∧ f'.sources = f.sources ∧ ∀ r, l ≠ .accept r := by
  have hr := h.sound.1
  have hcalls : ∀ r, l ≠ .accept r := by
    rintro r rfl
    -- the source thread holds no mutex when it accepts
    have hconn : f.conn = none := by
      cases intakeStep_move hs with
      | accept hconn | exit hconn => exact hconn
    rcases hl with heq | heq | ⟨t, r', htid, howner⟩
    · cases heq
    · cases heq
    · cases htid
      have hin := of_decide_eq_true ((reachable_mutexes hr r' .src).mp howner)
      rw [System.use, reachable_reading h.reachable hconn] at hin
      cases hin
  cases intakeStep_move hs with
  | accept | exit => exact absurd rfl (hcalls _)
  | close => exact ⟨hprompt, rfl, hcalls⟩
  | parse _ _ _ hstep | enqueue _ _ hstep =>
    exact ⟨hprompt.step hn hr (.src _) hstep, rfl, hcalls⟩
  | @other l sys hne hstep =>
    refine ⟨hprompt.step hn hr ?_ hstep, rfl, hcalls⟩
    rcases hl with heq | heq | ⟨t, r, htid, howner⟩
    · cases heq
    · cases heq
      exact .own
    · exact .holder htid howner

/-- The worker catches up, and the source thread waits for its next connection meanwhile. -/
structure Waiting (f₀ f : Intake) (i c k : Nat) : Prop where
  prompt : Prompt f.sys i c k
  conn : f.conn = none
  sources : f.sources = f₀.sources

/-- Between two connections only the other threads help. -/
theorem Waiting.helped {f₀ : Intake} (hw : Waiting f₀ f i c k) (h : Running args mode host start f)
    (hn : args.numWorkers ≤ 32) (hl : f.Helps i l f') (hs : f.step args mode host l = some f') :
    Waiting f₀ f' i c k ∧ ∃ l', l = .other l' ∧ f.sys.step args l' = some f'.sys := by
  obtain ⟨hprompt, hsources, hcalls⟩ := h.helped hn hw.prompt hl hs
  cases intakeStep_move hs with
  | accept | exit => exact absurd rfl (hcalls _)
  | parse hsome | close hsome | enqueue hsome =>
    rw [hw.conn] at hsome
    cases hsome
  | other _ hstep => exact ⟨⟨hprompt, hw.conn, hw.sources⟩, _, rfl, hstep⟩

/-- A worker catches up with the messages of sources that have all been read. -/
theorem exists_caughtUp {f₀ : Intake} (hn : args.numWorkers ≤ 32)
    (h : Running args mode host start f) (hw : Waiting f₀ f i c k) :
    ∃ f', (intake args mode host start).Steps (Intake.Helps i) f f' ∧
      Running args mode host start f' ∧ Waiting f₀ f' i c k ∧ AtEnd f'.sys i := by
  have hown : ∀ f, Running args mode host start f → Waiting f₀ f i c k →
      (∀ r, (f.sys.use args (.worker i)).wants = some r → f.sys.owner r = none) →
      (Running args mode host start f ∧ Waiting f₀ f i c k ∧ AtEnd f.sys i) ∨
        ∃ l f', l = .other (.worker i .ready) ∧ (intake args mode host start).step f l f' ∧
          ((Running args mode host start f' ∧ Waiting f₀ f' i c k ∧ AtEnd f'.sys i) ∨
            Running args mode host start f' ∧ Waiting f₀ f' i c k ∧
              f'.sys.toGo i < f.sys.toGo i) := by
    intro f h hw hfree
    have hcatching := hw.prompt.catching
    obtain ⟨hr, hfault⟩ := h.sound
    cases hparked : f.sys.parked (.worker i) with
    | true => exact .inl ⟨h, hw, hcatching.parked hr hparked hfree⟩
    | false =>
      obtain ⟨sys, hs⟩ := hcatching.can_step hr hfault hparked hfree
      have hs' := exists_otherStep h (fun msg heq => by cases heq) hs
      obtain ⟨hfault', -, hend⟩ := hcatching.own hn hr hs
      have h' := h.step hs' (hfault'.trans hfault)
      obtain ⟨hw', -⟩ := hw.helped h hn (.inr (.inl rfl)) hs'
      refine .inr ⟨_, _, rfl, hs', hend.imp (fun hthere => ⟨h', hw', hthere⟩) fun hlt => ?_⟩
      exact ⟨h', hw', hlt⟩
  have hothers : ∀ f l f', Waiting f₀ f i c k → OthersStep IntakeLabel.tid (fun f => f.sys.owner)
      (Running args mode host start) (.worker i) f l f' →
      (intake args mode host start).step f l f' →
      Waiting f₀ f' i c k ∧ f'.sys.toGo i ≤ f.sys.toGo i := by
    rintro f l f' hw ⟨h, u, r, hl, hne, howner⟩ hs
    obtain ⟨hw', l', rfl, hstep⟩ := hw.helped h hn (.inr (.inr ⟨u, r, hl, howner⟩)) hs
    exact ⟨hw', (hw.prompt.catching.others ⟨h.sound, u, r, hl, hne, howner⟩ hstep).2⟩
  obtain ⟨f', hsteps, hend⟩ := intake_discipline.exists_done Lock.rank_lt
    (C := fun _ l _ => l = .other (.worker i .ready)) (fun f => f.sys.toGo i) hothers hown h hw
  refine ⟨f', hsteps.mono fun f l f' hc => ?_, hend⟩
  rcases hc with hl | ⟨-, u, r, hl, -, howner⟩
  · exact .inr (.inl hl)
  · exact .inr (.inr ⟨u, r, hl, howner⟩)

/-- **Everything arrives**: by steps of the source thread, of a worker while its connection is
alive and `send` writes what it is given, and of threads that hold a mutex, the receiver of the
worker is written the images of all messages of the sources but the first `k`, in their order
and nothing else, where `k` is the number of messages that were in the queue when the receiver
was accepted. If there were none and the parser accepts all that the sources send, the receiver
has the bytes that the sources sent. -/
theorem relay_completed (hn : args.numWorkers ≤ 32)
    (h : (intake args mode host start).Reachable f) (hexited : f.exited = none)
    (hfault : f.sys.fault = none) (hprompt : Prompt f.sys i c k) :
    ∃ f', (intake args mode host start).Steps (Intake.Helps i) f f' ∧ f'.sources = f.sources ∧
      (f'.sys.clients c).out =
        ((f.sources.flatMap (messagesOf mode host)).drop k).flatMap CtmpMsg.image ∧
      (k = 0 → (∀ source ∈ f.sources,
          source.stream = (messagesOf mode host source).flatMap CtmpMsg.image) →
        (f'.sys.clients c).out = f.sources.flatMap Conn.stream) := by
  have hP : ∀ f₁ l f₂, Running args mode host start f₁ →
      Prompt f₁.sys i c k ∧ f₁.sources = f.sources → l = .src ∨ f₁.HolderStep .src l →
      f₁.step args mode host l = some f₂ → Prompt f₂.sys i c k ∧ f₂.sources = f.sources := by
    rintro f₁ l f₂ h₁ ⟨hprompt₁, hsources⟩ hl hs
    have hhelps : f₁.Helps i l f₂ :=
      hl.imp_right fun ⟨u, r, htid, _, howner⟩ => .inr ⟨u, r, htid, howner⟩
    obtain ⟨hprompt₂, hsame, -⟩ := h₁.helped hn hprompt₁ hhelps hs
    exact ⟨hprompt₂, hsame.trans hsources⟩
  obtain ⟨f₁, hsteps₁, h₁, ⟨hprompt₁, hsources⟩, hconn⟩ :=
    exists_drained hP ⟨h, hexited, hfault⟩ ⟨hprompt, rfl⟩
  have hw₁ : Waiting f f₁ i c k := ⟨hprompt₁, hconn, hsources⟩
  obtain ⟨f', hsteps₂, h', hw, hend⟩ := exists_caughtUp hn h₁ hw₁
  have hsteps : (intake args mode host start).Steps (Intake.Helps i) f f' := by
    refine (hsteps₁.mono fun f l f' hl => ?_).trans hsteps₂
    exact hl.imp_right fun ⟨u, r, htid, _, howner⟩ => .inr ⟨u, r, htid, howner⟩
  have hout := hw.prompt.out_eq h'.sound.1 hend
  rw [h'.entries hw.conn, hw.sources] at hout
  refine ⟨f', hsteps, hw.sources, hout, fun hk hstreams => ?_⟩
  rw [hout, hk, List.drop_zero, List.flatMap_assoc]
  exact (List.flatMap_congr hstreams).symm

end

/-- A receiver connects, then a source does. -/
def arrivalLabels : List IntakeLabel :=
  (connectLabels ++ [Label.tick ⟨1, 0⟩]).map .other ++ [.accept (.ok sampleConn)]

theorem exists_arrival :
    ∃ f, (intake .default .base .little ⟨0, 0⟩).Reachable f ∧ f.exited = none ∧
      f.sys.fault = none ∧ f.sources = [sampleConn] ∧ f.sys.queue.entries = [] ∧
      (f.sys.clients 0).out = [] ∧ Prompt f.sys 0 0 0 := by
  obtain ⟨f, hf, hp⟩ := LTS.exists_reachable (Intake.step .default .base .little) (.init ⟨0, 0⟩)
    arrivalLabels (fun f => f.exited = none ∧ f.sys.fault = none ∧ f.sources = [sampleConn] ∧
      (f.sys.workers 0).clientFd = some 0 ∧ (f.sys.clients 0).assigned = true ∧
      (f.sys.clients 0).closed = false ∧ (f.sys.workers 0).pc = .get none .test ∧
      (f.sys.workers 0).pos = 0 ∧ 0 ≤ (f.sys.workers 0).bytesSent ∧
      f.sys.queue.entries.length = 0 ∧ f.sys.cleanup.pc = .get none .test ∧
      f.sys.src.pending.length = 0 ∧ (f.sys.clients 0).acceptTs < f.sys.now ∧
      (f.sys.clients 0).out = []) (by decide)
  obtain ⟨hexited, hfault, hsources, hfd, hassigned, hlive, hpc, hpos, hbytes, hlen, hcleanup,
    hpending, hnow, hout⟩ := of_decide_eq_true hp
  have hempty : f.sys.queue.entries = [] := List.length_eq_zero_iff.mp hlen
  have htask : (f.sys.workers 0).task = .seek := by simp only [Worker.task, hpc]
  have hahead : Ahead f.sys 0 0 := by
    refine ⟨⟨fun e _ entry hentry => ?_, fun hat => ?_⟩, fun e he => ?_⟩
    · rw [hempty] at hentry
      cases hentry
    · rw [htask] at hat
      cases hat
    · rw [hcleanup] at he
      cases he
  have hsent : SentBefore f.sys.queue.entries ((f.sys.workers 0).task.done (f.sys.workers 0).pos)
      (f.sys.clients 0) := by
    rw [htask, hpos]
    intro _ _ e he
    cases he
  have hlater : Later f.sys (f.sys.clients 0).acceptTs 0 := by
    refine ⟨?_, fun entry hentry => ?_, hnow⟩
    · rw [System.older, System.stamps, hempty]
      rfl
    · rcases hentry with hentry | hentry <;> simp [hentry, SrcPc.pending] at hpending
  have hgoes : (f.sys.workers 0).task.givesUp = false := by rw [htask]; rfl
  exact ⟨f, hf, hexited, hfault, hsources, hempty, hout,
    ⟨⟨hfd, hassigned, hlive⟩, by simp [hpc], hgoes, hbytes, hahead, hsent⟩, hlater⟩

/-- A source that has sent one message and closed its end. -/
def closedConn : Conn := ⟨sampleMsg.image, false, [.eintr, .bytes 3]⟩

theorem messagesOf_closedConn : messagesOf .base .little closedConn = [sampleMsg] :=
  messagesOf_sample (fun e => by simp [closedConn]) rfl

/-- The message of the source gets into the queue. -/
theorem source_drained_sent :
    ∃ f f' : Intake, f.conn = some closedConn ∧ f.sys.queue.entries = [] ∧
      (intake .default .base .little ⟨0, 0⟩).Steps
        (fun f l _ => (l = .src ∨ f.HolderStep .src l) ∧ f.PeerClosed) f f' ∧
      f'.sys.queue.entries.map MsgEntry.carried = [sampleMsg] := by
  have haccept : Intake.step .default .base .little (.init ⟨0, 0⟩) (.accept (.ok closedConn)) =
      some ⟨.init ⟨0, 0⟩, some closedConn, [closedConn], none⟩ := rfl
  have hf : (intake .default .base .little ⟨0, 0⟩).Reachable
      ⟨.init ⟨0, 0⟩, some closedConn, [closedConn], none⟩ := .step (.init rfl) trivial haccept
  obtain ⟨f', hsteps, -, -, hentries⟩ :=
    source_drained hf rfl rfl fun c hconn => (Option.some.inj hconn) ▸ rfl
  rw [List.flatMap_singleton, messagesOf_closedConn] at hentries
  exact ⟨_, f', rfl, rfl, hsteps, hentries⟩

/-- The receiver gets the bytes of the source. -/
theorem relay_completed_sent :
    ∃ f f' : Intake, (intake .default .base .little ⟨0, 0⟩).Steps (Intake.Helps 0) f f' ∧
      (f.sys.clients 0).out = [] ∧ (f'.sys.clients 0).out = sampleConn.stream := by
  obtain ⟨f, hf, hexited, hfault, hsources, -, hout, hprompt⟩ := exists_arrival
  obtain ⟨f', hsteps, -, -, hbytes⟩ := relay_completed (by decide) hf hexited hfault hprompt
  rw [hsources] at hbytes
  refine ⟨f, f', hsteps, hout, (hbytes rfl fun source hsource => ?_).trans ?_⟩
  · rw [List.mem_singleton.mp hsource, messagesOf_sampleConn]
    rfl
  · exact List.flatMap_singleton ..

end WireStorm
