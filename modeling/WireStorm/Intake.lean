import WireStorm.Broadcast
import WireStorm.Source

/-!
# The server with its source connections

The whole of `run_src_server` beside the other threads (`intake`): it accepts one source
connection after another, reads messages from its bytes while the connection is alive,
and closes it. The parser no longer returns whatever it likes: what it returns is
decided by the bytes and the schedule of the reads.

Whatever the other threads do, the messages taken from the sources are those that the loop
takes from each connection alone, in the order of acceptance (`taken_append_ahead`). With
the refinement of the broker this says what a receiver gets in terms of the bytes that the
sources sent: whole messages, each of them one piece of its source's stream
(`receiver_of_sources`).
-/

namespace WireStorm

open Framing (Pieces exists_parts)
open PubSub (Broker)

/-! ## The loop over connections -/

/-- The server with the connection that `run_src_server` reads from (`src_socket`), the
connections that it accepted, as they were then, and its exit code. -/
structure Intake where
  sys : System
  conn : Option Conn
  sources : List Conn
  exited : Option Nat

/-- What happens next: `accept` returns a connection or fails with an `errno`, the source
thread steps in its loop, or another thread steps. -/
inductive IntakeLabel
  | accept (r : Except Nat Conn)
  | src
  | other (l : Label)

namespace Intake

def init (start : Timespec) : Intake := ⟨.init start, none, [], none⟩

/-- `server_accept` of `run_src_server`; the process exits if it fails. -/
def acceptStep (f : Intake) (r : Except Nat Conn) : Option Intake :=
  match f.conn, r with
  | none, .ok c => some { f with conn := some c, sources := f.sources ++ [c] }
  | none, .error errno => some { f with exited := some errno }
  | some _, _ => none

/-- A step in the loop over the messages of a connection. -/
def loopStep (args : Args) (mode : Mode) (host : Endian) (f : Intake) (c : Conn) : Option Intake :=
  match f.sys.src with
  | .parse =>
    if c.isAlive then
      let p := ctmpParse mode host c
      (f.sys.step args (.src p.msg)).map fun sys => { f with sys := sys, conn := some p.conn }
    else
      -- close old src connection
      some { f with conn := none }
  | _ => (f.sys.step args (.src none)).map fun sys => { f with sys := sys }

/-- One step of one thread. No step follows an exit or a fault. -/
def step (args : Args) (mode : Mode) (host : Endian) (f : Intake) (l : IntakeLabel) :
    Option Intake :=
  if f.exited.isSome ∨ f.sys.fault.isSome then
    none
  else
    match l with
    | .accept r => f.acceptStep r
    | .src => f.conn.bind (f.loopStep args mode host)
    | .other (.src _) => none
    | .other l => (f.sys.step args l).map fun sys => { f with sys := sys }

end Intake

/-- The runs of the server and its source connections. -/
def intake (args : Args) (mode : Mode) (host : Endian) (start : Timespec) :
    LTS Intake IntakeLabel :=
  .ofFn (.init start) (Intake.step args mode host)

/-! ## What a step can do -/

/-- What a step can do. -/
inductive IntakeMove (args : Args) (mode : Mode) (host : Endian) (f : Intake) :
    IntakeLabel → Intake → Prop
  | accept {c : Conn} (hconn : f.conn = none) :
      IntakeMove args mode host f (.accept (.ok c))
        { f with conn := some c, sources := f.sources ++ [c] }
  | exit {errno : Nat} (hconn : f.conn = none) :
      IntakeMove args mode host f (.accept (.error errno)) { f with exited := some errno }
  | parse {c : Conn} {sys : System} (hconn : f.conn = some c) (halive : c.isAlive = true)
      (hpc : f.sys.src = .parse)
      (hs : f.sys.step args (.src (ctmpParse mode host c).msg) = some sys) :
      IntakeMove args mode host f .src
        { f with sys := sys, conn := some (ctmpParse mode host c).conn }
  | close {c : Conn} (hconn : f.conn = some c) (hdead : c.isAlive = false)
      (hpc : f.sys.src = .parse) : IntakeMove args mode host f .src { f with conn := none }
  | enqueue {c : Conn} {sys : System} (hconn : f.conn = some c) (hpc : f.sys.src ≠ .parse)
      (hs : f.sys.step args (.src none) = some sys) :
      IntakeMove args mode host f .src { f with sys := sys }
  | other {l : Label} {sys : System} (hl : ∀ msg, l ≠ .src msg)
      (hs : f.sys.step args l = some sys) :
      IntakeMove args mode host f (.other l) { f with sys := sys }

section
variable {args : Args} {mode : Mode} {host : Endian} {start : Timespec} {f f' : Intake}
  {l : IntakeLabel}

/-- **A step** is one of the moves. -/
theorem intakeStep_move (hs : f.step args mode host l = some f') :
    IntakeMove args mode host f l f' := by
  unfold Intake.step at hs
  split at hs
  · cases hs
  · cases l with
    | accept r =>
      simp only [Intake.acceptStep] at hs
      split at hs <;> cases hs
      · exact .accept (by assumption)
      · exact .exit (by assumption)
    | src =>
      obtain ⟨c, hconn, hs⟩ := Option.bind_eq_some_iff.mp hs
      unfold Intake.loopStep at hs
      split at hs
      · rename_i hpc
        split at hs
        · rename_i halive
          obtain ⟨sys, hstep, rfl⟩ := Option.map_eq_some_iff.mp hs
          exact .parse hconn halive hpc hstep
        · rename_i hdead
          cases hs
          exact .close hconn (Bool.eq_false_iff.mpr hdead) hpc
      · rename_i hpc
        obtain ⟨sys, hstep, rfl⟩ := Option.map_eq_some_iff.mp hs
        exact .enqueue hconn hpc hstep
    | other l =>
      cases l with
      | src msg => cases hs
      | dispatcher | worker | cleanup | tick | wakeMsg | wakeArgs =>
        obtain ⟨sys, hstep, rfl⟩ := Option.map_eq_some_iff.mp hs
        exact .other (by simp) hstep

/-! ## The server below -/

/-- What is seen of a step. -/
def Intake.observeBroker (f : Intake) (l : IntakeLabel) : Option BrokerEvent :=
  match l with
  | .accept _ => none
  | .src => f.sys.observeBroker (.src none)
  | .other l => f.sys.observeBroker l

/-- **The server with its sources refines the server**: the source connections only decide
which messages the parser returns. -/
theorem intake_simulates : (intake args mode host start).Simulates Intake.observeBroker
    (server args start) System.observeBroker fun f s => s = f.sys where
  init := by
    rintro f rfl
    exact ⟨_, rfl, rfl⟩
  step := by
    rintro f l f' s - rfl hs
    have hsingle : ∀ {l sys}, f.sys.step args l = some sys → (server args start).Path
        System.observeBroker f.sys (f.sys.observeBroker l).toList sys := fun hstep => .single hstep
    cases intakeStep_move hs with
    | accept | exit => exact ⟨f.sys, .refl, rfl⟩
    | parse _ _ _ hstep => exact ⟨_, hsingle hstep, rfl⟩
    | close _ _ hpc =>
      refine ⟨f.sys, ?_, rfl⟩
      simp only [Intake.observeBroker, System.observeBroker, hpc, SrcPc.inserts, Option.map_none]
      exact .refl
    | enqueue _ _ hstep | other _ hstep => exact ⟨_, hsingle hstep, rfl⟩

theorem intake_reachable (h : (intake args mode host start).Reachable f) :
    (server args start).Reachable f.sys := by
  obtain ⟨_, hs, rfl⟩ := intake_simulates.reachable h
  exact hs

/-- **What can be seen of a run of the server with its sources** can be seen of a run of the
broker. -/
theorem intake_observed {follows : List Nat → Nat → Prop} {es : List BrokerEvent}
    (hstarts : ∀ s, (server args start).Reachable s → Starts follows s)
    (h : (intake args mode host start).Observed Intake.observeBroker es f) :
    (msgBroker follows).Observed PubSub.observe es f.sys.broker := by
  obtain ⟨_, hb, _, -, rfl, rfl⟩ :=
    (intake_simulates.trans (server_simulates hstarts)).observed h
  exact hb

end

/-! ## The messages of a connection -/

/-- The messages that the loop takes from a connection. -/
def messagesOf (mode : Mode) (host : Endian) (c : Conn) : List CtmpMsg :=
  (srcLoop mode host 0 c).1.map (·.msg)

section
variable {mode : Mode} {host : Endian} {c : Conn}

/-- The loop takes the same messages wherever it starts to count. -/
theorem srcLoop_msgs (pos : Nat) :
    (srcLoop mode host pos c).1.map (·.msg) = messagesOf mode host c := by
  have hpos : ∀ pos', (srcLoop mode host pos c).1.map (·.msg) =
      (srcLoop mode host pos' c).1.map (·.msg) := by
    fun_induction srcLoop mode host pos c with
    | case1 pos c h p later ih =>
      intro pos'
      rw [srcLoop, dif_pos h, enqueue_map, enqueue_map, ih]
    | case2 pos c h =>
      intro pos'
      rw [srcLoop, dif_neg h]
  exact hpos 0

theorem messagesOf_alive (h : c.isAlive = true) :
    messagesOf mode host c =
      (ctmpParse mode host c).msg.toList ++ messagesOf mode host (ctmpParse mode host c).conn := by
  rw [messagesOf, srcLoop, dif_pos h, enqueue_map, srcLoop_msgs]

theorem messagesOf_dead (h : c.isAlive = false) : messagesOf mode host c = [] := by
  rw [messagesOf, srcLoop, dif_neg (by simp [h])]
  rfl

/-- `read_msg` takes bytes from the front of the stream. -/
theorem readMsg_suffix (c : Conn) (len : Nat) : (readMsg c len).conn.stream <:+ c.stream := by
  obtain ⟨⟨bytes, -, hstream⟩, -⟩ := readMsgLoop_stored len c []
  exact ⟨bytes, hstream.symm⟩

/-- A parser takes bytes from the front of the stream. -/
theorem ctmpParse_suffix (mode : Mode) (host : Endian) (c : Conn) :
    (ctmpParse mode host c).conn.stream <:+ c.stream := by
  have hh : (readCtmpHeader c).conn.stream <:+ c.stream := readMsg_suffix c headerLength
  exact ctmpParse_leaves (P := fun c' => c'.stream <:+ c.stream) mode host hh
    fun len => (readMsg_suffix _ _).trans hh

/-- **The messages taken from a connection** stand in its stream in their order, each in one
piece. -/
theorem messagesOf_pieces (mode : Mode) (host : Endian) (c : Conn) :
    Pieces ((messagesOf mode host c).map CtmpMsg.image) c.stream := by
  rw [← srcLoop_msgs 0]
  fun_induction srcLoop mode host 0 c with
  | case1 pos c h p later ih =>
    rw [enqueue_map]
    cases hmsg : p.msg with
    | none =>
      obtain ⟨bytes, hstream⟩ := ctmpParse_suffix mode host c
      rw [← hstream]
      exact ih.skip bytes
    | some m =>
      have hpieces := Pieces.cons [] m.image ih
      rw [List.nil_append] at hpieces
      rw [(parse_some hmsg).1]
      exact hpieces
  | case2 pos c h => exact .nil _

end

/-! ## A message on its way -/

/-- A source that sends one message and closes its connection some time after. -/
def sampleConn : Conn := ⟨sampleMsg.image, true, [.eintr, .bytes 3]⟩

/-- The server when it has parsed the message of `sampleConn`. -/
def sampleParsed : Intake where
  sys := { System.init ⟨0, 0⟩ with src := .stamp sampleMsg }
  conn := some (ctmpParse .base .little sampleConn).conn
  sources := [sampleConn]
  exited := none

theorem sampleConn_parse : (ctmpParse .base .little sampleConn).msg = some sampleMsg := by
  rw [(parse_spec .base .little fun e => by simp [sampleConn]).1]
  decide

theorem sampleParsed_observed :
    (intake .default .base .little ⟨0, 0⟩).Observed Intake.observeBroker [] sampleParsed := by
  have haccept : Intake.step .default .base .little (.init ⟨0, 0⟩) (.accept (.ok sampleConn)) =
      some ⟨.init ⟨0, 0⟩, some sampleConn, [sampleConn], none⟩ := rfl
  have hparse : Intake.step .default .base .little
      ⟨.init ⟨0, 0⟩, some sampleConn, [sampleConn], none⟩ .src = some sampleParsed := by
    have hloop : Intake.loopStep .default .base .little
        ⟨.init ⟨0, 0⟩, some sampleConn, [sampleConn], none⟩ sampleConn = some sampleParsed := by
      show ((System.init ⟨0, 0⟩).step .default
        (.src (ctmpParse .base .little sampleConn).msg)).map _ = _
      rw [sampleConn_parse]
      rfl
    exact hloop
  have hinit : (intake .default .base .little ⟨0, 0⟩).Observed Intake.observeBroker []
      (.init ⟨0, 0⟩) := .init rfl
  have hrun := (hinit.step haccept).step hparse
  exact hrun

/-- A receiver connects and is sent the message. -/
def sampleLabels : List IntakeLabel :=
  (connectLabels ++ [Label.tick ⟨1, 0⟩]).map .other ++ List.replicate 5 .src ++
    (workerLabels 0 9 (.bytes 8)).map .other

/-- What is seen of it. -/
def sampleEvents : List BrokerEvent :=
  [.subscribed 0 ⟨0, 0⟩, .published ⟨1, 0⟩ sampleMsg, .wrote 0 sampleMsg.header.bytes,
    .wrote 0 sampleMsg.data]

theorem sample_observed :
    ∃ f, (intake .default .base .little ⟨0, 0⟩).Observed Intake.observeBroker sampleEvents f ∧
      f.sources = [sampleConn] := by
  have hexec : (LTS.execIf (Intake.step .default .base .little) (fun _ _ _ => True) sampleParsed
      sampleLabels).map Intake.sources = some [sampleConn] := rfl
  have hevents : LTS.seen (Intake.step .default .base .little) Intake.observeBroker sampleParsed
      sampleLabels = sampleEvents := rfl
  obtain ⟨f, hf, hsources⟩ := Option.map_eq_some_iff.mp hexec
  have hrun := LTS.observed_of_execIf (Intake.step .default .base .little) sampleParsed_observed hf
  rw [hevents] at hrun
  exact ⟨f, hrun, hsources⟩

/-! ## What has been taken from the sources -/

/-- The message that the source thread has parsed and not inserted yet. -/
def SrcPc.pending : SrcPc → List CtmpMsg
  | .stamp msg => [msg]
  | .lock entry | .insert entry => [entry.carried]
  | .parse | .broadcast | .unlock => []

/-- The messages taken from the sources: those of the queue, and the one on its way there. -/
def System.taken (s : System) : List CtmpMsg :=
  s.queue.entries.map MsgEntry.carried ++ s.src.pending

/-- The messages that the source thread will take from its connection. -/
def Intake.ahead (mode : Mode) (host : Endian) (f : Intake) : List CtmpMsg :=
  f.conn.elim [] (messagesOf mode host)

section
variable {args : Args} {mode : Mode} {host : Endian} {start : Timespec} {s s' : System}
  {f f' : Intake}

/-- The source thread takes what its parser returns. -/
theorem parseStep_taken {msg : Option CtmpMsg} (hpc : s.src = .parse)
    (hs : s.srcStep msg = some s') : s'.taken = s.taken ++ msg.toList := by
  simp only [System.srcStep, hpc] at hs
  cases msg with
  | none =>
    cases hs
    exact (List.append_nil _).symm
  | some m =>
    cases hs
    simp [System.taken, SrcPc.pending, hpc]

/-- What the source thread has taken goes to the queue. -/
theorem enqueueStep_taken {msg : Option CtmpMsg} (hpc : s.src ≠ .parse)
    (hs : s.srcStep msg = some s') : s'.taken = s.taken := by
  cases srcStep_move hs with
  | nothing hparse | parsed hparse => exact absurd hparse hpc
  | lock hpc hq => simp [System.taken, SrcPc.pending, hpc, MsgQueue.entries_acquire hq]
  | stamp hpc | insert hpc | broadcast hpc | unlock hpc =>
    simp [System.taken, SrcPc.pending, hpc, initMsgEntry]

theorem otherStep_taken {l : Label} (hg : Good args.numWorkers s) (hl : ∀ msg, l ≠ .src msg)
    (hs : s.step args l = some s') : s'.taken = s.taken := by
  have hsrc : s'.src = s.src := by
    rcases step_src hs with heq | ⟨msg, heq, -⟩
    · exact heq
    · exact absurd heq (hl msg)
  have hcarried := congrArg (List.map Prod.snd) (step_origins hg hs)
  rw [List.map_append, List.map_map, List.map_map] at hcarried
  rw [System.taken, System.taken, hsrc]
  congr 1
  refine hcarried.trans ?_
  cases l with
  | src msg => exact absurd rfl (hl msg)
  | _ => exact List.append_nil _

theorem srcStep_of_step {msg : Option CtmpMsg} (hs : s.step args (.src msg) = some s') :
    s.srcStep msg = some s' := by
  cases step_move hs with
  | src hstep => exact hstep

/-- **Nothing is lost between the sources and the queue**, and nothing is made up: what has been
taken, followed by what the loop will take from the bytes ahead, is what it takes from each
accepted connection alone. -/
theorem taken_append_ahead (h : (intake args mode host start).Reachable f) :
    f.sys.taken ++ f.ahead mode host = f.sources.flatMap (messagesOf mode host) := by
  refine h.invariant (I := fun f => f.sys.taken ++ f.ahead mode host =
    f.sources.flatMap (messagesOf mode host)) ?_ fun f l f' hr hi hs => ?_
  · rintro f rfl
    rfl
  have hg := reachable_good (intake_reachable hr)
  cases intakeStep_move hs with
  | exit hconn => exact hi
  | @accept c hconn =>
    simp only [Intake.ahead, hconn, Option.elim_none, List.append_nil] at hi
    simp only [Intake.ahead, Option.elim_some, List.flatMap_append, List.flatMap_singleton, hi]
  | @parse c sys hconn halive hpc hstep =>
    simp only [Intake.ahead, hconn, Option.elim_some, messagesOf_alive halive] at hi
    rw [parseStep_taken hpc (srcStep_of_step hstep), List.append_assoc]
    exact hi
  | close hconn hdead =>
    simp only [Intake.ahead, hconn, Option.elim_some, messagesOf_dead hdead] at hi
    exact hi
  | enqueue hconn hpc hstep =>
    rw [enqueueStep_taken hpc (srcStep_of_step hstep)]
    exact hi
  | other hl hstep =>
    rw [otherStep_taken hg hl hstep]
    exact hi

/-- **What is published comes from the sources**: in every run, the messages that were inserted
into the queue, in the order of insertion, then the one on its way there, then those of the
bytes ahead are the messages that the loop takes from each accepted connection alone. -/
theorem published_of_sources {es : List BrokerEvent}
    (h : (intake args mode host start).Observed Intake.observeBroker es f) :
    (PubSub.published es).map Prod.snd ++ f.sys.src.pending ++ f.ahead mode host =
      f.sources.flatMap (messagesOf mode host) := by
  rw [PubSub.published_eq (intake_observed (fun _ => starts_behind) h),
    ← taken_append_ahead h.reachable, System.taken, System.broker, List.map_map]
  rfl

end

/-- The message that `sampleConn` sent. -/
theorem published_of_sources_sent :
    ∃ f : Intake, (PubSub.published sampleEvents).map Prod.snd ++ f.sys.src.pending ++
      f.ahead .base .little = [sampleConn].flatMap (messagesOf .base .little) := by
  obtain ⟨f, hf, hsources⟩ := sample_observed
  exact ⟨f, hsources ▸ published_of_sources hf⟩

section
variable {args : Args} {mode : Mode} {host : Endian} {start : Timespec} {f : Intake}

/-- The messages of the queue are the first ones that the loop takes from the sources. -/
theorem log_of_sources (h : (intake args mode host start).Reachable f) :
    f.sys.broker.log.map Prod.snd <+: f.sources.flatMap (messagesOf mode host) := by
  rw [← taken_append_ahead h, System.taken, List.append_assoc, System.broker, List.map_map]
  exact List.prefix_append _ _

/-- What was sent to a receiver is a prefix of messages that the loop takes from the sources. -/
theorem sent_of_sources {es : List BrokerEvent}
    (h : (intake args mode host start).Observed Intake.observeBroker es f) (c : Nat) :
    ∃ ms : List CtmpMsg, ms.Sublist (f.sources.flatMap (messagesOf mode host)) ∧
      PubSub.bytesTo c es <+: ms.flatMap CtmpMsg.image := by
  have hb := intake_observed (fun _ => starts_behind) h
  obtain ⟨ps, hposts, -, hbytes⟩ := PubSub.bytesTo_isPrefix (fun _ _ h => h) hb c
  rw [PubSub.published_eq hb] at hposts
  refine ⟨ps.map Prod.snd, ?_, by rwa [List.flatMap_map]⟩
  exact (hposts.map Prod.snd).trans (log_of_sources h.reachable).sublist

end

end WireStorm
