import WireStorm.Lib.Framing
import WireStorm.Session

/-!
# What a receiver sees

The bytes written to a connection form a framed stream of the images of the
entries it is entitled to (`Received`). The worker's position is behind every
entry it sent, and its task says whether an image is being written (`Session`),
so each step of the server keeps the stream framed (`step_keeps_streams`).
-/

namespace WireStorm

open Framing (IsStream frames)

/-- The entry at position `e` was stamped after the connection was accepted. -/
def Entitled (es : List MsgEntry) (c : Client) (e : Nat) : Prop :=
  ∃ entry, es[e]? = some entry ∧ c.acceptTs < entry.timestamp

/-- The wire image of the message that the entry at position `e` carries. -/
def imageAt (es : List MsgEntry) (e : Nat) : List UInt8 :=
  match es[e]? with
  | some entry => entry.carried.image
  | none => []

theorem Entitled.keeps {es es' : List MsgEntry} {c : Client} {e : Nat} (h : Entitled es c e)
    (hk : Keeps es es') : Entitled es' c e := by
  obtain ⟨entry, hentry, hts⟩ := h
  obtain ⟨entry', hentry', hsame⟩ := hk e entry hentry
  exact ⟨entry', hentry', by rwa [hsame.1]⟩

theorem imageAt_keeps {es es' : List MsgEntry} {c : Client} {e : Nat} (h : Entitled es c e)
    (hk : Keeps es es') : imageAt es' e = imageAt es e := by
  obtain ⟨entry, hentry, -⟩ := h
  obtain ⟨entry', hentry', hsame⟩ := hk e entry hentry
  simp only [imageAt, hentry, hentry', hsame.2]

theorem imageAt_of_msg {es : List MsgEntry} {e : Nat} {entry : MsgEntry} {msg : CtmpMsg}
    (hentry : es[e]? = some entry) (hmsg : entry.msg = some msg) : imageAt es e = msg.image := by
  simp only [imageAt, hentry, entry.msg_eq msg hmsg]

/-! ## The stream of a connection -/

/-- **What a receiver sees**: a framed stream of entries that it is entitled to. -/
structure Received (es : List MsgEntry) (c : Client) : Prop where
  framed : IsStream (imageAt es) c.delivered c.unfinished c.out
  entitled : ∀ e ∈ frames c.delivered c.unfinished, Entitled es c e

theorem Received.untouched {es : List MsgEntry} {c : Client} (h : c.Untouched) :
    Received es c := by
  obtain ⟨hout, hdelivered, hunfinished, -⟩ := h
  constructor
  · rw [hout, hdelivered, hunfinished]
    exact .nil
  · rw [hdelivered, hunfinished]
    simp [frames]

theorem Received.keeps {es es' : List MsgEntry} {c : Client} (h : Received es c)
    (hk : Keeps es es') : Received es' c where
  framed := h.framed.congr fun e he => imageAt_keeps (h.entitled e he) hk
  entitled e he := (h.entitled e he).keeps hk

/-! ## A session -/

/-- The positions before this one have been dealt with. -/
def Task.done (pos : Nat) : Task → Nat
  | .mark _ => pos + 1
  | _ => pos

/-- How far a session is with the entry at its position. -/
def Progress (es : List MsgEntry) (pos : Nat) (c : Client) : Task → Prop
  | .send p => c.unfinished = some (pos, p.written) ∧ ¬c.SendFailed ∧
      ∃ entry, es[pos]? = some entry ∧ c.acceptTs < entry.timestamp ∧ p.Within entry.carried
  | .seek | .mark false | .passed false => c.unfinished = none ∧ ¬c.SendFailed
  | .mark true | .passed true | .leave => True

/-- **A session** at position `pos`: it is behind every entry that was sent, and
ends when its connection is found dead. -/
structure Session (es : List MsgEntry) (pos : Nat) (task : Task) (c : Client) : Prop where
  behind : ∀ e ∈ c.delivered, e < task.done pos
  alive : task ≠ .leave → c.deadSeen = false
  progress : Progress es pos c task

theorem Session.keeps {es es' : List MsgEntry} {pos : Nat} {task : Task} {c : Client}
    (h : Session es pos task c) (hk : Keeps es es') : Session es' pos task c := by
  refine ⟨h.behind, h.alive, ?_⟩
  have hprogress := h.progress
  cases task with
  | send p =>
    obtain ⟨hunfinished, hfail, entry, hentry, hts, hwithin⟩ := hprogress
    obtain ⟨entry', hentry', hsame⟩ := hk pos entry hentry
    exact ⟨hunfinished, hfail, entry', hentry', by rwa [hsame.1], by rwa [hsame.2]⟩
  | seek => exact hprogress
  | mark failed | passed failed => cases failed <;> exact hprogress
  | leave => trivial

theorem Session.assigned {es : List MsgEntry} {pos : Nat} {c : Client} (h : c.Untouched) :
    Session es pos .seek c where
  behind := by simp [h.delivered]
  alive _ := h.deadSeen
  progress := ⟨h.unfinished, by simp [Client.SendFailed, h.sends]⟩

/-- A round of the session's `send_ctmp_msg` writes the next bytes of the image. -/
theorem Session.round {es : List MsgEntry} {pos : Nat} {p : SendPc} {c : Client} {entry : MsgEntry}
    {msg : CtmpMsg} {ev : SendEvent} {bs : List UInt8} {r : SendCtmpMsg}
    (h : Session es pos (.send p) c) (hentry : es[pos]? = some entry) (hmsg : entry.msg = some msg)
    (hround : sendCtmpMsgRound msg p ev = (bs, r)) :
    c.unfinished = some (pos, p.written) ∧ ¬c.SendFailed ∧ c.acceptTs < entry.timestamp ∧
      bs <+: (imageAt es pos).drop p.written ∧
      (∀ p', r = .more p' → p'.Within entry.carried ∧ p'.written = p.written + bs.length) ∧
      (∀ res, r = .ret res → 0 ≤ res → p.written + bs.length = (imageAt es pos).length) := by
  obtain ⟨hunfinished, hfail, entry', hentry', hts, hwithin⟩ := h.progress
  rw [hentry] at hentry'
  cases hentry'
  rw [← entry.msg_eq msg hmsg] at hwithin ⊢
  rw [imageAt_of_msg hentry hmsg]
  exact ⟨hunfinished, hfail, hts, sendCtmpMsgRound_spec hwithin hround⟩

theorem sendFailed_append {c c' : Client} {res : Int} (h : ¬c.SendFailed)
    (hsends : c'.sends = c.sends ++ [res]) : c'.SendFailed ↔ res < 0 := by
  simp only [Client.SendFailed, hsends, List.mem_append, List.mem_singleton]
  constructor
  · rintro ⟨r, hr | rfl, hlt⟩
    · exact absurd ⟨r, hr, hlt⟩ h
    · exact hlt
  · exact fun hlt => ⟨res, .inr rfl, hlt⟩

/-- **A step of the worker** keeps the session, unless it closes the connection. -/
theorem Effect.session {i : Nat} {v v' : WorkerView} (h : Effect i v v')
    (hts : v.worker.timestamp = v.client.acceptTs)
    (hsession : Session v.queue.entries v.worker.pos v.worker.task v.client)
    (hlive : v'.client.closed = false) :
    Session v'.queue.entries v'.worker.pos v'.worker.task v'.client := by
  have ⟨hbehind, halive, hprogress⟩ := hsession
  cases h with
  | quiet hentries hclient hpos htask =>
    rw [hentries, hclient, hpos]
    generalize v.worker.task = t at *
    generalize v'.worker.task = t' at *
    cases htask with
    | seek | passed | next => exact ⟨hbehind, fun _ => halive (by simp), hprogress⟩
    | giveUp => exact ⟨hbehind, fun hne => absurd rfl hne, trivial⟩
  | dead hentries hclient hpos htask htask' =>
    rw [htask] at hbehind
    rw [hclient, htask']
    exact ⟨fun e he => Nat.lt_of_lt_of_le (hbehind e he) hpos, fun hne => absurd rfl hne, trivial⟩
  | closed hentries hclient =>
    rw [hclient] at hlive
    cases hlive
  | refuse hentry hno hpc hentries hclient hpos htask htask' =>
    rw [htask] at hbehind halive hprogress
    rw [hentries, hclient, hpos, htask']
    refine ⟨fun e he => Nat.lt_succ_of_lt (hbehind e he), fun _ => halive (by simp), ?_⟩
    by_cases hfailed : v.worker.bytesSent < 0
    · rw [decide_eq_true hfailed]
      trivial
    · rw [decide_eq_false hfailed]
      exact hprogress
  | start hentry hyes hentries hclient hpos htask htask' =>
    rw [htask] at hbehind halive hprogress
    rw [hentries, hclient, hpos, htask']
    have hlater := (MsgEntry.canForward_eq_some_true.mp hyes).1
    rw [hts] at hlater
    exact ⟨hbehind, fun _ => halive (by simp), rfl, hprogress.2, _, hentry, hlater,
      by simp [SendPc.Within, headerLength]⟩
  | write hentry hmsg hround hentries hclient hpos htask htask' =>
    rw [htask] at hsession hbehind halive
    rw [hentries, hclient, hpos, htask']
    obtain ⟨hunfinished, hfail, hlater, -, hmore, -⟩ := hsession.round hentry hmsg hround
    obtain ⟨hwithin, hwritten⟩ := hmore _ rfl
    refine ⟨hbehind, fun _ => halive (by simp), ?_, hfail, _, hentry, hlater, hwithin⟩
    rw [hwritten]
    rfl
  | sent hentry hmsg hround hentries hclient hpos htask htask' =>
    rename_i entry msg p ev bs res
    rw [htask] at hsession hbehind halive
    rw [hentries, hclient, hpos, htask']
    obtain ⟨-, hfail, -⟩ := hsession.round hentry hmsg hround
    by_cases hres : res < 0
    · rw [decide_eq_true hres, Client.sent, if_pos hres]
      exact ⟨fun e he => Nat.lt_succ_of_lt (hbehind e he), fun _ => halive (by simp), trivial⟩
    · rw [decide_eq_false hres, Client.sent, if_neg hres]
      refine ⟨fun e he => ?_, fun _ => halive (by simp), rfl, ?_⟩
      · rcases List.mem_append.mp he with he | he
        · exact Nat.lt_succ_of_lt (hbehind e he)
        · rw [List.mem_singleton.mp he]
          exact Nat.lt_succ_self _
      · rw [sendFailed_append hfail rfl]
        exact hres
  | mark hentry hset hentries hclient hpos htask htask' =>
    rename_i entry entry' failed
    rw [htask] at hbehind halive hprogress
    rw [hentries, hclient, hpos, htask']
    exact ⟨hbehind, fun _ => halive (by simp), by cases failed <;> exact hprogress⟩
  | reset hentry hset hentries hclient hpos htask htask' =>
    rw [htask] at hbehind halive hprogress
    rw [hentries, hclient, hpos, htask']
    exact ⟨hbehind, halive, hprogress⟩
  | fault hentry hpc hf hv =>
    rw [hv]
    exact hsession

/-- **A step of the worker** keeps the stream of its connection framed. -/
theorem Effect.received {i : Nat} {v v' : WorkerView} (h : Effect i v v')
    (hts : v.worker.timestamp = v.client.acceptTs)
    (hsession : Session v.queue.entries v.worker.pos v.worker.task v.client)
    (hreceived : Received v.queue.entries v.client) :
    Received v.queue.entries v'.client := by
  cases h with
  | quiet _ hclient | mark _ _ _ hclient | reset _ _ _ hclient | refuse _ _ _ _ hclient =>
    rw [hclient]
    exact hreceived
  | dead _ hclient | closed _ hclient =>
    rw [hclient]
    exact ⟨hreceived.framed, hreceived.entitled⟩
  | fault _ _ _ hv =>
    rw [hv]
    exact hreceived
  | start hentry hyes hentries hclient hpos htask =>
    rw [htask] at hsession
    rw [hclient]
    obtain ⟨hunfinished, -⟩ := hsession.progress
    have ⟨hframed, hentitled⟩ := hreceived
    rw [hunfinished] at hframed hentitled
    have hlater := (MsgEntry.canForward_eq_some_true.mp hyes).1
    rw [hts] at hlater
    refine ⟨hframed.start hsession.behind, fun e he => ?_⟩
    rcases List.mem_append.mp he with he | he
    · exact hentitled e (by simpa using he)
    · rw [List.mem_singleton.mp he]
      exact ⟨_, hentry, hlater⟩
  | write hentry hmsg hround hentries hclient hpos htask =>
    rw [htask] at hsession
    rw [hclient]
    obtain ⟨hunfinished, -, -, hbs, -⟩ := hsession.round hentry hmsg hround
    have ⟨hframed, hentitled⟩ := hreceived
    rw [hunfinished] at hframed hentitled
    exact ⟨hframed.write hbs, hentitled⟩
  | sent hentry hmsg hround hentries hclient hpos htask htask' =>
    rename_i entry msg p ev bs res
    rw [htask] at hsession
    rw [hclient]
    obtain ⟨hunfinished, -, -, hbs, -, hret⟩ := hsession.round hentry hmsg hround
    have ⟨hframed, hentitled⟩ := hreceived
    rw [hunfinished] at hframed hentitled
    by_cases hres : res < 0
    · rw [Client.sent, if_pos hres]
      exact ⟨hframed.write hbs, hentitled⟩
    · rw [Client.sent, if_neg hres]
      refine ⟨(hframed.write hbs).finish (hret res rfl (Int.not_lt.mp hres)), fun e he => ?_⟩
      exact hentitled e (by simpa using he)

/-! ## Every run -/

/-- The streams of all connections, and the sessions of all workers. -/
structure Streams (s : System) : Prop where
  received : ∀ c, Received s.queue.entries (s.clients c)
  session : ∀ i c, Serving s i c →
    Session s.queue.entries (s.workers i).pos (s.workers i).task (s.clients c)

section
variable {args : Args} {s s' : System} {l : Label}

theorem step_keeps_streams (h : Good args.numWorkers s) (hstreams : Streams s)
    (hs : s.step args l = some s') : Streams s' := by
  have hkeeps := (step_entries h.pool h.cursors hs).keeps
  constructor
  · intro c
    cases step_client h hs c with
    | same hclient =>
      rw [hclient]
      exact (hstreams.received c).keeps hkeeps
    | setup _ huntouched => exact .untouched huntouched
    | own _ hserving heffect =>
      have hts := (h.owned.serving_link hserving).2
      exact (heffect.received hts (hstreams.session _ c hserving) (hstreams.received c)).keeps hkeeps
  · intro i c hserving'
    cases step_session h hs hserving' with
    | frame hserving hclient hpos htask =>
      rw [hclient, hpos, htask]
      exact (hstreams.session i c hserving).keeps hkeeps
    | assign _ _ _ huntouched _ _ htask =>
      rw [htask]
      exact .assigned huntouched
    | own _ hserving heffect =>
      have hts := (h.owned.serving_link hserving).2
      exact heffect.session hts (hstreams.session i c hserving) hserving'.live

end

theorem reachable_streams {args : Args} {start : Timespec} {s : System}
    (h : (server args start).Reachable s) : Streams s := by
  refine LTS.ReachVia.invariant_ofFn (I := Streams) ?_ (fun _ _ _ hr hi _ hs => ?_) h
  · refine ⟨fun _ => .untouched ⟨rfl, rfl, rfl, rfl, rfl, rfl⟩, ?_⟩
    intro i c hserving
    cases hserving.fd
  · exact step_keeps_streams (reachable_good hr) hi hs

/-! ## Behind an incomplete image -/

/-- A worker is in `send_ctmp_msg` for connection `c`. -/
def Sending (s : System) (c : Nat) : Prop :=
  ∃ i p, (s.workers i).clientFd = some c ∧ (s.workers i).task = .send p

/-- The worker is on its way to close the connection. -/
def Task.givesUp : Task → Bool
  | .mark failed | .passed failed => failed
  | .leave => true
  | _ => false

/-- Nothing more is written to connection `c`. -/
structure Stopped (s : System) (c : Nat) : Prop where
  assigned : (s.clients c).assigned = true
  stopped : (s.clients c).closed = true ∨ ∃ i, Serving s i c ∧ (s.workers i).task.givesUp = true

theorem Effect.givesUp {i : Nat} {v v' : WorkerView} (h : Effect i v v')
    (hgive : v.worker.task.givesUp = true) :
    v'.client.out = v.client.out ∧ (v'.client.closed = true ∨ v'.worker.task.givesUp = true) := by
  cases h with
  | quiet hentries hclient hpos htask =>
    refine ⟨congrArg Client.out hclient, .inr ?_⟩
    generalize v.worker.task = t at *
    generalize v'.worker.task = t' at *
    cases htask with
    | seek | next => cases hgive
    | passed => exact hgive
    | giveUp => rfl
  | closed hentries hclient =>
    rw [hclient]
    exact ⟨rfl, .inl rfl⟩
  | mark hentry hset hentries hclient hpos htask htask' =>
    rw [htask] at hgive
    rw [hclient, htask']
    exact ⟨rfl, .inr hgive⟩
  | fault hentry hpc hf hv =>
    rw [hv]
    exact ⟨rfl, .inr hgive⟩
  | dead _ _ _ htask | refuse _ _ _ _ _ _ htask | start _ _ _ _ _ htask
  | write _ _ _ _ _ _ htask | sent _ _ _ _ _ _ htask | reset _ _ _ _ _ htask =>
    rw [htask] at hgive
    cases hgive

section
variable {args : Args} {start : Timespec} {s s' : System} {l : Label} {c : Nat}

/-- A step keeps a connection stopped, and writes nothing to it. -/
theorem step_keeps_stopped (h : Good args.numWorkers s) (hstopped : Stopped s c)
    (hs : s.step args l = some s') :
    Stopped s' c ∧ (s'.clients c).out = (s.clients c).out := by
  obtain ⟨hassigned, hstopped⟩ := hstopped
  cases step_client h hs c with
  | same hclient =>
    refine ⟨⟨by rw [hclient, hassigned], ?_⟩, by rw [hclient]⟩
    rcases hstopped with hclosed | ⟨i, hserving, hgive⟩
    · exact .inl (by rw [hclient, hclosed])
    · refine (hserving.next h hs).imp_right fun hserving' => ⟨i, hserving', ?_⟩
      cases step_session h hs hserving' with
      | frame _ _ _ htask => rw [htask, hgive]
      | assign _ _ hunassigned => exact absurd (hassigned.symm.trans hunassigned) (by simp)
      | own _ _ heffect =>
        rcases (heffect.givesUp hgive).2 with hclosed | hgive'
        · exact absurd (hclosed.symm.trans hserving'.live) (by simp)
        · exact hgive'
  | setup hunassigned => exact absurd (hassigned.symm.trans hunassigned) (by simp)
  | own _ hserving heffect =>
    rename_i i o _
    rcases hstopped with hclosed | ⟨j, hserving₂, hgive⟩
    · exact absurd (hclosed.symm.trans hserving.live) (by simp)
    · cases h.owned.serving_unique hserving hserving₂
      obtain ⟨hout, hnext⟩ := heffect.givesUp hgive
      refine ⟨⟨heffect.frame.2.1.trans hassigned, ?_⟩, hout⟩
      rcases hserving.next h hs with hclosed | hserving'
      · exact .inl hclosed
      · exact hnext.imp_right fun hgive' => ⟨i, hserving', hgive'⟩

theorem steps_keep_stopped (h : (server args start).Reachable s) (hstopped : Stopped s c)
    (hs : (server args start).Steps (fun _ _ _ => True) s s') :
    Stopped s' c ∧ (s'.clients c).out = (s.clients c).out := by
  refine hs.preserved (P := fun t => Stopped t c ∧ (t.clients c).out = (s.clients c).out) h
    (fun t _ t' ht ih _ hstep => ?_) ⟨hstopped, rfl⟩
  obtain ⟨hstopped', hout⟩ := step_keeps_stopped (reachable_good ht) ih.1 hstep
  exact ⟨hstopped', hout.trans ih.2⟩

/-- A connection with an incomplete image is being sent to, or nothing more is
written to it. -/
theorem sending_or_stopped (h : (server args start).Reachable s)
    (hpart : (s.clients c).unfinished ≠ none) : Sending s c ∨ Stopped s c := by
  have hassigned : (s.clients c).assigned = true := by
    cases hc : (s.clients c).assigned with
    | true => rfl
    | false => exact absurd ((reachable_good h).owned.untouched c hc).unfinished hpart
  rcases reachable_served h c hassigned with hclosed | ⟨i, hserving⟩
  · exact .inr ⟨hassigned, .inl hclosed⟩
  · have hprogress := ((reachable_streams h).session i c hserving).progress
    have hgive : (s.workers i).task.givesUp = true → Stopped s c :=
      fun hgive => ⟨hassigned, .inr ⟨i, hserving, hgive⟩⟩
    cases htask : (s.workers i).task with
    | seek =>
      rw [htask] at hprogress
      exact absurd hprogress.1 hpart
    | send p => exact .inl ⟨i, p, hserving.fd, htask⟩
    | mark failed | passed failed =>
      cases failed with
      | false =>
        rw [htask] at hprogress
        exact absurd hprogress.1 hpart
      | true => exact .inr (hgive (by rw [htask]; rfl))
    | leave => exact .inr (hgive (by rw [htask]; rfl))

end

/-- What receiver `c` sees: the bytes written to it are a prefix of the images of
entries that it is entitled to, at strictly increasing positions. Unless they are
whole images or a send to it is under way, they are all that is ever written to it. -/
theorem receiver_stream {args : Args} {start : Timespec} {s : System}
    (h : (server args start).Reachable s) (c : Nat) :
    let client := s.clients c
    let es := frames client.delivered client.unfinished
    es.Pairwise (· < ·) ∧ (∀ e ∈ es, Entitled s.queue.entries client e) ∧
      client.out <+: es.flatMap (imageAt s.queue.entries) ∧
      (client.unfinished = none ∧ client.out = es.flatMap (imageAt s.queue.entries) ∨
        Sending s c ∨ ∀ s', (server args start).Steps (fun _ _ _ => True) s s' →
          (s'.clients c).out = client.out) := by
  obtain ⟨hframed, hentitled⟩ := (reachable_streams h).received c
  refine ⟨hframed.ordered, hentitled, hframed.isPrefix_images, ?_⟩
  by_cases hpart : (s.clients c).unfinished = none
  · rw [hpart] at hframed ⊢
    exact .inl ⟨rfl, hframed.out_eq_images⟩
  · refine .inr ((sending_or_stopped h hpart).imp_right fun hstopped s' hs => ?_)
    exact (steps_keep_stopped h hstopped hs).2

/-- The next connection is handed to a new worker. -/
def connectLabels : List Label := List.replicate 14 (.dispatcher true)

/-- The next message is enqueued. -/
def enqueueLabels (msg : CtmpMsg) : List Label := .src (some msg) :: List.replicate 5 (.src none)

/-- Steps of worker `i` in which its connection is alive. -/
def workerLabels (i n : Nat) (send : SendEvent) : List Label :=
  List.replicate n (.worker i ⟨true, send⟩)

/-- A message with payload `A`. -/
def sampleMsg : CtmpMsg where
  header := ⟨[0xcc, 0, 0, 1, 0, 0, 0, 0], rfl⟩
  data := [0x41]
  len := 1
  data_length := rfl

/-- A receiver that got three bytes of a message before a send failed. -/
theorem receiver_stream_cut :
    ∃ s, (server .default ⟨0, 0⟩).Reachable s ∧ (s.clients 0).out = [0xcc, 0, 0] ∧
      (s.clients 0).out <+: [0].flatMap (imageAt s.queue.entries) := by
  obtain ⟨s, hs, hp⟩ := LTS.exists_reachable (System.step .default) (.init ⟨0, 0⟩)
    (connectLabels ++ .tick ⟨1, 0⟩ :: enqueueLabels sampleMsg ++ workerLabels 0 6 .eintr ++
      workerLabels 0 1 (.bytes 3) ++ workerLabels 0 1 (.error .epipe))
    (fun s => (s.clients 0).out = [0xcc, 0, 0] ∧ (s.clients 0).delivered = [] ∧
      (s.clients 0).unfinished = some (0, 3)) (by decide)
  have ⟨hout, hdelivered, hunfinished⟩ : (s.clients 0).out = [0xcc, 0, 0] ∧
      (s.clients 0).delivered = [] ∧ (s.clients 0).unfinished = some (0, 3) := by simpa using hp
  have hstream := (receiver_stream hs 0).2.2.1
  rw [hdelivered, hunfinished] at hstream
  exact ⟨s, hs, hout, hstream⟩

end WireStorm
