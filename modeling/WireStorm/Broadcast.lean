import WireStorm.Lib.Broker
import WireStorm.Order
import WireStorm.Receiver

/-!
# The server as a broker

The server refines a broker that publishes messages to subscribers over byte streams
(`server_simulates`, for any rule by which the workers start one entry after another): an
accepted receiver is a subscriber from the time at which the
dispatcher read the clock for it, a message is published when the source inserts its
entry, and what the workers write to a connection is what the subscriber is sent. The
walk over the queue, the hand-over of connections, the sent bits and the cleanup worker
cannot be seen. So whatever can be seen of a run of the server can be seen of a run of
the broker (`server_observed`), and what a subscriber of the broker can rely on holds
of every receiver.
-/

namespace WireStorm

open PubSub (Broker Sub)

/-- What can be seen of the server: published messages, new receivers, written bytes and
closed connections. -/
abbrev BrokerEvent := PubSub.Event Timespec CtmpMsg Nat UInt8

/-- The broker of messages. -/
abbrev msgBroker (follows : List Nat → Nat → Prop) :
    LTS (Broker Timespec CtmpMsg Nat UInt8) (PubSub.Act Timespec CtmpMsg Nat UInt8) :=
  PubSub.broker follows CtmpMsg.image

/-! ## What the server is as a broker -/

/-- The connection was accepted and the clock was read for it. -/
def System.joined (s : System) (c : Nat) : Prop := c < s.accepted ∧ s.dispatcher.pc ≠ .clock c

instance (s : System) (c : Nat) : Decidable (s.joined c) := inferInstanceAs (Decidable (_ ∧ _))

/-- A connection as a subscriber. -/
def Client.toSub (c : Client) : Sub Timespec UInt8 where
  since := c.acceptTs
  sent := c.delivered
  part := c.unfinished
  out := c.out
  live := !c.closed

/-- The server as a broker. -/
def System.broker (s : System) : Broker Timespec CtmpMsg Nat UInt8 where
  log := s.queue.entries.map MsgEntry.origin
  subs c := if s.joined c then some (s.clients c).toSub else none

/-- What is seen of a step of a worker that serves connection `fd`. -/
def WorkerView.observe (v : WorkerView) (fd : Nat) (o : Outcome) : Option BrokerEvent :=
  match v.worker.pc with
  | .body e (.send p) =>
    ((v.queue.entries[e]?).bind MsgEntry.msg).map fun msg =>
      .wrote fd (sendCtmpMsgRound msg p o.send).1
  | .body _ .close => some (.left fd)
  | _ => none

/-- What is seen of a step of the server. -/
def System.observeBroker (s : System) (l : Label) : Option BrokerEvent :=
  match l with
  | .src _ => s.src.inserts.map fun entry => .published entry.timestamp entry.carried
  | .dispatcher _ =>
    match s.dispatcher.pc with
    | .clock fd => some (.subscribed fd s.now)
    | _ => none
  | .worker i o => (s.workers i).clientFd.bind fun fd => (s.view i fd).observe fd o
  | _ => none

section
variable {s s' : System} {c : Nat}

theorem broker_eq (hlog : s'.queue.entries.map MsgEntry.origin = s.queue.entries.map MsgEntry.origin)
    (hjoined : ∀ c, s'.joined c ↔ s.joined c)
    (hclients : ∀ c, s.joined c → (s'.clients c).toSub = (s.clients c).toSub) :
    s'.broker = s.broker := by
  have hsubs : s'.broker.subs = s.broker.subs := by
    funext c
    simp only [System.broker, hjoined]
    split
    · rename_i hc
      rw [hclients c hc]
    · rfl
  exact Broker.ext hlog hsubs

/-- One connection changes as a subscriber. -/
theorem broker_setSub {fd : Nat} {sub : Sub Timespec UInt8}
    (hlog : s'.queue.entries.map MsgEntry.origin = s.queue.entries.map MsgEntry.origin)
    (hfd : s'.joined fd) (hsub : (s'.clients fd).toSub = sub)
    (hjoined : ∀ c, c ≠ fd → (s'.joined c ↔ s.joined c))
    (hclients : ∀ c, c ≠ fd → s'.clients c = s.clients c) :
    s'.broker = s.broker.setSub fd sub := by
  have hsubs : s'.broker.subs = (s.broker.setSub fd sub).subs := by
    funext c
    rw [PubSub.subs_setSub]
    by_cases hc : c = fd
    · subst hc
      simp only [System.broker, if_pos hfd, hsub, if_true]
    · simp only [System.broker, hjoined c hc, hclients c hc, if_neg hc]
  exact Broker.ext hlog hsubs

theorem subs_broker (h : s.joined c) : s.broker.subs c = some (s.clients c).toSub := if_pos h

theorem log_broker {e : Nat} {entry : MsgEntry} (h : s.queue.entries[e]? = some entry) :
    s.broker.log[e]? = some entry.origin := by
  rw [System.broker, List.getElem?_map, h, Option.map_some]

end

/-! ## Steps of the dispatcher -/

section
variable {args : Args} {s s' : System}

/-- A hand-over accepts no connection, and reads no clock. -/
theorem handStep_joined {fd k : Nat} {wake : Bool} {a : HandPc}
    (hpc : s.dispatcher.pc = .hand fd k wake a) (hs : s.handStep fd k wake a = some s') (c : Nat) :
    s'.joined c ↔ s.joined c := by
  have hsame : ∀ {s' : System}, s'.accepted = s.accepted → s'.dispatcher.pc ≠ .clock c →
      (s'.joined c ↔ s.joined c) := by
    intro s' haccepted hclock
    simp only [System.joined, haccepted, hclock, hpc, ne_eq, reduceCtorEq, not_false_eq_true]
  cases a with
  | assertReady | lockArgs =>
    simp only [System.handStep] at hs
    split at hs <;> cases hs
    all_goals exact hsame rfl (by simp [hpc])
  | lockMask =>
    obtain ⟨mask, -, rfl⟩ := Option.map_eq_some_iff.mp hs
    exact hsame rfl (by simp)
  | initArgs | setFd | setBusy | setBit | unlockMask | setTime | create | signal | unlockArgs =>
    cases hs
    exact hsame rfl (by simp)

/-- The dispatcher reads the clock for the connection that it has accepted, or no connection
is new to it. -/
theorem dispatcherStep_joined {accepts : Bool} (hs : s.dispatcherStep args accepts = some s') :
    (∃ fd, s.dispatcher.pc = .clock fd ∧
        s' = { s.setClient fd (.accept s.now) with dispatcher := ⟨.lockProbe fd 0, s.now⟩ }) ∨
      (∀ fd, s.dispatcher.pc ≠ .clock fd) ∧ ∀ c, s'.joined c ↔ s.joined c := by
  have hsame : ∀ {s' : System} {pc}, s.dispatcher.pc = pc → (∀ fd, pc ≠ .clock fd) →
      s'.accepted = s.accepted → (∀ fd, s'.dispatcher.pc ≠ .clock fd) →
      (∀ fd, s.dispatcher.pc ≠ .clock fd) ∧ ∀ c, s'.joined c ↔ s.joined c := by
    intro s' pc hpc hno haccepted hno'
    refine ⟨by rwa [hpc], fun c => ?_⟩
    simp only [System.joined, haccepted, hno' c, hpc, hno c, ne_eq, not_false_eq_true]
  unfold System.dispatcherStep at hs
  split at hs
  · rename_i hpc
    refine .inr ⟨by simp [hpc], fun c => ?_⟩
    split at hs <;> cases hs
    · simp only [System.joined, System.dispatcher_dispatcherAt, System.accepted_dispatcherAt, hpc,
        DispatcherPc.clock.injEq, ne_eq, reduceCtorEq, not_false_eq_true, and_true]
      omega
    · rfl
  · rename_i fd hpc
    cases hs
    exact .inl ⟨fd, hpc, rfl⟩
  · rename_i hpc
    split at hs
    · obtain ⟨mask, -, rfl⟩ := Option.map_eq_some_iff.mp hs
      exact .inr (hsame hpc (by simp) rfl (by simp))
    · cases hs
      exact .inr (hsame hpc (by simp) rfl (by simp))
  · rename_i hpc
    cases hs
    exact .inr (hsame hpc (by simp) rfl (by simp))
  · rename_i isIdle hpc
    cases hs
    refine .inr (hsame hpc (by simp) rfl fun fd => ?_)
    cases isIdle <;> simp
  · rename_i hpc
    cases hs
    exact .inr (hsame hpc (by simp) rfl (by simp))
  · rename_i hpc
    split at hs <;> cases hs
    all_goals exact .inr (hsame hpc (by simp) rfl (by simp))
  · rename_i hpc
    exact .inr ⟨by simp [hpc], handStep_joined hpc hs⟩

/-- Between two readings of the clock no connection changes as a subscriber. -/
theorem dispatcherStep_toSub {accepts : Bool} (hp : Pool args.numWorkers s)
    (hs : s.dispatcherStep args accepts = some s') (hclock : ∀ fd, s.dispatcher.pc ≠ .clock fd)
    (c : Nat) : (s'.clients c).toSub = (s.clients c).toSub := by
  cases dispatcherStep_move hp hs with
  | calm _ hclients => rw [hclients]
  | accept | create => rfl
  | clock hpc => exact absurd hpc (hclock _)
  | setFd hpc | setTime hpc =>
    rename_i fd k wake
    by_cases hc : c = fd
    · subst hc
      simp [Client.toSub]
    · simp [hc]

end

/-! ## Steps of a worker -/

/-- The connection after a call of `send` that wrote `bs`. -/
def Client.afterSend (c : Client) (e : Nat) (p : SendPc) (bs : List UInt8) : SendCtmpMsg → Client
  | .more _ => c.wrote e p bs
  | .ret res => c.sent e p bs res

/-- What a step of worker `i` does to its connection as a subscriber, with what is seen of it. -/
inductive SubMove (i : Nat) (o : Outcome) (v v' : WorkerView) (fd : Nat) : Prop
  | silent (hclient : v'.client.toSub = v.client.toSub) (hseen : v.observe fd o = none)
  | start {e : Nat} {entry : MsgEntry} (hpc : v.worker.pc = .body e .forward)
      (hentry : v.queue.entries[e]? = some entry)
      (hyes : entry.canForward i v.worker.timestamp = some true)
      (hclient : v'.client = { v.client with unfinished := some (e, 0) })
  | write {e : Nat} {entry : MsgEntry} {msg : CtmpMsg} {p : SendPc} {bs : List UInt8}
      {r : SendCtmpMsg} (hpc : v.worker.pc = .body e (.send p))
      (hentry : v.queue.entries[e]? = some entry) (hmsg : entry.msg = some msg)
      (hround : sendCtmpMsgRound msg p o.send = (bs, r))
      (hclient : v'.client = v.client.afterSend e p bs r)
  | leave {e : Nat} (hpc : v.worker.pc = .body e .close)
      (hclient : v'.client = { v.client with closed := true })

theorem WorkerView.observe_body {v : WorkerView} {e fd : Nat} {l : LoopPc} {o : Outcome}
    (hpc : v.worker.pc = .body e l) (hsend : ∀ p, l ≠ .send p) (hclose : l ≠ .close) :
    v.observe fd o = none := by
  unfold WorkerView.observe
  rw [hpc]
  cases l <;> first | rfl | exact absurd rfl (hsend _) | exact absurd rfl hclose

theorem WorkerView.send_sub {i e fd : Nat} {o : Outcome} {p : SendPc} {v v' : WorkerView}
    (hpc : v.worker.pc = .body e (.send p)) (hs : v.step i o = some v') : SubMove i o v v' fd := by
  simp only [WorkerView.step, hpc, WorkerView.bodyStep] at hs
  split at hs
  · cases hs
  · rename_i entry hentry
    split at hs
    · rename_i hfreed
      cases hs
      refine .silent rfl ?_
      simp only [WorkerView.observe, hpc, hentry, Option.bind_some, hfreed, Option.map_none]
    · rename_i msg hmsg
      split at hs
      · rename_i hround
        cases hs
        exact .write hpc hentry hmsg hround rfl
      · rename_i hround
        cases hs
        exact .write hpc hentry hmsg hround rfl

/-- **A step of a worker** does one of the moves to its connection as a subscriber. -/
theorem WorkerView.step_sub {i fd : Nat} {o : Outcome} {v v' : WorkerView}
    (hs : v.step i o = some v') : SubMove i o v v' fd := by
  have hquiet : ∀ {e l}, v.worker.pc = .body e l → (∀ p, l ≠ .send p) → l ≠ .close →
      v'.client.toSub = v.client.toSub → SubMove i o v v' fd :=
    fun hpc hsend hclose hclient => .silent hclient (observe_body hpc hsend hclose)
  cases WorkerView.step_move hs with
  | seek hpc | found hpc =>
    refine .silent rfl ?_
    rw [WorkerView.observe, hpc]
  | quiet hpc hl =>
    refine hquiet hpc ?_ ?_ rfl
    · rintro p rfl
      cases hl
    · rintro rfl
      cases hl
  | start hpc hentry hyes => exact .start hpc hentry hyes rfl
  | write hpc | sent hpc => exact WorkerView.send_sub hpc hs
  | close hpc => exact .leave hpc rfl
  | fault hpc hentry hf =>
    cases hf with
    | send => exact WorkerView.send_sub hpc hs
    | forward | mark => exact hquiet hpc (by simp) (by simp) rfl
  | dead hpc | refuse hpc | mark hpc | readNext hpc | test hpc | lockArgs hpc | setReady hpc
  | clearBit hpc | busy hpc | sleep hpc | wake hpc | reset hpc | unlockArgs hpc | advance hpc =>
    exact hquiet hpc (by simp) (by simp) rfl

section
variable {args : Args} {start : Timespec} {s s' : System} {l : Label} {i fd : Nat}

/-- A worker in the body of its loop, up to the `close`, serves its connection. -/
theorem Good.serving {n e : Nat} {lp : LoopPc} (h : Good n s) (hfd : (s.workers i).clientFd = some fd)
    (hpc : (s.workers i).pc = .body e lp) (hplace : (∃ p, lp = .send p) ∨ lp = .forward ∨ lp = .close) :
    Serving s i fd := by
  refine h.owned.serving_of_link ?_ hfd
  rcases hplace with ⟨p, rfl⟩ | rfl | rfl <;> simp only [Worker.link, hpc]

theorem Owned.joined {n c : Nat} (h : Owned n s) (hserving : Serving s i c) : s.joined c := by
  refine ⟨(h.owner i c hserving.fd).1, fun hclock => ?_⟩
  have hassigned := (h.held c (by rw [hclock]; rfl)).2.2
  rw [hserving.assigned] at hassigned
  cases hassigned

/-- The entries that the workers start follow on what their receivers got. -/
def Starts (follows : List Nat → Nat → Prop) (s : System) : Prop :=
  ∀ i c e entry, Serving s i c → (s.workers i).pc = .body e .forward →
    s.queue.entries[e]? = some entry → entry.canForward i (s.workers i).timestamp = some true →
      follows (s.clients c).delivered e

/-- What a worker starts is behind what its receiver got. -/
theorem starts_behind (hr : (server args start).Reachable s) : Starts PubSub.Behind s := by
  intro i c e entry hserving hpc _ _
  have hsession := (reachable_streams hr).session i c hserving
  have hpos : (s.workers i).pos = e := by simp only [Worker.pos, hpc]
  have htask : (s.workers i).task = .seek := by simp only [Worker.task, hpc]
  rw [hpos, htask] at hsession
  exact hsession.behind

variable {follows : List Nat → Nat → Prop}

/-- A step of worker `i` as a path of the broker. -/
theorem workerStep_broker {o : Outcome} (hr : (server args start).Reachable s)
    (hstarts : Starts follows s) (hs : s.step args (.worker i o) = some s') :
    (msgBroker follows).Path PubSub.observe s.broker (s.observeBroker (.worker i o)).toList
      s'.broker := by
  have hg := reachable_good hr
  have hlog := step_origins hg hs
  rw [List.append_nil] at hlog
  obtain ⟨fd, v', hfd, hv, rfl⟩ := workerStep_eq (workerStep_of_step hs)
  have hseen : s.observeBroker (.worker i o) = (s.view i fd).observe fd o := by
    simp only [System.observeBroker, hfd, Option.bind_some]
  rw [hseen]
  -- the other connections are left alone
  have hset : ∀ {sub}, s.joined fd → v'.client.toSub = sub →
      (s.setView i fd v').broker = s.broker.setSub fd sub := by
    intro sub hjoined hsub
    refine broker_setSub hlog hjoined ?_ (fun c _ => Iff.rfl) fun c hc => ?_
    · simpa [System.setView] using hsub
    · simp [System.setView, hc]
  have hsub : SubMove i o (s.view i fd) v' fd := WorkerView.step_sub hv
  cases hsub with
  | silent hclient hseen =>
    have hsame : (s.setView i fd v').broker = s.broker := by
      refine broker_eq hlog (fun c => Iff.rfl) fun c _ => ?_
      by_cases hc : c = fd
      · subst hc
        simp only [System.setView, Function.update_self]
        exact hclient
      · simp [System.setView, hc]
    rw [hseen, hsame]
    exact .refl
  | @start e entry hpc hentry hyes hclient =>
    have hpc : (s.workers i).pc = .body e .forward := hpc
    have hserving := hg.serving hfd hpc (.inr (.inl rfl))
    have hjoined := hg.owned.joined hserving
    have hsession := (reachable_streams hr).session i fd hserving
    have hpos : (s.workers i).pos = e := by simp only [Worker.pos, hpc]
    have htask : (s.workers i).task = .seek := by simp only [Worker.task, hpc]
    rw [hpos, htask] at hsession
    have hlater : (s.workers i).timestamp < entry.timestamp :=
      (MsgEntry.canForward_eq_some_true.mp hyes).1
    rw [(hg.owned.serving_link hserving).2] at hlater
    rw [WorkerView.observe_body (v := s.view i fd) hpc (by simp) (by simp),
      hset hjoined (congrArg Client.toSub hclient)]
    refine .hidden (.start (subs_broker hjoined) ?_ hsession.progress.1 (log_broker hentry) hlater
      (hstarts i fd e entry hserving hpc hentry hyes)) rfl
    simp [Client.toSub, hserving.live]
  | @write e entry msg p bs r hpc hentry hmsg hround hclient =>
    have hpc : (s.workers i).pc = .body e (.send p) := hpc
    have hentry : s.queue.entries[e]? = some entry := hentry
    have hserving := hg.serving hfd hpc (.inl ⟨p, rfl⟩)
    have hjoined := hg.owned.joined hserving
    have hsession := (reachable_streams hr).session i fd hserving
    have hpos : (s.workers i).pos = e := by simp only [Worker.pos, hpc]
    have htask : (s.workers i).task = .send p := by simp only [Worker.task, hpc]
    rw [hpos, htask] at hsession
    obtain ⟨hunfinished, -, -, hbs, -, hret⟩ := hsession.round hentry hmsg hround
    have himage : imageAt s.queue.entries e = entry.origin.2.image := by
      simp only [imageAt, hentry, MsgEntry.origin]
    rw [himage] at hbs hret
    have hlive : (s.clients fd).toSub.live = true := by simp [Client.toSub, hserving.live]
    have hseen : (s.view i fd).observe fd o = some (.wrote fd bs) := by
      simp only [WorkerView.observe, System.view, hpc, hentry, Option.bind_some, hmsg,
        Option.map_some, hround]
    have hwrite : (msgBroker follows).Path PubSub.observe s.broker [.wrote fd bs] (s.broker.setSub fd
        ((s.clients fd).wrote e p bs).toSub) :=
      .visible (.write (subs_broker hjoined) hlive hunfinished (log_broker hentry) hbs) rfl
    rw [hseen, Option.toList_some, hset hjoined (congrArg Client.toSub hclient)]
    cases r with
    | more p' => exact hwrite
    | ret res =>
      simp only [Client.afterSend, Client.sent]
      by_cases hres : res < 0
      · rw [if_pos hres]
        exact hwrite
      · -- the last bytes of the image, and the end of the post
        have hfull := hret res rfl (Int.not_lt.mp hres)
        have hsub : (s.broker.setSub fd ((s.clients fd).wrote e p bs).toSub).subs fd =
            some ((s.clients fd).wrote e p bs).toSub := by simp
        have hpath := hwrite.trans (.hidden (.finish hsub hlive (log_broker hentry)
          (by rw [← hfull]; rfl)) rfl)
        rw [PubSub.setSub_setSub] at hpath
        rw [if_neg hres]
        exact hpath
  | @leave e hpc hclient =>
    have hpc : (s.workers i).pc = .body e .close := hpc
    have hserving := hg.serving hfd hpc (.inr (.inr rfl))
    have hjoined := hg.owned.joined hserving
    have hseen : (s.view i fd).observe fd o = some (.left fd) := by
      simp only [WorkerView.observe, System.view, hpc]
    rw [hseen, Option.toList_some, hset hjoined (congrArg Client.toSub hclient)]
    refine .visible (.leave (subs_broker hjoined) ?_) rfl
    simp [Client.toSub, hserving.live]

/-- **The server refines the broker**: what can be seen of a step can be seen of a path of the
broker that it is. -/
theorem server_simulates
    (hstarts : ∀ s, (server args start).Reachable s → Starts follows s) :
    (server args start).Simulates System.observeBroker (msgBroker follows) PubSub.observe
      fun s b => b = s.broker where
  init := by
    rintro s rfl
    refine ⟨_, rfl, ?_⟩
    refine Broker.ext rfl (funext fun c => ?_)
    simp [PubSub.Broker.empty, System.broker, System.joined, System.init]
  step := by
    rintro s l s' b hr rfl hs
    refine ⟨s'.broker, ?_, rfl⟩
    have hg := reachable_good hr
    have hlog := step_origins hg hs
    -- steps that leave the accepted connections alone
    have hsame : s'.queue.entries.map MsgEntry.origin = s.queue.entries.map MsgEntry.origin →
        s'.accepted = s.accepted → s'.dispatcher = s.dispatcher → s'.clients = s.clients →
        s'.broker = s.broker := by
      intro hlog haccepted hdispatcher hclients
      refine broker_eq hlog (fun c => ?_) fun c _ => by rw [hclients]
      rw [System.joined, System.joined, haccepted, hdispatcher]
    cases step_move hs with
    | src hstep =>
      have hframe := srcStep_frame hstep
      simp only [System.observeBroker] at hlog ⊢
      cases hins : s.src.inserts with
      | none =>
        rw [hins] at hlog
        rw [hsame (by simpa using hlog) hframe.accepted hframe.dispatcher hframe.clients]
        exact .refl
      | some entry =>
        rw [hins] at hlog
        have hjoined : ∀ c, s'.joined c ↔ s.joined c := fun c => by
          rw [System.joined, System.joined, hframe.accepted, hframe.dispatcher]
        have hbroker : s'.broker = s.broker.append entry.timestamp entry.carried := by
          refine Broker.ext (by simpa [System.broker, MsgEntry.origin] using hlog) (funext fun c => ?_)
          simp only [System.broker, hjoined, hframe.clients, PubSub.subs_append]
        rw [hbroker]
        exact .visible .publish rfl
    | @dispatcher accepts _ hstep =>
      rw [List.append_nil] at hlog
      rcases dispatcherStep_joined hstep with ⟨fd, hpc, heq⟩ | ⟨hclock, hjoined⟩
      · have hnew : s.broker.subs fd = none := if_neg fun h => h.2 hpc
        have hlt := (hg.owned.held fd (by rw [hpc]; rfl)).1
        have hbroker : s'.broker = s.broker.setSub fd (.new s.now) := by
          subst heq
          refine broker_setSub hlog ⟨hlt, by simp⟩ ?_ (fun c hc => ?_) fun c hc => by simp [hc]
          · simp only [System.clients_setClient, Function.update_self]
            rfl
          · simp [System.joined, hpc, Ne.symm hc]
        simp only [System.observeBroker, hpc]
        rw [hbroker]
        exact .visible (.subscribe hnew) rfl
      · have hseen : s.observeBroker (.dispatcher accepts) = none := by
          simp only [System.observeBroker]
        rw [hseen, broker_eq hlog hjoined fun c _ => dispatcherStep_toSub hg.pool hstep hclock c]
        exact .refl
    | worker hstep => exact workerStep_broker hr (hstarts s hr) hs
    | cleanup hstep =>
      have hframe := (cleanupStep_frame hstep).1
      rw [hsame (by simpa using hlog) hframe.accepted hframe.dispatcher hframe.clients]
      exact .refl
    | tick | wakeMsg | wakeArgs =>
      rw [hsame rfl rfl rfl rfl]
      exact .refl

end

end WireStorm
