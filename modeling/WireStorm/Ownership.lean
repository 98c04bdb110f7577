import WireStorm.Pool

/-!
# Connections and their workers

Who owns an accepted connection, over every run (`Owned`): the dispatcher holds
it from `accept` until it writes it into the arguments of one worker, and from
then on it belongs to that worker. `Worker.link` says how a worker stands to the
connection in its `client_fd`; a worker gets a new one only when it has none or
has closed the old one (`descriptors_owned`).
-/

namespace WireStorm

/-! ## How a worker stands to its connection -/

/-- No connection yet; a connection being handed over; the connection that the
worker serves; a connection that it has closed. -/
inductive Link
  | absent
  | pending
  | live
  | closed
  deriving DecidableEq

/-- The link of a worker that the dispatcher hands a connection to. -/
def HandPc.link (h : HandPc) (before : Link) : Link :=
  match h with
  | .assertReady | .lockArgs | .initArgs | .setFd => before
  | .setBusy | .lockMask | .setBit | .unlockMask | .setTime => .pending
  | .create | .signal | .unlockArgs => .live

/-- How a worker stands to the connection in its `client_fd`. -/
def Worker.link (w : Worker) (st : Stage) : Link :=
  match w.pc with
  | .idle =>
    match st with
    | none => .absent
    | some (_, h) => h.link .absent
  | .get _ _ => .live
  | .body _ l =>
    match l with
    | .lockArgs | .setReady | .lockMask | .clearBit | .unlockMask => .closed
    | .waitBusy => if w.status = .busy then .live else .closed
    | .asleep =>
      match st with
      | none => if w.status = .busy then .live else .closed
      | some (_, h) => h.link .closed
    | _ => .live

/-- The connection that the dispatcher has accepted and not given to a worker yet. -/
def DispatcherPc.held : DispatcherPc → Option Nat
  | .clock fd | .lockProbe fd _ | .readProbe fd _ | .unlockProbe fd _ _ | .backoff fd
  | .switch fd _ => some fd
  | .hand fd _ _ h => if h.link .absent = .absent then some fd else none
  | .accept => none

/-- The connection and the worker of a hand-over that lacks the timestamp. -/
def DispatcherPc.pending : DispatcherPc → Option (Nat × Nat)
  | .hand fd k _ h => if h.link .absent = .pending then some (fd, k) else none
  | _ => none

/-- The dispatcher has read the clock for the connection it works on. -/
def DispatcherPc.stamped (pc : DispatcherPc) (fd : Nat) : Prop :=
  pc.held = some fd ∧ pc ≠ .clock fd ∨ ∃ k, pc.pending = some (fd, k)

/-- The connection of worker `i` is in the state that the link says. -/
def Linked (l : Link) (w : Worker) (clients : Nat → Client) : Prop :=
  match l with
  | .absent => w.clientFd = none
  | .pending => ∃ c, w.clientFd = some c ∧ (clients c).assigned = false
  | .live => ∃ c, w.clientFd = some c ∧ (clients c).assigned = true ∧
      (clients c).closed = false ∧ w.timestamp = (clients c).acceptTs
  | .closed => ∃ c, w.clientFd = some c ∧ (clients c).assigned = true ∧ (clients c).closed = true

/-- Nothing has happened to the connection yet. -/
structure Client.Untouched (c : Client) : Prop where
  out : c.out = []
  delivered : c.delivered = []
  unfinished : c.unfinished = none
  sends : c.sends = []
  deadSeen : c.deadSeen = false
  closed : c.closed = false

/-- **Connections and their workers** agree. -/
structure Owned (n : Nat) (s : System) : Prop where
  linked : ∀ i, Linked ((s.workers i).link (s.stage i)) (s.workers i) s.clients
  owner : ∀ i c, (s.workers i).clientFd = some c → c < s.accepted ∧ (s.clients c).handedTo = [i]
  untouched : ∀ c, (s.clients c).assigned = false → (s.clients c).Untouched
  held : ∀ fd, s.dispatcher.pc.held = some fd →
    fd < s.accepted ∧ (s.clients fd).handedTo = [] ∧ (s.clients fd).assigned = false
  stamped : ∀ fd, s.dispatcher.pc.stamped fd → s.dispatcher.clientTs = (s.clients fd).acceptTs
  pending : ∀ fd k, s.dispatcher.pc.pending = some (fd, k) → (s.workers k).clientFd = some fd
  given : ∀ c < s.accepted, s.dispatcher.pc.held ≠ some c →
    ∃ i < n, (s.clients c).handedTo = [i]
  fresh : ∀ c, s.accepted ≤ c → (s.clients c).handedTo = [] ∧ (s.clients c).assigned = false

theorem owned_init (n : Nat) (start : Timespec) : Owned n (.init start) where
  linked _ := rfl
  owner _ _ h := by cases h
  untouched _ _ := ⟨rfl, rfl, rfl, rfl, rfl, rfl⟩
  held _ h := by cases h
  stamped _ h := by rcases h with ⟨h, -⟩ | ⟨_, h⟩ <;> cases h
  pending _ _ h := by cases h
  given _ h := absurd h (Nat.not_lt_zero _)
  fresh _ _ := ⟨rfl, rfl⟩

/-! ## What a step of a worker does to its connection -/

/-- What no step of a worker changes. -/
theorem WorkerMove.frame {i : Nat} {v v' : WorkerView} (h : WorkerMove i v v') :
    v'.worker.clientFd = v.worker.clientFd ∧ v'.worker.timestamp = v.worker.timestamp ∧
      v'.client.acceptTs = v.client.acceptTs ∧ v'.client.handedTo = v.client.handedTo ∧
      v'.client.assigned = v.client.assigned := by
  cases h with
  | sent =>
    refine ⟨rfl, rfl, ?_⟩
    simp only [Client.sent]
    split <;> exact ⟨rfl, rfl, rfl⟩
  | _ => exact ⟨rfl, rfl, rfl, rfl, rfl⟩

theorem quietNext_link {l l' : LoopPc} (h : l.quietNext = some l') {i e : Nat} {st : Stage}
    {w : Worker} (hpc : w.pc = .body e l) (hok : WorkerOk st i w) :
    ({ w with pc := .body e l' } : Worker).link st = w.link st := by
  cases l <;> cases h <;> simp only [Worker.link, hpc]
  · simp only [WorkerOk, hpc, WorkerPc.place, LoopPc.place] at hok
    simp [hok.2.1]

/-- A step of a worker touches its connection only while it serves it, and gives
it up by closing it. -/
theorem WorkerMove.link {i : Nat} {v v' : WorkerView} {st : Stage} (hmove : WorkerMove i v v')
    (hok : WorkerOk st i v.worker) :
    v'.worker.link st = v.worker.link st ∧
        (v'.client = v.client ∨ v.worker.link st = .live ∧ v'.client.closed = v.client.closed) ∨
      v.worker.link st = .live ∧ v'.worker.link st = .closed ∧
        v'.client = { v.client with closed := true } := by
  cases hmove with
  | seek hpc | found hpc | refuse hpc | mark hpc | readNext hpc | lockArgs hpc | setReady hpc
  | clearBit hpc | reset hpc | unlockArgs hpc | advance hpc =>
    exact .inl ⟨by simp only [Worker.link, hpc, WorkerView.goto], .inl rfl⟩
  | dead hpc | start hpc | write hpc =>
    refine .inl ⟨by simp only [Worker.link, hpc, WorkerView.goto], .inr ⟨?_, rfl⟩⟩
    simp only [Worker.link, hpc]
  | sent hpc =>
    refine .inl ⟨by simp only [Worker.link, hpc], .inr ⟨by simp only [Worker.link, hpc], ?_⟩⟩
    simp only [Client.sent]
    split <;> rfl
  | fault => exact .inl ⟨rfl, .inl rfl⟩
  | quiet hpc hl => exact .inl ⟨quietNext_link hl hpc hok, .inl rfl⟩
  | test hpc =>
    refine .inl ⟨?_, .inl rfl⟩
    by_cases hfail : v.worker.bytesSent < 0 <;> simp [Worker.link, hpc, WorkerView.goto, hfail]
  | close hpc =>
    exact .inr ⟨by simp only [Worker.link, hpc],
      by simp only [Worker.link, WorkerView.goto], rfl⟩
  | busy hpc hbusy =>
    refine .inl ⟨?_, .inl rfl⟩
    simp [Worker.link, hpc, WorkerView.goto, hbusy]
  | sleep hpc hbusy =>
    refine .inl ⟨?_, .inl rfl⟩
    simp only [WorkerOk, hpc, WorkerPc.place, LoopPc.place] at hok
    obtain ⟨⟨rfl, -⟩ | ⟨h, rfl, hearly, -⟩, -⟩ := hok
    · simp [Worker.link, hpc, hbusy]
    · cases h <;> cases hearly <;> simp [Worker.link, hpc, hbusy, HandPc.link]
  | wake hpc hwoken hfree =>
    refine .inl ⟨?_, .inl rfl⟩
    simp only [WorkerOk, hpc, WorkerPc.place, LoopPc.place] at hok
    rcases hok with ⟨rfl, -⟩ | ⟨h, rfl, -, hlock, hstatus⟩
    · simp [Worker.link, hpc]
    · rw [hfree] at hlock
      cases h <;> simp [HandPc.early] at hlock <;>
        simp [Worker.link, hpc, HandPc.link, hstatus, HandPc.busy]

/-! ## What a step of the dispatcher does -/

/-- The parts of a worker that decide which entries it sends to whom. -/
structure SameLoop (w w' : Worker) : Prop where
  pc : w'.pc = w.pc
  prev : w'.prev = w.prev
  next : w'.next = w.next
  clientFd : w'.clientFd = w.clientFd
  timestamp : w'.timestamp = w.timestamp
  bytesSent : w'.bytesSent = w.bytesSent

theorem SameLoop.refl (w : Worker) : SameLoop w w := ⟨rfl, rfl, rfl, rfl, rfl, rfl⟩

/-- What a step of the dispatcher can do. -/
inductive DispatcherMove (s : System) : System → Prop
  | calm {s' : System} (hqueue : s'.queue = s.queue) (hclients : s'.clients = s.clients)
      (haccepted : s'.accepted = s.accepted) (hfault : s'.fault = s.fault)
      (hts : s'.dispatcher.clientTs = s.dispatcher.clientTs)
      (hheld : s'.dispatcher.pc.held = s.dispatcher.pc.held)
      (hpending : s'.dispatcher.pc.pending = s.dispatcher.pc.pending)
      (hstamped : ∀ fd, s'.dispatcher.pc.stamped fd → s.dispatcher.pc.stamped fd)
      (hloop : ∀ i, SameLoop (s.workers i) (s'.workers i))
      (hlink : ∀ i, (s'.workers i).link (s'.stage i) = (s.workers i).link (s.stage i)) :
      DispatcherMove s s'
  | accept (hpc : s.dispatcher.pc = .accept) :
      DispatcherMove s ({ s with accepted := s.accepted + 1 }.dispatcherAt (.clock s.accepted))
  | clock {fd : Nat} (hpc : s.dispatcher.pc = .clock fd) :
      DispatcherMove s
        { s.setClient fd (.accept s.now) with dispatcher := ⟨.lockProbe fd 0, s.now⟩ }
  | setFd {fd k : Nat} {wake : Bool} (hpc : s.dispatcher.pc = .hand fd k wake .setFd) :
      DispatcherMove s (((s.setWorker k { s.workers k with clientFd := some fd }).setClient fd
        { s.clients fd with handedTo := (s.clients fd).handedTo ++ [k] }).dispatcherAt
          (.hand fd k wake .setBusy))
  | setTime {fd k : Nat} {wake : Bool} (hpc : s.dispatcher.pc = .hand fd k wake .setTime) :
      DispatcherMove s (((s.setWorker k
        { s.workers k with timestamp := s.dispatcher.clientTs }).setClient fd
        { s.clients fd with assigned := true }).dispatcherAt
          (.hand fd k wake (if wake then .signal else .create)))
  | create {fd k : Nat} {wake : Bool} (hpc : s.dispatcher.pc = .hand fd k wake .create)
      (hidle : (s.workers k).pc = .idle) :
      DispatcherMove s ((s.setWorker k { s.workers k with
        pc := .get none .test, prev := none, next := none, bytesSent := 0 }).dispatcherAt .accept)

theorem place_fresh {pc : WorkerPc} (h : pc.place = .fresh) : pc = .idle := by
  cases pc with
  | idle => rfl
  | get current g => cases h
  | body e l => cases l <;> cases h

theorem place_asleep {pc : WorkerPc} (h : pc.place = .asleep) : ∃ e, pc = .body e .asleep := by
  cases pc with
  | idle => cases h
  | get current g => cases h
  | body e l => cases l <;> first | exact ⟨e, rfl⟩ | cases h

section
variable {n : Nat} {s s' : System}

/-- The link of a worker during its hand-over. -/
theorem link_handing {wake : Bool} {a : HandPc} {i : Nat} {w : Worker}
    (hok : WorkerOk (some (wake, a)) i w) :
    w.link (some (wake, a)) = a.link (if wake then .closed else .absent) := by
  cases wake with
  | false =>
    obtain ⟨hplace, -, -⟩ := workerOk_init.mp hok
    rw [Worker.link, place_fresh hplace]
    rfl
  | true =>
    rcases workerOk_wake.mp hok with ⟨hplace, hearly, hstatus, -⟩ | ⟨hplace, -⟩
    · have hlink : a.link .closed = .closed := by cases a <;> cases hearly <;> rfl
      rw [if_pos rfl, hlink]
      cases hpc : w.pc with
      | idle => simp [hpc, WorkerPc.place] at hplace
      | get current g => simp [hpc, WorkerPc.place] at hplace
      | body e l => cases l <;> simp [hpc, WorkerPc.place, LoopPc.place, Worker.link, hstatus] at hplace ⊢
    · obtain ⟨e, he⟩ := place_asleep hplace
      rw [Worker.link, he]
      rfl

theorem link_of_ready {w : Worker} (hstatus : w.status = .ready)
    (hplace : w.pc.place = .released ∨ w.pc.place = .waiting ∨ w.pc.place = .asleep) :
    w.link none = .closed := by
  cases hpc : w.pc with
  | idle => simp [hpc, WorkerPc.place] at hplace
  | get current g => simp [hpc, WorkerPc.place] at hplace
  | body e l =>
    cases l <;> simp [hpc, WorkerPc.place, LoopPc.place, Worker.link, hstatus] at hplace ⊢

/-- A step of `init_thread_info` or `wake_up_thread` on worker `k` that leaves
its connection alone. -/
theorem hand_calm {fd k : Nat} {wake : Bool} {a b : HandPc} {w : Worker} {mask : StatusMask}
    (h : Pool n s) (hpc : s.dispatcher.pc = .hand fd k wake a) (h' : Pool n s')
    (hs' : s' = { s.setWorker k w with mask := mask }.dispatcherAt (.hand fd k wake b))
    (hloop : SameLoop (s.workers k) w) (hlink : ∀ l, b.link l = a.link l) :
    DispatcherMove s s' := by
  have hpc' : s'.dispatcher = ⟨.hand fd k wake b, s.dispatcher.clientTs⟩ := by rw [hs']; rfl
  have hworkers : s'.workers = Function.update s.workers k w := by rw [hs']; rfl
  have hheld : s'.dispatcher.pc.held = s.dispatcher.pc.held ∧
      s'.dispatcher.pc.pending = s.dispatcher.pc.pending := by
    simp only [hpc, hpc', DispatcherPc.held, DispatcherPc.pending, hlink, and_self]
  refine .calm (by rw [hs']; rfl) (by rw [hs']; rfl) (by rw [hs']; rfl) (by rw [hs']; rfl)
    (by rw [hpc']) hheld.1 hheld.2 ?_ (fun i => ?_) (fun i => ?_)
  · rintro fd' (⟨hfd, -⟩ | ⟨k', hk'⟩)
    · rw [hheld.1] at hfd
      exact .inl ⟨hfd, by simp [hpc]⟩
    · rw [hheld.2] at hk'
      exact .inr ⟨k', hk'⟩
  · by_cases hi : i = k
    · subst hi
      rwa [hworkers, Function.update_self]
    · rw [hworkers, Function.update_of_ne hi]
      exact .refl _
  · by_cases hi : i = k
    · subst hi
      have hst : s.stage i = some (wake, a) := by rw [System.stage, hpc, stage_hand]
      have hst' : s'.stage i = some (wake, b) := by rw [System.stage, hpc', stage_hand]
      have hok := h.worker i
      have hok' := h'.worker i
      rw [hst] at hok ⊢
      rw [hst'] at hok' ⊢
      rw [link_handing hok, link_handing hok', hlink]
    · rw [hworkers, Function.update_of_ne hi, System.stage, System.stage, hpc, hpc',
        stage_hand_of_ne _ _ hi, stage_hand_of_ne _ _ hi]

/-- A step of `init_thread_info` or `wake_up_thread` that leaves the workers alone. -/
theorem hand_calm_mask {fd k : Nat} {wake : Bool} {a b : HandPc} {mask : StatusMask}
    (h : Pool n s) (hpc : s.dispatcher.pc = .hand fd k wake a) (h' : Pool n s')
    (hs' : s' = { s with mask := mask }.dispatcherAt (.hand fd k wake b))
    (hlink : ∀ l, b.link l = a.link l) : DispatcherMove s s' :=
  hand_calm h hpc h' (by rw [System.setWorker_self, hs']) (.refl _) hlink

theorem handStep_move {fd k : Nat} {wake : Bool} {a : HandPc} (h : Pool n s)
    (hpc : s.dispatcher.pc = .hand fd k wake a) (h' : Pool n s')
    (hs : s.handStep fd k wake a = some s') : DispatcherMove s s' := by
  have hok := h.worker k
  rw [System.stage, hpc, stage_hand] at hok
  cases a with
  | assertReady =>
    simp only [System.handStep] at hs
    split at hs
    · cases hs
      exact hand_calm_mask h hpc h' rfl fun _ => rfl
    · rename_i hready
      cases wake with
      | false => cases (workerOk_init.mp hok).2.1
      | true =>
        rcases workerOk_wake.mp hok with ⟨-, -, hstatus, -⟩ | ⟨-, -, -, hstatus⟩
        · exact absurd hstatus hready
        · exact absurd hstatus hready
  | lockArgs =>
    simp only [System.handStep] at hs
    split at hs
    · cases hs
      exact hand_calm h hpc h' rfl (by constructor <;> rfl) fun _ => rfl
    · cases hs
  | initArgs =>
    cases hs
    exact hand_calm h hpc h' rfl (by constructor <;> rfl) fun _ => rfl
  | setFd =>
    cases hs
    exact .setFd hpc
  | setBusy =>
    cases hs
    exact hand_calm h hpc h' rfl (by constructor <;> rfl) fun _ => rfl
  | lockMask =>
    obtain ⟨mask, -, rfl⟩ := Option.map_eq_some_iff.mp hs
    exact hand_calm_mask h hpc h' rfl fun _ => rfl
  | setBit =>
    cases hs
    exact hand_calm_mask h hpc h' rfl fun _ => rfl
  | unlockMask =>
    cases hs
    exact hand_calm_mask h hpc h' rfl fun _ => rfl
  | setTime =>
    cases hs
    exact .setTime hpc
  | create =>
    cases hs
    cases wake with
    | false => exact .create hpc (place_fresh (workerOk_init.mp hok).1)
    | true =>
      rcases workerOk_wake.mp hok with ⟨-, hearly, -⟩ | ⟨-, hwake, -⟩
      · cases hearly
      · cases hwake
  | signal =>
    cases hs
    exact hand_calm h hpc h' rfl (by constructor <;> rfl) fun _ => rfl
  | unlockArgs =>
    cases hs
    cases wake with
    | false => cases (workerOk_init.mp hok).2.1
    | true =>
      obtain ⟨hplace, -, hstatus⟩ := workerOk_late hok rfl
      obtain ⟨e, he⟩ := place_asleep hplace
      refine .calm rfl rfl rfl rfl rfl (by rw [hpc]; rfl) (by rw [hpc]; rfl) ?_ (fun i => ?_)
        (fun i => ?_)
      · rintro fd' (⟨hfd, -⟩ | ⟨k', hk'⟩)
        · cases hfd
        · cases hk'
      · by_cases hi : i = k
        · subst hi
          constructor <;> simp
        · simp only [System.workers_dispatcherAt, System.workers_setWorker, Function.update_of_ne hi]
          exact .refl _
      · by_cases hi : i = k
        · subst hi
          rw [System.stage, System.stage, hpc, stage_hand, link_handing hok]
          simp [System.setWorker, System.dispatcherAt, DispatcherPc.stage, Worker.link, he, hstatus,
            HandPc.busy, HandPc.link]
        · simp [System.setWorker, System.dispatcherAt, System.stage, hpc, hi, Ne.symm hi,
            DispatcherPc.stage]

/-- **A step of the dispatcher** is one of the moves. -/
theorem dispatcherStep_move {args : Args} {accepts : Bool} (h : Pool args.numWorkers s)
    (hs : s.dispatcherStep args accepts = some s') : DispatcherMove s s' := by
  have h' := dispatcherStep_pool h hs
  -- outside `init_thread_info` and `wake_up_thread` only the program counter matters
  have hquiet : ∀ {pc pc' : DispatcherPc} {mask : StatusMask}, s.dispatcher.pc = pc →
      s' = { s with mask := mask }.dispatcherAt pc' → pc'.held = pc.held →
      pc'.pending = pc.pending → (∀ fd, pc ≠ .clock fd) →
      (∀ i, (s.workers i).link (pc'.stage i) = (s.workers i).link (pc.stage i)) →
      DispatcherMove s s' := by
    rintro pc pc' mask rfl hs' hheld hpending hclock hlink
    have hpc' : s'.dispatcher.pc = pc' := by rw [hs']; rfl
    have hworkers : s'.workers = s.workers := by rw [hs']; rfl
    refine .calm (by rw [hs']; rfl) (by rw [hs']; rfl) (by rw [hs']; rfl) (by rw [hs']; rfl)
      (by rw [hs']; rfl) (by rw [hpc', hheld]) (by rw [hpc', hpending]) ?_ (fun i => ?_)
      (fun i => ?_)
    · rintro fd (⟨hfd, -⟩ | ⟨k, hk⟩)
      · rw [hpc', hheld] at hfd
        exact .inl ⟨hfd, hclock fd⟩
      · rw [hpc', hpending] at hk
        exact .inr ⟨k, hk⟩
    · rw [hworkers]
      exact .refl _
    · rw [hworkers, System.stage, System.stage, hpc']
      exact hlink i
  unfold System.dispatcherStep at hs
  split at hs
  · rename_i hpc
    split at hs
    · cases hs
      exact .accept hpc
    · cases hs
      exact hquiet hpc (by rw [← hpc]; rfl) rfl rfl (by simp) fun _ => rfl
  · rename_i fd hpc
    cases hs
    exact .clock hpc
  · rename_i fd i hpc
    split at hs
    · obtain ⟨mask, -, rfl⟩ := Option.map_eq_some_iff.mp hs
      exact hquiet hpc rfl rfl rfl (by simp) fun _ => rfl
    · cases hs
      exact hquiet hpc rfl rfl rfl (by simp) fun _ => rfl
  · rename_i fd i hpc
    cases hs
    exact hquiet hpc rfl rfl rfl (by simp) fun _ => rfl
  · rename_i fd i isIdle hpc
    cases hs
    cases isIdle with
    | false => exact hquiet hpc rfl rfl rfl (by simp) fun _ => rfl
    | true => exact hquiet hpc rfl rfl rfl (by simp) fun _ => rfl
  · rename_i fd hpc
    cases hs
    exact hquiet hpc rfl rfl rfl (by simp) fun _ => rfl
  · rename_i fd k hpc
    obtain ⟨hfree, havail, hready⟩ := h.chosen_worker hpc
    -- the stage of worker `k` changes, its link does not
    have hlinks : ∀ {wake a}, (s.workers k).link (some (wake, a)) = (s.workers k).link none →
        ∀ i, (s.workers i).link ((DispatcherPc.hand fd k wake a).stage i) =
          (s.workers i).link ((DispatcherPc.switch fd k).stage i) := by
      intro wake a hk i
      by_cases hi : i = k
      · subst hi
        rw [stage_hand]
        exact hk
      · rw [stage_hand_of_ne _ _ hi]
        rfl
    split at hs
    · rename_i hstatus
      cases hs
      refine hquiet hpc rfl rfl rfl (by simp) (hlinks ?_)
      simp only [Worker.link, place_fresh (havail hstatus)]
      rfl
    · rename_i hstatus
      cases hs
      have hok' := h'.worker k
      simp only [System.stage, System.dispatcherAt, stage_hand] at hok'
      refine hquiet hpc rfl rfl rfl (by simp) (hlinks ?_)
      rw [link_handing hok']
      symm
      rcases hready hstatus with ⟨hplace, -⟩ | ⟨hplace, -⟩
      · exact link_of_ready hstatus (hplace.imp_right .inl)
      · exact link_of_ready hstatus (.inr (.inr hplace))
    · rename_i hstatus
      exact absurd hstatus hfree
  · rename_i fd k wake a hpc
    exact handStep_move h hpc h' hs

/-! ## Every step -/

theorem Linked.congr {l : Link} {w w' : Worker} {clients clients' : Nat → Client}
    (h : Linked l w clients) (hfd : w'.clientFd = w.clientFd) (hts : w'.timestamp = w.timestamp)
    (hclients : ∀ c, w.clientFd = some c → (clients' c).assigned = (clients c).assigned ∧
      (clients' c).closed = (clients c).closed ∧ (clients' c).acceptTs = (clients c).acceptTs) :
    Linked l w' clients' := by
  cases l with
  | absent => exact hfd.trans h
  | pending =>
    obtain ⟨c, hc, hassigned⟩ := h
    exact ⟨c, hfd.trans hc, by rw [(hclients c hc).1, hassigned]⟩
  | live =>
    obtain ⟨c, hc, hassigned, hclosed, htime⟩ := h
    obtain ⟨ha, hcl, hat⟩ := hclients c hc
    exact ⟨c, hfd.trans hc, by rw [ha, hassigned], by rw [hcl, hclosed], by rw [hat, hts, htime]⟩
  | closed =>
    obtain ⟨c, hc, hassigned, hclosed⟩ := h
    obtain ⟨ha, hcl, -⟩ := hclients c hc
    exact ⟨c, hfd.trans hc, by rw [ha, hassigned], by rw [hcl, hclosed]⟩

/-- The connection in the `client_fd` of a worker is no other worker's. -/
theorem Owned.ne_of_fd (h : Owned n s) {i j c d : Nat} (hc : (s.workers i).clientFd = some c)
    (hd : (s.workers j).clientFd = some d) (hij : j ≠ i) : d ≠ c := by
  rintro rfl
  have hi := (h.owner i d hc).2
  rw [(h.owner j d hd).2] at hi
  exact hij (List.cons.inj hi).1

/-- The connection that the dispatcher holds is no worker's. -/
theorem Owned.ne_of_held (h : Owned n s) {i c fd : Nat} (hfd : s.dispatcher.pc.held = some fd)
    (hc : (s.workers i).clientFd = some c) : c ≠ fd := by
  rintro rfl
  have hi := (h.owner i c hc).2
  rw [(h.held c hfd).2.1] at hi
  cases hi

theorem workerStep_owned {i : Nat} {o : Outcome} (hp : Pool n s) (h : Owned n s)
    (hs : s.workerStep i o = some s') : Owned n s' := by
  obtain ⟨fd, v', hfd, hv, rfl⟩ := workerStep_eq hs
  have hmove := WorkerView.step_move hv
  obtain ⟨hfd', hts', hacc, hhanded, hassigned⟩ := hmove.frame
  simp only [System.view] at hfd' hts' hacc hhanded hassigned
  have hclient : ∀ c, ((s.setView i fd v').clients c).handedTo = (s.clients c).handedTo ∧
      ((s.setView i fd v').clients c).assigned = (s.clients c).assigned ∧
      ((s.setView i fd v').clients c).acceptTs = (s.clients c).acceptTs := by
    intro c
    by_cases hc : c = fd
    · subst hc
      simp [System.setView, hacc, hhanded, hassigned]
    · simp [System.setView, hc]
  have hworker : ∀ j, ((s.setView i fd v').workers j).clientFd = (s.workers j).clientFd ∧
      ((s.setView i fd v').workers j).timestamp = (s.workers j).timestamp := by
    intro j
    by_cases hj : j = i
    · subst hj
      simp [System.setView, hfd', hts']
    · simp [System.setView, hj]
  have hlinked := h.linked i
  constructor
  · intro j
    by_cases hj : j = i
    · subst hj
      have hstage : (s.setView j fd v').stage j = s.stage j := rfl
      have hself : (s.setView j fd v').workers j = v'.worker := by simp [System.setView]
      have hfdself : (s.setView j fd v').clients fd = v'.client := by simp [System.setView]
      rw [hstage, hself]
      rcases hmove.link (hp.worker j) with ⟨hlink, hcl⟩ | ⟨hlive, hclosed, hcl⟩
      · rw [hlink]
        refine hlinked.congr hfd' hts' fun c hc => ?_
        rw [hfd] at hc
        cases hc
        refine ⟨(hclient fd).2.1, ?_, (hclient fd).2.2⟩
        rw [hfdself]
        rcases hcl with hcl | ⟨-, hcl⟩
        · rw [hcl]
          rfl
        · exact hcl
      · rw [hclosed]
        simp only [System.view] at hlive
        rw [hlive] at hlinked
        obtain ⟨c, hc, hasg, -, -⟩ := hlinked
        rw [hfd] at hc
        cases hc
        exact ⟨fd, by rw [hfd', hfd], by rw [(hclient fd).2.1, hasg], by rw [hfdself, hcl]⟩
    · have hself : (s.setView i fd v').workers j = s.workers j := by simp [System.setView, hj]
      have hstage : (s.setView i fd v').stage j = s.stage j := rfl
      rw [hstage, hself]
      refine (h.linked j).congr rfl rfl fun c hc => ?_
      have hne := h.ne_of_fd hfd hc hj
      simp [System.setView, hne]
  · intro j c hc
    rw [(hworker j).1] at hc
    rw [(hclient c).1]
    exact h.owner j c hc
  · intro c hc
    rw [(hclient c).2.1] at hc
    by_cases hcfd : c = fd
    · subst hcfd
      -- an unassigned connection is not served
      have hnot : (s.workers i).link (s.stage i) ≠ .live := by
        intro hlive
        rw [hlive] at hlinked
        obtain ⟨d, hd, hasg, -⟩ := hlinked
        rw [hfd] at hd
        cases hd
        rw [hc] at hasg
        cases hasg
      have hsame : v'.client = s.clients c := by
        rcases hmove.link (hp.worker i) with ⟨-, hcl | ⟨hlive, -⟩⟩ | ⟨hlive, -⟩
        · exact hcl
        · exact absurd hlive hnot
        · exact absurd hlive hnot
      have hself : (s.setView i c v').clients c = s.clients c := by simp [System.setView, hsame]
      rw [hself]
      exact h.untouched c hc
    · have hself : (s.setView i fd v').clients c = s.clients c := by simp [System.setView, hcfd]
      rw [hself]
      exact h.untouched c hc
  · intro c hc
    rw [(hclient c).1, (hclient c).2.1]
    exact h.held c hc
  · intro c hc
    rw [(hclient c).2.2]
    exact h.stamped c hc
  · intro c k hck
    rw [(hworker k).1]
    exact h.pending c k hck
  · intro c hc hheld
    rw [(hclient c).1]
    exact h.given c hc hheld
  · intro c hc
    rw [(hclient c).1, (hclient c).2.1]
    exact h.fresh c hc

section
variable {fd k : Nat} {wake : Bool}

theorem owned_accept (h : Owned n s) (hpc : s.dispatcher.pc = .accept) :
    Owned n ({ s with accepted := s.accepted + 1 }.dispatcherAt (.clock s.accepted)) where
  linked i := by
    have hst : s.stage i = none := by rw [System.stage, hpc]; rfl
    have hi := h.linked i
    rwa [hst] at hi
  owner i c hc := ⟨Nat.lt_succ_of_lt (h.owner i c hc).1, (h.owner i c hc).2⟩
  untouched := h.untouched
  held := by
    rintro fd ⟨⟩
    exact ⟨Nat.lt_succ_self _, h.fresh s.accepted (Nat.le_refl _)⟩
  stamped := by
    rintro fd (⟨hfd, hne⟩ | ⟨k, hk⟩)
    · cases hfd
      exact absurd rfl hne
    · cases hk
  pending _ _ hk := by cases hk
  given c hc hne := by
    have hlt : c ≠ s.accepted := fun heq => hne (by rw [heq]; rfl)
    refine h.given c (Nat.lt_of_le_of_ne (Nat.le_of_lt_succ hc) hlt) ?_
    simp [hpc, DispatcherPc.held]
  fresh c hc := h.fresh c (Nat.le_of_succ_le hc)

theorem owned_clock (h : Owned n s) (hpc : s.dispatcher.pc = .clock fd) :
    Owned n { s.setClient fd (.accept s.now) with dispatcher := ⟨.lockProbe fd 0, s.now⟩ } := by
  have hheld : s.dispatcher.pc.held = some fd := by rw [hpc]; rfl
  obtain ⟨hlt, -⟩ := h.held fd hheld
  have hother : ∀ c, c ≠ fd → Function.update s.clients fd (.accept s.now) c = s.clients c :=
    fun c hc => Function.update_of_ne hc _ _
  constructor
  · intro i
    have hst : s.stage i = none := by rw [System.stage, hpc]; rfl
    have hi := h.linked i
    rw [hst] at hi
    refine hi.congr rfl rfl fun c hc => ?_
    simp [h.ne_of_held hheld hc]
  · intro i c hc
    obtain ⟨hc1, hc2⟩ := h.owner i c hc
    exact ⟨hc1, by simpa [h.ne_of_held hheld hc] using hc2⟩
  · intro c hc
    by_cases hcfd : c = fd
    · subst hcfd
      constructor <;> simp [Client.accept]
    · simp only [System.clients_setClient, hother c hcfd] at hc ⊢
      exact h.untouched c hc
  · rintro c ⟨⟩
    exact ⟨hlt, by simp [Client.accept]⟩
  · rintro c (⟨hc, -⟩ | ⟨k, hk⟩)
    · cases hc
      simp [Client.accept]
    · cases hk
  · intro c k hk
    cases hk
  · intro c hc hne
    have hcfd : c ≠ fd := fun heq => hne (by rw [heq]; rfl)
    simp only [System.clients_setClient, hother c hcfd]
    exact h.given c hc (by rw [hheld]; exact fun heq => hcfd (Option.some.inj heq).symm)
  · intro c hc
    have hcfd : c ≠ fd := by
      rintro rfl
      exact absurd hc (Nat.not_le_of_lt hlt)
    simp only [System.clients_setClient, hother c hcfd]
    exact h.fresh c hc

/-- A step of a hand-over that writes to the arguments of worker `k` and leaves
connection `fd` with it. -/
theorem Owned.hand {w : Worker} {c : Client} (h : Owned n s) (hk : k < n)
    (hclients : s'.clients = Function.update s.clients fd c)
    (hworkers : s'.workers = Function.update s.workers k w) (haccepted : s'.accepted = s.accepted)
    (hlt : fd < s.accepted) (hfree : ∀ i d, i ≠ k → (s.workers i).clientFd = some d → d ≠ fd)
    (hfd : w.clientFd = some fd) (hhanded : c.handedTo = [k])
    (huntouched : c.assigned = false → c.Untouched) (hheld : s'.dispatcher.pc.held = none)
    (hnot : ∀ d, d ≠ fd → s.dispatcher.pc.held ≠ some d)
    (hpending : ∀ d j, s'.dispatcher.pc.pending = some (d, j) →
      d = fd ∧ j = k ∧ s'.dispatcher.clientTs = c.acceptTs)
    (hstage : ∀ i, i ≠ k → s'.stage i = s.stage i)
    (hlinked : Linked (w.link (s'.stage k)) w s'.clients) : Owned n s' := by
  have hother : ∀ d, d ≠ fd → s'.clients d = s.clients d :=
    fun d hd => by rw [hclients, Function.update_of_ne hd]
  have hself : s'.clients fd = c := by rw [hclients, Function.update_self]
  constructor
  · intro i
    by_cases hi : i = k
    · subst hi
      rwa [hworkers, Function.update_self]
    · rw [hstage i hi, hworkers, Function.update_of_ne hi]
      refine (h.linked i).congr rfl rfl fun d hd => ?_
      rw [hother d (hfree i d hi hd)]
      exact ⟨rfl, rfl, rfl⟩
  · intro i d hd
    rw [haccepted]
    by_cases hi : i = k
    · subst hi
      rw [hworkers, Function.update_self, hfd] at hd
      cases hd
      exact ⟨hlt, by rw [hself, hhanded]⟩
    · rw [hworkers, Function.update_of_ne hi] at hd
      rw [hother d (hfree i d hi hd)]
      exact h.owner i d hd
  · intro d hd
    by_cases hdfd : d = fd
    · subst hdfd
      rw [hself] at hd ⊢
      exact huntouched hd
    · rw [hother d hdfd] at hd ⊢
      exact h.untouched d hd
  · intro d hd
    rw [hheld] at hd
    cases hd
  · rintro d (⟨hd, -⟩ | ⟨j, hj⟩)
    · rw [hheld] at hd
      cases hd
    · obtain ⟨rfl, -, hts⟩ := hpending d j hj
      rw [hself, hts]
  · intro d j hj
    obtain ⟨rfl, rfl, -⟩ := hpending d j hj
    rw [hworkers, Function.update_self, hfd]
  · intro d hd _
    by_cases hdfd : d = fd
    · subst hdfd
      exact ⟨k, hk, by rw [hself, hhanded]⟩
    · rw [haccepted] at hd
      rw [hother d hdfd]
      exact h.given d hd (hnot d hdfd)
  · intro d hd
    rw [haccepted] at hd
    rw [hother d fun heq => absurd hd (Nat.not_le_of_lt (heq ▸ hlt))]
    exact h.fresh d hd

theorem owned_setFd (h : Owned n s) (hk : k < n) (hpc : s.dispatcher.pc = .hand fd k wake .setFd)
    (hs' : s' = ((s.setWorker k { s.workers k with clientFd := some fd }).setClient fd
      { s.clients fd with handedTo := (s.clients fd).handedTo ++ [k] }).dispatcherAt
        (.hand fd k wake .setBusy)) (hp' : Pool n s') : Owned n s' := by
  have hheld : s.dispatcher.pc.held = some fd := by rw [hpc]; rfl
  obtain ⟨hlt, hhanded, hassigned⟩ := h.held fd hheld
  have hts := h.stamped fd (.inl ⟨hheld, by simp [hpc]⟩)
  have hdisp : s'.dispatcher = ⟨.hand fd k wake .setBusy, s.dispatcher.clientTs⟩ := by rw [hs']; rfl
  have hstage : ∀ i, i ≠ k → s'.stage i = s.stage i := by
    intro i hi
    rw [System.stage, System.stage, hpc, hdisp, stage_hand_of_ne _ _ hi, stage_hand_of_ne _ _ hi]
  have hlink : (s'.workers k).link (s'.stage k) = .pending := by
    have hst : s'.stage k = some (wake, .setBusy) := by rw [System.stage, hdisp, stage_hand]
    have hok := hp'.worker k
    rw [hst] at hok ⊢
    exact link_handing hok
  subst hs'
  refine h.hand hk rfl rfl rfl hlt (fun i d _ => h.ne_of_held hheld) rfl (by rw [hhanded]; rfl)
    (fun _ => ?_) rfl (fun d hd => ?_) ?_ hstage ?_
  · obtain ⟨hout, hdel, hunf, hsends, hdead, hclosed⟩ := h.untouched fd hassigned
    exact ⟨hout, hdel, hunf, hsends, hdead, hclosed⟩
  · rw [hheld]
    exact fun heq => hd (Option.some.inj heq).symm
  · rintro d j ⟨⟩
    exact ⟨rfl, rfl, hts⟩
  · simp only [System.workers_dispatcherAt, System.workers_setClient, System.workers_setWorker,
      Function.update_self] at hlink
    rw [hlink]
    exact ⟨fd, rfl, by simpa using hassigned⟩

/-- The connection of a hand-over that lacks the timestamp is not assigned yet. -/
theorem Owned.unassigned (hp : Pool n s) (h : Owned n s)
    (hpc : s.dispatcher.pc = .hand fd k wake .setTime) :
    (s.workers k).clientFd = some fd ∧ (s.clients fd).assigned = false := by
  have hfd := h.pending fd k (by rw [hpc]; rfl)
  have hok := hp.worker k
  have hlinked := h.linked k
  rw [System.stage, hpc, stage_hand] at hok hlinked
  rw [link_handing hok] at hlinked
  obtain ⟨c, hc, hassigned⟩ := hlinked
  rw [hfd] at hc
  cases hc
  exact ⟨hfd, hassigned⟩

theorem owned_setTime (hp : Pool n s) (h : Owned n s) (hk : k < n)
    (hpc : s.dispatcher.pc = .hand fd k wake .setTime)
    (hs' : s' = ((s.setWorker k { s.workers k with timestamp := s.dispatcher.clientTs }).setClient
      fd { s.clients fd with assigned := true }).dispatcherAt
        (.hand fd k wake (if wake then .signal else .create))) (hp' : Pool n s') : Owned n s' := by
  have hpend : s.dispatcher.pc.pending = some (fd, k) := by rw [hpc]; rfl
  obtain ⟨hfdk, hassigned⟩ := h.unassigned hp hpc
  obtain ⟨hlt, hhanded⟩ := h.owner k fd hfdk
  have hts := h.stamped fd (.inr ⟨k, hpend⟩)
  have hclosed := (h.untouched fd hassigned).closed
  have hdisp : s'.dispatcher =
      ⟨.hand fd k wake (if wake then .signal else .create), s.dispatcher.clientTs⟩ := by
    rw [hs']; rfl
  have hnone : s'.dispatcher.pc.held = none ∧ s'.dispatcher.pc.pending = none := by
    rw [hdisp]
    cases wake <;> exact ⟨rfl, rfl⟩
  have hstage : ∀ i, i ≠ k → s'.stage i = s.stage i := by
    intro i hi
    rw [System.stage, System.stage, hpc, hdisp, stage_hand_of_ne _ _ hi, stage_hand_of_ne _ _ hi]
  have hlink : (s'.workers k).link (s'.stage k) = .live := by
    have hst : s'.stage k = some (wake, if wake then .signal else .create) := by
      rw [System.stage, hdisp, stage_hand]
    have hok := hp'.worker k
    rw [hst] at hok ⊢
    rw [link_handing hok]
    cases wake <;> rfl
  subst hs'
  refine h.hand hk rfl rfl rfl hlt (fun i d hi hd => h.ne_of_fd hfdk hd hi) hfdk hhanded
    (by simp) hnone.1 (fun d _ => by simp [hpc, DispatcherPc.held, HandPc.link]) ?_ hstage ?_
  · intro d j hj
    rw [hnone.2] at hj
    cases hj
  · simp only [System.workers_dispatcherAt, System.workers_setClient, System.workers_setWorker,
      Function.update_self] at hlink
    rw [hlink]
    exact ⟨fd, hfdk, by simp, by simpa using hclosed, by simpa using hts⟩

theorem owned_create (hp : Pool n s) (h : Owned n s)
    (hpc : s.dispatcher.pc = .hand fd k wake .create) :
    Owned n ((s.setWorker k { s.workers k with
      pc := .get none .test, prev := none, next := none, bytesSent := 0 }).dispatcherAt .accept) where
  linked i := by
    have hlinked := h.linked i
    by_cases hi : i = k
    · subst hi
      have hok := hp.worker i
      rw [System.stage, hpc, stage_hand] at hlinked hok
      rw [link_handing hok] at hlinked
      simp only [System.workers_dispatcherAt, System.workers_setWorker, Function.update_self]
      exact hlinked
    · have hst : s.stage i = none := by rw [System.stage, hpc, stage_hand_of_ne _ _ hi]
      rw [hst] at hlinked
      simp only [System.workers_dispatcherAt, System.workers_setWorker, Function.update_of_ne hi]
      exact hlinked
  owner i c hc := by
    by_cases hi : i = k
    · subst hi
      exact h.owner i c (by simpa using hc)
    · exact h.owner i c (by simpa [hi] using hc)
  untouched := h.untouched
  held _ hc := by cases hc
  stamped := by
    rintro c (⟨hc, -⟩ | ⟨j, hj⟩)
    · cases hc
    · cases hj
  pending _ _ hj := by cases hj
  given c hc _ := h.given c hc (by simp [hpc, DispatcherPc.held, HandPc.link])
  fresh := h.fresh

end

theorem dispatcherStep_owned {args : Args} {accepts : Bool} (hp : Pool args.numWorkers s)
    (h : Owned args.numWorkers s) (hs : s.dispatcherStep args accepts = some s') :
    Owned args.numWorkers s' := by
  have hp' := dispatcherStep_pool hp hs
  cases dispatcherStep_move hp hs with
  | calm hqueue hclients haccepted hfault hts hheld hpending hstamped hloop hlink =>
    constructor
    · intro i
      rw [hlink, hclients]
      exact (h.linked i).congr (hloop i).clientFd (hloop i).timestamp fun c _ => ⟨rfl, rfl, rfl⟩
    · intro i c hc
      rw [(hloop i).clientFd] at hc
      rw [haccepted, hclients]
      exact h.owner i c hc
    · rw [hclients]
      exact h.untouched
    · rw [hheld, haccepted, hclients]
      exact h.held
    · intro fd hfd
      rw [hts, hclients]
      exact h.stamped fd (hstamped fd hfd)
    · intro fd k hfd
      rw [hpending] at hfd
      rw [(hloop k).clientFd]
      exact h.pending fd k hfd
    · rw [hheld, haccepted, hclients]
      exact h.given
    · rw [haccepted, hclients]
      exact h.fresh
  | accept hpc => exact owned_accept h hpc
  | clock hpc => exact owned_clock h hpc
  | setFd hpc => exact owned_setFd h (hp.index _ (by rw [hpc]; rfl)) hpc rfl hp'
  | setTime hpc => exact owned_setTime hp h (hp.index _ (by rw [hpc]; rfl)) hpc rfl hp'
  | create hpc => exact owned_create hp h hpc

/-- A step that leaves workers, connections and dispatcher alone. -/
theorem Owned.frame (h : Owned n s) (hworkers : s'.workers = s.workers)
    (hclients : s'.clients = s.clients) (haccepted : s'.accepted = s.accepted)
    (hdisp : s'.dispatcher = s.dispatcher) : Owned n s' := by
  have hstage : ∀ i, s'.stage i = s.stage i := fun i => by rw [System.stage, System.stage, hdisp]
  obtain ⟨hlinked, howner, huntouched, hheld, hstamped, hpending, hgiven, hfresh⟩ := h
  constructor
  · intro i
    rw [hworkers, hclients, hstage]
    exact hlinked i
  · rwa [hworkers, hclients, haccepted]
  · rwa [hclients]
  · rwa [hdisp, hclients, haccepted]
  · rwa [hdisp, hclients]
  · rwa [hdisp, hworkers]
  · rwa [hdisp, hclients, haccepted]
  · rwa [hclients, haccepted]

theorem step_keeps_owned {args : Args} {l : Label} (hp : Pool args.numWorkers s)
    (h : Owned args.numWorkers s) (hs : s.step args l = some s') : Owned args.numWorkers s' := by
  cases step_move hs with
  | src hstep =>
    have hframe := srcStep_frame hstep
    exact h.frame hframe.workers hframe.clients hframe.accepted hframe.dispatcher
  | dispatcher hstep => exact dispatcherStep_owned hp h hstep
  | worker hstep => exact workerStep_owned hp h hstep
  | cleanup hstep =>
    have hframe := (cleanupStep_frame hstep).1
    exact h.frame hframe.workers hframe.clients hframe.accepted hframe.dispatcher
  | tick | wakeMsg => exact h.frame rfl rfl rfl rfl
  | @wakeArgs i =>
    have hloop : ∀ j, ((s.setWorker i { s.workers i with asleep := false }).workers j).link
          (s.stage j) = (s.workers j).link (s.stage j) ∧
        ((s.setWorker i { s.workers i with asleep := false }).workers j).clientFd =
          (s.workers j).clientFd ∧
        ((s.setWorker i { s.workers i with asleep := false }).workers j).timestamp =
          (s.workers j).timestamp := by
      intro j
      by_cases hj : j = i
      · subst hj
        simp [Worker.link]
      · simp [hj]
    refine ⟨fun j => ?_, fun j c hc => ?_, h.untouched, h.held, h.stamped, fun c k hk => ?_,
      h.given, h.fresh⟩
    · have hst : (s.setWorker i { s.workers i with asleep := false }).stage j = s.stage j := rfl
      rw [hst, (hloop j).1]
      exact (h.linked j).congr (hloop j).2.1 (hloop j).2.2 fun c _ => ⟨rfl, rfl, rfl⟩
    · rw [(hloop j).2.1] at hc
      exact h.owner j c hc
    · rw [(hloop k).2.1]
      exact h.pending c k hk

end

/-- **Connections and their workers** agree in every run. -/
theorem reachable_owned {args : Args} {start : Timespec} {s : System}
    (h : (server args start).Reachable s) : Pool args.numWorkers s ∧ Owned args.numWorkers s :=
  h.invariant_ofFn (I := fun s => Pool args.numWorkers s ∧ Owned args.numWorkers s)
    ⟨pool_init _ _, owned_init _ _⟩ fun _ _ _ hi hs =>
      ⟨step_keeps_pool hi.1 hs, step_keeps_owned hi.1 hi.2 hs⟩

/-! ## The descriptors -/

/-- A step that ends the run touches freed data of the worker's current entry. -/
theorem step_fault {args : Args} {s s' : System} {l : Label} (hp : Pool args.numWorkers s)
    (hs : s.step args l = some s') :
    s'.fault = none ∨ ∃ i fd e lp entry f, (s.workers i).clientFd = some fd ∧
      (s.workers i).pc = .body e lp ∧ s.queue.entries[e]? = some entry ∧
      Touches i (s.view i fd) entry lp f ∧ s'.fault = some f := by
  have hnone : s.fault = none := fault_of_step hs
  cases step_move hs with
  | src hstep => exact .inl ((srcStep_frame hstep).fault.trans hnone)
  | dispatcher hstep =>
    cases dispatcherStep_move hp hstep with
    | calm _ _ _ hf => exact .inl (hf.trans hnone)
    | accept | clock | setFd | setTime | create => exact .inl hnone
  | @worker i o _ hstep =>
    obtain ⟨fd, v', hfd, hv, rfl⟩ := workerStep_eq hstep
    cases WorkerView.step_move hv with
    | fault hpc hentry htouch => exact .inr ⟨i, fd, _, _, _, _, hfd, hpc, hentry, htouch, rfl⟩
    | _ => exact .inl hnone
  | cleanup hstep => exact .inl ((cleanupStep_frame hstep).1.fault.trans hnone)
  | tick | wakeMsg | wakeArgs => exact .inl hnone

/-- No assertion fails. -/
theorem step_keeps_assertion {args : Args} {s s' : System} {l : Label}
    (hp : Pool args.numWorkers s) (hs : s.step args l = some s') : s'.fault ≠ some .assertion := by
  rcases step_fault hp hs with hnone | ⟨i, fd, e, lp, entry, f, -, -, -, htouch, hf⟩
  · simp [hnone]
  · rw [hf]
    cases htouch <;> simp

/-- A step that replaces a `client_fd` finds its connection closed. -/
theorem replaced_closed {args : Args} {s s' : System} {l : Label} (hp : Pool args.numWorkers s)
    (ho : Owned args.numWorkers s) (hs : s.step args l = some s') {i c : Nat}
    (hc : (s.workers i).clientFd = some c) (hc' : (s'.workers i).clientFd ≠ some c) :
    (s.clients c).closed = true := by
  -- only `set_fd` replaces a descriptor
  have hsame : ∀ {s' : System}, (s'.workers i).clientFd = (s.workers i).clientFd →
      (s'.workers i).clientFd ≠ some c → (s.clients c).closed = true := by
    intro s' heq hne
    exact absurd (heq.trans hc) hne
  cases step_move hs with
  | src hstep => exact hsame (by rw [(srcStep_frame hstep).workers]) hc'
  | dispatcher hstep =>
    cases dispatcherStep_move hp hstep with
    | calm _ _ _ _ _ _ _ _ hloop => exact hsame (hloop i).clientFd hc'
    | accept hpc => exact hsame rfl hc'
    | clock hpc => exact hsame rfl hc'
    | setFd hpc =>
      rename_i fd k wake
      by_cases hi : i = k
      · subst hi
        have hok := hp.worker i
        have hlinked := ho.linked i
        rw [System.stage, hpc, stage_hand] at hok hlinked
        rw [link_handing hok] at hlinked
        cases wake with
        | false => exact absurd (hc.symm.trans hlinked) (by simp)
        | true =>
          obtain ⟨d, hd, -, hclosed⟩ := hlinked
          rw [hc] at hd
          cases hd
          exact hclosed
      · exact hsame (by simp [hi]) hc'
    | setTime hpc =>
      rename_i fd k wake
      by_cases hi : i = k
      · subst hi
        exact hsame (by simp) hc'
      · exact hsame (by simp [hi]) hc'
    | create hpc =>
      rename_i fd k wake _
      by_cases hi : i = k
      · subst hi
        exact hsame (by simp) hc'
      · exact hsame (by simp [hi]) hc'
  | @worker j o _ hstep =>
    obtain ⟨fd, v', hfd, hv, rfl⟩ := workerStep_eq hstep
    refine hsame ?_ hc'
    by_cases hi : i = j
    · subst hi
      simpa [System.setView, System.view] using (WorkerView.step_move hv).frame.1
    · simp [System.setView, hi]
  | cleanup hstep => exact hsame (by rw [(cleanupStep_frame hstep).1.workers]) hc'
  | tick | wakeMsg => exact hsame rfl hc'
  | @wakeArgs j =>
    refine hsame ?_ hc'
    by_cases hi : i = j
    · subst hi
      simp
    · simp [hi]

/-- The descriptors of accepted connections: the worker that `find_idle_thread`
returns is available or ready, no assertion fails, each connection is held by the
dispatcher or was written to the `client_fd` of exactly one worker, and a step
that replaces a `client_fd` finds its connection closed. -/
theorem descriptors_owned {args : Args} {start : Timespec} {s : System}
    (h : (server args start).Reachable s) :
    (∀ fd k, s.dispatcher.pc = .switch fd k →
        (s.workers k).status = .available ∨ (s.workers k).status = .ready) ∧
      s.fault ≠ some .assertion ∧
      (∀ c < s.accepted, s.dispatcher.pc.held = some c ∨
        ∃ i < args.numWorkers, (s.clients c).handedTo = [i]) ∧
      ∀ l s', (server args start).step s l s' → ∀ i c, (s.workers i).clientFd = some c →
        (s'.workers i).clientFd ≠ some c → (s.clients c).closed = true := by
  obtain ⟨hp, ho⟩ := reachable_owned h
  refine ⟨fun fd k hpc => ?_, ?_, fun c hc => ?_, fun l s' hs i c => replaced_closed hp ho hs⟩
  · have hfree := hp.not_busy (hp.index k (by rw [hpc]; rfl)) (hp.chosen k (by rw [hpc]; rfl))
    cases hstatus : (s.workers k).status with
    | available => exact .inl rfl
    | ready => exact .inr rfl
    | busy =>
      refine absurd (.inl ⟨hstatus, ?_⟩) hfree
      rw [System.stage, hpc]
      rintro ⟨_, _, hnone, -⟩
      cases hnone
  · cases h with
    | init h =>
      rw [show s = System.init start from h]
      simp [System.init]
    | step hr _ hs => exact step_keeps_assertion (reachable_owned hr).1 hs
  · by_cases hheld : s.dispatcher.pc.held = some c
    · exact .inl hheld
    · exact .inr (ho.given c hc hheld)

/-- The first connection: the dispatcher finds worker 0. -/
theorem descriptors_owned_first :
    ∃ s, (server .default ⟨0, 0⟩).Reachable s ∧ s.dispatcher.pc = .switch 0 0 ∧
      ((s.workers 0).status = .available ∨ (s.workers 0).status = .ready) := by
  obtain ⟨s, hs, hpc⟩ := LTS.exists_reachable (System.step .default) (.init ⟨0, 0⟩)
    (List.replicate 5 (.dispatcher true)) (fun s => s.dispatcher.pc = .switch 0 0) (by decide)
  have hpc : s.dispatcher.pc = .switch 0 0 := by simpa using hpc
  exact ⟨s, hs, hpc, (descriptors_owned hs).1 0 0 hpc⟩

end WireStorm
