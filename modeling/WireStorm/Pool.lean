import WireStorm.Server

/-!
# The worker pool

The status word of a worker, its bit of the status mask and the dispatcher's
progress with it, over every run (`Pool`). A worker holds its bit from the
dispatcher's `set_bit` to its own; a set position of the mask belongs to exactly
one holder among the workers with that index mod 32 (`Mirrors`), so a worker
whose bit reads as clear is not busy.
-/

namespace WireStorm

/-! ## Flags shared by the positions of one remainder -/

/-- The mask shows which of the first `n` positions are held, up to multiples of
32, and positions that share a flag are not held together. -/
structure Mirrors (n : Nat) (held : Nat → Prop) (mask : BitVec 64) : Prop where
  isSet_iff : ∀ j, isSet mask j = true ↔ ∃ i < n, i % 32 = j % 32 ∧ held i
  unique : ∀ i < n, ∀ j < n, held i → held j → i % 32 = j % 32 → i = j

namespace Mirrors

variable {n : Nat} {held held' : Nat → Prop} {mask : BitVec 64}

theorem congr (h : Mirrors n held mask) (heq : ∀ i < n, held' i ↔ held i) :
    Mirrors n held' mask where
  isSet_iff j := by
    rw [h.isSet_iff]
    exact exists_congr fun i => and_congr_right fun hi => by rw [heq i hi]
  unique i hi j hj hhi hhj := h.unique i hi j hj ((heq i hi).mp hhi) ((heq j hj).mp hhj)

/-- A position whose flag is clear can be taken. -/
theorem set (h : Mirrors n held mask) {k : Nat} (hk : k < n) (hclear : isSet mask k = false)
    (heq : ∀ i < n, held' i ↔ held i ∨ i = k) : Mirrors n held' (setBit mask k true) := by
  have hfree : ∀ i < n, held i → i % 32 ≠ k % 32 := by
    intro i hi hheld hmod
    have := (h.isSet_iff k).mpr ⟨i, hi, hmod, hheld⟩
    rw [hclear] at this
    cases this
  constructor
  · intro j
    rw [isSet_setBit]
    split
    · rename_i hmod
      exact ⟨fun _ => ⟨k, hk, hmod, (heq k hk).mpr (.inr rfl)⟩, fun _ => rfl⟩
    · rename_i hmod
      rw [h.isSet_iff]
      refine exists_congr fun i => and_congr_right fun hi => and_congr_right fun hij => ?_
      rw [heq i hi]
      constructor
      · exact .inl
      · rintro (hheld | rfl)
        · exact hheld
        · exact absurd hij hmod
  · intro i hi j hj hhi hhj hmod
    rcases (heq i hi).mp hhi with hhi | rfl
    · rcases (heq j hj).mp hhj with hhj | rfl
      · exact h.unique i hi j hj hhi hhj hmod
      · exact absurd hmod (hfree i hi hhi)
    · rcases (heq j hj).mp hhj with hhj | rfl
      · exact absurd hmod.symm (hfree j hj hhj)
      · rfl

/-- A held position can be given back. -/
theorem clear (h : Mirrors n held mask) {k : Nat} (hk : k < n) (hheld : held k)
    (heq : ∀ i < n, held' i ↔ held i ∧ i ≠ k) : Mirrors n held' (setBit mask k false) := by
  constructor
  · intro j
    rw [isSet_setBit]
    split
    · rename_i hmod
      simp only [Bool.false_eq_true, false_iff]
      rintro ⟨i, hi, hij, hhi⟩
      obtain ⟨hhi, hne⟩ := (heq i hi).mp hhi
      exact hne (h.unique i hi k hk hhi hheld (hij.trans hmod.symm))
    · rename_i hmod
      rw [h.isSet_iff]
      refine exists_congr fun i => and_congr_right fun hi => and_congr_right fun hij => ?_
      rw [heq i hi]
      exact ⟨fun hhi => ⟨hhi, fun hik => hmod (hik ▸ hij)⟩, fun hhi => hhi.1⟩
  · intro i hi j hj hhi hhj
    exact h.unique i hi j hj ((heq i hi).mp hhi).1 ((heq j hj).mp hhj).1

end Mirrors

/-! ## The invariant -/

/-- Where the dispatcher is with a worker: in `init_thread_info` (`false`) or
`wake_up_thread` (`true`), if it is handing a connection to it. -/
abbrev Stage := Option (Bool × HandPc)

/-- The dispatcher's stage for worker `i`. -/
def DispatcherPc.stage (pc : DispatcherPc) (i : Nat) : Stage :=
  match pc with
  | .hand _ k wake h => if k = i then some (wake, h) else none
  | _ => none

def System.stage (s : System) (i : Nat) : Stage := s.dispatcher.pc.stage i

/-- The dispatcher has set the status of the worker to busy. -/
def HandPc.busy : HandPc → Bool
  | .lockMask | .setBit | .unlockMask | .setTime | .create | .signal | .unlockArgs => true
  | _ => false

/-- The dispatcher has set the status to busy but not the bit. -/
def HandPc.claiming : HandPc → Bool
  | .lockMask | .setBit => true
  | _ => false

def Stage.Claiming (st : Stage) : Prop := ∃ wake h, st = some (wake, h) ∧ h.claiming = true

/-- The part of its life that a worker is in: not created, serving a connection
(or about to give it up), with `args.lock` taken before it writes its status,
between that and clearing its bit, behind that, testing its status, asleep, and
woken up with a new connection. -/
inductive Place
  | fresh
  | serving
  | stopped
  | releasing
  | released
  | waiting
  | asleep
  | resuming
  deriving DecidableEq

def LoopPc.place : LoopPc → Place
  | .setReady => .stopped
  | .lockMask | .clearBit => .releasing
  | .unlockMask => .released
  | .waitBusy => .waiting
  | .asleep => .asleep
  | .reset | .unlockArgs => .resuming
  | _ => .serving

def WorkerPc.place : WorkerPc → Place
  | .idle => .fresh
  | .get _ _ => .serving
  | .body _ l => l.place

/-- The worker holds its bit of the status mask. -/
def Worker.HoldsBit (w : Worker) (st : Stage) : Prop :=
  w.status = .busy ∧ ¬st.Claiming ∨ w.pc.place = .releasing

/-- The steps of `init_thread_info` and `pthread_create`. -/
def HandPc.ofInit : HandPc → Bool
  | .assertReady | .lockArgs | .signal | .unlockArgs => false
  | _ => true

/-- The steps of `wake_up_thread`. -/
def HandPc.ofWake : HandPc → Bool
  | .initArgs | .create => false
  | _ => true

/-- The steps of `wake_up_thread` before it holds `args.lock`. -/
def HandPc.early : HandPc → Bool
  | .assertReady | .lockArgs => true
  | _ => false

/-- The status of worker `i`, the owner of its `args.lock` and the dispatcher's
stage for it, in each part of its life. -/
def WorkerOk (st : Stage) (i : Nat) (w : Worker) : Prop :=
  match w.pc.place with
  | .fresh =>
    st = none ∧ w.status = .available ∨
      ∃ h, st = some (false, h) ∧ h.ofInit = true ∧
        w.status = if h.busy then .busy else .available
  | .serving => st = none ∧ w.status = .busy
  | .stopped | .resuming => st = none ∧ w.status = .busy ∧ w.lock = some (.worker i)
  | .releasing => st = none ∧ w.status = .ready ∧ w.lock = some (.worker i)
  | .released =>
    (st = none ∨ ∃ h, st = some (true, h) ∧ h.early = true) ∧ w.status = .ready ∧
      w.lock = some (.worker i)
  | .waiting =>
    (st = none ∧ w.status ≠ .available ∨
      ∃ h, st = some (true, h) ∧ h.early = true ∧ w.status = .ready) ∧ w.lock = some (.worker i)
  | .asleep =>
    st = none ∧ w.status ≠ .available ∧ w.lock = none ∨
      ∃ h, st = some (true, h) ∧ h.ofWake = true ∧
        w.lock = (if h.early then none else some .dispatcher) ∧
        w.status = if h.busy then .busy else .ready

/-- The worker that `find_idle_thread` found idle, until its bit is set. -/
def DispatcherPc.chosen : DispatcherPc → Option Nat
  | .unlockProbe _ i true => some i
  | .switch _ k => some k
  | .hand _ k _ .assertReady | .hand _ k _ .lockArgs | .hand _ k _ .initArgs
  | .hand _ k _ .setFd | .hand _ k _ .setBusy | .hand _ k _ .lockMask
  | .hand _ k _ .setBit => some k
  | _ => none

/-- The worker that the dispatcher works on. -/
def DispatcherPc.index : DispatcherPc → Option Nat
  | .readProbe _ i | .unlockProbe _ i _ | .switch _ i | .hand _ i _ _ => some i
  | _ => none

/-- **The worker pool**: status words, mask and dispatcher agree. -/
structure Pool (n : Nat) (s : System) : Prop where
  worker : ∀ i, WorkerOk (s.stage i) i (s.workers i)
  mirrors : Mirrors n (fun i => (s.workers i).HoldsBit (s.stage i)) s.mask.data
  chosen : ∀ k, s.dispatcher.pc.chosen = some k → isSet s.mask.data k = false
  index : ∀ k, s.dispatcher.pc.index = some k → k < n
  started : ∀ i, n ≤ i → (s.workers i).pc = .idle

theorem pool_init (n : Nat) (start : Timespec) : Pool n (.init start) where
  worker i := .inl ⟨rfl, rfl⟩
  mirrors := by
    have hno : ∀ i, ¬((System.init start).workers i).HoldsBit ((System.init start).stage i) := by
      rintro i (⟨h, -⟩ | h) <;> cases h
    constructor
    · intro j
      refine iff_of_false ?_ ?_
      · exact Bool.eq_false_iff.mp (isSet_zero j)
      · rintro ⟨i, -, -, h⟩
        exact hno i h
    · intro i _ j _ hi
      exact absurd hi (hno i)
  chosen k h := by cases h
  index k h := by cases h
  started i _ := rfl

/-- A worker whose bit reads as clear is available or ready. -/
theorem Pool.not_busy {n : Nat} {s : System} (h : Pool n s) {k : Nat} (hk : k < n)
    (hclear : isSet s.mask.data k = false) :
    ¬(s.workers k).HoldsBit (s.stage k) := by
  intro hheld
  have := (h.mirrors.isSet_iff k).mpr ⟨k, hk, rfl, hheld⟩
  rw [hclear] at this
  cases this

/-! ## Steps of a worker -/

/-- What a step of worker `i` does to the pool: the worker stays in order, and the
mask changes only when the worker gives back the bit it holds. -/
def PoolStep (st : Stage) (i : Nat) (v v' : WorkerView) : Prop :=
  WorkerOk st i v'.worker ∧
    ((v'.worker.HoldsBit st ↔ v.worker.HoldsBit st) ∧ v'.mask.data = v.mask.data ∨
      v.worker.HoldsBit st ∧ ¬v'.worker.HoldsBit st ∧ v'.mask.data = setBit v.mask.data i false)

/-- A step within one part of the worker's life. -/
theorem poolStep_of_place {st : Stage} {i : Nat} {v v' : WorkerView}
    (hok : WorkerOk st i v.worker) (hplace : v'.worker.pc.place = v.worker.pc.place)
    (hstatus : v'.worker.status = v.worker.status) (hlock : v'.worker.lock = v.worker.lock)
    (hmask : v'.mask.data = v.mask.data) : PoolStep st i v v' := by
  refine ⟨?_, .inl ⟨?_, hmask⟩⟩
  · rw [WorkerOk, hplace, hstatus, hlock]
    exact hok
  · rw [Worker.HoldsBit, Worker.HoldsBit, hplace, hstatus]

theorem quietNext_place {l l' : LoopPc} (h : l.quietNext = some l') :
    l'.place = l.place ∨ l = .unlockMask ∧ l' = .waitBusy := by
  cases l <;> cases h <;> decide

theorem step_pool {i : Nat} {o : Outcome} {v v' : WorkerView} {st : Stage}
    (hok : WorkerOk st i v.worker) (h : v.step i o = some v') : PoolStep st i v v' := by
  cases WorkerView.step_move h with
  | seek hpc | found hpc | dead hpc | refuse hpc | start hpc | write hpc | sent hpc | mark hpc
  | readNext hpc | close hpc | reset hpc | advance hpc =>
    exact poolStep_of_place hok (by rw [hpc]; rfl) rfl rfl rfl
  | fault => exact poolStep_of_place hok rfl rfl rfl rfl
  | test hpc =>
    refine poolStep_of_place hok ?_ rfl rfl rfl
    rw [hpc, WorkerView.goto]
    split <;> rfl
  | quiet hpc hl hq hmask =>
    rcases quietNext_place hl with hplace | ⟨rfl, rfl⟩
    · exact poolStep_of_place hok (by rw [hpc]; exact hplace) rfl rfl hmask
    · simp only [WorkerOk, hpc, WorkerPc.place, LoopPc.place] at hok
      obtain ⟨hst, hstatus, hlock⟩ := hok
      refine ⟨⟨?_, hlock⟩, .inl ⟨?_, hmask⟩⟩
      · rcases hst with hst | ⟨h, hst, hearly⟩
        · exact .inl ⟨hst, by simp [WorkerView.goto, hstatus]⟩
        · exact .inr ⟨h, hst, hearly, hstatus⟩
      · simp [Worker.HoldsBit, WorkerView.goto, hpc, hstatus, WorkerPc.place, LoopPc.place]
  | lockArgs hpc hfree =>
    simp only [WorkerOk, hpc, WorkerPc.place, LoopPc.place] at hok
    refine ⟨⟨hok.1, hok.2, rfl⟩, .inl ⟨?_, rfl⟩⟩
    simp [Worker.HoldsBit, hpc, WorkerPc.place, LoopPc.place]
  | setReady hpc =>
    simp only [WorkerOk, hpc, WorkerPc.place, LoopPc.place] at hok
    obtain ⟨rfl, hstatus, hlock⟩ := hok
    refine ⟨⟨rfl, rfl, hlock⟩, .inl ⟨?_, rfl⟩⟩
    simp [Worker.HoldsBit, Stage.Claiming, hstatus, WorkerPc.place, LoopPc.place]
  | clearBit hpc =>
    simp only [WorkerOk, hpc, WorkerPc.place, LoopPc.place] at hok
    obtain ⟨rfl, hstatus, hlock⟩ := hok
    refine ⟨⟨.inl rfl, hstatus, hlock⟩, .inr ⟨.inr (by rw [hpc]; rfl), ?_, rfl⟩⟩
    simp [Worker.HoldsBit, WorkerView.goto, hstatus, WorkerPc.place, LoopPc.place]
  | busy hpc hbusy =>
    simp only [WorkerOk, hpc, WorkerPc.place, LoopPc.place] at hok
    obtain ⟨⟨hst, -⟩ | ⟨h, -, -, hready⟩, hlock⟩ := hok
    · refine ⟨⟨hst, hbusy, hlock⟩, .inl ⟨?_, rfl⟩⟩
      simp [Worker.HoldsBit, WorkerView.goto, hpc, WorkerPc.place, LoopPc.place]
    · rw [hbusy] at hready
      cases hready
  | sleep hpc hbusy =>
    simp only [WorkerOk, hpc, WorkerPc.place, LoopPc.place] at hok
    obtain ⟨hst, hlock⟩ := hok
    refine ⟨?_, .inl ⟨?_, rfl⟩⟩
    · rcases hst with ⟨hst, hstatus⟩ | ⟨h, hst, hearly, hready⟩
      · exact .inl ⟨hst, hstatus, rfl⟩
      · cases h <;> cases hearly
        · exact .inr ⟨_, hst, rfl, rfl, hready⟩
        · exact .inr ⟨_, hst, rfl, rfl, hready⟩
    · simp [Worker.HoldsBit, hpc, WorkerPc.place, LoopPc.place]
  | wake hpc hwoken hfree =>
    simp only [WorkerOk, hpc, WorkerPc.place, LoopPc.place] at hok
    refine ⟨⟨?_, rfl⟩, .inl ⟨?_, rfl⟩⟩
    · rcases hok with ⟨hst, hstatus, -⟩ | ⟨h, hst, -, hlock, hstatus⟩
      · exact .inl ⟨hst, hstatus⟩
      · rw [hfree] at hlock
        cases h <;> simp only [HandPc.early, if_true, Bool.false_eq_true, if_false, reduceCtorEq]
          at hlock
        · exact .inr ⟨_, hst, rfl, hstatus⟩
        · exact .inr ⟨_, hst, rfl, hstatus⟩
    · simp [Worker.HoldsBit, hpc, WorkerPc.place, LoopPc.place]
  | unlockArgs hpc =>
    simp only [WorkerOk, hpc, WorkerPc.place, LoopPc.place] at hok
    refine ⟨⟨hok.1, hok.2.1⟩, .inl ⟨?_, rfl⟩⟩
    simp [Worker.HoldsBit, hpc, WorkerPc.place, LoopPc.place]

/-! ## Steps of the dispatcher -/

theorem workerOk_init {h : HandPc} {i : Nat} {w : Worker} :
    WorkerOk (some (false, h)) i w ↔ w.pc.place = .fresh ∧ h.ofInit = true ∧
      w.status = if h.busy then .busy else .available := by
  unfold WorkerOk
  cases w.pc.place <;> simp

theorem workerOk_wake {h : HandPc} {i : Nat} {w : Worker} :
    WorkerOk (some (true, h)) i w ↔
      (w.pc.place = .released ∨ w.pc.place = .waiting) ∧ h.early = true ∧ w.status = .ready ∧
          w.lock = some (.worker i) ∨
        w.pc.place = .asleep ∧ h.ofWake = true ∧
          w.lock = (if h.early then none else some .dispatcher) ∧
          w.status = if h.busy then .busy else .ready := by
  unfold WorkerOk
  cases w.pc.place <;> simp [and_assoc]

theorem workerOk_none {i : Nat} {w : Worker} (hok : WorkerOk none i w) :
    (w.status = .available → w.pc.place = .fresh) ∧
      (w.status = .ready → w.pc.place ≠ .releasing →
        (w.pc.place = .released ∨ w.pc.place = .waiting) ∧ w.lock = some (.worker i) ∨
          w.pc.place = .asleep ∧ w.lock = none) := by
  unfold WorkerOk at hok
  cases hplace : w.pc.place <;> rw [hplace] at hok <;> simp at hok ⊢ <;> simp [hok]

section
variable {n : Nat} {s s' : System}

/-- A step that leaves the workers and the dispatcher's stages alone. -/
theorem Pool.congr (h : Pool n s) (hworkers : s'.workers = s.workers)
    (hstage : ∀ i, s'.stage i = s.stage i) (hmask : s'.mask.data = s.mask.data)
    (hchosen : ∀ k, s'.dispatcher.pc.chosen = some k → isSet s.mask.data k = false)
    (hindex : ∀ k, s'.dispatcher.pc.index = some k → k < n) : Pool n s' where
  worker i := by
    rw [hworkers, hstage]
    exact h.worker i
  mirrors := by
    rw [hmask]
    exact h.mirrors.congr fun i _ => by rw [hworkers, hstage]
  chosen := by
    rw [hmask]
    exact hchosen
  index := hindex
  started := by
    rw [hworkers]
    exact h.started

/-- A step that leaves workers, dispatcher and mask alone. -/
theorem Pool.frame (h : Pool n s) (hworkers : s'.workers = s.workers)
    (hdisp : s'.dispatcher = s.dispatcher) (hmask : s'.mask = s.mask) : Pool n s' := by
  refine h.congr hworkers (fun i => ?_) (by rw [hmask]) ?_ ?_
  · rw [System.stage, System.stage, hdisp]
  · rw [hdisp]
    exact h.chosen
  · rw [hdisp]
    exact h.index

/-- A step on worker `k` that keeps what it holds. -/
theorem Pool.update (h : Pool n s) {k : Nat} {w : Worker}
    (hworkers : s'.workers = Function.update s.workers k w)
    (hstage : ∀ i, i ≠ k → s'.stage i = s.stage i) (hok : WorkerOk (s'.stage k) k w)
    (hheld : w.HoldsBit (s'.stage k) ↔ (s.workers k).HoldsBit (s.stage k))
    (hmask : s'.mask.data = s.mask.data)
    (hchosen : ∀ k, s'.dispatcher.pc.chosen = some k → isSet s.mask.data k = false)
    (hindex : ∀ k, s'.dispatcher.pc.index = some k → k < n)
    (hk : k < n ∨ w.pc = (s.workers k).pc) : Pool n s' where
  worker i := by
    rw [hworkers]
    by_cases hi : i = k
    · subst hi
      rwa [Function.update_self]
    · rw [Function.update_of_ne hi, hstage i hi]
      exact h.worker i
  mirrors := by
    rw [hmask]
    refine h.mirrors.congr fun i _ => ?_
    rw [hworkers]
    by_cases hi : i = k
    · subst hi
      rwa [Function.update_self]
    · rw [Function.update_of_ne hi, hstage i hi]
  chosen := by
    rw [hmask]
    exact hchosen
  index := hindex
  started i hi := by
    rw [hworkers]
    by_cases hik : i = k
    · subst hik
      rw [Function.update_self, hk.resolve_left (Nat.not_lt_of_le hi)]
      exact h.started i hi
    · rw [Function.update_of_ne hik]
      exact h.started i hi

@[simp] theorem stage_hand (fd k : Nat) (wake : Bool) (h : HandPc) :
    (DispatcherPc.hand fd k wake h).stage k = some (wake, h) := if_pos rfl

theorem stage_hand_of_ne {fd k i : Nat} (wake : Bool) (h : HandPc) (hi : i ≠ k) :
    (DispatcherPc.hand fd k wake h).stage i = none := if_neg hi.symm

/-- A step of `init_thread_info` or `wake_up_thread` on worker `k`. -/
theorem Pool.hand (h : Pool n s) {fd k : Nat} {wake : Bool} {a b : HandPc} {w : Worker}
    (hpc : s.dispatcher.pc = .hand fd k wake a) (hpc' : s'.dispatcher.pc = .hand fd k wake b)
    (hworkers : s'.workers = Function.update s.workers k w) (hok : WorkerOk (some (wake, b)) k w)
    (hheld : w.HoldsBit (some (wake, b)) ↔ (s.workers k).HoldsBit (some (wake, a)))
    (hmask : s'.mask.data = s.mask.data)
    (hchosen : (DispatcherPc.hand fd k wake b).chosen = some k →
      (DispatcherPc.hand fd k wake a).chosen = some k) : Pool n s' := by
  have hk : k < n := h.index k (by rw [hpc]; rfl)
  refine h.update hworkers (fun i hi => ?_) ?_ ?_ hmask (fun j hj => ?_) (fun j hj => ?_) (.inl hk)
  · rw [System.stage, System.stage, hpc, hpc', stage_hand_of_ne _ _ hi, stage_hand_of_ne _ _ hi]
  · rwa [System.stage, hpc', stage_hand]
  · rwa [System.stage, System.stage, hpc, hpc', stage_hand, stage_hand]
  · have hj' : j = k := by
      rw [hpc'] at hj
      cases b <;> simp [DispatcherPc.chosen] at hj <;> exact hj.symm
    subst hj'
    apply h.chosen
    rw [hpc]
    exact hchosen (by rw [← hpc']; exact hj)
  · rw [hpc'] at hj
    cases hj
    exact hk

/-- After its early steps the dispatcher holds `args.lock` of a worker it wakes up,
and the worker is asleep; a worker it creates has not started. -/
theorem workerOk_late {wake : Bool} {a : HandPc} {i : Nat} {w : Worker}
    (hok : WorkerOk (some (wake, a)) i w) (ha : a.early = false) :
    w.pc.place = (if wake then .asleep else .fresh) ∧ (wake = true → w.lock = some .dispatcher) ∧
      w.status = if a.busy then .busy else if wake then .ready else .available := by
  cases wake with
  | false =>
    obtain ⟨hplace, -, hstatus⟩ := workerOk_init.mp hok
    exact ⟨hplace, nofun, hstatus⟩
  | true =>
    rcases workerOk_wake.mp hok with ⟨-, hearly, -⟩ | ⟨hplace, -, hlock, hstatus⟩
    · rw [ha] at hearly
      cases hearly
    · rw [ha] at hlock
      exact ⟨hplace, fun _ => hlock, hstatus⟩

theorem workerOk_of_late {wake : Bool} {b : HandPc} {i : Nat} {w : Worker}
    (hb : (if wake then b.ofWake else b.ofInit) = true) (hearly : b.early = false)
    (hplace : w.pc.place = if wake then .asleep else .fresh)
    (hlock : wake = true → w.lock = some .dispatcher)
    (hstatus : w.status = if b.busy then .busy else if wake then .ready else .available) :
    WorkerOk (some (wake, b)) i w := by
  cases wake with
  | false => exact workerOk_init.mpr ⟨hplace, hb, hstatus⟩
  | true => exact workerOk_wake.mpr (.inr ⟨hplace, hb, by rw [hlock rfl, hearly]; rfl, hstatus⟩)

/-- The dispatcher has set the status and the bit. -/
def HandPc.marked (a : HandPc) : Bool := a.busy && !a.claiming

theorem holdsBit_late {wake : Bool} {a : HandPc} {i : Nat} {w : Worker}
    (hok : WorkerOk (some (wake, a)) i w) (ha : a.early = false) :
    w.HoldsBit (some (wake, a)) ↔ a.marked = true := by
  obtain ⟨hplace, -, hstatus⟩ := workerOk_late hok ha
  have hne : w.pc.place ≠ .releasing := by
    rw [hplace]
    cases wake <;> decide
  have hbusy : w.status = .busy ↔ a.busy = true := by
    rw [hstatus]
    cases a.busy <;> cases wake <;> simp
  simp [Worker.HoldsBit, Stage.Claiming, hne, hbusy, HandPc.marked]

/-- A late step of `init_thread_info` or `wake_up_thread` other than `set_bit`. -/
theorem Pool.late (h : Pool n s) {fd k : Nat} {wake : Bool} {a b : HandPc} {w : Worker}
    (hpc : s.dispatcher.pc = .hand fd k wake a) (hpc' : s'.dispatcher.pc = .hand fd k wake b)
    (hworkers : s'.workers = Function.update s.workers k w) (ha : a.early = false)
    (hb : b.early = false ∧ (if wake then b.ofWake else b.ofInit) = true)
    (hplace : w.pc = (s.workers k).pc) (hlock : w.lock = (s.workers k).lock)
    (hstatus : w.status = if b.busy then .busy else (s.workers k).status)
    (hbusy : a.busy = true → b.busy = true) (hmarked : a.marked = b.marked)
    (hmask : s'.mask.data = s.mask.data)
    (hchosen : (DispatcherPc.hand fd k wake b).chosen = some k →
      (DispatcherPc.hand fd k wake a).chosen = some k) : Pool n s' := by
  have hok := h.worker k
  rw [System.stage, hpc, stage_hand] at hok
  obtain ⟨hplaceₐ, hlockₐ, hstatusₐ⟩ := workerOk_late hok ha
  have hok' : WorkerOk (some (wake, b)) k w := by
    refine workerOk_of_late hb.2 hb.1 (by rw [hplace, hplaceₐ]) (by rw [hlock]; exact hlockₐ) ?_
    rw [hstatus]
    split
    · rfl
    · rename_i hb'
      rw [hstatusₐ, if_neg fun ha' => hb' (hbusy ha')]
  refine h.hand hpc hpc' hworkers hok' ?_ hmask hchosen
  rw [holdsBit_late hok ha, holdsBit_late hok' hb.1, hmarked]

theorem handStep_pool {fd k : Nat} {wake : Bool} {a : HandPc} (h : Pool n s)
    (hpc : s.dispatcher.pc = .hand fd k wake a) (hs : s.handStep fd k wake a = some s') :
    Pool n s' := by
  have hok := h.worker k
  have hk : k < n := h.index k (by rw [hpc]; rfl)
  rw [System.stage, hpc, stage_hand] at hok
  have hself : s.workers = Function.update s.workers k (s.workers k) := by simp
  cases a with
  | assertReady =>
    simp only [System.handStep] at hs
    split at hs
    · cases hs
      cases wake with
      | false => cases (workerOk_init.mp hok).2.1
      | true =>
        refine h.hand hpc rfl hself ?_ ?_ rfl fun _ => rfl
        · rw [workerOk_wake] at hok ⊢
          exact hok
        · simp [Worker.HoldsBit, Stage.Claiming, HandPc.claiming]
    · cases hs
      exact h.frame rfl rfl rfl
  | lockArgs =>
    simp only [System.handStep] at hs
    split at hs
    · rename_i hfree
      cases hs
      cases wake with
      | false => cases (workerOk_init.mp hok).2.1
      | true =>
        -- a worker that holds its lock is awake
        rcases workerOk_wake.mp hok with ⟨-, -, -, hlock⟩ | ⟨hplace, -, -, hstatus⟩
        · rw [hfree] at hlock
          cases hlock
        · refine h.hand hpc rfl rfl (workerOk_of_late rfl rfl hplace (fun _ => rfl) hstatus) ?_ rfl
            fun _ => rfl
          simp [Worker.HoldsBit, Stage.Claiming, HandPc.claiming]
    · cases hs
  | initArgs =>
    cases hs
    cases wake with
    | true =>
      rcases workerOk_wake.mp hok with ⟨-, hearly, -⟩ | ⟨-, hwake, -⟩
      · cases hearly
      · cases hwake
    | false =>
      obtain ⟨hplace, -, hstatus⟩ := workerOk_init.mp hok
      refine h.hand hpc rfl rfl (workerOk_init.mpr ⟨hplace, rfl, hstatus⟩) ?_ rfl fun _ => rfl
      simp [Worker.HoldsBit, Stage.Claiming, HandPc.claiming]
  | setFd =>
    cases hs
    obtain ⟨-, -, hstatus⟩ := workerOk_late hok rfl
    exact h.late hpc rfl rfl rfl ⟨rfl, by cases wake <;> rfl⟩ rfl rfl rfl nofun rfl rfl fun _ => rfl
  | setBusy =>
    cases hs
    exact h.late hpc rfl rfl rfl ⟨rfl, by cases wake <;> rfl⟩ rfl rfl rfl (fun _ => rfl) rfl rfl
      fun _ => rfl
  | lockMask =>
    obtain ⟨mask, hmask, rfl⟩ := Option.map_eq_some_iff.mp hs
    exact h.late hpc rfl hself rfl ⟨rfl, by cases wake <;> rfl⟩ rfl rfl (workerOk_late hok rfl).2.2
      (fun _ => rfl) rfl (StatusMask.data_acquire hmask) fun _ => rfl
  | setBit =>
    cases hs
    obtain ⟨hplace, hlock, hstatus⟩ := workerOk_late hok rfl
    have hclear := h.chosen k (by rw [hpc]; rfl)
    have hok' : WorkerOk (some (wake, .unlockMask)) k (s.workers k) :=
      workerOk_of_late (by cases wake <;> rfl) rfl hplace hlock hstatus
    have hstage : ∀ i, i ≠ k → (DispatcherPc.hand fd k wake .unlockMask).stage i = s.stage i := by
      intro i hi
      rw [System.stage, hpc, stage_hand_of_ne _ _ hi, stage_hand_of_ne _ _ hi]
    constructor
    · intro i
      by_cases hi : i = k
      · subst hi
        simp only [System.stage, System.dispatcherAt, stage_hand]
        exact hok'
      · have hoki := h.worker i
        rw [← hstage i hi] at hoki
        exact hoki
    · refine h.mirrors.set hk hclear fun i _ => ?_
      by_cases hi : i = k
      · subst hi
        simp only [System.stage, System.dispatcherAt, stage_hand, or_true, iff_true]
        exact (holdsBit_late hok' rfl).mpr rfl
      · simp only [System.stage, System.dispatcherAt, hi, or_false]
        rw [hstage i hi]
        rfl
    · intro j hj
      cases hj
    · intro j hj
      cases hj
      exact hk
    · exact h.started
  | unlockMask =>
    cases hs
    exact h.late hpc rfl hself rfl ⟨rfl, by cases wake <;> rfl⟩ rfl rfl (workerOk_late hok rfl).2.2
      (fun _ => rfl) rfl rfl nofun
  | setTime =>
    cases hs
    have hstatus := (workerOk_late hok rfl).2.2
    cases wake with
    | false =>
      exact h.late hpc rfl rfl rfl ⟨rfl, rfl⟩ rfl rfl hstatus (fun _ => rfl) rfl rfl nofun
    | true =>
      exact h.late hpc rfl rfl rfl ⟨rfl, rfl⟩ rfl rfl hstatus (fun _ => rfl) rfl rfl nofun
  | create =>
    cases hs
    have hstatus := (workerOk_late hok rfl).2.2
    refine h.update rfl (fun i hi => ?_) ⟨rfl, hstatus⟩ ?_ rfl nofun nofun (.inl hk)
    · rw [System.stage, System.stage, hpc, stage_hand_of_ne _ _ hi]
      rfl
    · rw [System.stage, System.stage, hpc, stage_hand, holdsBit_late hok rfl]
      exact iff_of_true (.inl ⟨hstatus, by rintro ⟨_, _, hst, -⟩; cases hst⟩) rfl
  | signal =>
    cases hs
    cases wake with
    | false => cases (workerOk_init.mp hok).2.1
    | true =>
      exact h.late hpc rfl rfl rfl ⟨rfl, rfl⟩ rfl rfl (workerOk_late hok rfl).2.2 (fun _ => rfl) rfl
        rfl nofun
  | unlockArgs =>
    cases hs
    obtain ⟨hplace, -, hstatus⟩ := workerOk_late hok rfl
    cases wake with
    | false => cases (workerOk_init.mp hok).2.1
    | true =>
      refine h.update rfl (fun i hi => ?_) ?_ ?_ rfl nofun nofun (.inl hk)
      · rw [System.stage, System.stage, hpc, stage_hand_of_ne _ _ hi]
        rfl
      · simp only [WorkerOk, hplace]
        exact .inl ⟨rfl, by rw [hstatus]; decide, trivial⟩
      · rw [System.stage, System.stage, hpc, stage_hand, holdsBit_late hok rfl]
        exact iff_of_true (.inl ⟨hstatus, by rintro ⟨_, _, hst, -⟩; cases hst⟩) rfl

/-- The worker that the dispatcher has chosen was not started yet, or it is ready. -/
theorem Pool.chosen_worker {n fd k : Nat} (h : Pool n s) (hpc : s.dispatcher.pc = .switch fd k) :
    (s.workers k).status ≠ .busy ∧
      ((s.workers k).status = .available → (s.workers k).pc.place = .fresh) ∧
      ((s.workers k).status = .ready →
        ((s.workers k).pc.place = .released ∨ (s.workers k).pc.place = .waiting) ∧
            (s.workers k).lock = some (.worker k) ∨
          (s.workers k).pc.place = .asleep ∧ (s.workers k).lock = none) := by
  have hk : k < n := h.index k (by rw [hpc]; rfl)
  have hfree := h.not_busy hk (h.chosen k (by rw [hpc]; rfl))
  have hok := h.worker k
  have hst : s.stage k = none := by
    rw [System.stage, hpc]
    rfl
  rw [hst] at hok hfree
  obtain ⟨havail, hready⟩ := workerOk_none hok
  refine ⟨fun hstatus => hfree (.inl ⟨hstatus, ?_⟩), havail, fun hstatus => ?_⟩
  · rintro ⟨_, _, hnone, -⟩
    cases hnone
  · exact hready hstatus fun hrel => hfree (.inr hrel)

theorem dispatcherStep_pool {args : Args} {accepts : Bool} (h : Pool args.numWorkers s)
    (hs : s.dispatcherStep args accepts = some s') : Pool args.numWorkers s' := by
  unfold System.dispatcherStep at hs
  -- outside `init_thread_info` and `wake_up_thread` every stage is `none`
  have hstage : ∀ {pc pc' : DispatcherPc}, pc.stage = (fun _ => none) →
      pc'.stage = (fun _ => none) → s.dispatcher.pc = pc → ∀ i, pc'.stage i = s.stage i := by
    intro pc pc' hpc hpc' heq i
    rw [System.stage, heq, hpc, hpc']
  split at hs
  · rename_i hpc
    split at hs
    · cases hs
      exact h.congr rfl (hstage rfl rfl hpc) rfl nofun nofun
    · cases hs
      exact h
  · rename_i fd hpc
    cases hs
    exact h.congr rfl (hstage rfl rfl hpc) rfl nofun nofun
  · rename_i fd i hpc
    split at hs
    · rename_i hi
      obtain ⟨mask, hmask, rfl⟩ := Option.map_eq_some_iff.mp hs
      refine h.congr rfl (hstage rfl rfl hpc) (StatusMask.data_acquire hmask) nofun ?_
      rintro k ⟨⟩
      exact hi
    · cases hs
      exact h.congr rfl (hstage rfl rfl hpc) rfl nofun nofun
  · rename_i fd i hpc
    cases hs
    have hi : i < args.numWorkers := h.index i (by rw [hpc]; rfl)
    refine h.congr rfl (hstage rfl rfl hpc) rfl ?_ ?_
    · intro k hk
      simp only [System.dispatcherAt] at hk
      cases hset : isSet s.mask.data i with
      | true =>
        rw [hset] at hk
        cases hk
      | false =>
        rw [hset] at hk
        cases hk
        exact hset
    · rintro k ⟨⟩
      exact hi
  · rename_i fd i isIdle hpc
    cases hs
    have hi : i < args.numWorkers := h.index i (by rw [hpc]; rfl)
    cases isIdle with
    | false => exact h.congr rfl (hstage rfl rfl hpc) rfl nofun nofun
    | true =>
      refine h.congr rfl (hstage rfl rfl hpc) rfl ?_ ?_
      · rintro k ⟨⟩
        exact h.chosen i (by rw [hpc]; rfl)
      · rintro k ⟨⟩
        exact hi
  · rename_i fd hpc
    cases hs
    exact h.congr rfl (hstage rfl rfl hpc) rfl nofun nofun
  · rename_i fd k hpc
    have hk : k < args.numWorkers := h.index k (by rw [hpc]; rfl)
    have hclear := h.chosen k (by rw [hpc]; rfl)
    have hst : s.stage k = none := by
      rw [System.stage, hpc]
      rfl
    obtain ⟨hfree, havail, hready⟩ := h.chosen_worker hpc
    have hself : s.workers = Function.update s.workers k (s.workers k) := by simp
    have hothers : ∀ wake a i, i ≠ k → (DispatcherPc.hand fd k wake a).stage i = s.stage i := by
      intro wake a i hi
      rw [stage_hand_of_ne _ _ hi, System.stage, hpc]
      rfl
    split at hs
    · rename_i hstatus
      cases hs
      refine h.update hself (hothers _ _) ?_ ?_ rfl ?_ ?_ (.inl hk)
      · rw [System.stage, System.dispatcherAt, stage_hand]
        exact workerOk_init.mpr ⟨havail hstatus, rfl, hstatus⟩
      · rw [System.stage, System.dispatcherAt, stage_hand, hst]
        simp [Worker.HoldsBit, hstatus]
      · rintro j ⟨⟩
        exact hclear
      · rintro j ⟨⟩
        exact hk
    · rename_i hstatus
      cases hs
      refine h.update hself (hothers _ _) ?_ ?_ rfl ?_ ?_ (.inl hk)
      · rw [System.stage, System.dispatcherAt, stage_hand, workerOk_wake]
        rcases hready hstatus with ⟨hplace, hlock⟩ | ⟨hplace, hlock⟩
        · exact .inl ⟨hplace, rfl, hstatus, hlock⟩
        · exact .inr ⟨hplace, rfl, hlock, hstatus⟩
      · rw [System.stage, System.dispatcherAt, stage_hand, hst]
        simp [Worker.HoldsBit, hstatus]
      · rintro j ⟨⟩
        exact hclear
      · rintro j ⟨⟩
        exact hk
    · rename_i hstatus
      exact absurd hstatus hfree
  · rename_i fd k wake a hpc
    exact handStep_pool h hpc hs

/-! ## Every step -/

/-- A step that leaves everything alone but the queue, the source and the cleanup
worker. -/
structure QueueStep (s s' : System) : Prop where
  workers : s'.workers = s.workers
  clients : s'.clients = s.clients
  accepted : s'.accepted = s.accepted
  dispatcher : s'.dispatcher = s.dispatcher
  mask : s'.mask = s.mask
  fault : s'.fault = s.fault

theorem srcStep_frame {msg : Option CtmpMsg} (hs : s.srcStep msg = some s') : QueueStep s s' := by
  cases srcStep_move hs <;> constructor <;> rfl

theorem srcStep_others {msg : Option CtmpMsg} (hs : s.srcStep msg = some s') :
    s'.cleanup = s.cleanup ∧ s'.now = s.now := by
  cases srcStep_move hs <;> exact ⟨rfl, rfl⟩

theorem cleanupStep_frame {args : Args} (hs : s.cleanupStep args = some s') :
    QueueStep s s' ∧ s'.src = s.src := by
  cases cleanupStep_move hs <;> refine ⟨?_, rfl⟩ <;> constructor <;> rfl

theorem workerStep_eq {i : Nat} {o : Outcome} (hs : s.workerStep i o = some s') :
    ∃ fd v', (s.workers i).clientFd = some fd ∧ (s.view i fd).step i o = some v' ∧
      s' = s.setView i fd v' := by
  unfold System.workerStep at hs
  split at hs
  · cases hs
  · rename_i fd hfd
    obtain ⟨v', hv, rfl⟩ := Option.map_eq_some_iff.mp hs
    exact ⟨fd, v', hfd, hv, rfl⟩

/-- What no step of the dispatcher and of the workers changes. -/
structure PoolStepFrame (s s' : System) : Prop where
  src : s'.src = s.src
  cleanup : s'.cleanup = s.cleanup
  now : s'.now = s.now

theorem handStep_frame {fd k : Nat} {wake : Bool} {a : HandPc}
    (hs : s.handStep fd k wake a = some s') : PoolStepFrame s s' := by
  cases a with
  | assertReady | lockArgs =>
    simp only [System.handStep] at hs
    split at hs <;> cases hs <;> constructor <;> rfl
  | lockMask =>
    obtain ⟨mask, -, rfl⟩ := Option.map_eq_some_iff.mp hs
    constructor <;> rfl
  | initArgs | setFd | setBusy | setBit | unlockMask | setTime | create | signal | unlockArgs =>
    cases hs
    constructor <;> rfl

theorem dispatcherStep_frame {args : Args} {accepts : Bool}
    (hs : s.dispatcherStep args accepts = some s') : PoolStepFrame s s' := by
  unfold System.dispatcherStep at hs
  split at hs
  · split at hs <;> cases hs <;> constructor <;> rfl
  · cases hs
    constructor <;> rfl
  · split at hs
    · obtain ⟨mask, -, rfl⟩ := Option.map_eq_some_iff.mp hs
      constructor <;> rfl
    · cases hs
      constructor <;> rfl
  · cases hs
    constructor <;> rfl
  · cases hs
    constructor <;> rfl
  · cases hs
    constructor <;> rfl
  · split at hs <;> cases hs <;> constructor <;> rfl
  · exact handStep_frame hs

/-- Only the source moves in its loop. -/
theorem step_src {args : Args} {l : Label} (hs : s.step args l = some s') :
    s'.src = s.src ∨ ∃ msg, l = .src msg ∧ s.srcStep msg = some s' := by
  cases step_move hs with
  | src hstep => exact .inr ⟨_, rfl, hstep⟩
  | dispatcher hstep => exact .inl (dispatcherStep_frame hstep).src
  | worker hstep =>
    obtain ⟨fd, v', -, -, rfl⟩ := workerStep_eq hstep
    exact .inl rfl
  | cleanup hstep => exact .inl (cleanupStep_frame hstep).2
  | tick | wakeMsg | wakeArgs => exact .inl rfl

/-- Only the cleanup worker moves in its loop. -/
theorem step_cleanup {args : Args} {l : Label} (hs : s.step args l = some s') :
    l ≠ .cleanup ∧ s'.cleanup = s.cleanup ∨ l = .cleanup ∧ s.cleanupStep args = some s' := by
  cases step_move hs with
  | src hstep => exact .inl ⟨by simp, (srcStep_others hstep).1⟩
  | dispatcher hstep => exact .inl ⟨by simp, (dispatcherStep_frame hstep).cleanup⟩
  | worker hstep =>
    obtain ⟨fd, v', -, -, rfl⟩ := workerStep_eq hstep
    exact .inl ⟨by simp, rfl⟩
  | cleanup hstep => exact .inr ⟨rfl, hstep⟩
  | tick | wakeMsg | wakeArgs => exact .inl ⟨by simp, rfl⟩

theorem workerStep_pool {i : Nat} {o : Outcome} (h : Pool n s) (hs : s.workerStep i o = some s') :
    Pool n s' := by
  obtain ⟨fd, v', -, hv, rfl⟩ := workerStep_eq hs
  have hi : i < n := by
    by_contra hi
    have hidle := h.started i (Nat.le_of_not_lt hi)
    simp only [WorkerView.step, System.view, hidle] at hv
    cases hv
  obtain ⟨hok, ⟨hheld, hmask⟩ | ⟨hheld, hfree, hmask⟩⟩ := step_pool (h.worker i) hv
  · exact h.update rfl (fun _ _ => rfl) hok hheld hmask h.chosen h.index (.inl hi)
  · constructor
    · intro j
      by_cases hj : j = i
      · subst hj
        simpa [System.setView, System.stage] using hok
      · simpa [System.setView, System.stage, hj] using h.worker j
    · simp only [System.setView, hmask]
      refine h.mirrors.clear hi hheld fun j _ => ?_
      by_cases hj : j = i
      · subst hj
        simpa [System.stage] using hfree
      · simp [System.stage, hj]
    · intro k hk
      simp only [System.setView, hmask, isSet_setBit]
      split
      · rfl
      · exact h.chosen k hk
    · exact h.index
    · intro j hj
      simp only [System.setView]
      rw [Function.update_of_ne (by omega)]
      exact h.started j hj

/-- **One step of the server** keeps the pool in order. -/
theorem step_keeps_pool {args : Args} {l : Label} (h : Pool args.numWorkers s)
    (hs : s.step args l = some s') : Pool args.numWorkers s' := by
  cases step_move hs with
  | src hstep =>
    have hframe := srcStep_frame hstep
    exact h.frame hframe.workers hframe.dispatcher hframe.mask
  | dispatcher hstep => exact dispatcherStep_pool h hstep
  | worker hstep => exact workerStep_pool h hstep
  | cleanup hstep =>
    have hframe := (cleanupStep_frame hstep).1
    exact h.frame hframe.workers hframe.dispatcher hframe.mask
  | tick | wakeMsg => exact h.frame rfl rfl rfl
  | @wakeArgs i =>
    exact h.update rfl (fun _ _ => rfl) (h.worker i) Iff.rfl rfl h.chosen h.index (.inr rfl)

end

/-- **The worker pool** is in order in every run. -/
theorem reachable_pool {args : Args} {start : Timespec} {s : System}
    (h : (server args start).Reachable s) : Pool args.numWorkers s :=
  h.invariant_ofFn (pool_init _ _) fun _ _ _ => step_keeps_pool

end WireStorm
