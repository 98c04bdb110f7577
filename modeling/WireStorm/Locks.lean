import WireStorm.Lib.Mutex
import WireStorm.Wakeup

/-!
# Mutexes of the server

Every mutex of the server over every run: `msg_lock`, the lock of the status mask and the
`args.lock` of each worker. Which of them a thread is in, which its next step takes, and how
far it is from giving them back is read off its program counter (`LockUse`). A mutex is held
by the thread in its critical section, and by no other (`mutual_exclusion`).
-/

namespace WireStorm

open Mutex (Guards Move)

/-! ## What a thread does with the mutexes -/

/-- `msg_lock`, `threads_status.lock`, and `args.lock` of worker `i`. -/
inductive Lock
  | msg
  | mask
  | args (i : Nat)
  deriving DecidableEq, Repr

/-- The mutexes that a thread is inside, the one that its next step takes, and a bound on the
steps up to where it is inside none. -/
structure LockUse where
  holds : List Lock
  wants : Option Lock
  left : Nat

/-- Outside all mutexes. -/
def LockUse.none : LockUse := ⟨[], .none, 0⟩

def GetPc.use : GetPc → LockUse
  | .test => .none
  | .lock | .waitFirst | .waitNext _ => ⟨[], some .msg, 0⟩
  | .first | .next _ => ⟨[.msg], none, 2⟩
  | .unlock _ => ⟨[.msg], none, 1⟩

def SrcPc.use : SrcPc → LockUse
  | .lock _ => ⟨[], some .msg, 0⟩
  | .insert _ => ⟨[.msg], none, 3⟩
  | .broadcast => ⟨[.msg], none, 2⟩
  | .unlock => ⟨[.msg], none, 1⟩
  | .parse | .stamp _ => .none

def CleanupPc.use : CleanupPc → LockUse
  | .get _ g => g.use
  | .lockFree _ | .lockNext _ => ⟨[], some .msg, 0⟩
  | .free _ | .readNext _ => ⟨[.msg], none, 2⟩
  | .unlockFree _ | .unlockNext _ => ⟨[.msg], none, 1⟩
  | .check _ | .advance _ => .none

/-- The body of the loop of worker `i`. -/
def LoopPc.use (i : Nat) : LoopPc → LockUse
  | .lockNext => ⟨[], some .msg, 0⟩
  | .readNext => ⟨[.msg], none, 2⟩
  | .unlockNext => ⟨[.msg], none, 1⟩
  | .lockArgs | .asleep => ⟨[], some (.args i), 0⟩
  | .setReady => ⟨[.args i], none, 7⟩
  | .lockMask => ⟨[.args i], some .mask, 6⟩
  | .clearBit => ⟨[.args i, .mask], none, 5⟩
  | .unlockMask => ⟨[.args i, .mask], none, 4⟩
  | .waitBusy => ⟨[.args i], none, 3⟩
  | .reset => ⟨[.args i], none, 2⟩
  | .unlockArgs => ⟨[.args i], none, 1⟩
  | .alive | .forward | .send _ | .mark | .test | .close | .advance => .none

def WorkerPc.use (i : Nat) : WorkerPc → LockUse
  | .idle => .none
  | .get _ g => g.use
  | .body _ l => l.use i

/-- A hand-over to worker `k`, with `args.lock` held around it or not. -/
def HandPc.use (k : Nat) (wake : Bool) : HandPc → LockUse
  | .assertReady | .initArgs | .create => .none
  | .lockArgs => ⟨[], some (.args k), 0⟩
  | .setFd => ⟨outer, none, 8⟩
  | .setBusy => ⟨outer, none, 7⟩
  | .lockMask => ⟨outer, some .mask, 6⟩
  | .setBit => ⟨outer ++ [.mask], none, 5⟩
  | .unlockMask => ⟨outer ++ [.mask], none, 4⟩
  | .setTime => ⟨outer, none, 3⟩
  | .signal => ⟨outer, none, 2⟩
  | .unlockArgs => ⟨outer, none, 1⟩
where
  outer : List Lock := if wake then [.args k] else []

/-- The dispatcher with `n` workers. -/
def DispatcherPc.use (n : Nat) : DispatcherPc → LockUse
  | .lockProbe _ i => if i < n then ⟨[], some .mask, 0⟩ else .none
  | .readProbe _ _ => ⟨[.mask], none, 2⟩
  | .unlockProbe _ _ _ => ⟨[.mask], none, 1⟩
  | .hand _ k wake h => h.use k wake
  | .accept | .clock _ | .backoff _ | .switch _ _ => .none

namespace System

/-- What thread `t` does with the mutexes. -/
def use (args : Args) (s : System) : Tid → LockUse
  | .src => s.src.use
  | .dispatcher => s.dispatcher.pc.use args.numWorkers
  | .cleanup => s.cleanup.pc.use
  | .worker i => (s.workers i).pc.use i

/-- Who holds a mutex. -/
def owner (s : System) : Lock → Option Tid
  | .msg => s.queue.lock
  | .mask => s.mask.lock
  | .args i => (s.workers i).lock

/-- Thread `t` is in a critical section of `r`. -/
def inside (args : Args) (s : System) (r : Lock) (t : Tid) : Bool := decide (r ∈ (s.use args t).holds)

end System

/-- The thread of a step. -/
def Label.tid : Label → Option Tid
  | .src _ => some .src
  | .dispatcher _ => some .dispatcher
  | .worker i _ => some (.worker i)
  | .cleanup => some .cleanup
  | .tick _ | .wakeMsg _ | .wakeArgs _ => none

/-! ## Steps of a worker -/

theorem GetPc.not_mem_holds (g : GetPc) {r : Lock} (hr : r ≠ .msg) : r ∉ g.use.holds := by
  cases g <;> simp [use, LockUse.none, hr]

/-- What a step of worker `i` does to the lock of the mask and to its `args.lock`. -/
structure WorkerLocks (i : Nat) (v v' : WorkerView) : Prop where
  mask : Move (.worker i) v.mask.lock v'.mask.lock (decide (.mask ∈ (v.worker.pc.use i).holds))
    (decide (.mask ∈ (v'.worker.pc.use i).holds))
  args : Move (.worker i) v.worker.lock v'.worker.lock
    (decide (.args i ∈ (v.worker.pc.use i).holds)) (decide (.args i ∈ (v'.worker.pc.use i).holds))

theorem StatusMask.acquire_eq {mask mask' : StatusMask} {t : Tid} (h : mask.acquire t = some mask') :
    mask.lock = none ∧ mask'.lock = some t := by
  unfold StatusMask.acquire at h
  split at h <;> cases h
  exact ⟨by assumption, rfl⟩

theorem WorkerView.bodyStep_locks {i e : Nat} {o : Outcome} {l : LoopPc} {v v' : WorkerView}
    (hpc : v.worker.pc = .body e l) (hs : v.bodyStep i o e l = some v') : WorkerLocks i v v' := by
  -- steps that leave both mutexes alone
  have hkeep : ∀ {l' : LoopPc}, v'.worker.pc = .body e l' → v'.mask.lock = v.mask.lock →
      v'.worker.lock = v.worker.lock →
      (∀ r, r ≠ .msg → (r ∈ (l'.use i).holds ↔ r ∈ (l.use i).holds)) → WorkerLocks i v v' := by
    intro l' hpc' hmask hlock hholds
    refine ⟨.keep hmask ?_, .keep hlock ?_⟩
    · rw [hpc, hpc', decide_eq_decide]
      exact hholds _ (by simp)
    · rw [hpc, hpc', decide_eq_decide]
      exact hholds _ (by simp)
  cases l with
  | alive =>
    simp only [WorkerView.bodyStep] at hs
    split at hs <;> cases hs
    all_goals exact hkeep rfl rfl rfl (by simp [LoopPc.use, LockUse.none])
  | forward | mark | reset =>
    simp only [WorkerView.bodyStep] at hs
    split at hs
    · cases hs
    · split at hs <;> cases hs
      all_goals
        first
        | exact hkeep rfl rfl rfl (by simp [LoopPc.use, LockUse.none])
        | exact hkeep hpc rfl rfl (by simp)
  | send p =>
    simp only [WorkerView.bodyStep] at hs
    split at hs
    · cases hs
    · split at hs
      · cases hs
        exact hkeep hpc rfl rfl (by simp)
      · split at hs <;> cases hs
        all_goals exact hkeep rfl rfl rfl (by simp [LoopPc.use, LockUse.none])
  | lockNext =>
    obtain ⟨q, -, rfl⟩ := Option.map_eq_some_iff.mp hs
    exact hkeep rfl rfl rfl (by simp [LoopPc.use])
  | test =>
    cases hs
    refine hkeep rfl rfl rfl ?_
    split <;> simp [LoopPc.use, LockUse.none]
  | readNext | unlockNext | close | setReady | clearBit =>
    cases hs
    exact hkeep rfl rfl rfl (by simp [LoopPc.use, LockUse.none])
  | advance =>
    cases hs
    refine ⟨.keep rfl ?_, .keep rfl ?_⟩
    all_goals rw [hpc]; simp [WorkerPc.use, GetPc.use, LoopPc.use, LockUse.none]
  | lockArgs =>
    simp only [WorkerView.bodyStep] at hs
    split at hs <;> cases hs
    rename_i hfree
    refine ⟨.keep rfl ?_, .take hfree rfl ?_⟩
    · rw [hpc]
      simp [WorkerPc.use, LoopPc.use]
    · simp [WorkerPc.use, LoopPc.use]
  | lockMask =>
    obtain ⟨mask, hmask, rfl⟩ := Option.map_eq_some_iff.mp hs
    obtain ⟨hfree, howner⟩ := StatusMask.acquire_eq hmask
    refine ⟨.take hfree howner ?_, .keep rfl ?_⟩
    · simp [WorkerView.goto, WorkerPc.use, LoopPc.use]
    · rw [hpc]
      simp [WorkerView.goto, WorkerPc.use, LoopPc.use]
  | unlockMask =>
    cases hs
    refine ⟨.give rfl ?_ ?_, .keep rfl ?_⟩
    · rw [hpc]
      simp [WorkerPc.use, LoopPc.use]
    · simp [WorkerView.goto, WorkerPc.use, LoopPc.use]
    · rw [hpc]
      simp [WorkerView.goto, WorkerPc.use, LoopPc.use]
  | waitBusy =>
    simp only [WorkerView.bodyStep] at hs
    split at hs <;> cases hs
    · exact hkeep rfl rfl rfl (by simp [LoopPc.use])
    · refine ⟨.keep rfl ?_, .give rfl ?_ ?_⟩
      · rw [hpc]
        simp [WorkerPc.use, LoopPc.use]
      · rw [hpc]
        simp [WorkerPc.use, LoopPc.use]
      · simp [WorkerPc.use, LoopPc.use]
  | asleep =>
    simp only [WorkerView.bodyStep] at hs
    split at hs <;> cases hs
    rename_i hwoken
    refine ⟨.keep rfl ?_, .take hwoken.2 rfl ?_⟩
    · rw [hpc]
      simp [WorkerPc.use, LoopPc.use]
    · simp [WorkerPc.use, LoopPc.use]
  | unlockArgs =>
    cases hs
    refine ⟨.keep rfl ?_, .give rfl ?_ ?_⟩
    · rw [hpc]
      simp [WorkerPc.use, LoopPc.use, LockUse.none]
    · rw [hpc]
      simp [WorkerPc.use, LoopPc.use]
    · simp [WorkerPc.use, LoopPc.use, LockUse.none]

theorem WorkerView.step_locks {i : Nat} {o : Outcome} {v v' : WorkerView}
    (hs : v.step i o = some v') : WorkerLocks i v v' := by
  unfold WorkerView.step at hs
  split at hs
  · cases hs
  · rename_i current g hpc
    have hout : ∀ r ≠ Lock.msg, r ∉ (v.worker.pc.use i).holds := by
      intro r hr
      rw [hpc]
      exact g.not_mem_holds hr
    -- neither mutex is taken
    have hkeep : v'.mask.lock = v.mask.lock → v'.worker.lock = v.worker.lock →
        (∀ r ≠ Lock.msg, r ∉ (v'.worker.pc.use i).holds) → WorkerLocks i v v' := by
      intro hmask hlock hout'
      refine ⟨.keep hmask ?_, .keep hlock ?_⟩
      all_goals exact decide_eq_decide.mpr (iff_of_false (hout' _ (by simp)) (hout _ (by simp)))
    split at hs <;> cases hs
    · rename_i g' hget
      exact hkeep rfl rfl fun r hr => g'.not_mem_holds hr
    · exact hkeep rfl rfl fun r _ => List.not_mem_nil
  · rename_i hpc
    exact bodyStep_locks hpc hs

/-! ## Steps of the dispatcher -/

section
variable {args : Args} {s s' : System}

theorem handStep_locks {fd k : Nat} {wake : Bool} {a : HandPc} (hp : Pool args.numWorkers s)
    (hfree : a = .initArgs → (s.workers k).lock = none)
    (hpc : s.dispatcher.pc = .hand fd k wake a) (hs : s.handStep fd k wake a = some s') (r : Lock) :
    Move .dispatcher (s.owner r) (s'.owner r) (s.inside args r .dispatcher)
      (s'.inside args r .dispatcher) := by
  have hok := hp.worker k
  rw [System.stage, hpc, stage_hand] at hok
  have hinside : s.inside args r .dispatcher = decide (r ∈ (a.use k wake).holds) := by
    simp only [System.inside, System.use, hpc, DispatcherPc.use]
  have hinside' : ∀ {b : HandPc}, s'.dispatcher.pc = .hand fd k wake b →
      s'.inside args r .dispatcher = decide (r ∈ (b.use k wake).holds) := by
    intro b hpc'
    simp only [System.inside, System.use, hpc', DispatcherPc.use]
  -- steps that leave the mutexes alone
  have hkeep : ∀ {b : HandPc}, s'.dispatcher.pc = .hand fd k wake b → s'.queue = s.queue →
      s'.mask.lock = s.mask.lock → (∀ i, (s'.workers i).lock = (s.workers i).lock) →
      (r ∈ (b.use k wake).holds ↔ r ∈ (a.use k wake).holds) →
      Move .dispatcher (s.owner r) (s'.owner r) (s.inside args r .dispatcher)
        (s'.inside args r .dispatcher) := by
    intro b hpc' hqueue hmask hlock hholds
    refine .keep ?_ ?_
    · cases r with
      | msg => simp only [System.owner, hqueue]
      | mask => exact hmask
      | args i => exact hlock i
    · rw [hinside, hinside' hpc', decide_eq_decide]
      exact hholds
  have hworker : ∀ {w : Worker}, w.lock = (s.workers k).lock →
      ∀ i, (Function.update s.workers k w i).lock = (s.workers i).lock := by
    intro w hw i
    by_cases hi : i = k
    · subst hi
      rw [Function.update_self, hw]
    · rw [Function.update_of_ne hi]
  cases a with
  | assertReady =>
    simp only [System.handStep] at hs
    split at hs <;> cases hs
    · exact hkeep rfl rfl rfl (fun _ => rfl) Iff.rfl
    · exact hkeep hpc rfl rfl (fun _ => rfl) Iff.rfl
  | lockArgs =>
    simp only [System.handStep] at hs
    split at hs <;> cases hs
    rename_i hunlocked
    cases wake with
    | false => cases (workerOk_init.mp hok).2.1
    | true =>
      by_cases hr : r = .args k
      · subst hr
        refine .take hunlocked (by simp [System.owner]) ?_
        rw [hinside' rfl]
        simp [HandPc.use, HandPc.use.outer]
      · refine .keep ?_ ?_
        · cases r with
          | msg | mask => rfl
          | args i =>
            have hi : i ≠ k := fun hi => hr (hi ▸ rfl)
            simp [System.owner, hi]
        · rw [hinside, hinside' rfl]
          simp [HandPc.use, HandPc.use.outer, hr]
  | initArgs =>
    cases hs
    cases wake with
    | true => rcases workerOk_wake.mp hok with ⟨-, hno, -⟩ | ⟨-, hno, -⟩ <;> cases hno
    | false =>
      refine hkeep rfl rfl rfl (hworker (hfree rfl).symm) ?_
      simp [HandPc.use, HandPc.use.outer, LockUse.none]
  | setFd | setBusy =>
    cases hs
    exact hkeep rfl rfl rfl (hworker rfl) Iff.rfl
  | setTime =>
    cases hs
    refine hkeep rfl rfl rfl (hworker rfl) ?_
    cases wake <;> simp [HandPc.use, HandPc.use.outer, LockUse.none]
  | signal =>
    cases hs
    exact hkeep rfl rfl rfl (hworker rfl) Iff.rfl
  | setBit =>
    cases hs
    exact hkeep rfl rfl rfl (fun _ => rfl) Iff.rfl
  | lockMask =>
    obtain ⟨mask, hmask, rfl⟩ := Option.map_eq_some_iff.mp hs
    obtain ⟨hunlocked, howner⟩ := StatusMask.acquire_eq hmask
    by_cases hr : r = .mask
    · subst hr
      refine .take hunlocked howner ?_
      rw [hinside' rfl]
      simp [HandPc.use]
    · refine .keep ?_ ?_
      · cases r with
        | mask => exact absurd rfl hr
        | msg | args i => rfl
      · rw [hinside, hinside' rfl, decide_eq_decide]
        simp [HandPc.use, hr]
  | unlockMask =>
    cases hs
    by_cases hr : r = .mask
    · subst hr
      refine .give rfl ?_ ?_
      · rw [hinside]
        simp [HandPc.use]
      · rw [hinside' rfl]
        cases wake <;> simp [HandPc.use, HandPc.use.outer]
    · refine .keep ?_ ?_
      · cases r with
        | mask => exact absurd rfl hr
        | msg | args i => rfl
      · rw [hinside, hinside' rfl, decide_eq_decide]
        simp [HandPc.use, hr]
  | create =>
    cases hs
    refine .keep ?_ ?_
    · cases r with
      | msg | mask => rfl
      | args i =>
        have hsame := hworker (w := { s.workers k with
          pc := .get none .test, prev := none, next := none, bytesSent := 0 }) rfl i
        exact hsame
    · rw [hinside]
      rfl
  | unlockArgs =>
    cases hs
    cases wake with
    | false => cases (workerOk_init.mp hok).2.1
    | true =>
      by_cases hr : r = .args k
      · subst hr
        refine .give (by simp [System.owner]) ?_ ?_
        · rw [hinside]
          simp [HandPc.use, HandPc.use.outer]
        · simp [System.inside, System.use, DispatcherPc.use, LockUse.none]
      · refine .keep ?_ ?_
        · cases r with
          | msg | mask => rfl
          | args i =>
            have hi : i ≠ k := fun hi => hr (hi ▸ rfl)
            simp [System.owner, hi]
        · rw [hinside]
          simp [System.inside, System.use, DispatcherPc.use, HandPc.use, HandPc.use.outer,
            LockUse.none, hr]

theorem dispatcherStep_locks {accepts : Bool} (hp : Pool args.numWorkers s)
    (hfree : ∀ fd k wake, s.dispatcher.pc = .hand fd k wake .initArgs → (s.workers k).lock = none)
    (hs : s.dispatcherStep args accepts = some s') (r : Lock) :
    Move .dispatcher (s.owner r) (s'.owner r) (s.inside args r .dispatcher)
      (s'.inside args r .dispatcher) := by
  have hinside : ∀ {s : System} {pc}, s.dispatcher.pc = pc →
      s.inside args r .dispatcher = decide (r ∈ (pc.use args.numWorkers).holds) := by
    rintro s pc rfl
    rfl
  -- steps that leave the mutexes alone
  have hkeep : ∀ {pc pc' : DispatcherPc}, s.dispatcher.pc = pc → s'.dispatcher.pc = pc' →
      s'.queue = s.queue → s'.mask.lock = s.mask.lock → s'.workers = s.workers →
      (pc'.use args.numWorkers).holds = (pc.use args.numWorkers).holds →
      Move .dispatcher (s.owner r) (s'.owner r) (s.inside args r .dispatcher)
        (s'.inside args r .dispatcher) := by
    intro pc pc' hpc hpc' hqueue hmask hworkers hholds
    refine .keep ?_ (by rw [hinside hpc, hinside hpc', hholds])
    cases r with
    | msg => simp only [System.owner, hqueue]
    | mask => exact hmask
    | args i => simp only [System.owner, hworkers]
  have hprobe : ∀ i fd, ((DispatcherPc.lockProbe fd i).use args.numWorkers).holds = [] := by
    intro i fd
    simp only [DispatcherPc.use]
    split <;> rfl
  unfold System.dispatcherStep at hs
  split at hs
  · rename_i hpc
    split at hs <;> cases hs
    · exact hkeep hpc rfl rfl rfl rfl rfl
    · exact hkeep hpc hpc rfl rfl rfl rfl
  · rename_i hpc
    cases hs
    exact hkeep hpc rfl rfl rfl rfl (hprobe _ _)
  · rename_i fd i hpc
    split at hs
    · obtain ⟨mask, hmask, rfl⟩ := Option.map_eq_some_iff.mp hs
      obtain ⟨hunlocked, howner⟩ := StatusMask.acquire_eq hmask
      by_cases hr : r = .mask
      · subst hr
        refine .take hunlocked howner ?_
        rw [hinside rfl]
        simp [DispatcherPc.use]
      · refine .keep ?_ ?_
        · cases r with
          | mask => exact absurd rfl hr
          | msg | args i => rfl
        · rw [hinside hpc, hinside rfl, hprobe]
          simp [DispatcherPc.use, hr]
    · cases hs
      exact hkeep hpc rfl rfl rfl rfl (hprobe _ _).symm
  · rename_i hpc
    cases hs
    exact hkeep hpc rfl rfl rfl rfl rfl
  · rename_i fd i isIdle hpc
    cases hs
    have hout : ∀ {s' : System} {pc}, s'.dispatcher.pc = pc →
        pc = (if isIdle then .switch fd i else .lockProbe fd (i + 1)) →
        s'.inside args r .dispatcher = false := by
      rintro s' pc hpc' rfl
      have hholds : ((if isIdle then DispatcherPc.switch fd i else .lockProbe fd (i + 1)).use
          args.numWorkers).holds = [] := by
        cases isIdle
        · exact hprobe _ _
        · rfl
      rw [hinside hpc', hholds]
      rfl
    by_cases hr : r = .mask
    · subst hr
      refine .give rfl ?_ (hout rfl rfl)
      rw [hinside hpc]
      simp [DispatcherPc.use]
    · refine .keep ?_ ?_
      · cases r with
        | mask => exact absurd rfl hr
        | msg | args i => rfl
      · rw [hinside hpc, hout rfl rfl]
        simp [DispatcherPc.use, hr]
  · rename_i hpc
    cases hs
    exact hkeep hpc rfl rfl rfl rfl (hprobe _ _)
  · rename_i hpc
    split at hs <;> cases hs
    all_goals exact hkeep hpc rfl rfl rfl rfl rfl
  · rename_i fd k wake a hpc
    exact handStep_locks hp (fun ha => hfree fd k wake (ha ▸ hpc)) hpc hs r

/-! ## Every step -/

/-- The dispatcher moves no worker, but for the one that it creates. -/
theorem dispatcherStep_pc {accepts : Bool} (hp : Pool args.numWorkers s)
    (hs : s.dispatcherStep args accepts = some s') (i : Nat) :
    (s'.workers i).pc = (s.workers i).pc ∨
      (s.workers i).pc = .idle ∧ (s'.workers i).pc = .get none .test := by
  cases dispatcherStep_move hp hs with
  | calm _ _ _ _ _ _ _ _ hloop => exact .inl (hloop i).pc
  | accept | clock => exact .inl rfl
  | @setFd fd k | @setTime fd k =>
    by_cases hi : i = k
    · subst hi
      exact .inl (by simp)
    · exact .inl (by simp [hi])
  | @create fd k _ hpc hidle =>
    by_cases hi : i = k
    · subst hi
      exact .inr ⟨hidle, by simp⟩
    · exact .inl (by simp [hi])

/-- A step of one thread leaves what the others do with the mutexes alone. -/
theorem step_use {l : Label} {t u : Tid} (hp : Pool args.numWorkers s)
    (hs : s.step args l = some s') (hl : l.tid = some u) (ht : t ≠ u) :
    s'.use args t = s.use args t := by
  cases step_move hs with
  | src hstep =>
    cases hl
    have hframe := srcStep_frame hstep
    cases t with
    | src => exact absurd rfl ht
    | dispatcher => simp only [System.use, hframe.dispatcher]
    | cleanup => simp only [System.use, (srcStep_others hstep).1]
    | worker i => simp only [System.use, hframe.workers]
  | dispatcher hstep =>
    cases hl
    have hframe := dispatcherStep_frame hstep
    cases t with
    | src => simp only [System.use, hframe.src]
    | dispatcher => exact absurd rfl ht
    | cleanup => simp only [System.use, hframe.cleanup]
    | worker i =>
      rcases dispatcherStep_pc hp hstep i with hpc | ⟨hidle, hget⟩
      · simp only [System.use, hpc]
      · simp only [System.use, hidle, hget]
        rfl
  | worker hstep =>
    cases hl
    obtain ⟨fd, v', -, -, rfl⟩ := workerStep_eq hstep
    rename_i i o
    cases t with
    | src | dispatcher | cleanup => rfl
    | worker j =>
      have hj : j ≠ i := fun hj => ht (hj ▸ rfl)
      simp [System.use, System.setView, hj]
  | cleanup hstep =>
    cases hl
    obtain ⟨hframe, hsrc⟩ := cleanupStep_frame hstep
    cases t with
    | src => simp only [System.use, hsrc]
    | dispatcher => simp only [System.use, hframe.dispatcher]
    | cleanup => exact absurd rfl ht
    | worker i => simp only [System.use, hframe.workers]
  | tick | wakeMsg | wakeArgs => cases hl

/-- Every mutex is held by the thread in its critical section. -/
def Mutexes (args : Args) (s : System) : Prop := ∀ r, Guards (s.owner r) (s.inside args r)

theorem GetPc.locked_eq (g : GetPc) : g.locked = decide (Lock.msg ∈ g.use.holds) := by
  cases g <;> simp [locked, use, LockUse.none]

theorem SrcPc.locked_eq (pc : SrcPc) : pc.locked = decide (Lock.msg ∈ pc.use.holds) := by
  cases pc <;> simp [locked, use, LockUse.none]

theorem CleanupPc.locked_eq (pc : CleanupPc) : pc.locked = decide (Lock.msg ∈ pc.use.holds) := by
  cases pc with
  | get current g => exact g.locked_eq
  | _ => simp [locked, use, LockUse.none]

theorem WorkerPc.locked_eq (pc : WorkerPc) (i : Nat) :
    pc.locked = decide (Lock.msg ∈ (pc.use i).holds) := by
  cases pc with
  | idle => simp [locked, use, LockUse.none]
  | get current g => exact g.locked_eq
  | body e l => cases l <;> simp [locked, LoopPc.locked, use, LoopPc.use, LockUse.none]

/-- The dispatcher does not use the queue. -/
theorem DispatcherPc.msg_not_mem (pc : DispatcherPc) (n : Nat) : .msg ∉ (pc.use n).holds := by
  cases pc with
  | lockProbe fd i =>
    simp only [use]
    split <;> simp [LockUse.none]
  | hand fd k wake a => cases wake <;> cases a <;> simp [use, HandPc.use, HandPc.use.outer, LockUse.none]
  | _ => simp [use, LockUse.none]

theorem locked_eq (t : Tid) : s.locked t = s.inside args .msg t := by
  cases t with
  | src => exact s.src.locked_eq
  | dispatcher => exact (decide_eq_false (s.dispatcher.pc.msg_not_mem args.numWorkers)).symm
  | cleanup => exact s.cleanup.pc.locked_eq
  | worker i => exact (s.workers i).pc.locked_eq i

theorem SrcPc.not_mem_holds (pc : SrcPc) {r : Lock} (hr : r ≠ .msg) : r ∉ pc.use.holds := by
  cases pc <;> simp [use, LockUse.none, hr]

theorem CleanupPc.not_mem_holds (pc : CleanupPc) {r : Lock} (hr : r ≠ .msg) :
    r ∉ pc.use.holds := by
  cases pc with
  | get current g => exact g.not_mem_holds hr
  | _ => simp [use, LockUse.none, hr]

/-- The worker that is to be created has its `args.lock` free. -/
theorem Mutexes.free_initArgs (hp : Pool args.numWorkers s) (h : Mutexes args s) {fd k : Nat}
    {wake : Bool} (hpc : s.dispatcher.pc = .hand fd k wake .initArgs) :
    (s.workers k).lock = none := by
  have hok := hp.worker k
  rw [System.stage, hpc, stage_hand] at hok
  refine (h (.args k)).free.mpr fun t => ?_
  cases wake with
  | true => rcases workerOk_wake.mp hok with ⟨-, hno, -⟩ | ⟨-, hno, -⟩ <;> cases hno
  | false =>
    have hidle := place_fresh (workerOk_init.mp hok).1
    refine decide_eq_false ?_
    cases t with
    | src => exact s.src.not_mem_holds (by simp)
    | dispatcher => simp [System.use, hpc, DispatcherPc.use, HandPc.use, LockUse.none]
    | cleanup => exact s.cleanup.pc.not_mem_holds (by simp)
    | worker i =>
      simp only [System.use]
      cases hi : (s.workers i).pc with
      | idle => simp [WorkerPc.use, LockUse.none]
      | get current g => exact g.not_mem_holds (by simp)
      | body e l =>
        have hne : k ≠ i := by
          rintro rfl
          rw [hidle] at hi
          cases hi
        cases l <;> simp [WorkerPc.use, LoopPc.use, LockUse.none, hne]

/-- What a step of thread `u` does to the mutexes other than `msg_lock`. -/
theorem step_locks {l : Label} {u : Tid} (hp : Pool args.numWorkers s) (h : Mutexes args s)
    (hs : s.step args l = some s') (hl : l.tid = some u) {r : Lock} (hr : r ≠ .msg) :
    Move u (s.owner r) (s'.owner r) (s.inside args r u) (s'.inside args r u) := by
  cases step_move hs with
  | src hstep =>
    cases hl
    have hframe := srcStep_frame hstep
    refine .keep ?_ ?_
    · cases r with
      | msg => exact absurd rfl hr
      | mask => simp only [System.owner, hframe.mask]
      | args i => simp only [System.owner, hframe.workers]
    · exact decide_eq_decide.mpr (iff_of_false (SrcPc.not_mem_holds _ hr) (SrcPc.not_mem_holds _ hr))
  | dispatcher hstep =>
    cases hl
    exact dispatcherStep_locks hp (fun fd k wake hpc => h.free_initArgs hp hpc) hstep r
  | worker hstep =>
    cases hl
    rename_i i o
    obtain ⟨fd, v', -, hv, rfl⟩ := workerStep_eq hstep
    obtain ⟨hmask, hargs⟩ := WorkerView.step_locks hv
    have hinside : ∀ r, (s.setView i fd v').inside args r (.worker i) =
        decide (r ∈ (v'.worker.pc.use i).holds) := by
      intro r
      simp [System.inside, System.use, System.setView]
    rw [hinside]
    cases r with
    | msg => exact absurd rfl hr
    | mask => exact hmask
    | args j =>
      by_cases hj : j = i
      · subst hj
        simp only [System.owner, System.setView, Function.update_self]
        exact hargs
      · refine .keep (by simp [System.owner, System.setView, hj]) ?_
        have hother : ∀ pc : WorkerPc, .args j ∉ (pc.use i).holds := by
          intro pc
          cases pc with
          | idle => simp [WorkerPc.use, LockUse.none]
          | get current g => exact g.not_mem_holds (by simp)
          | body e l => cases l <;> simp [WorkerPc.use, LoopPc.use, LockUse.none, hj]
        exact decide_eq_decide.mpr (iff_of_false (hother _) (hother _))
  | cleanup hstep =>
    cases hl
    obtain ⟨hframe, -⟩ := cleanupStep_frame hstep
    refine .keep ?_ ?_
    · cases r with
      | msg => exact absurd rfl hr
      | mask => simp only [System.owner, hframe.mask]
      | args i => simp only [System.owner, hframe.workers]
    · exact decide_eq_decide.mpr
        (iff_of_false (CleanupPc.not_mem_holds _ hr) (CleanupPc.not_mem_holds _ hr))
  | tick | wakeMsg | wakeArgs => cases hl

/-- Every mutex stays with the thread in its critical section. -/
theorem step_keeps_mutexes {l : Label} (hp : Pool args.numWorkers s)
    (hm : Mutex.Guards s'.queue.lock s'.locked) (h : Mutexes args s)
    (hs : s.step args l = some s') : Mutexes args s' := by
  intro r
  by_cases hr : r = .msg
  · subst hr
    intro t
    rw [← locked_eq]
    exact hm t
  cases hl : l.tid with
  | some u =>
    refine (h r).step (step_locks hp h hs hl hr) fun t ht => ?_
    rw [System.inside, System.inside, step_use hp hs hl ht]
  | none =>
    have hsame : s'.owner r = s.owner r ∧ ∀ t, s'.use args t = s.use args t := by
      cases step_move hs with
      | src | dispatcher | worker | cleanup => cases hl
      | tick => exact ⟨by cases r <;> rfl, fun t => by cases t <;> rfl⟩
      | wakeMsg =>
        refine ⟨?_, fun t => by cases t <;> rfl⟩
        cases r with
        | msg => exact absurd rfl hr
        | mask | args i => rfl
      | wakeArgs =>
        rename_i i
        refine ⟨?_, fun t => ?_⟩
        · cases r with
          | msg | mask => rfl
          | args j => by_cases hj : j = i <;> simp [System.owner, hj]
        · cases t with
          | src | dispatcher | cleanup => rfl
          | worker j => by_cases hj : j = i <;> simp [System.use, hj]
    intro t
    rw [hsame.1, System.inside, hsame.2]
    exact h r t

variable {start : Timespec}

theorem reachable_mutexes (h : (server args start).Reachable s) : Mutexes args s := by
  refine h.invariant (I := Mutexes args) ?_ fun s l s' hr hi hs => ?_
  · rintro s rfl r t
    cases r <;> cases t <;> simp [System.owner, System.init, MsgQueue.empty, Worker.init,
      System.inside, System.use, SrcPc.use, DispatcherPc.use, CleanupPc.use, GetPc.use,
      WorkerPc.use, LockUse.none]
  · exact step_keeps_mutexes (reachable_pool hr) (reachable_monitor (.step hr trivial hs)).excludes
      hi hs

/-- **Mutual exclusion**: a mutex is held by a thread exactly while the thread is in a critical
section of it, and no two threads are in critical sections of one mutex. -/
theorem mutual_exclusion (h : (server args start).Reachable s) (r : Lock) :
    (∀ t, s.owner r = some t ↔ s.inside args r t = true) ∧
      ∀ t u, s.inside args r t = true → s.inside args r u = true → t = u :=
  ⟨reachable_mutexes h r, fun _ _ => (reachable_mutexes h r).exclusive⟩

end

/-- Worker 0 gives up its receiver and holds two mutexes, and the dispatcher has accepted
another receiver and waits for the mask. -/
def probeLabels : List Label :=
  connectLabels ++ .tick ⟨1, 0⟩ :: enqueueLabels sampleMsg ++ workerLabels 0 6 .eintr ++
    workerLabels 0 10 (.error .epipe) ++ List.replicate 2 (.dispatcher true)

theorem exists_probe :
    ∃ s, (server .default ⟨0, 0⟩).Reachable s ∧ s.inside .default .mask (.worker 0) = true ∧
      s.inside .default (.args 0) (.worker 0) = true ∧
      (s.use .default .dispatcher).wants = some .mask ∧ s.fault.isNone = true := by
  obtain ⟨s, hs, hp⟩ := LTS.exists_reachable (System.step .default) (.init ⟨0, 0⟩) probeLabels
    (fun s => s.inside .default .mask (.worker 0) = true ∧
      s.inside .default (.args 0) (.worker 0) = true ∧
      (s.use .default .dispatcher).wants = some .mask ∧ s.fault.isNone = true) (by decide)
  exact ⟨s, hs, of_decide_eq_true hp⟩

/-- Worker 0 holds two mutexes. -/
theorem mutual_exclusion_probe :
    ∃ s : System, s.mask.lock = some (.worker 0) ∧ (s.workers 0).lock = some (.worker 0) ∧
      s.inside .default .mask .dispatcher = false := by
  obtain ⟨s, hs, hmask, hargs, -⟩ := exists_probe
  refine ⟨s, ((mutual_exclusion hs .mask).1 _).mpr hmask, ((mutual_exclusion hs (.args 0)).1 _).mpr
    hargs, Bool.eq_false_iff.mpr fun hin => ?_⟩
  cases (mutual_exclusion hs .mask).2 _ _ hin hmask

end WireStorm
