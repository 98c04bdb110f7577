import WireStorm.Pool

/-!
# Finding an idle worker

`find_idle_thread` of `lib/thread.c` as one call (`findIdleThread`), which is what
the probes of the dispatcher come to when no other thread takes a step between
them (`findIdle_steps`). When every status word agrees with its bit, the call
returns the first worker that is not busy, unless a busy worker with the same
index mod 32 hides it (`findsIdle_iff`): that takes more than 32 workers
(`findsIdle_of_le`), and happens as soon as the first 32 are busy
(`exists_hidden`).
-/

namespace WireStorm

/-! ## The search -/

/-- The loop of `find_idle_thread` from position `i` on. -/
def findIdleFrom (n : Nat) (mask : BitVec 64) (i : Nat) : Option Nat :=
  (List.range' i (n - i)).find? fun j => !isSet mask j

/-- `find_idle_thread` over `n` workers; `none` for -1. -/
def findIdleThread (n : Nat) (mask : BitVec 64) : Option Nat := findIdleFrom n mask 0

theorem findIdleFrom_step {n : Nat} (mask : BitVec 64) {i : Nat} (hi : i < n) :
    findIdleFrom n mask i = if isSet mask i then findIdleFrom n mask (i + 1) else some i := by
  have hlen : n - i = n - (i + 1) + 1 := by omega
  unfold findIdleFrom
  rw [hlen, List.range'_succ, List.find?_cons]
  cases isSet mask i <;> rfl

theorem findIdleFrom_end {n : Nat} (mask : BitVec 64) {i : Nat} (hi : n ≤ i) :
    findIdleFrom n mask i = none := by
  unfold findIdleFrom
  rw [Nat.sub_eq_zero_of_le hi]
  rfl

theorem findIdleThread_eq_some {n : Nat} {mask : BitVec 64} {i : Nat} :
    findIdleThread n mask = some i ↔
      i < n ∧ isSet mask i = false ∧ ∀ j < i, isSet mask j = true := by
  unfold findIdleThread findIdleFrom
  rw [List.find?_range'_eq_some]
  simp only [Bool.not_eq_true', List.mem_range'_1, Bool.not_eq_false']
  constructor
  · rintro ⟨hclear, ⟨-, hi⟩, hset⟩
    exact ⟨by omega, hclear, fun j hj => hset j (Nat.zero_le j) hj⟩
  · rintro ⟨hi, hclear, hset⟩
    exact ⟨hclear, ⟨Nat.zero_le i, by omega⟩, fun j _ hj => hset j hj⟩

theorem findIdleThread_eq_none {n : Nat} {mask : BitVec 64} :
    findIdleThread n mask = none ↔ ∀ i < n, isSet mask i = true := by
  unfold findIdleThread findIdleFrom
  rw [List.find?_range'_eq_none]
  simp only [Bool.not_eq_true', Bool.not_eq_false']
  constructor
  · intro h i hi
    exact h i (Nat.zero_le i) (by omega)
  · intro h i _ hi
    exact h i (by omega)

/-! ## The first worker that is not busy -/

/-- Worker `i` is the first of the `n` workers that is not busy. -/
def FirstIdle (n : Nat) (s : System) (i : Nat) : Prop :=
  i < n ∧ (s.workers i).status ≠ .busy ∧ ∀ j < i, (s.workers j).status = .busy

/-- `find_idle_thread` returns the first worker that is not busy, and -1 only if all are. -/
def FindsIdle (n : Nat) (s : System) : Prop :=
  match findIdleThread n s.mask.data with
  | some i => FirstIdle n s i
  | none => ∀ i < n, (s.workers i).status = .busy

/-- No worker is between the write of its status and the write of its bit. -/
def Settled (s : System) : Prop :=
  ∀ i, (s.workers i).pc.place ≠ .releasing ∧ ¬(s.stage i).Claiming

/-- A busy worker whose index has the same remainder mod 32 hides worker `i`. -/
def Hidden (n : Nat) (s : System) (i : Nat) : Prop :=
  ∃ j < n, j % 32 = i % 32 ∧ (s.workers j).status = .busy

section
variable {n i k : Nat} {s : System}

theorem FirstIdle.unique (hi : FirstIdle n s i) (hk : FirstIdle n s k) : i = k := by
  rcases Nat.lt_trichotomy i k with hlt | heq | hlt
  · exact absurd (hk.2.2 i hlt) hi.2.1
  · exact heq
  · exact absurd (hi.2.2 k hlt) hk.2.1

theorem exists_firstIdle (hk : k < n) (hidle : (s.workers k).status ≠ .busy) :
    ∃ i ≤ k, FirstIdle n s i := by
  induction k using Nat.strongRecOn with
  | _ k ih =>
    by_cases hall : ∀ j < k, (s.workers j).status = .busy
    · exact ⟨k, Nat.le_refl k, hk, hidle, hall⟩
    · obtain ⟨j, hj, hjidle⟩ : ∃ j < k, (s.workers j).status ≠ .busy := by simpa using hall
      obtain ⟨i, hi, hfirst⟩ := ih j hj (Nat.lt_trans hj hk) hjidle
      exact ⟨i, Nat.le_trans hi (Nat.le_of_lt hj), hfirst⟩

/-- In a settled state the bits that read as set are those of the busy workers. -/
theorem Pool.isSet_iff_hidden (h : Pool n s) (hs : Settled s) :
    isSet s.mask.data i = true ↔ Hidden n s i := by
  rw [h.mirrors.isSet_iff]
  refine exists_congr fun j => and_congr_right fun _ => and_congr_right fun _ => ?_
  obtain ⟨hplace, hclaim⟩ := hs j
  constructor
  · rintro (⟨hbusy, -⟩ | hrel)
    · exact hbusy
    · exact absurd hrel hplace
  · exact fun hbusy => .inl ⟨hbusy, hclaim⟩

/-- **The search of a settled pool** finds the first idle worker exactly when no
busy worker hides it. -/
theorem Pool.finds_iff (h : Pool n s) (hs : Settled s) :
    FindsIdle n s ↔ ∀ i, FirstIdle n s i → ¬Hidden n s i := by
  have hclear : ∀ {i}, isSet s.mask.data i = false ↔ ¬Hidden n s i := by
    intro i
    rw [← h.isSet_iff_hidden hs, Bool.not_eq_true]
  unfold FindsIdle
  cases hfind : findIdleThread n s.mask.data with
  | none =>
    have hset := findIdleThread_eq_none.mp hfind
    constructor
    · intro hall i hi
      exact absurd (hall i hi.1) hi.2.1
    · intro hno i hi
      by_contra hidle
      obtain ⟨k, hk, hfirst⟩ := exists_firstIdle hi hidle
      exact hno k hfirst ((h.isSet_iff_hidden hs).mp (hset k hfirst.1))
  | some k =>
    obtain ⟨hk, hkclear, hset⟩ := findIdleThread_eq_some.mp hfind
    have hkidle : (s.workers k).status ≠ .busy := fun hbusy =>
      hclear.mp hkclear ⟨k, hk, rfl, hbusy⟩
    constructor
    · intro hfirst i hi
      rw [hi.unique hfirst]
      exact hclear.mp hkclear
    · intro hno
      obtain ⟨i, hi, hfirst⟩ := exists_firstIdle hk hkidle
      rcases Nat.lt_or_eq_of_le hi with hlt | rfl
      · exact absurd ((h.isSet_iff_hidden hs).mp (hset i hlt)) (hno i hfirst)
      · exact hfirst

end

section
variable {args : Args} {start : Timespec} {s : System}

/-- `find_idle_thread` in a settled state of a run returns the first worker that is
not busy, or -1 if there is none, exactly when no busy worker hides that one. -/
theorem findsIdle_iff (h : (server args start).Reachable s) (hs : Settled s) :
    FindsIdle args.numWorkers s ↔
      ∀ i, FirstIdle args.numWorkers s i → ¬Hidden args.numWorkers s i :=
  (reachable_pool h).finds_iff hs

/-- With at most 32 workers none hides another. -/
theorem findsIdle_of_le (hn : args.numWorkers ≤ 32) (h : (server args start).Reachable s)
    (hs : Settled s) : FindsIdle args.numWorkers s := by
  refine ((reachable_pool h).finds_iff hs).mpr ?_
  rintro i ⟨hi, hidle, -⟩ ⟨j, hj, hmod, hbusy⟩
  rw [Nat.mod_eq_of_lt (by omega), Nat.mod_eq_of_lt (by omega)] at hmod
  exact hidle (hmod ▸ hbusy)

end

/-! ## The dispatcher alone -/

/-- A step of the dispatcher. -/
def Label.isDispatcher : Label → Bool
  | .dispatcher _ => true
  | _ => false

/-- What the dispatcher can do by itself. -/
abbrev DispatcherRun (args : Args) (start : Timespec) : System → System → Prop :=
  (server args start).Steps fun _ l _ => l.isDispatcher = true

@[simp] theorem dispatcherAt_dispatcherAt (s : System) (pc pc' : DispatcherPc) :
    (s.dispatcherAt pc).dispatcherAt pc' = s.dispatcherAt pc' := rfl

section
variable (args : Args) (start : Timespec) {s : System} {fd i k : Nat}

/-- The run of the dispatcher that a list of its steps makes. -/
theorem dispatcherRun_exec {s' : System} (m : Nat)
    (h : LTS.execIf (System.step args) (fun _ l _ => l.isDispatcher = true) s
      (List.replicate m (.dispatcher true)) = some s') : DispatcherRun args start s s' :=
  LTS.steps_of_execIf (.refl s) h

/-- One probe. -/
theorem probe_run (hfault : s.fault = none) (hlock : s.mask.lock = none)
    (hpc : s.dispatcher.pc = .lockProbe fd i) (hi : i < args.numWorkers) :
    DispatcherRun args start s (s.dispatcherAt
      (if isSet s.mask.data i then .lockProbe fd (i + 1) else .switch fd i)) := by
  refine dispatcherRun_exec args start 3 ?_
  obtain ⟨queue, now, ⟨data, lock⟩, workers, clients, accepted, src, ⟨pc, ts⟩, cleanup, fault⟩ := s
  obtain rfl : fault = none := hfault
  obtain rfl : lock = none := hlock
  obtain rfl : pc = .lockProbe fd i := hpc
  cases hset : isSet data i <;>
    simp [LTS.execIf, System.step, System.dispatcherStep, StatusMask.acquire, StatusMask.release,
      System.dispatcherAt, Label.isDispatcher, List.replicate, hi, hset]

/-- **The probes of the dispatcher**, when no other thread takes a step between
them, go where `find_idle_thread` says. -/
theorem findIdle_steps (hfault : s.fault = none) (hlock : s.mask.lock = none)
    (hpc : s.dispatcher.pc = .lockProbe fd i) :
    DispatcherRun args start s (s.dispatcherAt
      (match findIdleFrom args.numWorkers s.mask.data i with
        | some k => .switch fd k
        | none => .backoff fd)) := by
  induction hm : args.numWorkers - i generalizing s i with
  | zero =>
    have hi : ¬i < args.numWorkers := by omega
    rw [findIdleFrom_end _ (Nat.le_of_not_lt hi)]
    refine dispatcherRun_exec args start 1 ?_
    simp [LTS.execIf, System.step, System.dispatcherStep, Label.isDispatcher, List.replicate, hfault,
      hpc, hi]
  | succ m ih =>
    have hi : i < args.numWorkers := by omega
    have hprobe := probe_run args start hfault hlock hpc hi
    rw [findIdleFrom_step _ hi]
    cases hset : isSet s.mask.data i with
    | false =>
      rw [hset] at hprobe
      exact hprobe
    | true =>
      rw [hset] at hprobe
      refine hprobe.trans ?_
      have hnext := ih (s := s.dispatcherAt (.lockProbe fd (i + 1))) hfault hlock rfl (by omega)
      exact hnext

/-! ## More receivers than flags -/

/-- The dispatcher has given the first `k` connections to the first `k` workers,
and no other thread has taken a step. -/
structure Filled (k : Nat) (s : System) : Prop where
  fault : s.fault = none
  lock : s.mask.lock = none
  pc : s.dispatcher.pc = .accept
  busy : ∀ i < k, (s.workers i).status = .busy ∧ isSet s.mask.data i = true
  clear : ∀ i, k ≤ i → i < 32 → isSet s.mask.data i = false
  available : ∀ i, k ≤ i → (s.workers i).status = .available
  serving : ∀ i, (s.workers i).pc.place ≠ .releasing

theorem filled_init (start : Timespec) : Filled 0 (.init start) where
  fault := rfl
  lock := rfl
  pc := rfl
  busy _ h := absurd h (Nat.not_lt_zero _)
  clear i _ _ := isSet_zero i
  available _ _ := rfl
  serving _ := by simp [System.init, Worker.init, WorkerPc.place]

/-- `accept` and `get_clock_time`. -/
theorem accept_run (hfault : s.fault = none) (hpc : s.dispatcher.pc = .accept) :
    ∃ s' fd, DispatcherRun args start s s' ∧ s'.fault = none ∧ s'.mask = s.mask ∧
      s'.workers = s.workers ∧ s'.dispatcher.pc = .lockProbe fd 0 := by
  obtain ⟨queue, now, mask, workers, clients, accepted, src, ⟨pc, ts⟩, cleanup, fault⟩ := s
  obtain rfl : fault = none := hfault
  obtain rfl : pc = .accept := hpc
  exact ⟨_, accepted, dispatcherRun_exec args start 2 rfl, rfl, rfl, rfl, rfl⟩

/-- The dispatcher finds worker `k` available. -/
theorem switch_run (hfault : s.fault = none) (hpc : s.dispatcher.pc = .switch fd k)
    (hstatus : (s.workers k).status = .available) :
    DispatcherRun args start s (s.dispatcherAt (.hand fd k false .initArgs)) := by
  refine dispatcherRun_exec args start 1 ?_
  simp [LTS.execIf, System.step, System.dispatcherStep, Label.isDispatcher, List.replicate, hfault, hpc,
    hstatus]

/-- `init_thread_info` and `pthread_create` for worker `k`. -/
theorem init_run (hfault : s.fault = none) (hlock : s.mask.lock = none)
    (hpc : s.dispatcher.pc = .hand fd k false .initArgs) :
    ∃ s', DispatcherRun args start s s' ∧ s'.fault = none ∧
      s'.mask = ⟨setBit s.mask.data k true, none⟩ ∧ s'.dispatcher.pc = .accept ∧
      (s'.workers k).status = .busy ∧ (s'.workers k).pc = .get none .test ∧
      ∀ i, i ≠ k → s'.workers i = s.workers i := by
  obtain ⟨queue, now, ⟨data, lock⟩, workers, clients, accepted, src, ⟨pc, ts⟩, cleanup, fault⟩ := s
  obtain rfl : fault = none := hfault
  obtain rfl : lock = none := hlock
  obtain rfl : pc = .hand fd k false .initArgs := hpc
  refine ⟨_, dispatcherRun_exec args start 8 rfl, rfl, rfl, rfl, ?_, ?_, fun i hi => ?_⟩
  · simp [System.dispatcherAt, System.setWorker, System.setClient]
  · simp [System.dispatcherAt, System.setWorker, System.setClient]
  · simp [System.dispatcherAt, System.setWorker, System.setClient, hi]

/-- One more receiver connects. -/
theorem Filled.next (h : Filled k s) (hk : k < 32) (hn : k < args.numWorkers) :
    ∃ s', DispatcherRun args start s s' ∧ Filled (k + 1) s' := by
  obtain ⟨s₁, fd, hrun₁, hfault₁, hmask₁, hworkers₁, hpc₁⟩ :=
    accept_run args start h.fault h.pc
  have hfind : findIdleFrom args.numWorkers s₁.mask.data 0 = some k := by
    rw [hmask₁]
    exact findIdleThread_eq_some.mpr ⟨hn, h.clear k (Nat.le_refl k) hk, fun j hj => (h.busy j hj).2⟩
  have hrun₂ := findIdle_steps args start hfault₁ (by rw [hmask₁, h.lock]) hpc₁
  rw [hfind] at hrun₂
  have hrun₃ := switch_run args start (s := s₁.dispatcherAt (.switch fd k)) hfault₁ rfl
    (by rw [System.workers_dispatcherAt, hworkers₁]; exact h.available k (Nat.le_refl k))
  rw [dispatcherAt_dispatcherAt] at hrun₃
  obtain ⟨s₄, hrun₄, hfault₄, hmask₄, hpc₄, hbusy₄, hget₄, hothers₄⟩ :=
    init_run args start (s := s₁.dispatcherAt (.hand fd k false .initArgs)) hfault₁
      (by rw [← h.lock, ← hmask₁]; rfl) rfl
  have hdata : s₄.mask = ⟨setBit s.mask.data k true, none⟩ := by rw [hmask₄, ← hmask₁]; rfl
  have hothers : ∀ i, i ≠ k → s₄.workers i = s.workers i := by
    intro i hi
    rw [hothers₄ i hi, System.workers_dispatcherAt, hworkers₁]
  refine ⟨s₄, ((hrun₁.trans hrun₂).trans hrun₃).trans hrun₄, ?_⟩
  constructor
  · exact hfault₄
  · rw [hdata]
  · exact hpc₄
  · intro i hi
    rw [hdata, isSet_setBit]
    rcases Nat.lt_succ_iff_lt_or_eq.mp hi with hi | rfl
    · rw [hothers i (Nat.ne_of_lt hi)]
      obtain ⟨hbusy, hset⟩ := h.busy i hi
      refine ⟨hbusy, ?_⟩
      split
      · rfl
      · exact hset
    · exact ⟨hbusy₄, if_pos rfl⟩
  · intro i hi hi32
    rw [hdata, isSet_setBit, if_neg (by omega)]
    exact h.clear i (by omega) hi32
  · intro i hi
    rw [hothers i (by omega)]
    exact h.available i (by omega)
  · intro i
    by_cases hi : i = k
    · subst hi
      simp [hget₄, WorkerPc.place]
    · rw [hothers i hi]
      exact h.serving i

/-- The first 32 workers can be given a connection. -/
theorem exists_filled (hk : k ≤ 32) (hn : k ≤ args.numWorkers) :
    ∃ s, (server args start).Reachable s ∧ Filled k s := by
  induction k with
  | zero => exact ⟨.init start, .init rfl, filled_init start⟩
  | succ k ih =>
    obtain ⟨s, hs, hfilled⟩ := ih (by omega) (by omega)
    obtain ⟨s', hrun, hfilled'⟩ := hfilled.next args start (by omega) (by omega)
    exact ⟨s', hrun.reachable hs, hfilled'⟩

theorem Filled.settled (h : Filled k s) : Settled s := by
  intro i
  refine ⟨h.serving i, ?_⟩
  rw [System.stage, h.pc]
  rintro ⟨_, _, hst, -⟩
  cases hst

/-- **With more than 32 workers** the pool has idle workers that are not found. -/
theorem exists_hidden (hn : 32 < args.numWorkers) :
    ∃ s, (server args start).Reachable s ∧ Settled s ∧
      findIdleThread args.numWorkers s.mask.data = none ∧
        ∀ i, 32 ≤ i → (s.workers i).status = .available := by
  obtain ⟨s, hs, hfilled⟩ := exists_filled args start (Nat.le_refl 32) (Nat.le_of_lt hn)
  refine ⟨s, hs, hfilled.settled, ?_, hfilled.available⟩
  rw [findIdleThread_eq_none]
  intro i _
  have hset := (hfilled.busy (i % 32) (Nat.mod_lt i (by decide))).2
  rw [isSet_iff] at hset ⊢
  obtain ⟨j, hcovers, hbit⟩ := hset
  exact ⟨j, (covers_congr (Nat.mod_mod i 32) j).mp hcovers, hbit⟩

end

/-- The largest pool. -/
def Args.largest : Args :=
  { Args.default with numWorkers := maxNumWorkers, valid_numWorkers := rfl }

/-- The pool with one busy worker: the search finds worker 1. -/
theorem findsIdle_iff_first :
    ∃ s, (s.workers 0).status = .busy ∧ FindsIdle Args.largest.numWorkers s := by
  obtain ⟨s, hs, hfilled⟩ := exists_filled .largest ⟨0, 0⟩ (k := 1) (by decide) (by decide)
  refine ⟨s, (hfilled.busy 0 (by decide)).1, (findsIdle_iff hs hfilled.settled).mpr ?_⟩
  rintro i ⟨-, hidle, hfirst⟩ ⟨j, -, hmod, hbusy⟩
  have hj : j = 0 := by
    by_contra hj
    rw [hfilled.available j (by omega)] at hbusy
    cases hbusy
  have hi : i ≤ 1 := by
    by_contra hi
    have hbusy₁ := hfirst 1 (by omega)
    rw [hfilled.available 1 (Nat.le_refl 1)] at hbusy₁
    cases hbusy₁
  have h0 : i ≠ 0 := fun h0 => hidle (h0 ▸ (hfilled.busy 0 (by decide)).1)
  omega

/-- Worker 32 of 64 is never found while the first 32 are busy. -/
theorem not_findsIdle :
    ¬∀ args start s, (server args start).Reachable s → Settled s → FindsIdle args.numWorkers s := by
  intro h
  obtain ⟨s, hs, hsettled, hnone, havailable⟩ :=
    exists_hidden .largest ⟨0, 0⟩ (by decide)
  have hfinds := h .largest ⟨0, 0⟩ s hs hsettled
  rw [FindsIdle, hnone] at hfinds
  have hbusy := hfinds 32 (by decide)
  rw [havailable 32 (Nat.le_refl 32)] at hbusy
  cases hbusy

end WireStorm
