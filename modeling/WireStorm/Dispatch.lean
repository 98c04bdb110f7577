import WireStorm.Deadlock

/-!
# An accepted receiver is served

`run_dst_server` holds a connection that it has accepted until `find_idle_thread` finds a
clear bit, and hands it to that worker then. Only the dispatcher sets bits, so while one bit
is clear the search ends, at that worker or at an earlier one (`DispatcherPc.toGo`): the
dispatcher gets through the hand-over and back to `accept`, and a worker that runs serves the
connection (`receiver_assigned`).
-/

namespace WireStorm

open Mutex (OthersStep)

/-! ## The way to a worker -/

/-- The connection that the dispatcher looks for a worker for. -/
def DispatcherPc.searching : DispatcherPc → Option Nat
  | .clock fd | .lockProbe fd _ | .readProbe fd _ | .unlockProbe fd _ _ | .backoff fd => some fd
  | _ => none

/-- The number of positions between probe `i` and position `k`, which lies in the next round
for a probe behind it. -/
def probesLeft (n k i : Nat) : Nat := if i ≤ k then k - i else n - i + k + 2

/-- A bound on the steps of a hand-over. -/
def HandPc.toGo : HandPc → Nat
  | .assertReady | .initArgs => 13
  | .lockArgs => 12
  | .setFd => 11
  | .setBusy => 10
  | .lockMask => 9
  | .setBit => 8
  | .unlockMask => 7
  | .setTime => 6
  | .create | .signal => 5
  | .unlockArgs => 4

/-- A bound on the steps to the next `accept`, while bit `k` of `n` is clear. -/
def DispatcherPc.toGo (n k : Nat) : DispatcherPc → Nat
  | .accept => 0
  | .clock _ | .backoff _ => 4 * probesLeft n k 0 + 19
  | .lockProbe _ i => 4 * probesLeft n k i + 18
  | .readProbe _ i => 4 * probesLeft n k i + 17
  | .unlockProbe _ i isIdle => if isIdle then 16 else 4 * probesLeft n k (i + 1) + 19
  | .switch _ _ => 15
  | .hand _ _ _ a => a.toGo

theorem probesLeft_next {n k i : Nat} (hi : i < n) (hne : i ≠ k) :
    probesLeft n k (i + 1) + 1 ≤ probesLeft n k i := by
  unfold probesLeft
  split <;> split <;> omega

/-- **The dispatcher is on its way** with connection `fd`: it finds bit `k` clear, or has
chosen a worker, which gets the connection in its `client_fd`. -/
inductive Handing (s : System) (fd k : Nat) : Prop
  | search (hpc : s.dispatcher.pc.searching = some fd) (hclear : isSet s.mask.data k = false)
  | chosen {j : Nat} (hpc : s.dispatcher.pc = .switch fd j)
  | hand {j : Nat} {wake : Bool} {a : HandPc} (hpc : s.dispatcher.pc = .hand fd j wake a)
      (hfd : a.link .absent ≠ .absent → (s.workers j).clientFd = some fd)

/-- The dispatcher is done with connection `fd`, and a worker that has been created and is not
asleep serves it. -/
def Handed (n : Nat) (s : System) (fd : Nat) : Prop :=
  s.dispatcher.pc = .accept ∧
    ∃ i < n, Serving s i fd ∧ (s.workers i).pc ≠ .idle ∧ (s.workers i).asleep = false

section
variable {args : Args} {start : Timespec} {s s' : System} {l : Label} {fd k : Nat}

/-! ## Steps of the dispatcher -/

/-- A step of `find_idle_thread`, or around it. -/
theorem search_step (hp : Pool args.numWorkers s) (hk : k < args.numWorkers)
    (hpc : s.dispatcher.pc.searching = some fd) (hclear : isSet s.mask.data k = false)
    (hs : s.dispatcherStep args true = some s') :
    s'.fault = s.fault ∧ Handing s' fd k ∧
      s'.dispatcher.pc.toGo args.numWorkers k < s.dispatcher.pc.toGo args.numWorkers k := by
  cases hd : s.dispatcher.pc with
  | accept | switch | hand =>
    rw [hd] at hpc
    cases hpc
  | clock d | backoff d =>
    rw [hd] at hpc
    cases hpc
    simp only [System.dispatcherStep, hd, Option.some.injEq] at hs
    subst hs
    exact ⟨rfl, .search rfl hclear, Nat.lt_succ_self _⟩
  | lockProbe d i =>
    rw [hd] at hpc
    cases hpc
    simp only [System.dispatcherStep, hd] at hs
    split at hs
    · obtain ⟨mask, hmask, rfl⟩ := Option.map_eq_some_iff.mp hs
      have hdata := StatusMask.data_acquire hmask
      exact ⟨rfl, .search rfl (by rw [← hclear, ← hdata]; rfl), Nat.lt_succ_self _⟩
    · rename_i hi
      cases hs
      refine ⟨rfl, .search rfl hclear, ?_⟩
      simp only [System.dispatcher_dispatcherAt, DispatcherPc.toGo, probesLeft]
      rw [if_pos (Nat.zero_le k), if_neg (by omega)]
      omega
  | readProbe d i =>
    have hi : i < args.numWorkers := hp.index i (by rw [hd]; rfl)
    rw [hd] at hpc
    cases hpc
    simp only [System.dispatcherStep, hd, Option.some.injEq] at hs
    subst hs
    refine ⟨rfl, .search rfl hclear, ?_⟩
    simp only [System.dispatcher_dispatcherAt, DispatcherPc.toGo]
    cases hset : isSet s.mask.data i with
    | false =>
      simp only [Bool.not_false, if_true]
      omega
    | true =>
      have hne : i ≠ k := by
        rintro rfl
        rw [hclear] at hset
        cases hset
      have hnext := probesLeft_next hi hne
      simp only [Bool.not_true, Bool.false_eq_true, if_false]
      omega
  | unlockProbe d i isIdle =>
    rw [hd] at hpc
    cases hpc
    simp only [System.dispatcherStep, hd, Option.some.injEq] at hs
    subst hs
    cases isIdle with
    | true => exact ⟨rfl, .chosen rfl, Nat.lt_succ_self _⟩
    | false => exact ⟨rfl, .search rfl hclear, Nat.lt_succ_self _⟩

/-- The `switch` on the status of the chosen worker. -/
theorem switch_step {j : Nat} (hp : Pool args.numWorkers s) (hpc : s.dispatcher.pc = .switch fd j)
    (hs : s.dispatcherStep args true = some s') :
    s'.fault = s.fault ∧ Handing s' fd k ∧
      s'.dispatcher.pc.toGo args.numWorkers k < s.dispatcher.pc.toGo args.numWorkers k := by
  obtain ⟨hbusy, -⟩ := hp.chosen_worker hpc
  simp only [System.dispatcherStep, hpc] at hs
  rw [hpc]
  split at hs
  · cases hs
    exact ⟨rfl, .hand rfl fun hlink => absurd rfl hlink, (by decide : (13 : Nat) < 15)⟩
  · cases hs
    exact ⟨rfl, .hand rfl fun hlink => absurd rfl hlink, (by decide : (13 : Nat) < 15)⟩
  · rename_i hstatus
    exact absurd hstatus hbusy

/-- A worker that has just been created or signalled serves its connection. -/
theorem handed_of_live {j : Nat} (hr : (server args start).Reachable s')
    (hpc : s'.dispatcher.pc = .accept) (hj : j < args.numWorkers)
    (hfd : (s'.workers j).clientFd = some fd)
    (hlink : (s'.workers j).link (s'.stage j) = .live) : Handed args.numWorkers s' fd := by
  have hstage : s'.stage j = none := by
    rw [System.stage, hpc]
    rfl
  refine ⟨hpc, j, hj, (reachable_good hr).owned.serving_of_link hlink hfd, ?_, ?_⟩
  · intro hidle
    rw [hstage] at hlink
    simp only [Worker.link, hidle] at hlink
    cases hlink
  · refine Bool.eq_false_iff.mpr fun hasleep => ?_
    obtain ⟨hplace, hbusy⟩ := reachable_rouses hr j hasleep
    obtain ⟨e, he⟩ := place_asleep hplace
    rw [hstage] at hlink hbusy
    simp only [Worker.link, he] at hlink
    obtain ⟨a, hnone, -⟩ := hbusy (by
      by_contra hne
      rw [if_neg hne] at hlink
      cases hlink)
    cases hnone

/-- A step of a hand-over. -/
theorem hand_step {j : Nat} {wake : Bool} {a : HandPc} (hr : (server args start).Reachable s)
    (hpc : s.dispatcher.pc = .hand fd j wake a)
    (hfd : a.link .absent ≠ .absent → (s.workers j).clientFd = some fd)
    (hs : s.step args (.dispatcher true) = some s') :
    s'.fault = s.fault ∧ (Handed args.numWorkers s' fd ∨ Handing s' fd k ∧
      s'.dispatcher.pc.toGo args.numWorkers k < s.dispatcher.pc.toGo args.numWorkers k) := by
  have hp := reachable_pool hr
  have hj : j < args.numWorkers := hp.index j (by rw [hpc]; rfl)
  have hok := hp.worker j
  rw [System.stage, hpc, stage_hand] at hok
  have hr' : (server args start).Reachable s' := .step hr trivial hs
  cases step_move hs with
  | dispatcher hstep =>
    simp only [System.dispatcherStep, hpc] at hstep
    have hgo : s.dispatcher.pc.toGo args.numWorkers k = a.toGo := by rw [hpc]; rfl
    rw [hgo]
    cases a with
    | assertReady =>
      simp only [System.handStep] at hstep
      split at hstep <;> cases hstep
      · exact ⟨rfl, .inr ⟨.hand rfl fun hlink => absurd rfl hlink, Nat.lt_succ_self _⟩⟩
      · rename_i hready
        exfalso
        cases wake with
        | false => cases (workerOk_init.mp hok).2.1
        | true =>
          rcases workerOk_wake.mp hok with ⟨-, -, hstatus, -⟩ | ⟨-, -, -, hstatus⟩
          · exact hready hstatus
          · exact hready hstatus
    | lockArgs =>
      simp only [System.handStep] at hstep
      split at hstep <;> cases hstep
      exact ⟨rfl, .inr ⟨.hand rfl fun hlink => absurd rfl hlink, Nat.lt_succ_self _⟩⟩
    | initArgs =>
      cases hstep
      exact ⟨rfl, .inr ⟨.hand rfl fun hlink => absurd rfl hlink, (by decide : (11 : Nat) < 13)⟩⟩
    | setFd =>
      cases hstep
      exact ⟨rfl, .inr ⟨.hand rfl fun _ => by simp, Nat.lt_succ_self _⟩⟩
    | lockMask =>
      obtain ⟨mask, -, rfl⟩ := Option.map_eq_some_iff.mp hstep
      exact ⟨rfl, .inr ⟨.hand rfl fun _ => hfd (by simp [HandPc.link]), Nat.lt_succ_self _⟩⟩
    | setBit | unlockMask =>
      cases hstep
      exact ⟨rfl, .inr ⟨.hand rfl fun _ => hfd (by simp [HandPc.link]), Nat.lt_succ_self _⟩⟩
    | setBusy | signal =>
      cases hstep
      refine ⟨rfl, .inr ⟨.hand rfl fun _ => ?_, Nat.lt_succ_self _⟩⟩
      simpa using hfd (by simp [HandPc.link])
    | setTime =>
      cases hstep
      refine ⟨rfl, .inr ⟨.hand rfl fun _ => ?_, ?_⟩⟩
      · simpa using hfd (by simp [HandPc.link])
      · cases wake <;> exact Nat.lt_succ_self _
    | create =>
      cases hstep
      refine ⟨rfl, .inl (handed_of_live hr' rfl hj ?_ ?_)⟩
      · simpa using hfd (by simp [HandPc.link])
      · simp [Worker.link]
    | unlockArgs =>
      cases hstep
      refine ⟨rfl, .inl (handed_of_live hr' rfl hj ?_ ?_)⟩
      · simpa using hfd (by simp [HandPc.link])
      · cases wake with
        | false => cases (workerOk_init.mp hok).2.1
        | true =>
          obtain ⟨hplace, -, hstatus⟩ := workerOk_late hok rfl
          obtain ⟨e, he⟩ := place_asleep hplace
          simp [Worker.link, he, hstatus, HandPc.busy, System.stage, DispatcherPc.stage]

/-- **A step of the dispatcher** on its way brings it closer to the end of the hand-over. -/
theorem Handing.own (h : Handing s fd k) (hr : (server args start).Reachable s)
    (hk : k < args.numWorkers) (hs : s.step args (.dispatcher true) = some s') :
    s'.fault = s.fault ∧ (Handed args.numWorkers s' fd ∨ Handing s' fd k ∧
      s'.dispatcher.pc.toGo args.numWorkers k < s.dispatcher.pc.toGo args.numWorkers k) := by
  have hp := reachable_pool hr
  have hstep : s.dispatcherStep args true = some s' := by
    cases step_move hs with
    | dispatcher hstep => exact hstep
  cases h with
  | search hpc hclear =>
    obtain ⟨hfault, hnext⟩ := search_step hp hk hpc hclear hstep
    exact ⟨hfault, .inr hnext⟩
  | chosen hpc =>
    obtain ⟨hfault, hnext⟩ := switch_step hp hpc hstep
    exact ⟨hfault, .inr hnext⟩
  | hand hpc hfd => exact hand_step hr hpc hfd hs

/-! ## Steps of the other threads -/

/-- No other thread sets a bit of the mask, or moves a connection. -/
theorem step_others {t : Tid} (hp : Pool args.numWorkers s) (hs : s.step args l = some s')
    (hl : l.tid = some t) (ht : t ≠ .dispatcher) :
    s'.dispatcher = s.dispatcher ∧
      (isSet s.mask.data k = false → isSet s'.mask.data k = false) ∧
      ∀ j, (s'.workers j).clientFd = (s.workers j).clientFd := by
  cases step_move hs with
  | src hstep =>
    have hframe := srcStep_frame hstep
    rw [hframe.dispatcher, hframe.mask, hframe.workers]
    exact ⟨rfl, id, fun _ => rfl⟩
  | dispatcher => exact absurd (Option.some.inj hl).symm ht
  | worker hstep =>
    obtain ⟨d, v', -, hv, rfl⟩ := workerStep_eq hstep
    rename_i i o
    refine ⟨rfl, fun hclear => ?_, fun j => ?_⟩
    · rcases (step_pool (v := s.view i d) (hp.worker i) hv).2 with ⟨-, hmask⟩ | ⟨-, -, hmask⟩
      · have hsame : (s.setView i d v').mask.data = s.mask.data := hmask
        rw [hsame, hclear]
      · have hdata : (s.setView i d v').mask.data = setBit s.mask.data i false := hmask
        rw [hdata, isSet_setBit, hclear, ite_self]
    · by_cases hj : j = i
      · subst hj
        simpa [System.setView, System.view] using (WorkerView.step_move hv).frame.1
      · simp [System.setView, hj]
  | cleanup hstep =>
    have hframe := (cleanupStep_frame hstep).1
    rw [hframe.dispatcher, hframe.mask, hframe.workers]
    exact ⟨rfl, id, fun _ => rfl⟩
  | tick | wakeMsg | wakeArgs => cases hl

theorem Handing.others {t : Tid} (h : Handing s fd k) (hp : Pool args.numWorkers s)
    (hs : s.step args l = some s') (hl : l.tid = some t) (ht : t ≠ .dispatcher) :
    Handing s' fd k ∧ s'.dispatcher = s.dispatcher := by
  obtain ⟨hdisp, hmask, hfds⟩ := step_others (k := k) hp hs hl ht
  refine ⟨?_, hdisp⟩
  cases h with
  | search hpc hclear => exact .search (hdisp ▸ hpc) (hmask hclear)
  | chosen hpc => exact .chosen (hdisp ▸ hpc)
  | hand hpc hfd => exact .hand (hdisp ▸ hpc) fun hlink => (hfds _).trans (hfd hlink)

/-! ## There -/

/-- A connection that is not with a worker yet is on its way to one. -/
theorem handing_of_held (hheld : s.dispatcher.pc.held = some fd)
    (hclear : isSet s.mask.data k = false) : Handing s fd k := by
  cases hpc : s.dispatcher.pc with
  | accept =>
    rw [hpc] at hheld
    cases hheld
  | clock d | lockProbe d i | readProbe d i | unlockProbe d i isIdle | backoff d =>
    rw [hpc] at hheld
    exact .search (by rw [hpc]; exact hheld) hclear
  | switch d j =>
    rw [hpc] at hheld
    cases hheld
    exact .chosen hpc
  | hand d j wake a =>
    rw [hpc] at hheld
    simp only [DispatcherPc.held] at hheld
    split at hheld <;> cases hheld
    rename_i hlink
    exact .hand hpc fun hne => absurd hlink hne

/-- **An accepted receiver is served** as long as a bit of the status mask is clear: by steps
of the dispatcher, and of threads that hold a mutex, the dispatcher gets back to `accept`, and
the receiver is served by a worker that has been created and is awake. -/
theorem receiver_assigned (hr : (server args start).Reachable s) (hfault : s.fault = none)
    (hheld : s.dispatcher.pc.held = some fd) (hk : k < args.numWorkers)
    (hclear : isSet s.mask.data k = false) :
    ∃ s', (server args start).Steps
        (fun s l _ => l = .dispatcher true ∨
          ∃ u r, l.tid = some u ∧ u ≠ .dispatcher ∧ s.owner r = some u) s s' ∧
      Handed args.numWorkers s' fd := by
  have hown : ∀ s, Sound args start s → Handing s fd k →
      (∀ r, (s.use args .dispatcher).wants = some r → s.owner r = none) →
      Handed args.numWorkers s fd ∨ ∃ l s', l = .dispatcher true ∧ (server args start).step s l s' ∧
        (Handed args.numWorkers s' fd ∨ Sound args start s' ∧ Handing s' fd k ∧
          s'.dispatcher.pc.toGo args.numWorkers k < s.dispatcher.pc.toGo args.numWorkers k) := by
    rintro s ⟨hr, hfault⟩ h hfree
    obtain ⟨s', hstep⟩ := dispatcher_can_step hfree
    have hs : s.step args (.dispatcher true) = some s' := by
      simp only [System.step, hfault, Option.isSome_none, Bool.false_eq_true, if_false, hstep]
    obtain ⟨hfault', hnext⟩ := h.own hr hk hs
    have hsound' : Sound args start s' := ⟨.step hr trivial hs, hfault'.trans hfault⟩
    exact .inr ⟨_, s', rfl, hs, hnext.imp_right fun hnext => ⟨hsound', hnext⟩⟩
  have hothers : ∀ s l s', Handing s fd k → OthersStep Label.tid System.owner (Sound args start)
      .dispatcher s l s' → (server args start).step s l s' → Handing s' fd k ∧
        s'.dispatcher.pc.toGo args.numWorkers k ≤ s.dispatcher.pc.toGo args.numWorkers k := by
    rintro s l s' h ⟨⟨hr, -⟩, u, r, hl, hne, -⟩ hs
    obtain ⟨h', hdisp⟩ := h.others (reachable_pool hr) hs hl hne
    exact ⟨h', by rw [hdisp]⟩
  obtain ⟨s', hsteps, hend⟩ := server_discipline.exists_done Lock.rank_lt
    (C := fun _ l _ => l = .dispatcher true)
    (fun s => s.dispatcher.pc.toGo args.numWorkers k) hothers hown
    (show Sound args start s from ⟨hr, hfault⟩) (handing_of_held hheld hclear)
  exact ⟨s', hsteps.mono fun _ _ _ hc => hc.imp_right And.right, hend⟩

end

/-- The dispatcher has accepted a second receiver while worker 0 gives up the first one and
holds the lock of the mask. -/
theorem receiver_assigned_probe :
    ∃ s s' : System, s.mask.lock = some (.worker 0) ∧ s.dispatcher.pc.held = some 1 ∧
      (server .default ⟨0, 0⟩).Steps
        (fun s l _ => l = .dispatcher true ∨
          ∃ u r, l.tid = some u ∧ u ≠ .dispatcher ∧ s.owner r = some u) s s' ∧
      Handed 32 s' 1 := by
  obtain ⟨s, hs, hp⟩ := LTS.exists_reachable (System.step .default) (.init ⟨0, 0⟩) probeLabels
    (fun s => s.mask.lock = some (.worker 0) ∧ s.dispatcher.pc.held = some 1 ∧
      isSet s.mask.data 1 = false ∧ s.fault = none) (by decide)
  obtain ⟨hlock, hheld, hclear, hfault⟩ := of_decide_eq_true hp
  obtain ⟨s', hsteps, hend⟩ := receiver_assigned hs hfault hheld (by decide) hclear
  exact ⟨s, s', hlock, hheld, hsteps, hend⟩

end WireStorm
