import WireStorm.Cursor

/-!
# The walk of the cleanup worker

The pointers of `run_cleanup_worker` over every run (`Walk`): `current` is behind
`prev` when it is read from the queue, and the walk goes back to the head otherwise. A
pass is the walk from the head to the point where `current` becomes `NULL`;
`Cleanup.passed` counts the entries that the pass has behind it.
-/

namespace WireStorm

/-! ## The clock -/

section
variable {args : Args} {s s' : System} {l : Label}

/-- The clock does not go back. -/
theorem step_now (hs : s.step args l = some s') : s.now ≤ s'.now := by
  cases step_move hs with
  | src hstep => exact (srcStep_others hstep).2.ge
  | dispatcher hstep => exact (dispatcherStep_frame hstep).now.ge
  | worker hstep =>
    obtain ⟨fd, v', -, -, rfl⟩ := workerStep_eq hstep
    exact le_refl _
  | cleanup hstep => cases cleanupStep_move hstep <;> exact le_refl _
  | tick => assumption
  | wakeMsg | wakeArgs => exact le_refl _

end

/-! ## The pointers -/

/-- A call of `get_msg_entry` that goes back to the start: `current` is the entry
behind `prev`, and without `current` the call returns the head. -/
structure Restarting (len : Nat) (current prev : Option Nat) (g : GetPc) : Prop where
  current_eq : ∀ e, current = some e → e < len ∧ e = seekPos none prev
  prev_lt : ∀ p, prev = some p → p < len
  current_none : g ≠ .test → current = none
  first : g = .first ∨ g = .waitFirst → prev = none
  next : ∀ p, g = .next p ∨ g = .waitNext p → prev = some p
  unlock : ∀ e, g = .unlock e → e = 0 ∧ 0 < len

theorem Restarting.mono {len len' : Nat} {current prev : Option Nat} {g : GetPc}
    (h : Restarting len current prev g) (hlen : len ≤ len') : Restarting len' current prev g where
  current_eq e he := ⟨Nat.lt_of_lt_of_le (h.current_eq e he).1 hlen, (h.current_eq e he).2⟩
  prev_lt p hp := Nat.lt_of_lt_of_le (h.prev_lt p hp) hlen
  current_none := h.current_none
  first := h.first
  next := h.next
  unlock e he := ⟨(h.unlock e he).1, Nat.lt_of_lt_of_le (h.unlock e he).2 hlen⟩

/-- **The walk of the cleanup worker**: `get_msg_entry` returns `current` or the head. -/
theorem getMsgEntry_restart {t : Tid} {current prev : Option Nat} {g : GetPc} {q q' : MsgQueue}
    {r : GetMsg} (hg : Restarting q.entries.length current prev g)
    (h : getMsgEntry t current prev true g q = some (q', r)) :
    match r with
      | .more g' => Restarting q.entries.length current prev g'
      | .ret e => e < q.entries.length ∧ e = current.getD 0 := by
  have hnone : g ≠ .test → current = none := hg.current_none
  have hlt : ∀ e, current = some e → e < q.entries.length := fun e he => (hg.current_eq e he).1
  cases getMsgEntry_move h with
  | enter hseek =>
    have hcurrent : current = none := hseek.elim id (none_of_empty hlt)
    exact ⟨hg.current_eq, hg.prev_lt, fun _ => hcurrent, by simp, by simp, by simp⟩
  | keep hcurrent =>
    subst hcurrent
    exact ⟨hlt _ rfl, rfl⟩
  | lockFirst _ hfirst =>
    have hprev : prev = none := hfirst.elim id (none_of_empty hg.prev_lt)
    exact ⟨hg.current_eq, hg.prev_lt, fun _ => hnone (by simp), fun _ => hprev, by simp, by simp⟩
  | lockNext _ hprev =>
    exact ⟨hg.current_eq, hg.prev_lt, fun _ => hnone (by simp), by simp,
      fun p' hp' => by simpa [hprev] using hp', by simp⟩
  | sleepFirst =>
    exact ⟨hg.current_eq, hg.prev_lt, fun _ => hnone (by simp), fun _ => hg.first (.inl rfl),
      by simp, by simp⟩
  | first hpos =>
    refine ⟨hg.current_eq, hg.prev_lt, fun _ => hnone (by simp), by simp, by simp, ?_⟩
    rintro e ⟨⟩
    exact ⟨rfl, hpos⟩
  | wakeFirst =>
    exact ⟨hg.current_eq, hg.prev_lt, fun _ => hnone (by simp), fun _ => hg.first (.inr rfl),
      by simp, by simp⟩
  | sleepNext =>
    exact ⟨hg.current_eq, hg.prev_lt, fun _ => hnone (by simp), by simp,
      fun p' hp' => by simpa [hg.next _ (.inl rfl)] using hp', by simp⟩
  | next hlt =>
    refine ⟨hg.current_eq, hg.prev_lt, fun _ => hnone (by simp), by simp, by simp, ?_⟩
    rintro e ⟨⟩
    exact ⟨rfl, Nat.zero_lt_of_lt hlt⟩
  | wakeNext =>
    exact ⟨hg.current_eq, hg.prev_lt, fun _ => hnone (by simp), by simp,
      fun p' hp' => by simpa [hg.next _ (.inr rfl)] using hp', by simp⟩
  | unlock =>
    obtain ⟨rfl, hpos⟩ := hg.unlock _ rfl
    rw [hnone (by simp)]
    exact ⟨hpos, rfl⟩

/-- The pointers of the cleanup worker in a queue of `len` entries. -/
def Walk (len : Nat) (c : Cleanup) : Prop :=
  match c.pc with
  | .get current g => Restarting len current c.prev g
  | .unlockNext e | .advance e => e < len ∧ ∀ x, c.next = some x → x < len ∧ x = e + 1
  | .check e | .lockFree e | .free e | .unlockFree e | .lockNext e | .readNext e => e < len

theorem Walk.mono {len len' : Nat} {c : Cleanup} (h : Walk len c) (hlen : len ≤ len') :
    Walk len' c := by
  unfold Walk at h ⊢
  split at h
  · exact h.mono hlen
  iterate 2
    · exact pointers_mono h hlen
  all_goals exact Nat.lt_of_lt_of_le h hlen

section
variable {args : Args} {start : Timespec} {s s' : System} {l : Label}

/-- **The pointers** stay in order in every step of the cleanup worker. -/
theorem CleanupMove.walk (hmove : CleanupMove args s s')
    (h : Walk s.queue.entries.length s.cleanup) : Walk s.queue.entries.length s'.cleanup := by
  unfold Walk at h
  cases hmove with
  | seek hpc hget =>
    rw [hpc] at h
    exact getMsgEntry_restart h hget
  | found hpc hget =>
    rw [hpc] at h
    exact (getMsgEntry_restart h hget).1
  | readNext hpc =>
    rw [hpc] at h
    exact ⟨h, fun x hx => MsgQueue.next_eq_some hx⟩
  | advance hpc =>
    rw [hpc] at h
    refine ⟨h.2, ?_, fun hne => absurd rfl hne, by simp, by simp, by simp⟩
    rintro p ⟨⟩
    exact h.1
  | expired hpc | skip hpc | lockFree hpc | free hpc | unlockFree hpc | lockNext hpc
  | unlockNext hpc =>
    rw [hpc] at h
    exact h

theorem step_keeps_walk (hg : Good args.numWorkers s) (h : Walk s.queue.entries.length s.cleanup)
    (hs : s.step args l = some s') : Walk s'.queue.entries.length s'.cleanup := by
  have hlen := (step_entries hg.pool hg.cursors hs).keeps.length_le
  rcases step_cleanup hs with ⟨-, heq⟩ | ⟨-, hstep⟩
  · rw [heq]
    exact h.mono hlen
  · exact ((cleanupStep_move hstep).walk h).mono hlen

theorem reachable_walk (h : (server args start).Reachable s) :
    Walk s.queue.entries.length s.cleanup := by
  refine LTS.ReachVia.invariant_ofFn (I := fun s => Walk s.queue.entries.length s.cleanup) ?_
    (fun _ _ _ hr hi _ hs => step_keeps_walk (reachable_good hr.reachable) hi hs) h
  exact ⟨by simp, by rintro p ⟨⟩, fun _ => rfl, by simp, by simp, by simp⟩

end

/-- The number of entries that the pass of the cleanup worker has behind it. -/
def Cleanup.passed (c : Cleanup) : Nat :=
  match c.pc with
  | .get current _ => seekPos current c.prev
  | .check e | .lockFree e | .free e => e
  | .unlockFree e | .lockNext e | .readNext e | .unlockNext e | .advance e => e + 1

end WireStorm
