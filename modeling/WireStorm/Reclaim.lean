import WireStorm.Cleanup
import WireStorm.Wakeup

/-!
# Reclaiming memory

Whether the clock and the cleanup worker alone can free the data of all entries.
The cleanup worker goes back to the head of the queue only when an entry was
appended behind the last one of its pass, so without new entries it frees what is
from `System.resumeAt` on and nothing before. All data can be reclaimed if and only
if what is before has been freed (`reclaims_iff`).
-/

namespace WireStorm

/-- A step of the cleanup worker or the clock. -/
def Label.isCleanup : Label → Bool
  | .cleanup | .tick _ => true
  | _ => false

def AllFreed (s : System) : Prop := ∀ entry ∈ s.queue.entries, entry.Freed

/-- The clock and the cleanup worker alone can free the data of all entries. -/
def Reclaims (args : Args) (start : Timespec) (s : System) : Prop :=
  ∃ s', (server args start).Steps (fun _ l _ => l.isCleanup = true) s s' ∧ AllFreed s'

/-- Where a walk that found no entry behind `p` goes on. -/
def restartAt (len p : Nat) : Nat := if p + 1 < len then 0 else len

/-- The first entry that the cleanup worker will look at again if no entry is appended. -/
def System.resumeAt (s : System) : Nat :=
  match s.cleanup.pc with
  | .get (some c) _ => c
  | .get none (.unlock e) => e
  | .get none _ =>
    match s.cleanup.prev with
    | none => 0
    | some p => restartAt s.queue.entries.length p
  | .check e | .lockFree e | .free e => e
  | .unlockFree e | .lockNext e | .readNext e => e + 1
  | .unlockNext e | .advance e => s.cleanup.next.getD (restartAt s.queue.entries.length e)

/-- The steps that the cleanup worker has left before it goes on to the next entry, at most. -/
def GetPc.rank : GetPc → Nat
  | .test => 10
  | .lock => 9
  | .waitFirst | .waitNext _ => 8
  | .first | .next _ => 7
  | .unlock _ => 6

def CleanupPc.rank : CleanupPc → Nat
  | .get _ g => g.rank
  | .check _ => 5
  | .lockFree _ => 4
  | .free _ => 3
  | .unlockFree _ => 15
  | .lockNext _ => 14
  | .readNext _ => 13
  | .unlockNext _ => 12
  | .advance _ => 11

section
variable {args : Args} {start : Timespec} {s s' : System} {l : Label}

/-- A step of the cleanup worker that stays at its entry. -/
structure Stays (s s' : System) : Prop where
  resumeAt : s'.resumeAt = s.resumeAt
  rank : s.resumeAt < s.queue.entries.length → s'.cleanup.pc.rank < s.cleanup.pc.rank

/-- A step of the cleanup worker that goes on to the next entry. -/
structure Passes (args : Args) (s s' : System) : Prop where
  resumeAt : s'.resumeAt = s.resumeAt + 1
  freed : ∀ entry, s'.queue.entries[s.resumeAt]? = some entry → entry.Freed ∨ ¬entry.Expired args s.now

/-- Inside `get_msg_entry` the walk stays where it is. -/
theorem getMsgEntry_stays {current : Option Nat} {g g' : GetPc} {q : MsgQueue}
    (hpc : s.cleanup.pc = .get current g)
    (hwalk : Restarting s.queue.entries.length current s.cleanup.prev g)
    (hget : getMsgEntry .cleanup current s.cleanup.prev true g s.queue = some (q, .more g')) :
    Stays s ({ s with queue := q }.cleanupAt (.get current g')) := by
  have hlen : q.entries.length = s.queue.entries.length :=
    congrArg List.length (entries_getMsgEntry hget)
  -- a call with `current` returns at once
  have hcurrent : current = none := by
    cases getMsgEntry_move hget with
    | enter hseek => exact hseek.elim id (none_of_empty fun e he => (hwalk.current_eq e he).1)
    | _ => exact hwalk.current_none (by simp)
  subst hcurrent
  -- a step to or from a wait, or up to the lock
  have hstays : (∀ e, g ≠ .unlock e) → (∀ e, g' ≠ .unlock e) →
      (s.resumeAt < s.queue.entries.length → g'.rank < g.rank) →
      Stays s ({ s with queue := q }.cleanupAt (.get none g')) := by
    intro hg hg' hrank
    refine ⟨?_, by simpa only [System.cleanupAt, hpc, CleanupPc.rank] using hrank⟩
    simp only [System.resumeAt, System.cleanupAt, hpc, hlen]
  cases getMsgEntry_move hget with
  | enter | lockFirst | lockNext | wakeFirst | wakeNext =>
    exact hstays (by simp) (by simp) fun _ => by simp [GetPc.rank]
  | sleepFirst hempty =>
    exact hstays (by simp) (by simp) fun hlt => absurd (hempty ▸ hlt) (Nat.not_lt_zero _)
  | first =>
    have hprev := hwalk.first (.inl rfl)
    refine ⟨?_, fun _ => ?_⟩
    · simp only [System.resumeAt, System.cleanupAt, hpc, hprev]
    · simp [System.cleanupAt, hpc, CleanupPc.rank, GetPc.rank]
  | sleepNext hlast =>
    have hprev := hwalk.next _ (.inl rfl)
    refine hstays (by simp) (by simp) fun hlt => ?_
    simp only [System.resumeAt, hpc, hprev, restartAt, if_neg hlast] at hlt
    exact absurd hlt (Nat.lt_irrefl _)
  | next hlt =>
    have hprev := hwalk.next _ (.inl rfl)
    refine ⟨?_, fun _ => ?_⟩
    · simp [System.resumeAt, System.cleanupAt, hpc, hprev, restartAt, if_pos hlt]
    · simp [System.cleanupAt, hpc, CleanupPc.rank, GetPc.rank]

/-- Without `current` a call returns when it gives up the lock. -/
theorem getMsgEntry_ret {t : Tid} {prev : Option Nat} {toStart : Bool} {g : GetPc} {q q' : MsgQueue}
    {e : Nat} (hget : getMsgEntry t none prev toStart g q = some (q', .ret e)) : g = .unlock e := by
  cases getMsgEntry_move hget with
  | keep hcurrent => cases hcurrent
  | unlock => rfl

/-- **A step of the cleanup worker** stays at its entry or goes on to the next. -/
theorem CleanupMove.resume (hmove : CleanupMove args s s')
    (hwalk : Walk s.queue.entries.length s.cleanup) : Stays s s' ∨ Passes args s s' := by
  unfold Walk at hwalk
  cases hmove with
  | seek hpc hget =>
    rw [hpc] at hwalk
    exact .inl (getMsgEntry_stays hpc hwalk hget)
  | found hpc hget =>
    rename_i current g q e
    rw [hpc] at hwalk
    have he := (getMsgEntry_restart hwalk hget).2
    refine .inl ⟨?_, fun _ => ?_⟩
    · cases current with
      | some c =>
        simp only [System.resumeAt, System.cleanupAt, hpc]
        exact he
      | none =>
        have hunlock := getMsgEntry_ret hget
        simp only [System.resumeAt, System.cleanupAt, hpc, hunlock]
    · simp only [System.cleanupAt, hpc, CleanupPc.rank]
      cases g <;> simp [GetPc.rank]
  | expired hpc =>
    refine .inl ⟨?_, fun _ => ?_⟩
    · simp only [System.resumeAt, System.cleanupAt, hpc]
    · simp [System.cleanupAt, hpc, CleanupPc.rank]
  | lockFree hpc =>
    refine .inl ⟨?_, fun _ => ?_⟩
    · simp only [System.resumeAt, System.cleanupAt, hpc]
    · simp [System.cleanupAt, hpc, CleanupPc.rank]
  | skip hpc hentry hskip =>
    rename_i e entry
    have hresume : s.resumeAt = e := by simp only [System.resumeAt, hpc]
    refine .inr ⟨?_, fun entry' hentry' => ?_⟩
    · simp only [System.resumeAt, System.cleanupAt, hpc]
    · rw [hresume] at hentry'
      cases hentry.symm.trans hentry'
      exact hskip
  | free hpc hentry =>
    rename_i e entry
    have hresume : s.resumeAt = e := by simp only [System.resumeAt, hpc]
    have hmove : CleanupMove args s _ := .free hpc hentry
    refine .inr ⟨?_, fun entry' hentry' => ?_⟩
    · simp only [System.resumeAt, System.cleanupAt, hpc]
    · rw [hresume] at hentry'
      exact .inl (hmove.freed hpc hentry')
  | unlockFree hpc | lockNext hpc =>
    refine .inl ⟨?_, fun _ => ?_⟩
    · simp only [System.resumeAt, System.cleanupAt, hpc]
    · simp [System.cleanupAt, hpc, CleanupPc.rank]
  | readNext hpc =>
    rename_i e
    rw [hpc] at hwalk
    refine .inl ⟨?_, fun _ => ?_⟩
    · simp only [System.resumeAt, hpc, MsgQueue.next, restartAt]
      split
      · rfl
      · simp only [Option.getD_none]
        omega
    · simp [hpc, CleanupPc.rank]
  | unlockNext hpc =>
    refine .inl ⟨?_, fun _ => ?_⟩
    · simp only [System.resumeAt, System.cleanupAt, hpc, MsgQueue.entries_release]
    · simp [System.cleanupAt, hpc, CleanupPc.rank]
  | advance hpc =>
    rename_i e
    refine .inl ⟨?_, fun _ => ?_⟩
    · simp only [System.resumeAt, hpc]
      cases s.cleanup.next <;> rfl
    · simp [hpc, CleanupPc.rank, GetPc.rank]

/-! ## What cannot be reclaimed -/

/-- The run goes on, and no other thread is in a critical section of `msg_lock`. -/
def Unblocked (s : System) : Prop :=
  s.fault = none ∧ (s.queue.lock = none ∨ s.queue.lock = some .cleanup)

/-- The data of the entries that the walk has behind it is freed. -/
def FreedBehind (s : System) : Prop :=
  ∀ e < s.resumeAt, ∀ entry, s.queue.entries[e]? = some entry → entry.Freed

theorem AllFreed.behind (h : AllFreed s) : FreedBehind s :=
  fun _ _ entry hentry => h entry (List.mem_of_getElem? hentry)

/-- A step of the clock or the cleanup worker. -/
theorem cleanup_or_tick (hl : l.isCleanup = true) (hs : s.step args l = some s') :
    s.cleanupStep args = some s' ∨ ∃ now, s.now ≤ now ∧ s' = { s with now := now } := by
  cases step_move hs with
  | cleanup hstep => exact .inl hstep
  | tick hle => exact .inr ⟨_, hle, rfl⟩
  | src | dispatcher | worker | wakeMsg | wakeArgs => cases hl

/-- What is behind the walk stays as it is. -/
theorem not_reclaims_of_behind (hr : (server args start).Reachable s) (h : ¬FreedBehind s) :
    ¬Reclaims args start s := by
  rintro ⟨s', hsteps, hall⟩
  refine (hsteps.invariant (P := fun s => (server args start).Reachable s ∧ ¬FreedBehind s) ?_
    ⟨hr, h⟩).2 hall.behind
  rintro s l s' ⟨hr, h⟩ hl hs
  refine ⟨.step hr trivial hs, fun hfreed => h ?_⟩
  rcases cleanup_or_tick hl hs with hstep | ⟨now, -, rfl⟩
  · have hmove := cleanupStep_move hstep
    have hg := reachable_good hr
    have hle : s.resumeAt ≤ s'.resumeAt := by
      rcases hmove.resume (reachable_walk hr) with hstays | hpasses
      · exact hstays.resumeAt.ge
      · rw [hpasses.resumeAt]
        exact Nat.le_succ _
    intro e he entry hentry
    obtain ⟨entry', hentry', -, -, hback⟩ := (step_entries hg.pool hg.cursors hs).entry hentry
    rcases hback (hfreed e (Nat.lt_of_lt_of_le he hle) entry' hentry') with hold | ⟨-, hpc⟩
    · exact hold
    · -- the entry that is freed is the one at which the walk is
      simp only [System.resumeAt, hpc] at he
      exact absurd he (Nat.lt_irrefl e)
  · exact hfreed

/-- Another thread keeps `msg_lock` as long as it makes no step. -/
theorem not_reclaims_of_blocked (hr : (server args start).Reachable s) (h : ¬Unblocked s)
    (hall : ¬AllFreed s) : ¬Reclaims args start s := by
  rintro ⟨s', hsteps, hall'⟩
  refine (hsteps.invariant
    (P := fun s => (server args start).Reachable s ∧ ¬Unblocked s ∧ ¬AllFreed s) ?_
    ⟨hr, h, hall⟩).2.2 hall'
  rintro s l s' ⟨hr, h, hall⟩ hl hs
  refine ⟨.step hr trivial hs, ?_⟩
  have hfault := fault_of_step hs
  obtain ⟨hfree, hother⟩ : s.queue.lock ≠ none ∧ s.queue.lock ≠ some .cleanup :=
    ⟨fun hfree => h ⟨hfault, .inl hfree⟩, fun hheld => h ⟨hfault, .inr hheld⟩⟩
  rcases cleanup_or_tick hl hs with hstep | ⟨now, -, rfl⟩
  · have hout : s.cleanup.pc.locked = false := by
      by_contra hin
      exact hother (((reachable_monitor hr).excludes .cleanup).mpr (Bool.eq_true_of_not_eq_false hin))
    have hlock : s'.queue.lock = s.queue.lock := by
      cases ((cleanupStep_move hstep).monitor (reachable_walk hr)).1 with
      | keep hlock => exact hlock
      | take hnone => exact absurd hnone hfree
      | give _ hin =>
        rw [hout] at hin
        cases hin
    refine ⟨?_, ?_⟩
    · rintro ⟨-, hnone | hheld⟩
      · exact hfree (hlock ▸ hnone)
      · exact hother (hlock ▸ hheld)
    · rcases cleanupStep_entries hstep with hes | ⟨e, entry, hpc, -⟩
      · rwa [AllFreed, hes]
      · rw [hpc] at hout
        cases hout
  · exact ⟨h, hall⟩

/-! ## What can be reclaimed -/

theorem acquire_of_free {q : MsgQueue} {t : Tid} (h : q.lock = none) :
    q.acquire t = some { q with lock := some t } := if_pos h

/-- A call of `get_msg_entry` goes on while the walk has entries before it. -/
theorem getMsgEntry_enabled (hr : (server args start).Reachable s) {current : Option Nat} {g : GetPc}
    (hpc : s.cleanup.pc = .get current g) (hlt : s.resumeAt < s.queue.entries.length)
    (hfree : g.locked = false → s.queue.lock = none) :
    getMsgEntry .cleanup current s.cleanup.prev true g s.queue ≠ none := by
  have hwalk := reachable_walk hr
  unfold Walk at hwalk
  rw [hpc] at hwalk
  -- the entry that the call waits for is there, so it was woken up
  have hresume : g.locked = false → Awaited s.queue.entries.length s.cleanup.prev →
      (s.queue.resume .cleanup) ≠ none := by
    intro hout hin
    have hawake : s.queue.asleep .cleanup ≠ true := fun hasleep =>
      (reachable_monitor hr).not_awaited (hfree hout) hasleep hin
    rw [MsgQueue.resume, if_neg hawake, acquire_of_free (hfree hout)]
    simp
  cases g with
  | test => cases current <;> simp [getMsgEntry]
  | lock => simp [getMsgEntry, acquire_of_free (hfree rfl)]
  | first | next p =>
    simp only [getMsgEntry]
    split <;> simp
  | waitFirst =>
    have hcurrent := hwalk.current_none (by simp)
    have hprev := hwalk.first (.inr rfl)
    subst hcurrent
    have hin : Awaited s.queue.entries.length s.cleanup.prev := by
      rw [hprev]
      exact Nat.zero_lt_of_lt hlt
    simpa [getMsgEntry] using hresume rfl hin
  | waitNext p =>
    have hcurrent := hwalk.current_none (by simp)
    have hprev := hwalk.next p (.inr rfl)
    subst hcurrent
    have hin : Awaited s.queue.entries.length s.cleanup.prev := by
      rw [hprev]
      by_contra hlast
      simp only [System.resumeAt, hpc, hprev, restartAt, Awaited] at hlt hlast
      rw [if_neg hlast] at hlt
      exact absurd hlt (Nat.lt_irrefl _)
    simpa [getMsgEntry] using hresume rfl hin
  | unlock e => simp [getMsgEntry]

/-- The cleanup worker has a step while its walk has entries before it. -/
theorem cleanup_enabled (hr : (server args start).Reachable s) (hu : Unblocked s)
    (hlt : s.resumeAt < s.queue.entries.length) : ∃ s', s.cleanupStep args = some s' := by
  have hfree : s.cleanup.pc.locked = false → s.queue.lock = none := by
    intro hout
    refine hu.2.resolve_right fun hheld => ?_
    have hin : s.cleanup.pc.locked = true := ((reachable_monitor hr).excludes .cleanup).mp hheld
    rw [hout] at hin
    cases hin
  have hwalk := reachable_walk hr
  unfold Walk at hwalk
  rw [← Option.ne_none_iff_exists']
  unfold System.cleanupStep
  cases hpc : s.cleanup.pc with
  | get current g =>
    have hget := getMsgEntry_enabled hr hpc hlt fun hout => hfree (by rw [hpc]; exact hout)
    simp only
    split
    · contradiction
    · simp
    · simp
  | check e =>
    rw [hpc] at hwalk
    simp only [List.getElem?_eq_getElem hwalk]
    split <;> simp
  | free e =>
    rw [hpc] at hwalk
    simp [List.getElem?_eq_getElem hwalk]
  | lockFree e | lockNext e =>
    simp [acquire_of_free (hfree (by rw [hpc]; rfl))]
  | unlockFree e | readNext e | unlockNext e | advance e => simp

theorem CleanupPc.rank_lt (pc : CleanupPc) : pc.rank < 16 := by
  cases pc with
  | get current g => cases g <;> simp [CleanupPc.rank, GetPc.rank]
  | check | lockFree | free | unlockFree | lockNext | readNext | unlockNext | advance =>
    simp [CleanupPc.rank]

/-- The steps that the walk has left, at most. -/
def System.walkRank (s : System) : Nat :=
  (s.queue.entries.length - s.resumeAt) * 16 + s.cleanup.pc.rank

/-- All entries have expired, and nothing keeps the cleanup worker from freeing them. -/
structure Reclaimable (args : Args) (start : Timespec) (s : System) : Prop where
  reachable : (server args start).Reachable s
  unblocked : Unblocked s
  behind : FreedBehind s
  expired : ∀ entry ∈ s.queue.entries, entry.Expired args s.now

/-- A step of the cleanup worker on its way to the end of the queue. -/
theorem Reclaimable.step (h : Reclaimable args start s) (hlt : s.resumeAt < s.queue.entries.length) :
    ∃ s', s.step args .cleanup = some s' ∧ Reclaimable args start s' ∧ s'.walkRank < s.walkRank := by
  obtain ⟨s', hstep⟩ := cleanup_enabled h.reachable h.unblocked hlt
  have hs : s.step args .cleanup = some s' := by
    simp only [System.step, h.unblocked.1, Option.isSome_none, Bool.false_eq_true, if_false, hstep]
  have hmove := cleanupStep_move hstep
  have hg := reachable_good h.reachable
  have hwalk := reachable_walk h.reachable
  have hentries := step_entries hg.pool hg.cursors hs
  have hlen := hmove.length_entries
  have hexpired : ∀ entry ∈ s'.queue.entries, entry.Expired args s'.now := by
    intro entry' hmem
    obtain ⟨e, he, hentry'⟩ := List.getElem_of_mem hmem
    rw [hlen] at he
    obtain ⟨entry'', hentry'', hsame, -⟩ := hentries.entry (List.getElem?_eq_getElem he)
    rw [List.getElem?_eq_getElem (hlen ▸ he), hentry'] at hentry''
    cases hentry''
    exact hsame.expired_iff.mpr ((h.expired _ (List.getElem_mem he)).mono (step_now hs))
  have hunblocked : Unblocked s' := by
    refine ⟨(cleanupStep_frame hstep).1.fault.trans h.unblocked.1, ?_⟩
    cases (hmove.monitor hwalk).1 with
    | keep hlock => exact hlock ▸ h.unblocked.2
    | take _ hlock => exact .inr hlock
    | give hlock => exact .inl hlock
  -- what was freed stays freed
  have hkept : ∀ e < s.resumeAt, ∀ entry, s'.queue.entries[e]? = some entry → entry.Freed := by
    intro e he entry' hentry'
    have hlt' : e < s.queue.entries.length := Nat.lt_trans he hlt
    obtain ⟨entry'', hentry'', -, hfreed, -⟩ := hentries.entry (List.getElem?_eq_getElem hlt')
    rw [hentry'] at hentry''
    cases hentry''
    exact hfreed (h.behind e he _ (List.getElem?_eq_getElem hlt'))
  refine ⟨s', hs, ⟨.step h.reachable trivial hs, hunblocked, ?_, hexpired⟩, ?_⟩
  · rcases hmove.resume hwalk with hstays | hpasses
    · rw [FreedBehind, hstays.resumeAt]
      exact hkept
    · intro e he entry hentry
      rw [hpasses.resumeAt] at he
      rcases Nat.lt_succ_iff_lt_or_eq.mp he with he | rfl
      · exact hkept e he entry hentry
      · have hnow : s'.now = s.now := by cases hmove <;> rfl
        refine (hpasses.freed entry hentry).resolve_right (not_not_intro ?_)
        exact hnow ▸ hexpired entry (List.mem_of_getElem? hentry)
  · rw [System.walkRank, System.walkRank, hlen]
    rcases hmove.resume hwalk with hstays | hpasses
    · have := hstays.rank hlt
      rw [hstays.resumeAt]
      omega
    · have := s'.cleanup.pc.rank_lt
      rw [hpasses.resumeAt]
      omega

/-- A clock reading at which all entries have expired. -/
theorem exists_expired (es : List MsgEntry) (args : Args) (now : Timespec) :
    ∃ now', now ≤ now' ∧ ∀ entry ∈ es, entry.Expired args now' := by
  induction es with
  | nil => exact ⟨now, le_refl _, by simp⟩
  | cons entry es ih =>
    obtain ⟨now₁, hle, hall⟩ := ih
    obtain ⟨now₂, hle₂, hlt⟩ : ∃ now₂, now₁ ≤ now₂ ∧ entry.timestamp.addSec args.ttl < now₂ := by
      refine ⟨max now₁ ⟨(entry.timestamp.addSec args.ttl).tvSec + 1, 0⟩, le_max_left _ _, ?_⟩
      refine lt_of_lt_of_le (Timespec.lt_iff.mpr (.inl ?_)) (le_max_right _ _)
      exact Int.lt_succ _
    refine ⟨now₂, hle.trans hle₂, fun entry' hmem => ?_⟩
    rcases List.mem_cons.mp hmem with rfl | hmem
    · exact MsgEntry.expired_iff.mpr hlt
    · exact (hall entry' hmem).mono hle₂

/-- **Reclaiming**: once all entries have expired, the walk frees those it has before it. -/
theorem reclaims_of_behind (hr : (server args start).Reachable s) (hu : Unblocked s)
    (hb : FreedBehind s) : Reclaims args start s := by
  obtain ⟨now, hle, hexpired⟩ := exists_expired s.queue.entries args s.now
  have htick : s.step args (.tick now) = some { s with now := now } := by
    simp only [System.step, hu.1, Option.isSome_none, Bool.false_eq_true, if_false, if_pos hle]
  have hready : Reclaimable args start { s with now := now } :=
    ⟨.step hr trivial htick, hu, hb, hexpired⟩
  have hprogress : ∀ s, Reclaimable args start s → AllFreed s ∨ ∃ l s', l.isCleanup = true ∧
      (server args start).step s l s' ∧ Reclaimable args start s' ∧ s'.walkRank < s.walkRank := by
    intro s h
    by_cases hlt : s.resumeAt < s.queue.entries.length
    · obtain ⟨s', hs, h', hrank⟩ := h.step hlt
      exact .inr ⟨.cleanup, s', rfl, hs, h', hrank⟩
    · refine .inl fun entry hmem => ?_
      obtain ⟨e, he, rfl⟩ := List.getElem_of_mem hmem
      exact h.behind e (by omega) _ (List.getElem?_eq_getElem he)
  obtain ⟨s', hsteps, hall⟩ := LTS.exists_steps_of_rank System.walkRank hprogress hready
  exact ⟨s', .trans (.tail (.refl s) rfl htick) hsteps, hall⟩

/-- **Memory can be reclaimed without new traffic** if and only if nothing that is still
held lies behind the walk of the cleanup worker, and no other thread holds `msg_lock`. -/
theorem reclaims_iff (hr : (server args start).Reachable s) :
    Reclaims args start s ↔ AllFreed s ∨ Unblocked s ∧ FreedBehind s := by
  constructor
  · intro h
    by_contra hnot
    rw [not_or, not_and_or] at hnot
    obtain ⟨hall, hu | hb⟩ := hnot
    · exact not_reclaims_of_blocked hr hu hall h
    · exact not_reclaims_of_behind hr hb h
  · rintro (hall | ⟨hu, hb⟩)
    · exact ⟨s, .refl s, hall⟩
    · exact reclaims_of_behind hr hu hb

end

/-- A message that the walk has not come to yet is reclaimed. -/
theorem reclaims_iff_head :
    ∃ s, ¬AllFreed s ∧ Reclaims .default ⟨0, 0⟩ s := by
  obtain ⟨s, hs, hp⟩ := LTS.exists_reachable (System.step .default) (.init ⟨0, 0⟩)
    (enqueueLabels sampleMsg)
    (fun s => s.fault = none ∧ s.queue.lock = none ∧ s.cleanup.pc = .get none .test ∧
      s.cleanup.prev = none ∧ ∃ entry ∈ s.queue.entries, ¬entry.Freed) (by decide)
  obtain ⟨hfault, hlock, hpc, hprev, entry, hmem, hheld⟩ := of_decide_eq_true hp
  refine ⟨s, fun hall => hheld (hall entry hmem), ?_⟩
  refine (reclaims_iff hs).mpr (.inr ⟨⟨hfault, .inl hlock⟩, ?_⟩)
  intro e he
  simp only [System.resumeAt, hpc, hprev] at he
  exact absurd he (Nat.not_lt_zero e)

/-- The cleanup worker has passed the only message before that expired, and waits. -/
theorem not_reclaims : ¬∀ args start s, (server args start).Reachable s → Reclaims args start s := by
  intro h
  obtain ⟨s, hs, hp⟩ := LTS.exists_reachable (System.step .default) (.init ⟨0, 0⟩)
    (enqueueLabels sampleMsg ++ List.replicate 12 .cleanup)
    (fun s => s.cleanup.pc = .get none (.waitNext 0) ∧ s.cleanup.prev = some 0 ∧
      s.queue.entries.length = 1 ∧ ∃ entry ∈ s.queue.entries[0]?, ¬entry.Freed) (by decide)
  obtain ⟨hpc, hprev, hlen, entry, hentry, hheld⟩ := of_decide_eq_true hp
  refine not_reclaims_of_behind hs (fun hbehind => hheld (hbehind 0 ?_ entry hentry)) (h _ _ s hs)
  simp [System.resumeAt, hpc, hprev, restartAt, hlen]

end WireStorm
