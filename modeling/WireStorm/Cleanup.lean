import Mathlib.Data.List.Nodup
import WireStorm.Receiver
import WireStorm.Walk

/-!
# What the cleanup worker frees

The entries that `run_cleanup_worker` frees, over every run: each at most once and
only once its time to live has passed (`FreesExact`), and in one pass over the
queue every entry that had expired when the pass started (`Covered`). Apart from
the data it frees a step of the cleanup worker leaves the entries as they are
(`cleanup_exact`).
-/

namespace WireStorm

theorem MsgEntry.expired_iff {entry : MsgEntry} {args : Args} {now : Timespec} :
    entry.Expired args now ↔ entry.timestamp.addSec args.ttl < now := compareTimes_iff

theorem MsgEntry.Expired.mono {entry : MsgEntry} {args : Args} {now now' : Timespec}
    (h : entry.Expired args now) (hle : now ≤ now') : entry.Expired args now' := by
  rw [MsgEntry.expired_iff] at h ⊢
  exact lt_of_lt_of_le h hle

theorem MsgEntry.SameMsg.expired_iff {entry entry' : MsgEntry} {args : Args} {now : Timespec}
    (h : entry.SameMsg entry') : entry'.Expired args now ↔ entry.Expired args now := by
  rw [MsgEntry.Expired, MsgEntry.Expired, h.1]

section
variable {args : Args} {start : Timespec} {s s' : System} {l : Label}

/-! ## Entries -/

/-- What a step does to an entry: it stays in its place, and it is freed by the cleanup
worker alone. -/
theorem EntriesMove.entry {es : List MsgEntry} (h : EntriesMove s l es) {e : Nat} {entry : MsgEntry}
    (hentry : s.queue.entries[e]? = some entry) :
    ∃ entry', es[e]? = some entry' ∧ entry.SameMsg entry' ∧ (entry.Freed → entry'.Freed) ∧
      (entry'.Freed → entry.Freed ∨ l = .cleanup ∧ s.cleanup.pc = .free e) := by
  have hlt := (List.getElem?_eq_some_iff.mp hentry).1
  cases h with
  | same hes => exact ⟨entry, by rw [hes, hentry], ⟨rfl, rfl⟩, id, .inl⟩
  | append _ hes =>
    exact ⟨entry, by rw [hes, List.getElem?_append_left hlt, hentry], ⟨rfl, rfl⟩, id, .inl⟩
  | mark hl hold hset hes =>
    rename_i i o e' a a' val
    by_cases he : e' = e
    · subst he
      rw [hentry] at hold
      cases hold
      obtain ⟨hsame, hmsg, -⟩ := MsgEntry.setSent_eq_some hset
      refine ⟨a', by rw [hes, List.getElem?_set_self hlt], hsame, ?_, fun hfreed => .inl ?_⟩
      · rw [MsgEntry.Freed, MsgEntry.Freed, hmsg]
        exact id
      · rwa [MsgEntry.Freed, hmsg] at hfreed
    · exact ⟨entry, by rw [hes, List.getElem?_set_ne he, hentry], ⟨rfl, rfl⟩, id, .inl⟩
  | free hl hpc hold hes =>
    rename_i e' a
    by_cases he : e' = e
    · subst he
      rw [hentry] at hold
      cases hold
      exact ⟨entry.freeMsgData, by rw [hes, List.getElem?_set_self hlt], entry.freeMsgData_sameMsg,
        fun _ => rfl, fun _ => .inr ⟨hl, hpc⟩⟩
    · exact ⟨entry, by rw [hes, List.getElem?_set_ne he, hentry], ⟨rfl, rfl⟩, id, .inl⟩

/-- The entries of a later state, from the entries before. -/
theorem EntriesMove.entry_of {es : List MsgEntry} (h : EntriesMove s l es) (hfresh : SrcFresh s)
    {e : Nat} {entry' : MsgEntry} (hentry' : es[e]? = some entry') :
    (∃ entry, s.queue.entries[e]? = some entry) ∨
      s.queue.entries[e]? = none ∧ ¬entry'.Freed := by
  by_cases hlt : e < s.queue.entries.length
  · exact .inl ⟨_, List.getElem?_eq_getElem hlt⟩
  · have hnone : s.queue.entries[e]? = none := List.getElem?_eq_none (Nat.le_of_not_lt hlt)
    refine .inr ⟨hnone, ?_⟩
    cases h with
    | same hes =>
      rw [hes, hnone] at hentry'
      cases hentry'
    | append hsrc hes =>
      rename_i entry
      rw [hes, List.getElem?_append_right (Nat.le_of_not_lt hlt)] at hentry'
      have hmem : entry' ∈ [entry] := List.mem_of_getElem? hentry'
      rw [List.mem_singleton] at hmem
      rw [hmem, hfresh entry (.inr hsrc)]
      exact fun hfreed => by cases hfreed
    | mark _ hold _ hes | free _ _ hold hes =>
      have hlen := (List.getElem?_eq_some_iff.mp hentry').1
      rw [hes, List.length_set] at hlen
      exact absurd hlen hlt

/-! ## What is freed -/

/-- The cleanup worker frees what has expired and is still there. -/
def Doomed (args : Args) (s : System) : Prop :=
  ∀ e, s.cleanup.pc = .lockFree e ∨ s.cleanup.pc = .free e →
    ∃ entry, s.queue.entries[e]? = some entry ∧ ¬entry.Freed ∧ entry.Expired args s.now

theorem step_keeps_doomed (hg : Good args.numWorkers s) (h : Doomed args s)
    (hs : s.step args l = some s') : Doomed args s' := by
  intro e hpc
  rcases step_cleanup hs with ⟨hl, heq⟩ | ⟨rfl, hstep⟩
  · rw [heq] at hpc
    obtain ⟨entry, hentry, hheld, hexpired⟩ := h e hpc
    obtain ⟨entry', hentry', hsame, -, hfreed⟩ :=
      (step_entries hg.pool hg.cursors hs).entry hentry
    refine ⟨entry', hentry', fun hyes => ?_, hsame.expired_iff.mpr (hexpired.mono (step_now hs))⟩
    rcases hfreed hyes with hold | ⟨hcleanup, -⟩
    · exact hheld hold
    · exact hl hcleanup
  · cases cleanupStep_move hstep with
    | expired _ hentry hheld hexpired =>
      rcases hpc with hpc | hpc <;> cases hpc
      exact ⟨_, hentry, hheld, hexpired⟩
    | lockFree hold hq =>
      rcases hpc with hpc | hpc <;> cases hpc
      obtain ⟨entry, hentry, hheld⟩ := h e (.inl hold)
      refine ⟨entry, ?_, hheld⟩
      rw [← hentry]
      exact congrArg (·[e]?) (MsgQueue.entries_acquire hq)
    | seek | found | skip | free | unlockFree | lockNext | readNext | unlockNext | advance =>
      rcases hpc with hpc | hpc <;> cases hpc

theorem reachable_doomed (h : (server args start).Reachable s) : Doomed args s := by
  refine LTS.ReachVia.invariant_ofFn (I := Doomed args) ?_
    (fun _ _ _ hr hi _ hs => step_keeps_doomed (reachable_good hr.reachable) hi hs) h
  rintro e (hpc | hpc) <;> cases hpc

/-- The entry that a step frees, with the clock reading. -/
def System.frees (s : System) : Label → Option (Nat × Timespec)
  | .cleanup =>
    match s.cleanup.pc with
    | .free e => some (e, s.now)
    | _ => none
  | _ => none

theorem frees_eq_some {e : Nat} {now : Timespec} :
    s.frees l = some (e, now) ↔ l = .cleanup ∧ s.cleanup.pc = .free e ∧ s.now = now := by
  cases l with
  | cleanup =>
    simp only [System.frees, true_and]
    split
    · rename_i e' hpc
      simp [hpc]
    · rename_i hne
      simp only [reduceCtorEq, false_iff]
      rintro ⟨hpc, -⟩
      exact hne e hpc
  | src | dispatcher | worker | tick | wakeMsg | wakeArgs => simp [System.frees]

/-- The entries freed in a run, each with the clock reading at which that happened:
none twice, none before its time to live had passed, and they are the freed entries
of the queue. -/
structure FreesExact (args : Args) (fs : List (Nat × Timespec)) (s : System) : Prop where
  once : (fs.map (·.1)).Nodup
  expired : ∀ e now, (e, now) ∈ fs →
    ∃ entry, s.queue.entries[e]? = some entry ∧ entry.timestamp.addSec args.ttl < now
  freed_iff : ∀ e entry, s.queue.entries[e]? = some entry →
    (entry.Freed ↔ e ∈ fs.map (·.1))

/-- The step at which the cleanup worker frees an entry. -/
theorem CleanupMove.freed (hmove : CleanupMove args s s') {e : Nat} (hpc : s.cleanup.pc = .free e)
    {entry' : MsgEntry} (hentry' : s'.queue.entries[e]? = some entry') : entry'.Freed := by
  cases hmove with
  | free hfree hentry =>
    rw [hpc] at hfree
    cases hfree
    have hlt := (List.getElem?_eq_some_iff.mp hentry).1
    have hself : (s.queue.entries.set e _)[e]? = some entry' := hentry'
    rw [List.getElem?_set_self hlt] at hself
    cases hself
    rfl
  | seek h | found h | expired h | skip h | lockFree h | unlockFree h | lockNext h | readNext h
  | unlockNext h | advance h =>
    rw [hpc] at h
    cases h

theorem step_keeps_freesExact {fs : List (Nat × Timespec)} (hr : (server args start).Reachable s)
    (h : FreesExact args fs s) (hs : s.step args l = some s') :
    FreesExact args (fs ++ (s.frees l).toList) s' := by
  have hg := reachable_good hr
  have hentries := step_entries hg.pool hg.cursors hs
  have hmem : ∀ e now, (e, now) ∈ fs ++ (s.frees l).toList ↔
      (e, now) ∈ fs ∨ l = .cleanup ∧ s.cleanup.pc = .free e ∧ s.now = now := by
    intro e now
    rw [List.mem_append, Option.mem_toList, frees_eq_some]
  have hfirst : ∀ e, e ∈ (fs ++ (s.frees l).toList).map (·.1) ↔
      e ∈ fs.map (·.1) ∨ l = .cleanup ∧ s.cleanup.pc = .free e := by
    intro e
    simp only [List.mem_map, Prod.exists, exists_and_right, exists_eq_right, hmem]
    constructor
    · rintro ⟨now, hnow | ⟨hl, hpc, -⟩⟩
      · exact .inl ⟨now, hnow⟩
      · exact .inr ⟨hl, hpc⟩
    · rintro (⟨now, hnow⟩ | ⟨hl, hpc⟩)
      · exact ⟨now, .inl hnow⟩
      · exact ⟨s.now, .inr ⟨hl, hpc, rfl⟩⟩
  refine ⟨?_, fun e now hin => ?_, fun e entry' hentry' => ?_⟩
  · cases hfrees : s.frees l with
    | none =>
      rw [Option.toList_none, List.append_nil]
      exact h.once
    | some f =>
      -- what is freed now was not freed before
      obtain ⟨-, hpc, -⟩ := frees_eq_some.mp hfrees
      obtain ⟨entry, hentry, hheld, -⟩ := reachable_doomed hr f.1 (.inr hpc)
      have hnew : f.1 ∉ fs.map (·.1) := fun hin => hheld ((h.freed_iff f.1 entry hentry).mpr hin)
      rw [Option.toList_some, List.map_append, List.map_singleton]
      exact List.nodup_append.mpr ⟨h.once, List.nodup_singleton _, by
        rintro a ha b hb rfl
        rw [List.mem_singleton.mp hb] at ha
        exact hnew ha⟩
  · obtain ⟨entry, hentry, hlt⟩ : ∃ entry, s.queue.entries[e]? = some entry ∧
        entry.timestamp.addSec args.ttl < now := by
      rcases (hmem e now).mp hin with hold | ⟨-, hpc, rfl⟩
      · exact h.expired e now hold
      · obtain ⟨entry, hentry, -, hexpired⟩ := reachable_doomed hr e (.inr hpc)
        exact ⟨entry, hentry, MsgEntry.expired_iff.mp hexpired⟩
    obtain ⟨entry', hentry', hsame, -⟩ := hentries.entry hentry
    exact ⟨entry', hentry', by rwa [hsame.1]⟩
  · rw [hfirst]
    rcases hentries.entry_of (reachable_srcFresh hr) hentry' with ⟨entry, hentry⟩ | ⟨hnone, hheld⟩
    · obtain ⟨entry'', hentry'', -, hkept, hfreed⟩ := hentries.entry hentry
      rw [hentry'] at hentry''
      cases hentry''
      constructor
      · intro hyes
        exact (hfreed hyes).imp_left (h.freed_iff e entry hentry).mp
      · rintro (hin | ⟨rfl, hpc⟩)
        · exact hkept ((h.freed_iff e entry hentry).mpr hin)
        · rcases step_cleanup hs with ⟨hl, -⟩ | ⟨-, hstep⟩
          · exact absurd rfl hl
          · exact (cleanupStep_move hstep).freed hpc hentry'
    · refine iff_of_false hheld ?_
      rintro (hin | ⟨-, hpc⟩)
      · obtain ⟨⟨e, now⟩, hold, rfl⟩ := List.mem_map.mp hin
        obtain ⟨entry, hentry, -⟩ := h.expired e now hold
        rw [hnone] at hentry
        cases hentry
      · obtain ⟨entry, hentry, -⟩ := reachable_doomed hr e (.inr hpc)
        rw [hnone] at hentry
        cases hentry

/-- What is freed in a run. -/
theorem observed_freesExact {fs : List (Nat × Timespec)}
    (h : (server args start).Observed System.frees fs s) : FreesExact args fs s := by
  induction h with
  | init h =>
    rw [show _ = System.init start from h]
    exact ⟨List.nodup_nil, by simp, by simp [System.init, MsgQueue.empty]⟩
  | step hr hs ih => exact step_keeps_freesExact hr.reachable ih hs

/-! ## A pass -/

/-- The step at which the cleanup worker gets the head of the queue: a pass starts. -/
def StartsPass (l : Label) (s' : System) : Prop := l = .cleanup ∧ s'.cleanup.pc = .check 0

instance (l : Label) (s' : System) : Decidable (StartsPass l s') :=
  inferInstanceAs (Decidable (_ ∧ _))

/-- Of the entries that the pass has behind it, those that had expired at `now` are freed. -/
def Covered (args : Args) (now : Timespec) (s : System) : Prop :=
  ∀ e < s.cleanup.passed, ∀ entry, s.queue.entries[e]? = some entry →
    entry.Expired args now → entry.Freed

theorem Walk.passed_le {len : Nat} {c : Cleanup} (h : Walk len c) : c.passed ≤ len := by
  unfold Walk at h
  unfold Cleanup.passed
  cases hpc : c.pc with
  | get current g =>
    rw [hpc] at h
    simp only [seekPos]
    split
    · exact Nat.le_of_lt (h.current_eq _ rfl).1
    · rename_i p hp
      exact h.prev_lt p hp
    · exact Nat.zero_le len
  | check e | lockFree e | free e =>
    rw [hpc] at h
    exact Nat.le_of_lt h
  | unlockFree e | lockNext e | readNext e =>
    rw [hpc] at h
    exact h
  | unlockNext e | advance e =>
    rw [hpc] at h
    exact h.1

theorem CleanupMove.covered {now : Timespec} (hmove : CleanupMove args s s')
    (hwalk : Walk s.queue.entries.length s.cleanup) (hnow : now ≤ s.now) (h : Covered args now s)
    (hno : ¬StartsPass .cleanup s') : Covered args now s' := by
  -- a step that changes neither the entries nor the number of those passed
  have hsame : s'.queue.entries = s.queue.entries → s'.cleanup.passed = s.cleanup.passed →
      Covered args now s' := by
    intro hentries hpassed e he entry hentry
    rw [hpassed] at he
    rw [hentries] at hentry
    exact h e he entry hentry
  unfold Walk at hwalk
  cases hmove with
  | seek hpc hget =>
    refine hsame (entries_getMsgEntry hget) ?_
    simp only [Cleanup.passed, System.cleanupAt, hpc]
  | found hpc hget =>
    rename_i current g q e
    rw [hpc] at hwalk
    obtain ⟨-, he⟩ := getMsgEntry_restart hwalk hget
    cases current with
    | none => exact absurd ⟨rfl, congrArg CleanupPc.check he⟩ hno
    | some c =>
      refine hsame (entries_getMsgEntry hget) ?_
      simp only [Cleanup.passed, System.cleanupAt, hpc, seekPos]
      exact he
  | expired hpc | unlockFree hpc | readNext hpc | unlockNext hpc =>
    exact hsame rfl (by simp only [Cleanup.passed, System.cleanupAt, hpc])
  | lockFree hpc hq | lockNext hpc hq =>
    exact hsame (MsgQueue.entries_acquire hq) (by simp only [Cleanup.passed, System.cleanupAt, hpc])
  | skip hpc hentry hskip =>
    rename_i e entry
    intro e' he' entry' hentry' hexpired
    rcases Nat.lt_succ_iff_lt_or_eq.mp he' with hlt | rfl
    · exact h e' (by simpa only [Cleanup.passed, hpc] using hlt) entry' hentry' hexpired
    · have heq : some entry = some entry' := hentry.symm.trans hentry'
      cases heq
      rcases hskip with hfreed | hnot
      · exact hfreed
      · exact absurd (hexpired.mono hnow) hnot
  | free hpc hentry =>
    rename_i e entry
    have hmove : CleanupMove args s _ := .free hpc hentry
    intro e' he' entry' hentry' hexpired
    rcases Nat.lt_succ_iff_lt_or_eq.mp he' with hlt | rfl
    · have hold : (s.queue.entries.set e entry.freeMsgData)[e']? = some entry' := hentry'
      rw [List.getElem?_set_ne (Nat.ne_of_gt hlt)] at hold
      exact h e' (by simpa only [Cleanup.passed, hpc] using hlt) entry' hold hexpired
    · exact hmove.freed hpc hentry'
  | advance hpc =>
    rename_i e
    rw [hpc] at hwalk
    refine hsame rfl ?_
    simp only [Cleanup.passed, hpc]
    cases hnext : s.cleanup.next with
    | none => rfl
    | some x => exact (hwalk.2 x hnext).2

theorem step_keeps_covered {now : Timespec} (hr : (server args start).Reachable s)
    (hnow : now ≤ s.now) (h : Covered args now s) (hs : s.step args l = some s')
    (hno : ¬StartsPass l s') : Covered args now s' := by
  have hwalk := reachable_walk hr
  rcases step_cleanup hs with ⟨-, heq⟩ | ⟨rfl, hstep⟩
  · have hg := reachable_good hr
    have hentries := step_entries hg.pool hg.cursors hs
    intro e he entry' hentry' hexpired
    rw [heq] at he
    have hlt : e < s.queue.entries.length := Nat.lt_of_lt_of_le he hwalk.passed_le
    obtain ⟨entry'', hentry'', hsame, hfreed, -⟩ :=
      hentries.entry (List.getElem?_eq_getElem hlt)
    rw [hentry'] at hentry''
    cases hentry''
    exact hfreed (h e he _ (List.getElem?_eq_getElem hlt) (hsame.expired_iff.mp hexpired))
  · exact (cleanupStep_move hstep).covered hwalk hnow h hno

/-- **A pass** that started at clock reading `now`. -/
theorem pass_covered {now : Timespec} (hr : (server args start).Reachable s) (hnow : now ≤ s.now)
    (h : Covered args now s)
    (hsteps : (server args start).Steps (fun _ l s' => ¬StartsPass l s') s s') :
    Covered args now s' := by
  refine (hsteps.invariant (P := fun s => (server args start).Reachable s ∧ now ≤ s.now ∧
    Covered args now s) ?_ ⟨hr, hnow, h⟩).2.2
  rintro s l s' ⟨hr, hnow, hcovered⟩ hno hs
  exact ⟨.step hr trivial hs, hnow.trans (step_now hs), step_keeps_covered hr hnow hcovered hs hno⟩

/-! ## Every run -/

/-- What a step of the cleanup worker leaves alone: the entries with their timestamps,
and the data of all but the current one. -/
theorem cleanupStep_keeps (hs : s.cleanupStep args = some s') :
    s'.queue.entries.map (fun entry => (entry.timestamp, entry.carried)) =
        s.queue.entries.map (fun entry => (entry.timestamp, entry.carried)) ∧
      ∀ e, s.cleanup.pc ≠ .free e → s'.queue.entries[e]? = s.queue.entries[e]? := by
  rcases cleanupStep_entries hs with hes | ⟨e, entry, hpc, hentry, hes⟩
  · rw [hes]
    exact ⟨rfl, fun _ _ => rfl⟩
  · obtain ⟨hlt, rfl⟩ := List.getElem?_eq_some_iff.mp hentry
    rw [hes]
    constructor
    · have hself := congrArg (List.map fun entry : MsgEntry => (entry.timestamp, entry.carried))
        (List.set_getElem_self hlt)
      rw [List.map_set] at hself ⊢
      exact hself
    · intro e' hne
      refine List.getElem?_set_ne ?_
      rintro rfl
      exact hne hpc

end

/-- **The cleanup worker frees exactly what has expired**: the message and the mask of an
entry are freed together, each entry at most once and only after its time to live; when
`current` becomes `NULL` every entry up to `prev` that had expired when the pass started is
freed; and a step changes nothing but the data of the current entry. -/
theorem cleanup_exact (args : Args) (start : Timespec) :
    (∀ fs s, (server args start).Observed System.frees fs s →
      (∀ entry ∈ s.queue.entries, entry.msg = none ↔ entry.sent = none) ∧ FreesExact args fs s) ∧
    (∀ s₀ s₁ s g p, (server args start).Reachable s₀ → (server args start).step s₀ .cleanup s₁ →
      StartsPass .cleanup s₁ → (server args start).Steps (fun _ l s' => ¬StartsPass l s') s₁ s →
      s.cleanup.pc = .get none g → s.cleanup.prev = some p →
      ∀ e ≤ p, ∀ entry, s.queue.entries[e]? = some entry → entry.Expired args s₀.now →
        entry.Freed) ∧
    (∀ s s', (server args start).Reachable s → (server args start).step s .cleanup s' →
      s'.queue.entries.map (fun entry => (entry.timestamp, entry.carried)) =
        s.queue.entries.map (fun entry => (entry.timestamp, entry.carried)) ∧
      ∀ e, s.cleanup.pc ≠ .free e → s'.queue.entries[e]? = s.queue.entries[e]?) := by
  refine ⟨fun fs s h => ⟨fun entry _ => entry.freed_iff, observed_freesExact h⟩, ?_, ?_⟩
  · rintro s₀ s₁ s g p hr hs ⟨-, hstart⟩ hsteps hpc hprev e he entry hentry
    have hcovered : Covered args s₀.now s₁ := by
      intro e he
      simp only [Cleanup.passed, hstart] at he
      exact absurd he (Nat.not_lt_zero e)
    refine pass_covered (.step hr trivial hs) (step_now hs) hcovered hsteps e ?_ entry hentry
    simp only [Cleanup.passed, hpc, hprev, seekPos]
    exact Nat.lt_succ_of_le he
  · intro s s' _ hs
    rcases step_cleanup hs with ⟨hl, -⟩ | ⟨-, hstep⟩
    · exact absurd rfl hl
    · exact cleanupStep_keeps hstep

/-- A message is enqueued and expires, and the cleanup worker is about to return the head. -/
def passLabels : List Label :=
  enqueueLabels sampleMsg ++ .tick ⟨10, 0⟩ :: List.replicate 3 .cleanup

/-- A pass over one expired message. -/
theorem cleanup_exact_pass :
    (∃ s, (server .default ⟨0, 0⟩).Observed System.frees [(0, ⟨10, 0⟩)] s ∧
      FreesExact .default [(0, ⟨10, 0⟩)] s) ∧
    ∃ s₀ s₁ s : System, s₀.cleanup.pc = .get none (.unlock 0) ∧
      (server .default ⟨0, 0⟩).Steps (fun _ l s' => ¬StartsPass l s') s₁ s ∧
      s.cleanup.pc = .get none .test ∧ ∃ entry, s.queue.entries[0]? = some entry ∧ entry.Freed := by
  constructor
  · obtain ⟨s, hs, -⟩ := LTS.exists_observed (System.step .default) System.frees (.init ⟨0, 0⟩)
      (passLabels ++ List.replicate 9 .cleanup) (fun _ => true) (by decide)
    have hseen : LTS.seen (System.step .default) System.frees (.init ⟨0, 0⟩)
        (passLabels ++ List.replicate 9 .cleanup) = [(0, ⟨10, 0⟩)] := by decide
    rw [hseen] at hs
    exact ⟨s, hs, ((cleanup_exact .default ⟨0, 0⟩).1 _ s hs).2⟩
  · obtain ⟨s₀, hs₀, hp⟩ := LTS.exists_reachable (System.step .default) (.init ⟨0, 0⟩) passLabels
      (fun s₀ => s₀.cleanup.pc = .get none (.unlock 0) ∧ s₀.now = ⟨10, 0⟩ ∧
        ∃ s₁ ∈ System.step .default s₀ .cleanup, StartsPass .cleanup s₁ ∧
          ∃ s ∈ LTS.execIf (System.step .default) (fun _ l s' => ¬StartsPass l s') s₁
              (List.replicate 8 .cleanup), s.cleanup.pc = .get none .test ∧
            s.cleanup.prev = some 0 ∧
            ∃ entry ∈ s.queue.entries[0]?, entry.Expired .default ⟨10, 0⟩) (by decide)
    obtain ⟨hpc, hnow, s₁, hs₁, hstart, s, hs, hget, hprev, entry, hentry, hexpired⟩ :=
      of_decide_eq_true hp
    have hsteps : (server .default ⟨0, 0⟩).Steps (fun _ l s' => ¬StartsPass l s') s₁ s :=
      LTS.steps_of_execIf (.refl s₁) hs
    refine ⟨s₀, s₁, s, hpc, hsteps, hget, entry, hentry, ?_⟩
    exact (cleanup_exact .default ⟨0, 0⟩).2.1 s₀ s₁ s .test 0 hs₀ hs₁ hstart hsteps hget hprev 0
      (Nat.le_refl 0) entry hentry (hnow ▸ hexpired)

end WireStorm
