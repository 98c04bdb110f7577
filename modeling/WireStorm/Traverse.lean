import Mathlib.Data.List.Nodup
import WireStorm.Lib.Transition
import WireStorm.Queue

/-!
# The walk over the queue

Threads that walk over the queue with `get_msg_entry` and `TAILQ_NEXT`, as the loop of
`run_dst_worker` does, while the source appends to it (`traversal`). The pointers of
every walk are in order in every run (`Walker.Placed`), and so the entries returned
to a thread are those appended, in that order (`returned_eq_appended`).
-/

namespace WireStorm

/-! ## The threads -/

/-- Where a thread is in a round of its walk: in `get_msg_entry`, or with the `current`
entry that it returned. -/
inductive WalkPc
  | get (current : Option Nat) (g : GetPc)
  | lockNext (current : Nat)
  | readNext (current : Nat)
  | unlockNext (current : Nat)
  | advance (current : Nat)
  deriving DecidableEq, Repr

/-- A thread that walks over the queue, with its local pointers. -/
structure Walker where
  pc : WalkPc
  prev : Option Nat
  next : Option Nat

/-- Before the first round. -/
def Walker.init : Walker := ⟨.get none .test, none, none⟩

/-- A step of a walk by thread `t`. -/
def walkStep (t : Tid) (q : MsgQueue) (w : Walker) : Option (MsgQueue × Walker) :=
  match w.pc with
  | .get current g =>
    match getMsgEntry t current w.prev false g q with
    | none => none
    | some (q, .more g') => some (q, { w with pc := .get current g' })
    | some (q, .ret e) => some (q, { w with pc := .lockNext e })
  | .lockNext e => (q.acquire t).map fun q => (q, { w with pc := .readNext e })
  | .readNext e => some (q, { w with pc := .unlockNext e, next := q.next e })
  | .unlockNext e => some (q.release, { w with pc := .advance e })
  | .advance e => some (q, { w with pc := .get w.next .test, prev := some e })

/-- Where `run_src_server` is when it appends an entry. -/
inductive AppendPc
  | lock
  | insert (entry : MsgEntry)
  | broadcast
  | unlock

/-- A step of `run_src_server` with `entry` as its new entry. -/
def appendStep (entry : MsgEntry) (q : MsgQueue) (a : AppendPc) : Option (MsgQueue × AppendPc) :=
  match a with
  | .lock => (q.acquire .src).map fun q => (q, .insert entry)
  | .insert entry => some (q.insertTail entry, .broadcast)
  | .broadcast => some (q.broadcast, .unlock)
  | .unlock => some (q.release, .lock)

/-- The queue, the source, and the threads that walk over the queue. -/
structure Traversal where
  queue : MsgQueue
  src : AppendPc
  walkers : Nat → Walker

/-- One step of one thread, or a spurious wake-up of thread `i`. -/
inductive WalkLabel
  | append (entry : MsgEntry)
  | walk (i : Nat)
  | wake (i : Nat)

namespace Traversal

/-- An empty queue, with all threads before their first step. -/
def init : Traversal := ⟨.empty, .lock, fun _ => .init⟩

def step (s : Traversal) (l : WalkLabel) : Option Traversal :=
  match l with
  | .append entry =>
    (appendStep entry s.queue s.src).map fun (q, a) => { s with queue := q, src := a }
  | .walk i =>
    (walkStep (.worker i) s.queue (s.walkers i)).map fun (q, w) =>
      { s with queue := q, walkers := Function.update s.walkers i w }
  | .wake i => some { s with queue := s.queue.wakeUp (.worker i) }

end Traversal

/-- All interleavings of the source with the walks. -/
def traversal : LTS Traversal WalkLabel := .ofFn .init Traversal.step

/-! ## Appended and returned entries -/

/-- The entry that the source inserts in its next step. -/
def AppendPc.inserts : AppendPc → Option MsgEntry
  | .insert entry => some entry
  | .lock | .broadcast | .unlock => none

/-- The entry that `get_msg_entry` returns in the next step of a walk by thread `t`. -/
def walkReturns (t : Tid) (q : MsgQueue) (w : Walker) : Option Nat :=
  match w.pc with
  | .get current g =>
    match getMsgEntry t current w.prev false g q with
    | some (_, .ret e) => some e
    | _ => none
  | _ => none

/-- `entry` was appended, as entry `e`; or `get_msg_entry` returned `e` to thread `i`. -/
inductive WalkEvent
  | appended (entry : MsgEntry) (e : Nat)
  | returned (i e : Nat)

def Traversal.observe (s : Traversal) (l : WalkLabel) : Option WalkEvent :=
  match l with
  | .append _ => s.src.inserts.map (.appended · s.queue.entries.length)
  | .walk i => (walkReturns (.worker i) s.queue (s.walkers i)).map (.returned i)
  | .wake _ => none

/-- The entry that was appended. -/
def WalkEvent.appendedEntry : WalkEvent → Option (MsgEntry × Nat)
  | .appended entry e => some (entry, e)
  | .returned _ _ => none

/-- The entry that was returned to thread `i`. -/
def WalkEvent.returnedTo (i : Nat) : WalkEvent → Option Nat
  | .appended _ _ => none
  | .returned j e => if j = i then some e else none

section
variable (entry : Option MsgEntry) (r : Option Nat) (i j e : Nat)

@[simp] theorem appendedEntry_appended :
    (entry.map (WalkEvent.appended · e)).toList.filterMap WalkEvent.appendedEntry =
      (entry.map (·, e)).toList := by
  cases entry <;> rfl

@[simp] theorem appendedEntry_returned :
    (r.map (WalkEvent.returned j)).toList.filterMap WalkEvent.appendedEntry = [] := by
  cases r <;> rfl

@[simp] theorem returnedTo_appended :
    (entry.map (WalkEvent.appended · e)).toList.filterMap (WalkEvent.returnedTo i) = [] := by
  cases entry <;> rfl

@[simp] theorem returnedTo_self :
    (r.map (WalkEvent.returned i)).toList.filterMap (WalkEvent.returnedTo i) = r.toList := by
  cases r with
  | none => rfl
  | some e => simp [WalkEvent.returnedTo]

theorem returnedTo_of_ne {i j : Nat} (h : j ≠ i) :
    (r.map (WalkEvent.returned j)).toList.filterMap (WalkEvent.returnedTo i) = [] := by
  cases r with
  | none => rfl
  | some e => simp [WalkEvent.returnedTo, h]

end

/-- The entries ever appended, in order. -/
def appended (es : List WalkEvent) : List (MsgEntry × Nat) := es.filterMap WalkEvent.appendedEntry

/-- The entries returned to thread `i`, in order. -/
def returned (i : Nat) (es : List WalkEvent) : List Nat := es.filterMap (WalkEvent.returnedTo i)

/-! ## One walk -/

/-- What a step of a walk can do, up to the mutex outside of `get_msg_entry`, with the
entry that `get_msg_entry` returns in it. -/
inductive WalkMove (t : Tid) (q : MsgQueue) (w : Walker) : Option Nat → MsgQueue → Walker → Prop
  | seek {current : Option Nat} {g g' : GetPc} {q' : MsgQueue} (hpc : w.pc = .get current g)
      (hget : getMsgEntry t current w.prev false g q = some (q', .more g')) :
      WalkMove t q w none q' { w with pc := .get current g' }
  | found {current : Option Nat} {g : GetPc} {q' : MsgQueue} {e : Nat} (hpc : w.pc = .get current g)
      (hget : getMsgEntry t current w.prev false g q = some (q', .ret e)) :
      WalkMove t q w (some e) q' { w with pc := .lockNext e }
  | lockNext {e : Nat} {q' : MsgQueue} (hpc : w.pc = .lockNext e) (hq : q'.entries = q.entries) :
      WalkMove t q w none q' { w with pc := .readNext e }
  | readNext {e : Nat} (hpc : w.pc = .readNext e) :
      WalkMove t q w none q { w with pc := .unlockNext e, next := q.next e }
  | unlockNext {e : Nat} {q' : MsgQueue} (hpc : w.pc = .unlockNext e)
      (hq : q'.entries = q.entries) : WalkMove t q w none q' { w with pc := .advance e }
  | advance {e : Nat} (hpc : w.pc = .advance e) :
      WalkMove t q w none q { w with pc := .get w.next .test, prev := some e }

/-- The pointers of a walk over a queue of `len` entries. -/
def Walker.Placed (len : Nat) (w : Walker) : Prop :=
  match w.pc with
  | .get current g => Seeking len current w.prev g
  | .lockNext e | .readNext e => e < len
  | .unlockNext e | .advance e => e < len ∧ ∀ x, w.next = some x → x < len ∧ x = e + 1

/-- The number of entries that the walk has been given. -/
def Walker.given (w : Walker) : Nat :=
  match w.pc with
  | .get current _ => seekPos current w.prev
  | .lockNext e | .readNext e | .unlockNext e | .advance e => e + 1

section
variable {t : Tid} {q q' : MsgQueue} {w w' : Walker} {r : Option Nat}

/-- **A step of a walk** is one of the moves. -/
theorem walkStep_move (h : walkStep t q w = some (q', w')) :
    WalkMove t q w (walkReturns t q w) q' w' := by
  unfold walkStep at h
  unfold walkReturns
  split at h
  · rename_i current g hpc
    simp only [hpc]
    split at h
    · cases h
    · rename_i hget
      cases h
      rw [hget]
      exact .seek hpc hget
    · rename_i hget
      cases h
      rw [hget]
      exact .found hpc hget
  · rename_i e hpc
    obtain ⟨q₁, hq, heq⟩ := Option.map_eq_some_iff.mp h
    cases heq
    simp only [hpc]
    exact .lockNext hpc (MsgQueue.entries_acquire hq)
  · rename_i e hpc
    cases h
    simp only [hpc]
    exact .readNext hpc
  · rename_i e hpc
    cases h
    simp only [hpc]
    exact .unlockNext hpc rfl
  · rename_i e hpc
    cases h
    simp only [hpc]
    exact .advance hpc

theorem WalkMove.returns (hmove : WalkMove t q w r q' w') : walkReturns t q w = r := by
  unfold walkReturns
  cases hmove with
  | seek hpc hget | found hpc hget => simp only [hpc, hget]
  | lockNext hpc | readNext hpc | unlockNext hpc | advance hpc => simp only [hpc]

theorem Walker.Placed.mono {len len' : Nat} (h : w.Placed len) (hlen : len ≤ len') :
    w.Placed len' := by
  unfold Placed at h ⊢
  split at h
  · exact h.mono hlen
  iterate 2
    · exact Nat.lt_of_lt_of_le h hlen
  all_goals exact pointers_mono h hlen

theorem Walker.Placed.given_le {len : Nat} (h : w.Placed len) : w.given ≤ len := by
  unfold Placed at h
  unfold given
  split at h
  · exact h.seekPos_le
  iterate 2
    · exact h
  all_goals exact h.1

/-- The entry that a walk was given in the `n`-th place is entry `n` of the queue. -/
theorem Walker.Placed.exists_entry {es : List MsgEntry} {n e : Nat} (h : w.Placed es.length)
    (hn : (List.range w.given)[n]? = some e) : e = n ∧ ∃ entry, es[n]? = some entry := by
  obtain ⟨hlt, rfl⟩ := List.getElem?_eq_some_iff.mp hn
  rw [List.length_range] at hlt
  have hlen : n < es.length := Nat.lt_of_lt_of_le hlt h.given_le
  exact ⟨List.getElem_range _, es[n], List.getElem?_eq_getElem hlen⟩

/-- A step of a walk leaves the entries alone. -/
theorem WalkMove.entries (hmove : WalkMove t q w r q' w') : q'.entries = q.entries := by
  cases hmove with
  | seek _ hget | found _ hget => exact entries_getMsgEntry hget
  | lockNext _ hq | unlockNext _ hq => exact hq
  | readNext | advance => rfl

/-- **The pointers** stay in order in every step of a walk. -/
theorem WalkMove.placed (hmove : WalkMove t q w r q' w') (h : w.Placed q.entries.length) :
    w'.Placed q.entries.length := by
  unfold Walker.Placed at h
  cases hmove with
  | seek hpc hget =>
    rw [hpc] at h
    exact getMsgEntry_spec h hget
  | found hpc hget =>
    rw [hpc] at h
    exact (getMsgEntry_spec h hget).1
  | lockNext hpc | unlockNext hpc =>
    rw [hpc] at h
    exact h
  | readNext hpc =>
    rw [hpc] at h
    exact ⟨h, fun x hx => MsgQueue.next_eq_some hx⟩
  | advance hpc =>
    rw [hpc] at h
    refine ⟨fun x hx => (h.2 x hx).1, ?_, fun hne => absurd rfl hne, by simp, by simp, by simp⟩
    rintro p ⟨⟩
    exact h.1

/-- **The next entry**: a walk that was given `n` entries is given entry `n`. -/
theorem WalkMove.range_given (hmove : WalkMove t q w r q' w') (h : w.Placed q.entries.length) :
    List.range w'.given = List.range w.given ++ r.toList := by
  unfold Walker.Placed at h
  cases hmove with
  | seek hpc | lockNext hpc | readNext hpc | unlockNext hpc =>
    simp only [Walker.given, hpc, Option.toList_none, List.append_nil]
  | found hpc hget =>
    rw [hpc] at h
    obtain ⟨-, rfl⟩ := getMsgEntry_spec h hget
    simp only [Walker.given, hpc, Option.toList_some, List.range_succ]
  | advance hpc =>
    rename_i e
    rw [hpc] at h
    have hpos : seekPos w.next (some e) = e + 1 := by
      cases hnext : w.next with
      | none => rfl
      | some x => exact (h.2 x hnext).2
    simp only [Walker.given, hpc, hpos, Option.toList_none, List.append_nil]

end

/-! ## All threads -/

section
variable {s s' : Traversal} {l : WalkLabel} {es : List WalkEvent}

/-- The pointers of every walk are in order. -/
def Traversal.Placed (s : Traversal) : Prop := ∀ i, (s.walkers i).Placed s.queue.entries.length

/-- What a step of the source does to the queue. -/
theorem appendStep_entries {entry : MsgEntry} {q q' : MsgQueue} {a a' : AppendPc}
    (h : appendStep entry q a = some (q', a')) :
    q'.entries = q.entries ++ a.inserts.toList := by
  cases a with
  | lock =>
    obtain ⟨q₁, hq, heq⟩ := Option.map_eq_some_iff.mp h
    cases heq
    rw [MsgQueue.entries_acquire hq]
    exact (List.append_nil _).symm
  | insert entry =>
    cases h
    rfl
  | broadcast | unlock =>
    cases h
    exact (List.append_nil _).symm

/-- **The log of the source**: the queue grows by the entry that is seen to be appended. -/
theorem step_appended (hs : s.step l = some s') :
    s'.queue.entries.zipIdx =
      s.queue.entries.zipIdx ++ (s.observe l).toList.filterMap WalkEvent.appendedEntry := by
  cases l with
  | append entry =>
    obtain ⟨⟨q, a⟩, ha, rfl⟩ := Option.map_eq_some_iff.mp hs
    simp only [appendStep_entries ha, Traversal.observe, appendedEntry_appended]
    cases s.src.inserts with
    | none => simp
    | some entry => simp [List.zipIdx_append]
  | walk i =>
    obtain ⟨⟨q, w⟩, hw, rfl⟩ := Option.map_eq_some_iff.mp hs
    simp only [(walkStep_move hw).entries, Traversal.observe, appendedEntry_returned,
      List.append_nil]
  | wake i =>
    cases hs
    simp [Traversal.observe]

theorem step_length_le (hs : s.step l = some s') :
    s.queue.entries.length ≤ s'.queue.entries.length := by
  have hlen := congrArg List.length (step_appended hs)
  rw [List.length_append, List.length_zipIdx, List.length_zipIdx] at hlen
  omega

/-- **The pointers of every walk** stay in order in every step. -/
theorem step_keeps_placed (h : s.Placed) (hs : s.step l = some s') : s'.Placed := by
  have hlen := step_length_le hs
  cases l with
  | append entry =>
    obtain ⟨⟨q, a⟩, -, rfl⟩ := Option.map_eq_some_iff.mp hs
    exact fun i => (h i).mono hlen
  | walk i =>
    obtain ⟨⟨q, w⟩, hw, rfl⟩ := Option.map_eq_some_iff.mp hs
    intro j
    by_cases hj : j = i
    · subst hj
      simp only [Function.update_self]
      exact ((walkStep_move hw).placed (h j)).mono hlen
    · simp only [Function.update_of_ne hj]
      exact (h j).mono hlen
  | wake i =>
    cases hs
    exact h

theorem reachable_placed (h : traversal.Reachable s) : s.Placed := by
  refine LTS.Reachable.invariant_ofFn (I := Traversal.Placed) ?_ (fun _ _ _ => step_keeps_placed) h
  exact fun i => ⟨by simp, by simp [Traversal.init, Walker.init], fun _ => rfl, by simp, by simp,
    by simp⟩

/-- **The log of a walk**: a thread is given the entry that is seen to be returned to it. -/
theorem step_returned (i : Nat) (h : s.Placed) (hs : s.step l = some s') :
    List.range (s'.walkers i).given = List.range (s.walkers i).given ++
      (s.observe l).toList.filterMap (WalkEvent.returnedTo i) := by
  cases l with
  | append entry =>
    obtain ⟨⟨q, a⟩, -, rfl⟩ := Option.map_eq_some_iff.mp hs
    simp only [Traversal.observe, returnedTo_appended, List.append_nil]
  | walk j =>
    obtain ⟨⟨q, w⟩, hw, rfl⟩ := Option.map_eq_some_iff.mp hs
    have hrange := (walkStep_move hw).range_given (h j)
    simp only [Traversal.observe]
    by_cases hj : j = i
    · subst hj
      rw [Function.update_self, hrange, returnedTo_self]
    · rw [Function.update_of_ne (Ne.symm hj), returnedTo_of_ne _ hj, List.append_nil]
  | wake j =>
    cases hs
    simp [Traversal.observe]

theorem appended_eq_zipIdx (h : traversal.Observed Traversal.observe es s) :
    appended es = s.queue.entries.zipIdx := by
  refine h.filterMap_eq (L := fun s => s.queue.entries.zipIdx) ?_ ?_
  · rintro s rfl
    rfl
  · exact fun _ _ _ _ hs => step_appended hs

theorem returned_eq_range (h : traversal.Observed Traversal.observe es s) (i : Nat) :
    returned i es = List.range (s.walkers i).given := by
  refine h.filterMap_eq (L := fun s => List.range (s.walkers i).given) ?_ ?_
  · rintro s rfl
    rfl
  · exact fun _ _ _ hr hs => step_returned i (reachable_placed hr) hs

/-- **The walk neither skips nor repeats**: the entry returned to a thread in the `n`-th
place is the one that was appended in the `n`-th place, and none is returned twice. -/
theorem returned_eq_appended (h : traversal.Observed Traversal.observe es s) (i : Nat) :
    (returned i es).Nodup ∧ ∀ n e : Nat, (returned i es)[n]? = some e →
      ∃ entry, (appended es)[n]? = some (entry, e) ∧ s.queue.entries[e]? = some entry := by
  rw [returned_eq_range h, appended_eq_zipIdx h]
  refine ⟨List.nodup_range, fun n e hn => ?_⟩
  obtain ⟨rfl, entry, hentry⟩ := (reachable_placed h.reachable i).exists_entry hn
  refine ⟨entry, ?_, hentry⟩
  rw [List.getElem?_zipIdx, hentry, Option.map_some, Nat.zero_add]

end

/-- A message with payload `AB`. -/
def walkMsg : CtmpMsg where
  header := ⟨[0xcc, 0, 0, 2, 0, 0, 0, 0], rfl⟩
  data := [0x41, 0x42]
  len := 2
  data_length := rfl

/-- A thread waits for the first entry, and the second one is appended before it asks for
the entry behind the first. -/
def walkLabels : List WalkLabel :=
  List.replicate 3 (.walk 0) ++ List.replicate 4 (.append (initMsgEntry ⟨1, 0⟩ walkMsg)) ++
    List.replicate 3 (.walk 0) ++ List.replicate 4 (.append (initMsgEntry ⟨2, 0⟩ walkMsg)) ++
    List.replicate 5 (.walk 0)

/-- Both entries are returned. -/
theorem returned_eq_appended_waiting :
    ∃ es s, traversal.Observed Traversal.observe es s ∧ returned 0 es = [0, 1] ∧
      (returned 0 es).Nodup ∧ ∀ n e : Nat, (returned 0 es)[n]? = some e →
        ∃ entry, (appended es)[n]? = some (entry, e) ∧ s.queue.entries[e]? = some entry := by
  obtain ⟨s, h, -⟩ := LTS.exists_observed Traversal.step Traversal.observe .init walkLabels
    (fun s => s.queue.entries.length = 2) (by decide)
  exact ⟨_, s, h, by decide, returned_eq_appended h 0⟩

end WireStorm
