import Mathlib.Logic.Function.Basic
import WireStorm.Bitmask
import WireStorm.Ctmp.Message
import WireStorm.Timestamp

/-!
# The message queue

`lib/msg_queue.c`: the entries, the mutex `msg_lock` and the condition variable
`msg_cond` (`MsgQueue`), and `get_msg_entry` one step at a time
(`getMsgEntry`). Entries are only ever inserted at the tail and never unlinked,
so a pointer to an entry is its position in the queue.
-/

namespace WireStorm

/-- The threads of the server. -/
inductive Tid
  | src
  | dispatcher
  | cleanup
  | worker (i : Nat)
  deriving DecidableEq, Repr

/-! ## Entries -/

/-- `struct msg_entry`: `none` stands for `NULL`. `carried` is not in the struct;
it remembers the message that the entry was made for once `msg` is freed. The
message and the mask are freed together. -/
structure MsgEntry where
  timestamp : Timespec
  carried : CtmpMsg
  msg : Option CtmpMsg
  sent : Option (BitVec 64)
  msg_eq : ∀ m, msg = some m → m = carried
  freed_iff : msg = none ↔ sent = none

/-- `init_msg_entry` at clock reading `timestamp`. -/
def initMsgEntry (timestamp : Timespec) (msg : CtmpMsg) : MsgEntry where
  timestamp := timestamp
  carried := msg
  msg := some msg
  sent := some 0
  msg_eq _ h := (Option.some.inj h).symm
  freed_iff := by simp

namespace MsgEntry

/-- The data of the entry has been freed. -/
def Freed (entry : MsgEntry) : Prop := entry.msg = none

instance (entry : MsgEntry) : Decidable entry.Freed :=
  decidable_of_iff (entry.msg.isNone = true) Option.isNone_iff_eq_none

theorem not_freed_iff {entry : MsgEntry} : ¬entry.Freed ↔ entry.msg.isSome = true := by
  rw [Freed, Option.isSome_iff_ne_none]

/-- `free_msg_data`. -/
def freeMsgData (entry : MsgEntry) : MsgEntry :=
  { entry with msg := none, sent := none, msg_eq := nofun, freed_iff := by simp }

/-- `is_sent`; `none` when the mask is `NULL`. -/
def isSent (entry : MsgEntry) (threadIndex : Nat) : Option Bool :=
  entry.sent.map (isSet · threadIndex)

/-- `set_sent`; `none` when the mask is `NULL`. -/
def setSent (entry : MsgEntry) (threadIndex : Nat) (val : Bool) : Option MsgEntry :=
  match h : entry.sent with
  | none => none
  | some mask => some { entry with
      sent := some (setBit mask threadIndex val)
      freed_iff := by simp [entry.freed_iff, h] }

/-- `can_forward`: the timestamps are compared before the mask is read. -/
def canForward (entry : MsgEntry) (threadIndex : Nat) (recvStart : Timespec) : Option Bool :=
  if compareTimes recvStart entry.timestamp then
    (entry.isSent threadIndex).map (! ·)
  else
    some false

/-- What no step on an entry changes: its timestamp and the message it carries. -/
def SameMsg (entry entry' : MsgEntry) : Prop :=
  entry'.timestamp = entry.timestamp ∧ entry'.carried = entry.carried

theorem SameMsg.trans {a b c : MsgEntry} (h : a.SameMsg b) (h' : b.SameMsg c) : a.SameMsg c :=
  ⟨h'.1.trans h.1, h'.2.trans h.2⟩

theorem freeMsgData_sameMsg (entry : MsgEntry) : entry.SameMsg entry.freeMsgData := ⟨rfl, rfl⟩

/-- `set_sent` changes the mask alone. -/
theorem setSent_eq_some {entry entry' : MsgEntry} {i : Nat} {val : Bool}
    (h : entry.setSent i val = some entry') :
    entry.SameMsg entry' ∧ entry'.msg = entry.msg ∧
      ∃ mask, entry.sent = some mask ∧ entry'.sent = some (setBit mask i val) := by
  unfold setSent at h
  split at h
  · cases h
  · rename_i mask hmask
    cases h
    exact ⟨⟨rfl, rfl⟩, rfl, mask, hmask, rfl⟩

theorem setSent_eq_none {entry : MsgEntry} {i : Nat} {val : Bool} :
    entry.setSent i val = none ↔ entry.Freed := by
  unfold setSent Freed
  split
  · rename_i h
    simp [entry.freed_iff, h]
  · rename_i mask h
    simp [entry.freed_iff, h]

theorem canForward_eq_some_true {entry : MsgEntry} {i : Nat} {ts : Timespec} :
    entry.canForward i ts = some true ↔
      ts < entry.timestamp ∧ entry.isSent i = some false := by
  unfold canForward
  split
  · rename_i h
    rw [compareTimes_iff] at h
    simp [h]
  · rename_i h
    rw [compareTimes_iff] at h
    simp [h]

theorem canForward_eq_some_false {entry : MsgEntry} {i : Nat} {ts : Timespec} :
    entry.canForward i ts = some false ↔
      ¬ts < entry.timestamp ∨ entry.isSent i = some true := by
  unfold canForward
  split
  · rename_i h
    rw [compareTimes_iff] at h
    simp [h]
  · rename_i h
    rw [compareTimes_iff] at h
    simp [h]

theorem canForward_eq_none {entry : MsgEntry} {i : Nat} {ts : Timespec} :
    entry.canForward i ts = none ↔ ts < entry.timestamp ∧ entry.Freed := by
  unfold canForward isSent Freed
  rw [entry.freed_iff]
  split
  · rename_i h
    rw [compareTimes_iff] at h
    simp [h]
  · rename_i h
    rw [compareTimes_iff] at h
    simp [h]

end MsgEntry

/-! ## The queue -/

/-- The queue, the holder of `msg_lock`, and the threads asleep on `msg_cond`
without a wake-up. -/
structure MsgQueue where
  entries : List MsgEntry
  lock : Option Tid
  asleep : Tid → Bool

namespace MsgQueue

/-- `TAILQ_INIT`. -/
def empty : MsgQueue := ⟨[], none, fun _ => false⟩

/-- `TAILQ_EMPTY`. -/
def isEmpty (q : MsgQueue) : Bool := q.entries.isEmpty

/-- `TAILQ_NEXT`. -/
def next (q : MsgQueue) (e : Nat) : Option Nat :=
  if e + 1 < q.entries.length then some (e + 1) else none

/-- `TAILQ_INSERT_TAIL`. -/
def insertTail (q : MsgQueue) (entry : MsgEntry) : MsgQueue :=
  { q with entries := q.entries ++ [entry] }

def setEntry (q : MsgQueue) (e : Nat) (entry : MsgEntry) : MsgQueue :=
  { q with entries := q.entries.set e entry }

/-- `pthread_mutex_lock(&msg_lock)`, once the mutex is free. -/
def acquire (q : MsgQueue) (t : Tid) : Option MsgQueue :=
  if q.lock = none then some { q with lock := some t } else none

/-- `pthread_mutex_unlock(&msg_lock)`. -/
def release (q : MsgQueue) : MsgQueue := { q with lock := none }

/-- `pthread_cond_wait(&msg_cond, &msg_lock)` up to the wake-up. -/
def wait (q : MsgQueue) (t : Tid) : MsgQueue :=
  { q with lock := none, asleep := Function.update q.asleep t true }

/-- The end of `pthread_cond_wait`: a thread that was woken up takes the mutex again. -/
def resume (q : MsgQueue) (t : Tid) : Option MsgQueue :=
  if q.asleep t = true then none else q.acquire t

/-- `pthread_cond_broadcast(&msg_cond)`. -/
def broadcast (q : MsgQueue) : MsgQueue := { q with asleep := fun _ => false }

/-- A spurious wake-up. -/
def wakeUp (q : MsgQueue) (t : Tid) : MsgQueue :=
  { q with asleep := Function.update q.asleep t false }

section
variable (q : MsgQueue) (t : Tid)

@[simp] theorem entries_insertTail (entry : MsgEntry) :
    (q.insertTail entry).entries = q.entries ++ [entry] := rfl
@[simp] theorem entries_setEntry (e : Nat) (entry : MsgEntry) :
    (q.setEntry e entry).entries = q.entries.set e entry := rfl
@[simp] theorem entries_release : q.release.entries = q.entries := rfl
@[simp] theorem entries_wait : (q.wait t).entries = q.entries := rfl
@[simp] theorem entries_broadcast : q.broadcast.entries = q.entries := rfl
@[simp] theorem entries_wakeUp : (q.wakeUp t).entries = q.entries := rfl

end

theorem entries_acquire {q q' : MsgQueue} {t : Tid} (h : q.acquire t = some q') :
    q'.entries = q.entries := by
  unfold acquire at h
  split at h
  · cases h
    rfl
  · cases h

theorem entries_resume {q q' : MsgQueue} {t : Tid} (h : q.resume t = some q') :
    q'.entries = q.entries := by
  unfold resume at h
  split at h
  · cases h
  · exact entries_acquire h

theorem isEmpty_eq_true {q : MsgQueue} : q.isEmpty = true ↔ q.entries.length = 0 := by
  rw [isEmpty, List.isEmpty_iff_length_eq_zero]

theorem isEmpty_eq_false {q : MsgQueue} : q.isEmpty = false ↔ 0 < q.entries.length := by
  rw [isEmpty, List.isEmpty_eq_false_iff, List.length_pos_iff]

theorem next_eq_none {q : MsgQueue} {e : Nat} : q.next e = none ↔ ¬e + 1 < q.entries.length := by
  simp [next]

theorem next_eq_some {q : MsgQueue} {e x : Nat} (h : q.next e = some x) :
    x < q.entries.length ∧ x = e + 1 := by
  unfold next at h
  split at h
  · rename_i hlt
    cases h
    exact ⟨hlt, rfl⟩
  · cases h

end MsgQueue

/-! ## `get_msg_entry` -/

/-- Where a thread is in `get_msg_entry`. -/
inductive GetPc
  | test
  | lock
  | first
  | waitFirst
  | next (prev : Nat)
  | waitNext (prev : Nat)
  | unlock (newEntry : Nat)
  deriving DecidableEq, Repr

/-- After a step of `get_msg_entry`: go on, or return. -/
inductive GetMsg
  | more (g : GetPc)
  | ret (newEntry : Nat)
  deriving DecidableEq, Repr

/-- A step of `get_msg_entry` by thread `t`. -/
def getMsgEntry (t : Tid) (current prev : Option Nat) (toStart : Bool) (g : GetPc) (q : MsgQueue) :
    Option (MsgQueue × GetMsg) :=
  match g with
  | .test =>
    match current with
    | none => some (q, .more .lock)
    -- leave unchanged
    | some e => some (q, if q.isEmpty then .more .lock else .ret e)
  | .lock =>
    (q.acquire t).map fun q =>
      match prev with
      | none => (q, .more .first)
      | some p => (q, .more (if q.isEmpty then .first else .next p))
  | .first => if q.isEmpty then some (q.wait t, .more .waitFirst) else some (q, .more (.unlock 0))
  | .waitFirst => (q.resume t).map fun q => (q, .more .first)
  | .next p =>
    match q.next p with
    | none => some (q.wait t, .more (.waitNext p))
    | some n => some (q, .more (.unlock (if toStart then 0 else n)))
  | .waitNext p => (q.resume t).map fun q => (q, .more (.next p))
  | .unlock e => some (q.release, .ret e)

/-- What a step of `get_msg_entry` can do. -/
inductive GetMove (t : Tid) (current prev : Option Nat) (toStart : Bool) (q : MsgQueue) :
    GetPc → MsgQueue → GetMsg → Prop
  | enter (hseek : current = none ∨ q.entries.length = 0) :
      GetMove t current prev toStart q .test q (.more .lock)
  | keep {e : Nat} (hcurrent : current = some e) (hpos : 0 < q.entries.length) :
      GetMove t current prev toStart q .test q (.ret e)
  | lockFirst {q' : MsgQueue} (hq : q.acquire t = some q')
      (hfirst : prev = none ∨ q.entries.length = 0) :
      GetMove t current prev toStart q .lock q' (.more .first)
  | lockNext {q' : MsgQueue} {p : Nat} (hq : q.acquire t = some q') (hprev : prev = some p)
      (hpos : 0 < q.entries.length) :
      GetMove t current prev toStart q .lock q' (.more (.next p))
  | sleepFirst (hempty : q.entries.length = 0) :
      GetMove t current prev toStart q .first (q.wait t) (.more .waitFirst)
  | first (hpos : 0 < q.entries.length) :
      GetMove t current prev toStart q .first q (.more (.unlock 0))
  | wakeFirst {q' : MsgQueue} (hq : q.resume t = some q') :
      GetMove t current prev toStart q .waitFirst q' (.more .first)
  | sleepNext {p : Nat} (hlast : ¬p + 1 < q.entries.length) :
      GetMove t current prev toStart q (.next p) (q.wait t) (.more (.waitNext p))
  | next {p : Nat} (hlt : p + 1 < q.entries.length) :
      GetMove t current prev toStart q (.next p) q (.more (.unlock (if toStart then 0 else p + 1)))
  | wakeNext {p : Nat} {q' : MsgQueue} (hq : q.resume t = some q') :
      GetMove t current prev toStart q (.waitNext p) q' (.more (.next p))
  | unlock {e : Nat} : GetMove t current prev toStart q (.unlock e) q.release (.ret e)

/-- **A step of `get_msg_entry`** is one of the moves. -/
theorem getMsgEntry_move {t : Tid} {current prev : Option Nat} {toStart : Bool} {g : GetPc}
    {q q' : MsgQueue} {r : GetMsg} (h : getMsgEntry t current prev toStart g q = some (q', r)) :
    GetMove t current prev toStart q g q' r := by
  cases g with
  | test =>
    cases current with
    | none =>
      cases h
      exact .enter (.inl rfl)
    | some e =>
      cases hempty : q.isEmpty with
      | true =>
        simp only [getMsgEntry, hempty, if_true] at h
        cases h
        exact .enter (.inr (MsgQueue.isEmpty_eq_true.mp hempty))
      | false =>
        simp only [getMsgEntry, hempty, Bool.false_eq_true, if_false] at h
        cases h
        exact .keep rfl (MsgQueue.isEmpty_eq_false.mp hempty)
  | lock =>
    obtain ⟨q₁, hq, heq⟩ := Option.map_eq_some_iff.mp h
    have hentries := MsgQueue.entries_acquire hq
    cases prev with
    | none =>
      cases heq
      exact .lockFirst hq (.inl rfl)
    | some p =>
      cases hempty : q₁.isEmpty with
      | true =>
        simp only [hempty, if_true] at heq
        cases heq
        exact .lockFirst hq (.inr (hentries ▸ MsgQueue.isEmpty_eq_true.mp hempty))
      | false =>
        simp only [hempty, Bool.false_eq_true, if_false] at heq
        cases heq
        exact .lockNext hq rfl (hentries ▸ MsgQueue.isEmpty_eq_false.mp hempty)
  | first =>
    simp only [getMsgEntry] at h
    split at h
    · rename_i hempty
      cases h
      exact .sleepFirst (MsgQueue.isEmpty_eq_true.mp hempty)
    · rename_i hne
      cases h
      exact .first (MsgQueue.isEmpty_eq_false.mp (Bool.eq_false_iff.mpr hne))
  | waitFirst =>
    obtain ⟨q₁, hq, heq⟩ := Option.map_eq_some_iff.mp h
    cases heq
    exact .wakeFirst hq
  | next p =>
    simp only [getMsgEntry] at h
    split at h
    · rename_i hnone
      cases h
      exact .sleepNext (MsgQueue.next_eq_none.mp hnone)
    · rename_i n hsome
      cases h
      obtain ⟨hlt, rfl⟩ := MsgQueue.next_eq_some hsome
      exact .next hlt
  | waitNext p =>
    obtain ⟨q₁, hq, heq⟩ := Option.map_eq_some_iff.mp h
    cases heq
    exact .wakeNext hq
  | unlock e =>
    cases h
    exact .unlock

/-- `get_msg_entry` leaves the entries alone. -/
theorem entries_getMsgEntry {t : Tid} {current prev : Option Nat} {toStart : Bool} {g : GetPc}
    {q q' : MsgQueue} {r : GetMsg} (h : getMsgEntry t current prev toStart g q = some (q', r)) :
    q'.entries = q.entries := by
  cases getMsgEntry_move h with
  | lockFirst hq | lockNext hq => exact MsgQueue.entries_acquire hq
  | wakeFirst hq | wakeNext hq => exact MsgQueue.entries_resume hq
  | enter | keep | sleepFirst | first | sleepNext | next | unlock => rfl

/-- Pointers into a queue stay good when it grows. -/
theorem pointers_mono {len len' e : Nat} {next : Option Nat} {P : Nat → Prop}
    (h : e < len ∧ ∀ x, next = some x → x < len ∧ P x) (hlen : len ≤ len') :
    e < len' ∧ ∀ x, next = some x → x < len' ∧ P x := by
  refine ⟨Nat.lt_of_lt_of_le h.1 hlen, fun x hx => ?_⟩
  exact ⟨Nat.lt_of_lt_of_le (h.2 x hx).1 hlen, (h.2 x hx).2⟩

/-- The position of the entry that `get_msg_entry` returns when it is not told to
go back to the start. -/
def seekPos (current prev : Option Nat) : Nat :=
  match current, prev with
  | some e, _ => e
  | none, some p => p + 1
  | none, none => 0

/-- A call of `get_msg_entry` in a walk over a queue of `len` entries: the pointers
are to entries of the queue, and what it is about to return is the next one. -/
structure Seeking (len : Nat) (current prev : Option Nat) (g : GetPc) : Prop where
  current_lt : ∀ e, current = some e → e < len
  prev_lt : ∀ p, prev = some p → p < len
  current_eq : g ≠ .test → current = none
  first : g = .first ∨ g = .waitFirst → prev = none
  next : ∀ p, g = .next p ∨ g = .waitNext p → prev = some p
  unlock : ∀ e, g = .unlock e → e < len ∧ e = seekPos none prev

theorem Seeking.mono {len len' : Nat} {current prev : Option Nat} {g : GetPc}
    (h : Seeking len current prev g) (hlen : len ≤ len') : Seeking len' current prev g where
  current_lt e he := Nat.lt_of_lt_of_le (h.current_lt e he) hlen
  prev_lt p hp := Nat.lt_of_lt_of_le (h.prev_lt p hp) hlen
  current_eq := h.current_eq
  first := h.first
  next := h.next
  unlock e he := ⟨Nat.lt_of_lt_of_le (h.unlock e he).1 hlen, (h.unlock e he).2⟩

theorem Seeking.seekPos_le {len : Nat} {current prev : Option Nat} {g : GetPc}
    (h : Seeking len current prev g) : seekPos current prev ≤ len := by
  unfold seekPos
  split
  · exact Nat.le_of_lt (h.current_lt _ rfl)
  · exact h.prev_lt _ rfl
  · exact Nat.zero_le _

theorem none_of_empty {len : Nat} {x : Option Nat} (hlt : ∀ e, x = some e → e < len)
    (hempty : len = 0) : x = none := by
  cases hx : x with
  | none => rfl
  | some e => exact absurd (hempty ▸ hlt e hx) (Nat.not_lt_zero e)

/-- **The walk over the queue**: `get_msg_entry` returns the entry at `seekPos`. -/
theorem getMsgEntry_spec {t : Tid} {current prev : Option Nat} {g : GetPc} {q q' : MsgQueue}
    {r : GetMsg} (hg : Seeking q.entries.length current prev g)
    (h : getMsgEntry t current prev false g q = some (q', r)) :
    match r with
      | .more g' => Seeking q.entries.length current prev g'
      | .ret e => e < q.entries.length ∧ e = seekPos current prev := by
  have hnone : g ≠ .test → current = none := hg.current_eq
  cases getMsgEntry_move h with
  | enter hseek =>
    have hcurrent : current = none := hseek.elim id (none_of_empty hg.current_lt)
    exact ⟨hg.current_lt, hg.prev_lt, fun _ => hcurrent, by simp, by simp, by simp⟩
  | keep hcurrent =>
    subst hcurrent
    exact ⟨hg.current_lt _ rfl, rfl⟩
  | lockFirst _ hfirst =>
    have hprev : prev = none := hfirst.elim id (none_of_empty hg.prev_lt)
    exact ⟨hg.current_lt, hg.prev_lt, fun _ => hnone (by simp), fun _ => hprev, by simp, by simp⟩
  | lockNext _ hprev =>
    exact ⟨hg.current_lt, hg.prev_lt, fun _ => hnone (by simp), by simp,
      fun p' hp' => by simpa [hprev] using hp', by simp⟩
  | sleepFirst =>
    exact ⟨hg.current_lt, hg.prev_lt, fun _ => hnone (by simp), fun _ => hg.first (.inl rfl),
      by simp, by simp⟩
  | first hpos =>
    refine ⟨hg.current_lt, hg.prev_lt, fun _ => hnone (by simp), by simp, by simp, ?_⟩
    rintro e ⟨⟩
    rw [hg.first (.inl rfl)]
    exact ⟨hpos, rfl⟩
  | wakeFirst =>
    exact ⟨hg.current_lt, hg.prev_lt, fun _ => hnone (by simp), fun _ => hg.first (.inr rfl),
      by simp, by simp⟩
  | sleepNext =>
    exact ⟨hg.current_lt, hg.prev_lt, fun _ => hnone (by simp), by simp,
      fun p' hp' => by simpa [hg.next _ (.inl rfl)] using hp', by simp⟩
  | next hlt =>
    refine ⟨hg.current_lt, hg.prev_lt, fun _ => hnone (by simp), by simp, by simp, ?_⟩
    rintro e ⟨⟩
    rw [hg.next _ (.inl rfl)]
    exact ⟨hlt, rfl⟩
  | wakeNext =>
    exact ⟨hg.current_lt, hg.prev_lt, fun _ => hnone (by simp), by simp,
      fun p' hp' => by simpa [hg.next _ (.inr rfl)] using hp', by simp⟩
  | unlock =>
    obtain ⟨hlt, he⟩ := hg.unlock _ rfl
    rw [hnone (by simp)]
    exact ⟨hlt, he⟩

end WireStorm
