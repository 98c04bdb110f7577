import WireStorm.QueueMemory
import WireStorm.Server

/-!
# Calls on the queue in memory

The calls that the threads make on the queue (`QueueCall`): the source thread puts messages
into it, the workers and the cleanup worker walk along it, each with a pointer of its own, and
look at the entries, send them, mark them and free them. On values these are the functions of
`Queue.lean` (`QueueCall.apply`), in memory the programs of `QueueMemory.lean`
(`QueueCall.runAt`), which know an entry by its address alone.

Any calls one after another return in memory what they return on values, and leave the blocks
of the linked queue and no others (`queue_memory`). A pointer stays good while other threads
append and free. Where a call follows a null pointer or touches data that has been freed, there
is a fault, and nowhere else.
-/

namespace WireStorm

open Heap (Allocator Assertion Crashes Faults Implements Prog Returns Triple callAll exitAll runAll)
open Heap.Assertion

/-! ## The calls -/

/-- A call on an entry. -/
inductive EntryCall
  | canForward (threadIndex : Nat) (recvStart : Timespec)
  | send (sched : List SendEvent)
  | hasSent
  | setSent (threadIndex : Nat) (val : Bool)
  | cleanUp (now : Timespec)

/-- A call of a thread; `r` is one of the pointers `current`, `prev` and `next` of the threads,
and `c` the source connection. -/
inductive QueueCall
  | receive (c : Conn) (now : Timespec)
  | first (r : Nat)
  | next (r : Nat)
  | assign (r r' : Nat)
  | onEntry (r : Nat) (call : EntryCall)

/-- What a call returns. -/
inductive Reply
  | received (log : List ParseError) (conn : Conn)
  | walked
  | test (b : Bool)
  | sent (s : Sent)
  | done

/-! ## On values -/

/-- The queue, and the positions of the entries that the threads have pointers to. -/
structure QueueView where
  entries : List MsgEntry
  current : Nat → Option Nat

def QueueView.init : QueueView := ⟨[], fun _ => none⟩

def QueueView.setCurrent (q : QueueView) (r : Nat) (e : Option Nat) : QueueView :=
  { q with current := Function.update q.current r e }

theorem QueueView.entries_setCurrent (q : QueueView) (r : Nat) (e : Option Nat) :
    (q.setCurrent r e).entries = q.entries := rfl

/-- A call on an entry; `none` where it touches data that has been freed. -/
def EntryCall.apply (args : Args) (entry : MsgEntry) : EntryCall → Option (Reply × MsgEntry)
  | .canForward i ts => (entry.canForward i ts).map fun b => (.test b, entry)
  | .send sched => entry.msg.map fun m => (.sent (sendCtmpMsg m sched), entry)
  | .hasSent => some (.test entry.sent.isSome, entry)
  | .setSent i val => (entry.setSent i val).map fun entry' => (.done, entry')
  | .cleanUp now =>
    some (.done, if ¬entry.Freed ∧ entry.Expired args now then entry.freeMsgData else entry)

/-- A call; `none` also where it follows a null pointer. -/
def QueueCall.apply (args : Args) (mode : Mode) (host : Endian) :
    QueueCall → QueueView → Option (Reply × QueueView)
  | .receive c now, q =>
    let p := ctmpParse mode host c
    some (.received p.log p.conn,
      { q with entries := q.entries ++ (p.msg.map (initMsgEntry now)).toList })
  | .first r, q =>
    some (.walked, q.setCurrent r (if q.entries.isEmpty then none else some 0))
  | .next r, q => (q.current r).map fun e =>
    (.walked, q.setCurrent r (if e + 1 < q.entries.length then some (e + 1) else none))
  | .assign r r', q => some (.walked, q.setCurrent r (q.current r'))
  | .onEntry r call, q =>
    (q.current r).bind fun e => (q.entries[e]?).bind fun entry =>
      (call.apply args entry).map fun res => (res.1, { q with entries := q.entries.set e res.2 })

/-! ## In memory -/

/-- The head of the queue, and the pointers of the threads. -/
structure QueuePtrs where
  head : QueueHead
  current : Nat → Ptr

def QueuePtrs.init : QueuePtrs := ⟨⟨none, none⟩, fun _ => none⟩

def QueuePtrs.setCurrent (t : QueuePtrs) (r : Nat) (p : Ptr) : QueuePtrs :=
  { t with current := Function.update t.current r p }

/-- Whether `run_cleanup_worker` frees the entry at clock reading `now`. -/
def expiredAt (args : Args) (now : Timespec) (entry : Ptr) : Prog Block Bool := do
  let msg ← loadField entry EntryBlock.msg
  match msg with
  | none => pure false
  | some _ =>
    let timestamp ← loadField entry EntryBlock.timestamp
    pure (compareTimes (timestamp.addSec args.ttl) now)

/-- What `run_cleanup_worker` does with an entry. -/
def cleanUpAt (args : Args) (now : Timespec) (entry : Ptr) : Prog Block Unit := do
  let expired ← expiredAt args now entry
  if expired then freeMsgDataAt entry else pure ()

/-- A call on the entry at a pointer. -/
def EntryCall.runAt (args : Args) (entry : Ptr) : EntryCall → Prog Block Reply
  | .canForward i ts => do
    let b ← canForwardAt entry i ts
    pure (.test b)
  | .send sched => do
    let msg ← loadField entry EntryBlock.msg
    let s ← sendCtmpMsgAt msg sched
    pure (.sent s)
  | .hasSent => do
    let sent ← loadField entry EntryBlock.sent
    pure (.test sent.isSome)
  | .setSent i val => do
    setSentAt entry i val
    pure .done
  | .cleanUp now => do
    cleanUpAt args now entry
    pure .done

/-- A call. -/
def QueueCall.runAt (args : Args) (mode : Mode) (host : Endian) (alloc : Allocator) :
    QueueCall → QueuePtrs → Prog Block (Reply × QueuePtrs)
  | .receive c now, t => do
    let p ← ctmpParseAt mode host alloc c
    match p.msg with
    | none => pure (.received p.log p.conn, t)
    | some _ =>
      let entry ← initMsgEntryAt alloc now p.msg
      let head ← insertTailAt t.head entry
      pure (.received p.log p.conn, { t with head := head })
  | .first r, t => pure (.walked, t.setCurrent r t.head.first)
  | .next r, t => do
    let next ← nextAt (t.current r)
    pure (.walked, t.setCurrent r next)
  | .assign r r', t => pure (.walked, t.setCurrent r (t.current r'))
  | .onEntry r call, t => do
    let reply ← call.runAt args (t.current r)
    pure (reply, t)

/-! ## Calls on an entry -/

section
variable {args : Args} {p i : Nat} {next : Option Ptr} {entry entry' : MsgEntry} {now : Timespec}
  {sched : List SendEvent}

theorem sendEntry_returns {m : CtmpMsg} (hmsg : entry.msg = some m) :
    Returns (entryAt p next entry) (EntryCall.runAt args (some p) (.send sched))
      (.sent (sendCtmpMsg m sched)) (entryAt p next entry) := by
  refine Returns.onEntry fun msg sent => Returns.le ?_ (le_entryAt msg sent)
  refine (loadField_owned EntryBlock.msg rfl).next ?_
  have hsend : Returns (entryOwned p next entry msg sent) (sendCtmpMsgAt msg sched)
      (sendCtmpMsg m sched) (entryOwned p next entry msg sent) := by
    rw [entryOwned, hmsg]
    refine Returns.frameLeft (Returns.frameLeft ?_ _) _
    cases msg with
    | none => exact Triple.bot
    | some a =>
      refine Triple.of_iSup fun d => Returns.le (sendCtmpMsgAt_returns sched) ?_
      exact le_iSup (fun d => msgOwned a d m) d
  exact hsend.next Returns.pure

theorem sendEntry_faults (hmsg : entry.msg = none) :
    Faults (entryAt p next entry) (EntryCall.runAt args (some p) (.send sched)) := by
  refine Faults.onEntry fun msg sent => ?_
  cases msg with
  | none =>
    refine (loadField_owned EntryBlock.msg rfl).faults ?_
    exact Faults.bind (sendCtmpMsgAt_faults sched)
  | some a =>
    rw [entryOwned_bot_msg (by simp [hmsg])]
    exact Faults.bot

/-- The pointer to the mask tells whether it is still there. -/
theorem hasSentEntry_returns :
    Returns (entryAt p next entry) (EntryCall.runAt args (some p) .hasSent)
      (.test entry.sent.isSome) (entryAt p next entry) := by
  refine Returns.onEntry fun msg sent => Returns.le ?_ (le_entryAt msg sent)
  by_cases hsome : sent.isSome = entry.sent.isSome
  · rw [← hsome]
    exact (loadField_owned EntryBlock.sent rfl).next Returns.pure
  · rw [entryOwned_bot hsome]
    exact Triple.bot

theorem expiredAt_returns :
    Returns (entryAt p next entry) (expiredAt args now (some p))
      (decide (¬entry.Freed ∧ entry.Expired args now)) (entryAt p next entry) := by
  refine Returns.onEntry fun msg sent => Returns.le ?_ (le_entryAt msg sent)
  refine (loadField_owned EntryBlock.msg rfl).next ?_
  by_cases hsome : msg.isSome = entry.msg.isSome
  · cases msg with
    | none =>
      have hfreed : entry.Freed := Option.not_isSome_iff_eq_none.mp (by simp [← hsome])
      simp only [hfreed, not_true_eq_false, false_and, decide_false]
      exact Returns.pure
    | some a =>
      have hheld : ¬entry.Freed := MsgEntry.not_freed_iff.mpr hsome.symm
      refine (loadField_owned EntryBlock.timestamp rfl).next ?_
      simp only [hheld, not_false_eq_true, true_and, MsgEntry.Expired, Bool.decide_eq_true]
      exact Returns.pure
  · rw [entryOwned_bot_msg hsome]
    exact Triple.bot

/-- An entry is freed once, when its time to live has passed. -/
theorem cleanUpAt_returns :
    Returns (entryAt p next entry) (cleanUpAt args now (some p)) ()
      (entryAt p next
        (if ¬entry.Freed ∧ entry.Expired args now then entry.freeMsgData else entry)) := by
  refine expiredAt_returns.next ?_
  by_cases hexpired : ¬entry.Freed ∧ entry.Expired args now
  · rw [if_pos (by simpa using hexpired), if_pos hexpired]
    exact freeMsgDataAt_returns
  · rw [if_neg (by simpa using hexpired), if_neg hexpired]
    exact Returns.pure

/-- **A call on an entry** returns what it returns on values, and leaves the entry that it leaves
there. -/
theorem EntryCall.runAt_returns {call : EntryCall} {res : Reply × MsgEntry}
    (h : call.apply args entry = some res) :
    Returns (entryAt p next entry) (call.runAt args (some p)) res.1 (entryAt p next res.2) := by
  cases call with
  | canForward i ts =>
    obtain ⟨b, hb, rfl⟩ := Option.map_eq_some_iff.mp h
    exact (canForwardAt_returns hb).next Returns.pure
  | send sched =>
    obtain ⟨m, hm, rfl⟩ := Option.map_eq_some_iff.mp h
    exact sendEntry_returns hm
  | hasSent =>
    cases h
    exact hasSentEntry_returns
  | setSent i val =>
    obtain ⟨entry', hset, rfl⟩ := Option.map_eq_some_iff.mp h
    exact (setSentAt_returns hset).next Returns.pure
  | cleanUp now =>
    cases h
    exact cleanUpAt_returns.next Returns.pure

/-- **A call that touches freed data** makes a fault. -/
theorem EntryCall.runAt_faults {call : EntryCall} (h : call.apply args entry = none) :
    Faults (entryAt p next entry) (call.runAt args (some p)) := by
  cases call with
  | canForward i ts => exact (canForwardAt_faults (Option.map_eq_none_iff.mp h)).bind
  | send sched => exact sendEntry_faults (Option.map_eq_none_iff.mp h)
  | setSent i val => exact (setSentAt_faults (Option.map_eq_none_iff.mp h)).bind
  | hasSent | cleanUp => cases h

/-- A call on a null pointer. -/
theorem EntryCall.runAt_null {P : Assertion Block} (call : EntryCall) :
    Faults P (call.runAt args none) := by
  have hload : ∀ {γ : Type} (field : EntryBlock → Option γ), Faults P (loadField none field) :=
    fun _ _ _ _ => rfl
  cases call with
  | canForward => exact (hload _).bind.bind
  | send | hasSent => exact (hload _).bind
  | setSent => exact (hload _).bind.bind
  | cleanUp => exact (hload _).bind.bind.bind

end

/-! ## The queue and its pointers -/

/-- The pointers stand for the entries at these positions, the addresses being `addr`. -/
structure QueueView.Points (q : QueueView) (addr : Nat → Nat) (t : QueuePtrs) : Prop where
  head : t.head = headAt addr q.entries.length
  current : ∀ r, t.current r = (q.current r).map addr
  valid : ∀ r e, q.current r = some e → e < q.entries.length

/-- **The memory of the queue**, for threads with these pointers. -/
def queueOf (q : QueueView) (t : QueuePtrs) : Assertion Block :=
  ⨆ addr : Nat → Nat, fact (q.Points addr t) * queueAt addr q.entries

section
variable {args : Args} {mode : Mode} {host : Endian} {alloc : Allocator} {q : QueueView}
  {t : QueuePtrs} {addr : Nat → Nat} {r : Nat}

theorem le_queueOf (h : q.Points addr t) : queueAt addr q.entries ≤ queueOf q t := by
  have hle := le_iSup (fun addr => fact (q.Points addr t) * queueAt addr q.entries) addr
  rwa [fact_of h, one_mul] at hle

/-- A pointer of a thread is set to an entry, or to no entry. -/
theorem QueueView.Points.set (h : q.Points addr t) {e : Option Nat}
    (he : ∀ x, e = some x → x < q.entries.length) :
    (q.setCurrent r e).Points addr (t.setCurrent r (e.map addr)) where
  head := h.head
  current r' := by
    show Function.update t.current r (e.map addr) r' = (Function.update q.current r e r').map addr
    by_cases hr : r' = r
    · rw [hr, Function.update_self, Function.update_self]
    · rw [Function.update_of_ne hr, Function.update_of_ne hr, h.current r']
  valid r' x hx := by
    have hx' : Function.update q.current r e r' = some x := hx
    by_cases hr : r' = r
    · rw [hr, Function.update_self] at hx'
      exact he x hx'
    · rw [Function.update_of_ne hr] at hx'
      exact h.valid r' x hx'

/-- An entry is linked behind the last one: no pointer to another one changes. -/
theorem QueueView.Points.append (h : q.Points addr t) (entry : MsgEntry) (p : Nat) :
    QueueView.Points { q with entries := q.entries ++ [entry] }
      (Function.update addr q.entries.length p)
      { t with
        head := headAt (Function.update addr q.entries.length p) (q.entries.length + 1) } where
  head := by rw [List.length_append, List.length_singleton]
  current r := by
    rw [h.current r]
    cases hr : q.current r with
    | none => rfl
    | some e =>
      rw [Option.map_some, Option.map_some, Function.update_of_ne (h.valid r e hr).ne]
  valid r e hr := by
    rw [List.length_append]
    exact Nat.lt_add_right _ (h.valid r e hr)

/-- What a call exits with: there is no room, and there are the queue that the call was given
and at most three blocks more. -/
def exitsWith (alloc : Allocator) (q : QueueView) : Heap Block → Assertion Block :=
  alloc.noRoom (atMost 3 * ⨆ t : QueuePtrs, queueOf q t)

/-- A program that exits where there is no room for a block, beside the queue. -/
theorem beside_queue {γ : Type} {P : Assertion Block} {m : Prog Block γ} {Q : γ → Assertion Block}
    {n : Nat} (hn : n ≤ 3) (h : q.Points addr t) (hm : Triple (alloc.noRoom (atMost n)) P m Q) :
    Triple (exitsWith alloc q) (P * queueAt addr q.entries) m
      fun a => Q a * queueAt addr q.entries := by
  refine (hm.frame _).weaken fun h' => ?_
  show fact _ * atMost n * queueAt addr q.entries ≤ fact _ * (atMost 3 * _)
  rw [mul_assoc]
  refine mul_le_mul_right (mul_le_mul' ?_ ?_) _
  · exact le_def.mpr fun g hg => le_trans hg hn
  · exact (le_queueOf h).trans (le_iSup (fun t => queueOf q t) t)

/-- **A message is received**: the parser and `init_msg_entry` make an entry of it, which is
linked behind the others. -/
theorem receive_triple (c : Conn) (now : Timespec) {res : Reply × QueueView}
    (h : QueueCall.apply args mode host (.receive c now) q = some res) :
    Triple (exitsWith alloc q) (queueOf q t)
      (QueueCall.runAt args mode host alloc (.receive c now) t)
      fun a => fact (a.1 = res.1) * queueOf res.2 a.2 := by
  cases h
  refine Triple.of_iSup fun addr => Triple.of_fact fun hpoints => ?_
  have hparse := beside_queue (by omega) hpoints (ctmpParseAt_triple mode host alloc c)
  rw [one_mul] at hparse
  refine hparse.bind fun p => ?_
  rw [parsedAs, mul_assoc]
  refine Triple.of_fact fun ⟨hlog, hconn⟩ => ?_
  rw [← hlog, ← hconn]
  obtain ⟨msg, log, conn⟩ := p
  cases hmsg : (ctmpParse mode host c).msg with
  | none =>
    cases msg with
    | none =>
      refine Triple.pure ?_
      rw [fact_of rfl, one_mul, Option.map_none, Option.toList_none, List.append_nil]
      exact (one_mul _).le.trans (le_queueOf hpoints)
    | some a =>
      rw [show msgAt (some a) none = (⊥ : Assertion Block) from rfl, Quantale.bot_mul]
      exact Triple.bot
  | some m =>
    cases msg with
    | none =>
      rw [show msgAt none (some m) = (⊥ : Assertion Block) from rfl, Quantale.bot_mul]
      exact Triple.bot
    | some a =>
      refine (beside_queue le_rfl hpoints (initMsgEntryAt_triple alloc now)).bind fun e => ?_
      rw [iSup_mul_eq]
      refine Triple.of_iSup fun p => ?_
      rw [mul_assoc]
      refine Triple.of_fact fun he => ?_
      rw [he, hpoints.head]
      refine insertTailAt_returns.next (Triple.pure ?_)
      rw [fact_of rfl, one_mul]
      exact le_queueOf (hpoints.append (initMsgEntry now m) p)

/-- A call that needs the queue alone, at each of its addresses. -/
theorem Triple.onQueue {γ : Type} {m : Prog Block γ} {E : Heap Block → Assertion Block}
    {Q : γ → Assertion Block}
    (hm : ∀ addr, q.Points addr t → Triple E (queueAt addr q.entries) m Q) :
    Triple E (queueOf q t) m Q :=
  Triple.of_iSup fun addr => Triple.of_fact fun h => hm addr h

/-- **A call** does in memory what it does on values. -/
theorem QueueCall.runAt_triple {call : QueueCall} {res : Reply × QueueView} (t : QueuePtrs)
    (h : call.apply args mode host q = some res) :
    Triple (exitsWith alloc q) (queueOf q t) (call.runAt args mode host alloc t)
      fun a => fact (a.1 = res.1) * queueOf res.2 a.2 := by
  have hset : ∀ {addr : Nat → Nat} {e : Option Nat}, q.Points addr t →
      (∀ x, e = some x → x < q.entries.length) → ∀ r,
      queueAt addr q.entries ≤ queueOf (q.setCurrent r e) (t.setCurrent r (e.map addr)) := by
    intro addr e hpoints he r
    have hle := le_queueOf (hpoints.set (r := r) he)
    rwa [QueueView.entries_setCurrent] at hle
  cases call with
  | receive c now => exact receive_triple c now h
  | first r =>
    cases h
    refine Triple.onQueue fun addr hpoints => Triple.pure ?_
    rw [fact_of rfl, one_mul]
    have hfirst : t.head.first =
        (if q.entries.isEmpty then none else some 0 : Option Nat).map addr := by
      rw [hpoints.head, headAt]
      cases q.entries with
      | nil => rfl
      | cons entry es => rfl
    rw [hfirst]
    refine hset hpoints (fun x hx => ?_) r
    split at hx
    · cases hx
    · rename_i hne
      cases hx
      exact List.length_pos_iff.mpr (mt List.isEmpty_iff.mpr hne)
  | next r =>
    obtain ⟨e, he, rfl⟩ := Option.map_eq_some_iff.mp h
    refine Triple.onQueue fun addr hpoints => ?_
    have hlink : linkAt addr q.entries.length e =
        (if e + 1 < q.entries.length then some (e + 1) else none : Option Nat).map addr := by
      unfold linkAt
      split
      · rfl
      · rfl
    rw [QueueCall.runAt, hpoints.current r, he, Option.map_some]
    refine (nextAt_queue (hpoints.valid r e he)).next (Triple.pure ?_)
    rw [fact_of rfl, one_mul, hlink]
    refine hset hpoints (fun x hx => ?_) r
    split at hx
    · cases hx
      assumption
    · cases hx
  | assign r r' =>
    cases h
    refine Triple.onQueue fun addr hpoints => Triple.pure ?_
    rw [fact_of rfl, one_mul, hpoints.current r']
    exact hset hpoints (hpoints.valid r') r
  | onEntry r call =>
    obtain ⟨e, he, h⟩ := Option.bind_eq_some_iff.mp h
    obtain ⟨entry, hentry, h⟩ := Option.bind_eq_some_iff.mp h
    obtain ⟨res, hres, rfl⟩ := Option.map_eq_some_iff.mp h
    refine Triple.onQueue fun addr hpoints => ?_
    rw [QueueCall.runAt, hpoints.current r, he, Option.map_some]
    refine (Returns.atEntry hentry (EntryCall.runAt_returns hres)).next (Triple.pure ?_)
    rw [fact_of rfl, one_mul]
    refine le_queueOf (q := { q with entries := q.entries.set e res.2 }) ⟨?_, hpoints.current, ?_⟩
    · rw [List.length_set]
      exact hpoints.head
    · intro r' e' he'
      rw [List.length_set]
      exact hpoints.valid r' e' he'

/-- **A call that is not allowed** makes a fault. -/
theorem QueueCall.runAt_faults {call : QueueCall} (t : QueuePtrs)
    (h : call.apply args mode host q = none) :
    Faults (queueOf q t) (call.runAt args mode host alloc t) := by
  refine Faults.of_iSup fun addr F h' hh => ?_
  rw [mul_assoc] at hh
  obtain ⟨hpoints, hh⟩ := holds_fact_mul.mp hh
  have hnull : ∀ r, q.current r = none → t.current r = none := fun r hr => by
    rw [hpoints.current r, hr, Option.map_none]
  suffices hf : Faults (queueAt addr q.entries) (call.runAt args mode host alloc t) from hf F h' hh
  cases call with
  | receive | first | assign => cases h
  | next r =>
    have hload : Faults (queueAt addr q.entries) (nextAt (t.current r)) := by
      rw [hnull r (Option.map_eq_none_iff.mp h)]
      exact fun _ _ _ => rfl
    exact hload.bind
  | onEntry r call =>
    refine Faults.bind ?_
    cases hr : q.current r with
    | none =>
      rw [hnull r hr]
      exact call.runAt_null
    | some e =>
      have hentry := List.getElem?_eq_getElem (hpoints.valid r e hr)
      rw [QueueCall.apply, hr, Option.bind_some, hentry, Option.bind_some,
        Option.map_eq_none_iff] at h
      rw [hpoints.current r, hr, Option.map_some]
      exact Faults.atEntry hentry (EntryCall.runAt_faults h)

/-- The queue in memory implements the queue. -/
theorem queue_implements (args : Args) (mode : Mode) (host : Endian) (alloc : Allocator) :
    Implements (exitsWith alloc) queueOf (QueueCall.runAt args mode host alloc)
      (QueueCall.apply args mode host) where
  returns := QueueCall.runAt_triple
  faults := QueueCall.runAt_faults

theorem queueOf_init : (1 : Assertion Block) ≤ queueOf .init .init := by
  have hpoints : QueueView.init.Points (fun _ => 0) .init := ⟨rfl, fun _ => rfl, nofun⟩
  exact le_queueOf hpoints

theorem queueOf_blocks (q : QueueView) (t : QueuePtrs) :
    (queueOf q t).Blocks (q.entries.map MsgEntry.blocks).sum :=
  Blocks.iSup fun _ h hh => queueAt_blocks _ _ h (holds_fact_mul.mp hh).2

/-- **The queue in memory**: any calls of the threads one after another, on a heap with any
contents. If they are allowed on values, they return the same in memory, the pointers of the
threads stand for the same entries, and the heap has the blocks of the linked queue more, and
no others: 4 for each entry, 1 once its data is freed. If one of them is not allowed, there is a
fault. The threads exit only when there is no room for a block on the heap as it is then, which
is the heap they were given, the queue that the calls before have made, and at most three
blocks. -/
theorem queue_memory (args : Args) (mode : Mode) (host : Endian) (alloc : Allocator)
    (calls : List QueueCall) (h : Heap Block) :
    (∃ part, runAll (QueueCall.runAt args mode host alloc) calls .init h =
        .error (.exited (part ∪ h)) ∧ part.Disjoint h ∧ alloc.pick (part ∪ h).keys = none ∧
        ∃ before r t, before <+: calls ∧
          callAll (QueueCall.apply args mode host) before .init = some r ∧
          (atMost 3 * queueOf r.2 t).Holds part) ∨
      match callAll (QueueCall.apply args mode host) calls .init with
      | none => runAll (QueueCall.runAt args mode host alloc) calls .init h = .error .fault
      | some (replies, q) => ∃ t part,
        runAll (QueueCall.runAt args mode host alloc) calls .init h =
          .ok ((replies, t), part ∪ h) ∧ part.Disjoint h ∧ (queueOf q t).Holds part ∧
        part.keys.card = (q.entries.map MsgEntry.blocks).sum := by
  have himpl := queue_implements args mode host alloc
  have hexit : ∀ {g part : Heap Block}, (exitAll (QueueCall.apply args mode host)
      (exitsWith alloc) calls .init g).Holds part → alloc.pick g.keys = none ∧
        ∃ before r t, before <+: calls ∧
          callAll (QueueCall.apply args mode host) before .init = some r ∧
          (atMost 3 * queueOf r.2 t).Holds part := by
    intro g part hg
    simp only [exitAll, iSup_apply, holds_iSup] at hg
    obtain ⟨before, r, ⟨hbefore, hcalls⟩, hg⟩ := hg
    obtain ⟨hpick, g₁, g₂, hmore, hqueue, hd, heq⟩ := holds_fact_mul.mp hg
    obtain ⟨t, hqueue⟩ := holds_iSup.mp hqueue
    exact ⟨hpick, before, r, t, hbefore, hcalls, g₁, g₂, hmore, hqueue, hd, heq⟩
  cases hcalls : callAll (QueueCall.apply args mode host) calls .init with
  | none =>
    have hcrash := (himpl.runAll_crashes .init hcalls).conseq le_rfl queueOf_init
    rcases hcrash.run h with hfault | ⟨part, hrun, hd, he⟩
    · exact .inr hfault
    · exact .inl ⟨part, hrun, hd, hexit he⟩
  | some r =>
    have hreturns := (himpl.runAll_returns .init hcalls).conseq queueOf_init fun _ => le_rfl
    rcases hreturns.run h with ⟨part, hrun, hd, he⟩ | ⟨⟨replies, t⟩, part, hrun, hd, hpost⟩
    · exact .inl ⟨part, hrun, hd, hexit he⟩
    · obtain ⟨rfl, hqueue⟩ := holds_fact_mul.mp hpost
      exact .inr ⟨t, part, hrun, hd, hqueue, queueOf_blocks _ _ _ hqueue⟩

end

end WireStorm
