import WireStorm.Ctmp.Memory
import WireStorm.Queue

/-!
# The message queue in memory

The functions of `lib/msg_queue.c` and the `TAILQ` operations on the blocks of the queue. An
entry of the queue is a struct with a pointer to its message and one to its mask (`entryAt`),
and the entries are linked in their order (`queueAt`). The functions keep that, and do on the
blocks what they do on the values of `Queue.lean`: where that says that a mask is gone, the
pointer to it is `NULL`.
-/

namespace WireStorm

open Heap (Allocator Assertion Faults GivesUp Prog Returns Triple malloc free access exit pointsTo)
open Heap.Assertion

/-! ## Access to entries and masks -/

/-- `malloc(sizeof(struct msg_entry))`. -/
def EntryBlock.fresh : EntryBlock := ⟨none, none, none, none⟩

section
variable {γ : Type}

/-- An access to the `struct msg_entry` at `p`. -/
def onEntry (p : Ptr) (f : EntryBlock → Option (γ × EntryBlock)) : Prog Block γ :=
  access p fun
    | .entry b => (f b).map fun r => (r.1, .entry r.2)
    | _ => none

/-- Read a field. -/
def loadField (p : Ptr) (field : EntryBlock → Option γ) : Prog Block γ :=
  onEntry p fun b => (field b).map (·, b)

/-- Change the entry. -/
def storeField (p : Ptr) (f : EntryBlock → EntryBlock) : Prog Block Unit :=
  onEntry p fun b => some ((), f b)

end

def storeNext (p next : Ptr) : Prog Block Unit := storeField p fun b => { b with next := some next }

/-- `*mask`. -/
def loadMask (p : Ptr) : Prog Block (BitVec 64) :=
  access p fun
    | .mask (some bits) => some (bits, .mask (some bits))
    | _ => none

/-- `*mask = bits`. -/
def storeMask (p : Ptr) (bits : BitVec 64) : Prog Block Unit :=
  access p fun
    | .mask _ => some ((), .mask (some bits))
    | _ => none

/-! ## The functions of `lib/msg_queue.c` -/

/-- `init_msg_entry` at clock reading `now`. -/
def initMsgEntryAt (alloc : Allocator) (now : Timespec) (msg : Ptr) : Prog Block Ptr := do
  let entry ← malloc alloc (.entry .fresh)
  match entry with
  | none => exit
  | some _ =>
    storeField entry fun b => { b with timestamp := some now }
    let sent ← malloc alloc (.mask none)
    storeField entry fun b => { b with sent := some sent }
    match sent with
    | none => exit
    | some _ =>
      storeMask sent 0
      storeField entry fun b => { b with msg := some msg }
      pure entry

/-- `free_msg_data`, with `msg_lock` taken. -/
def freeMsgDataAt (entry : Ptr) : Prog Block Unit := do
  let sent ← loadField entry EntryBlock.sent
  free sent
  storeField entry fun b => { b with sent := some none }
  let msg ← loadField entry EntryBlock.msg
  freeCtmpMsg msg
  storeField entry fun b => { b with msg := some none }

/-- `is_sent`. -/
def isSentAt (entry : Ptr) (threadIndex : Nat) : Prog Block Bool := do
  let sent ← loadField entry EntryBlock.sent
  let mask ← loadMask sent
  pure (isSet mask threadIndex)

/-- `set_sent`. -/
def setSentAt (entry : Ptr) (threadIndex : Nat) (val : Bool) : Prog Block Unit := do
  let sent ← loadField entry EntryBlock.sent
  let mask ← loadMask sent
  storeMask sent (setBit mask threadIndex val)

/-- `can_forward`. -/
def canForwardAt (entry : Ptr) (threadIndex : Nat) (recvStart : Timespec) : Prog Block Bool := do
  let timestamp ← loadField entry EntryBlock.timestamp
  if compareTimes recvStart timestamp then
    let sent ← isSentAt entry threadIndex
    pure !sent
  else
    pure false

/-- `TAILQ_HEAD(msg_queue, msg_entry)`: `last` is the entry whose link comes last, `none` for
the link of the head itself. -/
structure QueueHead where
  first : Ptr
  last : Ptr

/-- `TAILQ_INSERT_TAIL`. -/
def insertTailAt (head : QueueHead) (elm : Ptr) : Prog Block QueueHead := do
  storeNext elm none
  match head.last with
  | none => pure ⟨elm, elm⟩
  | some last =>
    storeNext (some last) elm
    pure ⟨head.first, elm⟩

/-- `TAILQ_NEXT`. -/
def nextAt (elm : Ptr) : Prog Block Ptr := loadField elm EntryBlock.next

/-! ## Entries -/

/-- A pointer to a mask, which owns its memory, or `NULL`. -/
def maskAt : Ptr → Option (BitVec 64) → Assertion Block
  | none, none => 1
  | some p, some bits => pointsTo p (.mask (some bits))
  | _, _ => ⊥

/-- The entry at `p` with its message and its mask. -/
def entryOwned (p : Nat) (next : Option Ptr) (entry : MsgEntry) (msg sent : Ptr) :
    Assertion Block :=
  pointsTo p (.entry ⟨some entry.timestamp, some msg, some sent, next⟩) *
    (maskAt sent entry.sent * msgAt msg entry.msg)

/-- The entry at `p`, whose link is `next`. -/
def entryAt (p : Nat) (next : Option Ptr) (entry : MsgEntry) : Assertion Block :=
  ⨆ (msg : Ptr) (sent : Ptr), entryOwned p next entry msg sent

/-- The number of blocks of an entry: its struct and, until they are freed, its mask, its
message and the data array of that. -/
def MsgEntry.blocks (entry : MsgEntry) : Nat := if entry.msg.isSome then 4 else 1

theorem maskAt_blocks (p : Ptr) (bits : Option (BitVec 64)) :
    (maskAt p bits).Blocks (bits.elim 0 fun _ => 1) := by
  cases p with
  | none =>
    cases bits with
    | none => exact blocks_one
    | some b => exact blocks_bot _
  | some q =>
    cases bits with
    | none => exact blocks_bot _
    | some b => exact Heap.blocks_pointsTo _ _

theorem msgAt_blocks (p : Ptr) (msg : Option CtmpMsg) :
    (msgAt p msg).Blocks (msg.elim 0 fun _ => 2) := by
  cases p with
  | none =>
    cases msg with
    | none => exact blocks_one
    | some m => exact blocks_bot _
  | some q =>
    cases msg with
    | none => exact blocks_bot _
    | some m =>
      exact Blocks.iSup fun d => (Heap.blocks_pointsTo _ _).mul (Heap.blocks_pointsTo _ _)

theorem entryAt_blocks (p : Nat) (next : Option Ptr) (entry : MsgEntry) :
    (entryAt p next entry).Blocks entry.blocks := by
  have heq : entry.blocks =
      1 + ((entry.sent.elim 0 fun _ => 1) + entry.msg.elim 0 fun _ => 2) := by
    have hfreed : entry.msg = none ↔ entry.sent = none := entry.freed_iff
    cases hmsg : entry.msg with
    | none => simp [MsgEntry.blocks, hmsg, hfreed.mp hmsg]
    | some m =>
      cases hsent : entry.sent with
      | none => simp [hmsg] at hfreed; exact absurd hsent hfreed
      | some bits => simp [MsgEntry.blocks, hmsg]
  rw [heq]
  refine Blocks.iSup fun msg => Blocks.iSup fun sent => ?_
  exact (Heap.blocks_pointsTo _ _).mul ((maskAt_blocks _ _).mul (msgAt_blocks _ _))

section
variable {γ : Type} {p i : Nat} {b : EntryBlock} {entry entry' : MsgEntry} {next : Option Ptr}
  {msg sent : Ptr}

theorem onEntry_returns {f : EntryBlock → Option (γ × EntryBlock)} {r : γ} {b' : EntryBlock}
    (hf : f b = some (r, b')) :
    Returns (pointsTo p (.entry b)) (onEntry (some p) f) r (pointsTo p (.entry b')) :=
  Heap.access_returns (by simp [hf])

theorem loadField_returns (field : EntryBlock → Option γ) {v : γ} (hv : field b = some v) :
    Returns (pointsTo p (.entry b)) (loadField (some p) field) v (pointsTo p (.entry b)) :=
  onEntry_returns (by rw [hv]; rfl)

theorem storeField_returns (f : EntryBlock → EntryBlock) :
    Returns (pointsTo p (.entry b)) (storeField (some p) f) () (pointsTo p (.entry (f b))) :=
  onEntry_returns rfl

theorem storeMask_returns {m : Option (BitVec 64)} (bits : BitVec 64) :
    Returns (pointsTo p (.mask m)) (storeMask (some p) bits) () (pointsTo p (.mask (some bits))) :=
  Heap.access_returns rfl

theorem le_entryAt (msg sent : Ptr) : entryOwned p next entry msg sent ≤ entryAt p next entry :=
  le_iSup₂_of_le msg sent le_rfl

/-- The pointer is `NULL` when there is no mask, and only then. -/
theorem maskAt_bot {bits : Option (BitVec 64)} (hne : sent.isSome ≠ bits.isSome) :
    maskAt sent bits = ⊥ := by
  cases bits with
  | none =>
    cases sent with
    | none => exact absurd rfl hne
    | some q => rfl
  | some b =>
    cases sent with
    | none => rfl
    | some q => exact absurd rfl hne

/-- The pointer to the mask is `NULL` when the mask is gone, and only then. -/
theorem entryOwned_bot (hne : sent.isSome ≠ entry.sent.isSome) :
    entryOwned p next entry msg sent = ⊥ := by
  rw [entryOwned, maskAt_bot hne, Quantale.bot_mul, Quantale.mul_bot]

/-- The pointer to the message is `NULL` when the message is gone, and only then. -/
theorem entryOwned_bot_msg (hne : msg.isSome ≠ entry.msg.isSome) :
    entryOwned p next entry msg sent = ⊥ := by
  rw [entryOwned, msgAt_bot hne, Quantale.mul_bot, Quantale.mul_bot]

/-- A program that keeps an entry may be proved for each of its pointers. -/
theorem Returns.onEntry {prog : Prog Block γ} {v : γ} {Q : Assertion Block}
    (hr : ∀ msg sent, Returns (entryOwned p next entry msg sent) prog v Q) :
    Returns (entryAt p next entry) prog v Q :=
  Triple.of_iSup fun msg => Triple.of_iSup fun sent => hr msg sent

/-- **`init_msg_entry`** makes an entry of a message. Where there is no room for the entry or
for its mask, the message is left, with the entry if there was room for that. -/
theorem initMsgEntryAt_triple {m : CtmpMsg} (alloc : Allocator) (now : Timespec) :
    Triple (alloc.noRoom (atMost 3)) (msgAt msg (some m)) (initMsgEntryAt alloc now msg) fun r =>
      ⨆ p, fact (r = some p) * entryAt p none (initMsgEntry now m) := by
  have hmsg : (msgAt msg (some m)).Blocks 2 := msgAt_blocks msg (some m)
  refine Heap.malloc_bind (Heap.exit_givesUp.le (hmsg.le_atMost (by omega))) fun p => ?_
  refine ((storeField_returns _).frame _).next (Heap.malloc_bind ?_ fun q => ?_)
  · have hexit : ∀ b, GivesUp alloc (pointsTo p (.entry b))
        (storeField (some p) (fun b => { b with sent := some none }) >>= fun _ =>
          (exit : Prog Block Ptr))
        (pointsTo p (.entry { b with sent := some none })) := fun b =>
      (storeField_returns _).givesUp (Heap.at_pointsTo p _) (Heap.at_pointsTo p _)
        Heap.exit_givesUp
    exact ((hexit _).frame _).le (((Heap.blocks_pointsTo p _).mul hmsg).le_atMost (by omega))
  · refine (((storeField_returns _).frame _).frameLeft _).next ?_
    refine ((storeMask_returns 0).frame _).next ?_
    refine (((storeField_returns _).frame _).frameLeft _).next (Triple.pure ?_)
    refine le_trans ?_ (le_iSup _ p)
    rw [fact_of rfl, one_mul, mul_left_comm]
    show entryOwned p none (initMsgEntry now m) msg (some q) ≤ _
    exact le_entryAt msg (some q)

theorem loadMask_returns {bits : BitVec 64} :
    Returns (pointsTo p (.mask (some bits))) (loadMask (some p)) bits
      (pointsTo p (.mask (some bits))) :=
  Heap.access_returns rfl

/-- Read a field of an entry of the queue. -/
theorem loadField_owned (field : EntryBlock → Option γ) {v : γ}
    (hv : field ⟨some entry.timestamp, some msg, some sent, next⟩ = some v) :
    Returns (entryOwned p next entry msg sent) (loadField (some p) field) v
      (entryOwned p next entry msg sent) :=
  (loadField_returns field hv).frame _

theorem nextAt_returns {link : Ptr} :
    Returns (entryAt p (some link) entry) (nextAt (some p)) link (entryAt p (some link) entry) :=
  Returns.onEntry fun msg sent => (loadField_owned EntryBlock.next rfl).le (le_entryAt msg sent)

theorem storeNext_returns (link : Ptr) :
    Returns (entryAt p next entry) (storeNext (some p) link) () (entryAt p (some link) entry) :=
  Returns.onEntry fun msg sent => by
    have hr : Returns (entryOwned p next entry msg sent) (storeNext (some p) link) ()
        (entryOwned p (some link) entry msg sent) := (storeField_returns _).frame _
    exact hr.le (le_entryAt msg sent)

/-- A program on the mask of an entry that has not been freed. -/
theorem Returns.onMask {prog : Prog Block γ} {v : γ} {bits bits' : BitVec 64}
    (hsent : entry.sent = some bits) (hmsg : entry'.msg = entry.msg)
    (hts : entry'.timestamp = entry.timestamp) (hsent' : entry'.sent = some bits')
    (hr : ∀ q, sent = some q →
      Returns (pointsTo q (.mask (some bits))) prog v (pointsTo q (.mask (some bits')))) :
    Returns (entryOwned p next entry msg sent) prog v (entryOwned p next entry' msg sent) := by
  rw [entryOwned, entryOwned, hsent, hsent', hmsg, hts]
  refine Returns.frameLeft (Returns.frame ?_ _) _
  cases sent with
  | none => exact Triple.bot
  | some q => exact hr q rfl

/-- **`is_sent`** of an entry that has not been freed. -/
theorem isSentAt_returns {val : Bool} (hval : entry.isSent i = some val) :
    Returns (entryOwned p next entry msg sent) (isSentAt (some p) i) val
      (entryOwned p next entry msg sent) := by
  obtain ⟨bits, hbits, rfl⟩ := Option.map_eq_some_iff.mp hval
  refine (loadField_owned EntryBlock.sent rfl).next ?_
  have hload : Returns (entryOwned p next entry msg sent) (loadMask sent) bits
      (entryOwned p next entry msg sent) :=
    Returns.onMask hbits rfl rfl hbits fun q hq => hq ▸ loadMask_returns
  exact hload.next Returns.pure

/-- **`set_sent`** of an entry that has not been freed. -/
theorem setSentAt_returns {val : Bool} (hset : entry.setSent i val = some entry') :
    Returns (entryAt p next entry) (setSentAt (some p) i val) () (entryAt p next entry') := by
  obtain ⟨⟨hts, -⟩, hmsg, bits, hbits, hbits'⟩ := MsgEntry.setSent_eq_some hset
  refine Returns.onEntry fun msg sent => Returns.le ?_ (le_entryAt msg sent)
  refine (loadField_owned EntryBlock.sent rfl).next ?_
  refine Returns.onMask hbits hmsg hts hbits' fun q hq => ?_
  rw [hq]
  exact loadMask_returns.next (storeMask_returns _)

/-- **`can_forward`** where it does not touch a mask that has been freed. -/
theorem canForwardAt_returns {ts : Timespec} {val : Bool}
    (hval : entry.canForward i ts = some val) :
    Returns (entryAt p next entry) (canForwardAt (some p) i ts) val (entryAt p next entry) := by
  refine Returns.onEntry fun msg sent => Returns.le ?_ (le_entryAt msg sent)
  refine (loadField_owned EntryBlock.timestamp rfl).next ?_
  unfold MsgEntry.canForward at hval
  by_cases hlater : compareTimes ts entry.timestamp = true
  · rw [if_pos hlater] at hval ⊢
    obtain ⟨b, hb, rfl⟩ := Option.map_eq_some_iff.mp hval
    exact (isSentAt_returns hb).next Returns.pure
  · rw [if_neg hlater] at hval ⊢
    cases hval
    exact Returns.pure

theorem loadMask_faults {P : Assertion Block} : Faults P (loadMask none) := fun _ _ _ => rfl

/-- A program that makes a fault may be looked at for each of the pointers of an entry. -/
theorem Faults.onEntry {prog : Prog Block γ}
    (hf : ∀ msg sent, Faults (entryOwned p next entry msg sent) prog) :
    Faults (entryAt p next entry) prog :=
  Faults.of_iSup fun msg => Faults.of_iSup fun sent => hf msg sent

/-- A program that reads the mask of an entry that has been freed. -/
theorem Faults.onFreed {k : Ptr → Prog Block γ} (hsent : entry.sent = none)
    (hk : Faults (entryOwned p next entry msg none) (k none)) :
    Faults (entryOwned p next entry msg sent) (loadField (some p) EntryBlock.sent >>= k) := by
  cases sent with
  | none => exact (loadField_owned EntryBlock.sent rfl).faults hk
  | some q =>
    rw [entryOwned_bot (by simp [hsent])]
    exact Faults.bot

/-- **`set_sent`** of an entry that has been freed. -/
theorem setSentAt_faults {val : Bool} (hset : entry.setSent i val = none) :
    Faults (entryAt p next entry) (setSentAt (some p) i val) := by
  have hsent : entry.sent = none := by
    rw [← entry.freed_iff]
    exact MsgEntry.setSent_eq_none.mp hset
  exact Faults.onEntry fun msg sent => Faults.onFreed hsent (Faults.bind loadMask_faults)

/-- **`can_forward`** where it touches a mask that has been freed. -/
theorem canForwardAt_faults {ts : Timespec} (hval : entry.canForward i ts = none) :
    Faults (entryAt p next entry) (canForwardAt (some p) i ts) := by
  unfold MsgEntry.canForward at hval
  by_cases hlater : compareTimes ts entry.timestamp = true
  · rw [if_pos hlater] at hval
    have hsent : entry.sent = none := by simpa [MsgEntry.isSent] using hval
    refine Faults.onEntry fun msg sent => ?_
    refine (loadField_owned EntryBlock.timestamp rfl).faults ?_
    rw [if_pos hlater]
    exact Faults.bind (Faults.onFreed hsent (Faults.bind loadMask_faults))
  · rw [if_neg hlater] at hval
    cases hval

theorem free_maskAt {bits : Option (BitVec 64)} : Returns (maskAt sent bits) (free sent) () 1 := by
  cases sent with
  | none =>
    cases bits with
    | none => exact Returns.pure
    | some bits => exact Triple.bot
  | some q =>
    cases bits with
    | none => exact Triple.bot
    | some bits => exact Heap.free_returns q _

theorem free_msgAt {m : Option CtmpMsg} : Returns (msgAt msg m) (freeCtmpMsg msg) () 1 := by
  cases msg with
  | none =>
    cases m with
    | none => exact Returns.pure
    | some m => exact Triple.bot
  | some q =>
    cases m with
    | none => exact Triple.bot
    | some m => exact Triple.of_iSup fun d => freeCtmpMsg_owned

/-- **`free_msg_data`** frees the mask and the message, and does nothing the second time. -/
theorem freeMsgDataAt_returns :
    Returns (entryAt p next entry) (freeMsgDataAt (some p)) ()
      (entryAt p next entry.freeMsgData) := by
  refine Returns.onEntry fun msg sent => ?_
  refine (loadField_owned EntryBlock.sent rfl).next ?_
  refine ((free_maskAt.frame _).frameLeft _).next ?_
  rw [one_mul]
  refine ((storeField_returns _).frame _).next ?_
  refine ((loadField_returns EntryBlock.msg rfl).frame _).next ?_
  refine (free_msgAt.frameLeft _).next ?_
  rw [mul_one]
  refine (storeField_returns _).le ?_
  refine le_trans ?_ (le_entryAt none none)
  have hnothing : maskAt none entry.freeMsgData.sent * msgAt none entry.freeMsgData.msg = 1 :=
    one_mul 1
  rw [entryOwned, hnothing, mul_one]
  exact le_rfl

end

/-! ## The queue -/

/-- The link of the entry at position `e` of `n`, the addresses being `addr`. -/
def linkAt (addr : Nat → Nat) (n e : Nat) : Ptr := if e + 1 < n then some (addr (e + 1)) else none

/-- The head of a queue of `n` entries. -/
def headAt (addr : Nat → Nat) (n : Nat) : QueueHead :=
  if 0 < n then ⟨some (addr 0), some (addr (n - 1))⟩ else ⟨none, none⟩

/-- The entry at position `e` of the queue. -/
def cellAt (addr : Nat → Nat) (es : List MsgEntry) (e : Nat) : Assertion Block :=
  es[e]?.elim 1 (entryAt (addr e) (some (linkAt addr es.length e)))

/-- **The entries of the queue**, at the addresses `addr` and linked in their order. -/
def queueAt (addr : Nat → Nat) (es : List MsgEntry) : Assertion Block :=
  ∏ e ∈ Finset.range es.length, cellAt addr es e

section
variable {γ : Type} {addr : Nat → Nat} {es : List MsgEntry} {e : Nat} {entry entry' : MsgEntry}
  {prog : Prog Block γ} {v : γ}

theorem queueAt_blocks (addr : Nat → Nat) (es : List MsgEntry) :
    (queueAt addr es).Blocks (es.map MsgEntry.blocks).sum := by
  have hsum : (es.map MsgEntry.blocks).sum =
      ∑ e ∈ Finset.range es.length, es[e]?.elim 0 MsgEntry.blocks := by
    induction es with
    | nil => rfl
    | cons entry es ih =>
      rw [List.map_cons, List.sum_cons, List.length_cons, Finset.sum_range_succ', ih, add_comm]
      rfl
  rw [hsum]
  refine Blocks.prod fun e _ => ?_
  unfold cellAt
  cases es[e]? with
  | none => exact blocks_one
  | some entry => exact entryAt_blocks _ _ entry

theorem cellAt_eq (hentry : es[e]? = some entry) :
    cellAt addr es e = entryAt (addr e) (some (linkAt addr es.length e)) entry := by
  rw [cellAt, hentry, Option.elim_some]

/-- A program on one entry of the queue. -/
theorem Returns.atEntry (hentry : es[e]? = some entry)
    (hr : Returns (entryAt (addr e) (some (linkAt addr es.length e)) entry) prog v
      (entryAt (addr e) (some (linkAt addr es.length e)) entry')) :
    Returns (queueAt addr es) prog v (queueAt addr (es.set e entry')) := by
  obtain ⟨hlt, -⟩ := List.getElem?_eq_some_iff.mp hentry
  have hmem : e ∈ Finset.range es.length := Finset.mem_range.mpr hlt
  have hrest : ∏ x ∈ (Finset.range es.length).erase e, cellAt addr (es.set e entry') x =
      ∏ x ∈ (Finset.range es.length).erase e, cellAt addr es x := by
    refine Finset.prod_congr rfl fun x hx => ?_
    rw [cellAt, cellAt, List.getElem?_set_ne (Finset.ne_of_mem_erase hx).symm, List.length_set]
  have hcell : cellAt addr (es.set e entry') e =
      entryAt (addr e) (some (linkAt addr es.length e)) entry' := by
    rw [cellAt_eq (List.getElem?_set_self hlt), List.length_set]
  rw [queueAt, queueAt, List.length_set, ← Finset.mul_prod_erase _ _ hmem,
    ← Finset.mul_prod_erase _ (cellAt addr (es.set e entry')) hmem, hrest, cellAt_eq hentry, hcell]
  exact hr.frame _

/-- A fault on one entry of the queue. -/
theorem Faults.atEntry (hentry : es[e]? = some entry)
    (hf : Faults (entryAt (addr e) (some (linkAt addr es.length e)) entry) prog) :
    Faults (queueAt addr es) prog := by
  have hmem : e ∈ Finset.range es.length :=
    Finset.mem_range.mpr (List.getElem?_eq_some_iff.mp hentry).1
  rw [queueAt, ← Finset.mul_prod_erase _ _ hmem, cellAt_eq hentry]
  exact hf.frame _

/-- A program that only looks at an entry of the queue. -/
theorem Returns.readEntry (hentry : es[e]? = some entry)
    (hr : Returns (entryAt (addr e) (some (linkAt addr es.length e)) entry) prog v
      (entryAt (addr e) (some (linkAt addr es.length e)) entry)) :
    Returns (queueAt addr es) prog v (queueAt addr es) := by
  have h := Returns.atEntry hentry hr
  obtain ⟨hlt, rfl⟩ := List.getElem?_eq_some_iff.mp hentry
  rwa [List.set_getElem_self] at h

/-- Behind the last entry of the queue one more entry is linked. -/
theorem queueAt_append (p : Nat) :
    queueAt (Function.update addr es.length p) (es ++ [entry]) =
      (∏ e ∈ Finset.range es.length, es[e]?.elim 1 (entryAt (addr e)
        (some (some (Function.update addr es.length p (e + 1)))))) *
      entryAt p (some none) entry := by
  rw [queueAt, List.length_append, List.length_singleton, Finset.prod_range_succ]
  congr 1
  · refine Finset.prod_congr rfl fun x hx => ?_
    have hlt : x < es.length := Finset.mem_range.mp hx
    rw [cellAt, linkAt, List.getElem?_append_left hlt, List.length_append, List.length_singleton,
      if_pos (by omega), Function.update_of_ne (by omega)]
  · have hlast : (es ++ [entry])[es.length]? = some entry := by simp
    rw [cellAt_eq hlast, linkAt, if_neg (by simp), Function.update_self]

/-- **`TAILQ_INSERT_TAIL`** links an entry behind the last one. -/
theorem insertTailAt_returns {p : Nat} {next : Option Ptr} :
    Returns (entryAt p next entry * queueAt addr es) (insertTailAt (headAt addr es.length) (some p))
      (headAt (Function.update addr es.length p) (es.length + 1))
      (queueAt (Function.update addr es.length p) (es ++ [entry])) := by
  refine ((storeNext_returns none).frame _).next ?_
  rcases List.eq_nil_or_concat' es with rfl | ⟨init, last, rfl⟩
  · rw [queueAt_append]
    refine Returns.pure.le ?_
    simp [queueAt, mul_comm]
  obtain ⟨m, hm⟩ : ∃ m, m = init.length := ⟨_, rfl⟩
  have hlen : (init ++ [last]).length = m + 1 := by
    rw [hm, List.length_append, List.length_singleton]
  have hlast : (init ++ [last])[m]? = some last := by simp [hm]
  have hsame : ∀ x ∈ Finset.range m, cellAt addr (init ++ [last]) x =
      (init ++ [last])[x]?.elim 1 (entryAt (addr x)
        (some (some (Function.update addr (m + 1) p (x + 1))))) := fun x hx => by
    have hlt : x < m := Finset.mem_range.mp hx
    rw [cellAt, linkAt, hlen, if_pos (by omega), Function.update_of_ne (by omega)]
  rw [queueAt_append, queueAt, hlen, Finset.prod_range_succ, Finset.prod_range_succ,
    Finset.prod_congr rfl hsame, cellAt_eq hlast, hlast, Option.elim_some, Function.update_self,
    linkAt, hlen, if_neg (lt_irrefl _), mul_comm _ (entryAt p (some none) entry)]
  refine (((storeNext_returns (some p)).frameLeft _).frameLeft _).next ?_
  have hhead : headAt (Function.update addr (m + 1) p) (m + 1 + 1) =
      ⟨(headAt addr (m + 1)).first, some p⟩ := by
    simp [headAt, Function.update_of_ne]
  rw [hhead]
  exact Returns.pure

/-- **`TAILQ_NEXT`** of an entry of the queue. -/
theorem nextAt_queue (he : e < es.length) :
    Returns (queueAt addr es) (nextAt (some (addr e))) (linkAt addr es.length e)
      (queueAt addr es) :=
  Returns.readEntry (List.getElem?_eq_getElem he) nextAt_returns

end

end WireStorm
