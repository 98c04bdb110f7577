import WireStorm.Ctmp.Parse
import WireStorm.Ctmp.Forward
import WireStorm.Lib.Heap
import WireStorm.Timestamp

/-!
# CTMP messages in memory

The functions of `lib/ctmp.c` once more, as programs on a heap of the structs and arrays that
the server allocates (`Block`). Memory that nothing has been stored in has no value, and using
it is a fault, like an access past the end of an array. The parsers make no fault and leak
nothing (`parse_memory`): they return `NULL` and have freed what they allocated, or a message
that owns its struct and its data array. `send_ctmp_msg` and `calc_checksum` read these alone.
-/

namespace WireStorm

open Heap (Allocator Assertion Faults GivesUp Prog Returns Triple malloc free access exit pointsTo)
open Heap.Assertion

/-! ## Blocks -/

/-- A pointer; `none` is `NULL`. -/
abbrev Ptr := Option Nat

/-- `struct ctmp_msg`; a byte or field is `none` until something is stored in it. -/
structure MsgBlock where
  header : List (Option UInt8)
  len : Option UInt16
  data : Option Ptr
  deriving DecidableEq, Repr

/-- `struct msg_entry`, with `tqe_next` of its list links. -/
structure EntryBlock where
  timestamp : Option Timespec
  msg : Option Ptr
  sent : Option Ptr
  next : Option Ptr
  deriving DecidableEq, Repr

/-- What the server allocates: messages, their data arrays, queue entries, and sent masks. -/
inductive Block
  | msg (b : MsgBlock)
  | bytes (cells : List (Option UInt8))
  | entry (b : EntryBlock)
  | mask (bits : Option (BitVec 64))
  deriving DecidableEq, Repr

/-- An `n`-byte array that `bs` was stored at the start of. -/
def overlay (bs : List UInt8) (cells : List (Option UInt8)) : List (Option UInt8) :=
  bs.map some ++ cells.drop bs.length

/-- The bytes of memory that something has been stored in. -/
def definedBytes : List (Option UInt8) → Option (List UInt8)
  | [] => some []
  | none :: _ => none
  | some b :: cells => (definedBytes cells).map (b :: ·)

@[simp] theorem definedBytes_map_some (bs : List UInt8) : definedBytes (bs.map some) = some bs := by
  induction bs with
  | nil => rfl
  | cons b bs ih => simp [definedBytes, ih]

/-- `malloc(sizeof(struct ctmp_msg))`. -/
def MsgBlock.fresh : MsgBlock := ⟨List.replicate headerLength none, none, none⟩

/-! ## Access to blocks -/

section
variable {γ : Type}

/-- An access to the `struct ctmp_msg` at `p`. -/
def onMsg (p : Ptr) (f : MsgBlock → Option (γ × MsgBlock)) : Prog Block γ :=
  access p fun
    | .msg b => (f b).map fun r => (r.1, .msg r.2)
    | _ => none

/-- What an `unsigned char *` points to: the header array of a message, or an allocated array. -/
inductive BytePtr
  | header (p : Ptr)
  | array (p : Ptr)

/-- An access to the bytes that a pointer points to. -/
def onBytes (buf : BytePtr) (f : List (Option UInt8) → Option (γ × List (Option UInt8))) :
    Prog Block γ :=
  match buf with
  | .header p => onMsg p fun b => (f b.header).map fun r => (r.1, { b with header := r.2 })
  | .array p => access p fun
    | .bytes cells => (f cells).map fun r => (r.1, .bytes r.2)
    | _ => none

end

def loadLen (p : Ptr) : Prog Block UInt16 := onMsg p fun b => b.len.map (·, b)

def storeLen (p : Ptr) (len : UInt16) : Prog Block Unit :=
  onMsg p fun b => some ((), { b with len := some len })

def loadData (p : Ptr) : Prog Block Ptr := onMsg p fun b => b.data.map (·, b)

def storeData (p data : Ptr) : Prog Block Unit :=
  onMsg p fun b => some ((), { b with data := some data })

/-- `buf[i]`. -/
def loadByte (buf : BytePtr) (i : Nat) : Prog Block UInt8 :=
  onBytes buf fun cells => cells[i]?.join.map (·, cells)

/-- `buf[i] = b`. -/
def storeByte (buf : BytePtr) (i : Nat) (b : UInt8) : Prog Block Unit :=
  onBytes buf fun cells => if i < cells.length then some ((), cells.set i (some b)) else none

/-- The `count` bytes at `&buf[i]`. -/
def loadBytes (buf : BytePtr) (i count : Nat) : Prog Block (List UInt8) :=
  onBytes buf fun cells =>
    if i + count ≤ cells.length then
      (definedBytes ((cells.drop i).take count)).map (·, cells)
    else
      none

/-- A call of `read` stores what it returns at `&buf[i]`, where there is room for `count`
bytes. -/
def storeRead (buf : BytePtr) (i count : Nat) (bs : List UInt8) : Prog Block Unit :=
  onBytes buf fun cells =>
    if i + count ≤ cells.length then
      some ((), cells.take i ++ bs.map some ++ cells.drop (i + bs.length))
    else
      none

/-! ## The functions of `lib/ctmp.c` -/

/-- The tests after the loop of `read_msg`. -/
def readTotalResult (len total : Nat) : Int :=
  if total = 0 then -1 else if total = len then 0 else -1

/-- The loop of `read_msg(fd, buf, len)`, with `total_bytes_read`. -/
def readMsgInto (buf : BytePtr) (len : Nat) (c : Conn) (total : Nat) : Prog Block (Int × Conn) :=
  match _hr : c.read (len - total) with
  | (.eintr, c') => do
    storeRead buf total (len - total) []
    if total < len then readMsgInto buf len c' total else pure (readTotalResult len total, c')
  | (.error e, c') => do
    storeRead buf total (len - total) []
    pure (-e.code, c')
  | (.data bs, c') => do
    storeRead buf total (len - total) bs
    if bs = [] then
      pure (readTotalResult len total, c')
    else
      if total + bs.length < len then readMsgInto buf len c' (total + bs.length)
      else pure (readTotalResult len (total + bs.length), c')
termination_by c.measure + (len - total)
decreasing_by
  · obtain ⟨hs, hstream, hopen⟩ := Conn.read_eintr _hr
    simp only [Conn.measure, hs, hstream, hopen, List.length_cons]
    omega
  · rename_i hbs hlen
    have hle : c'.measure ≤ c.measure := by
      simpa only [_hr] using (c.read_measure (len - total)).1
    have hpos := List.length_pos_of_ne_nil hbs
    omega

/-- `valid_magic`. -/
def validMagicAt (msg : Ptr) : Prog Block Bool := do
  let b ← loadByte (.header msg) 0
  pure (b == magic)

/-- The loop of `valid_padding` over `n` bytes of the header from byte `i` on. -/
def paddingLoopAt (msg : Ptr) (i : Nat) : Nat → Prog Block Bool
  | 0 => pure true
  | n + 1 => do
    let b ← loadByte (.header msg) i
    if (b &&& padding) != 0 then pure false else paddingLoopAt msg (i + 1) n

/-- `valid_padding`. -/
def validPaddingAt (msg : Ptr) (extended : Bool) : Prog Block Bool :=
  if extended then
    paddingLoopAt msg extPaddingStart (extPaddingEnd + 1 - extPaddingStart)
  else do
    -- options byte should always be set to padding value if not in extended mode
    let options ← loadByte (.header msg) optionsOffset
    if (options &&& padding) != 0 then
      pure false
    else
      paddingLoopAt msg paddingStart (paddingEnd + 1 - paddingStart)

/-- `set_msg_length`. -/
def setMsgLengthAt (host : Endian) (msg : Ptr) : Prog Block Unit := do
  let hi ← loadByte (.header msg) (lengthOffset + 1)
  let lo ← loadByte (.header msg) lengthOffset
  storeLen msg (UInt16.ofNat ((hi.toNat <<< 8) + lo.toNat))
  -- convert from network to host order
  let len ← loadLen msg
  storeLen msg (ntohs host len)

/-- `read_ctmp_data`. -/
def readCtmpDataAt (alloc : Allocator) (msg : Ptr) (c : Conn) : Prog Block (Int × Conn) := do
  let len ← loadLen msg
  let data ← malloc alloc (.bytes (List.replicate (len.toNat + 1) none))
  storeData msg data
  match data with
  | none => exit
  | some _ =>
    -- explicitly set last byte to NULL terminator before reading in message
    storeByte (.array data) len.toNat 0
    readMsgInto (.array data) len.toNat c 0

/-- `free_ctmp_msg`. -/
def freeCtmpMsg (msg : Ptr) : Prog Block Unit :=
  match msg with
  | none => pure ()
  | some _ => do
    let data ← loadData msg
    free data
    free msg

/-- What a parser returns: the message, the errors logged and the connection. -/
structure ParsedAt where
  msg : Ptr
  log : List ParseError
  conn : Conn

/-- Add the words of `count` bytes of an array from byte `i` on to `sum`, with the leftover
byte (if any). -/
def addWordsAt (host : Endian) (data : Ptr) (i : Nat) : Nat → Nat → Prog Block Nat
  | sum, 0 => pure sum
  | sum, 1 => do
    let a ← loadByte (.array data) i
    pure (sum + a.toNat)
  | sum, count + 2 => do
    let a ← loadByte (.array data) i
    let b ← loadByte (.array data) (i + 1)
    addWordsAt host data (i + 2) (sum + loadWord host a b) count

/-- `calc_checksum`. -/
def calcChecksumAt (host : Endian) (msg : Ptr) : Prog Block UInt16 := do
  -- copy header to preserve original checksum value
  let header ← loadBytes (.header msg) 0 headerLength
  let header := (header.set checksumOffset magic).set (checksumOffset + 1) magic
  let sum := addWords host 0 header
  let data ← loadData msg
  let count ← loadLen msg
  let sum ← addWordsAt host data 0 sum count.toNat
  pure (~~~(UInt16.ofNat (foldSum sum)))

/-- The switch on the options byte of `parse_ctmp_msg_extended`. -/
def checkOptionsAt (host : Endian) (msg : Ptr) (log : List ParseError) (c : Conn) :
    Prog Block ParsedAt := do
  let options ← loadByte (.header msg) optionsOffset
  if options = optNorm then
    pure ⟨msg, log, c⟩
  else if options = optSen then
    -- validate checksum
    let hi ← loadByte (.header msg) (checksumOffset + 1)
    let lo ← loadByte (.header msg) checksumOffset
    let found := UInt16.ofNat ((hi.toNat <<< 8) + lo.toNat)
    let expected ← calcChecksumAt host msg
    if found ≠ expected then
      freeCtmpMsg msg
      pure ⟨none, log ++ [.checksum found expected], c⟩
    else
      pure ⟨msg, log, c⟩
  else
    freeCtmpMsg msg
    pure ⟨none, log ++ [.options options], c⟩

/-- What both parsers do, up to the message that is not `valid` (`release`) and the one that has
been read (`finish`). -/
def parseMsgAt (host : Endian) (alloc : Allocator) (extended : Bool)
    (release : Ptr → Prog Block Unit)
    (finish : Ptr → List ParseError → Conn → Prog Block ParsedAt) (c : Conn) :
    Prog Block ParsedAt := do
  let msg ← malloc alloc (.msg .fresh)
  match msg with
  | none => exit
  | some _ =>
    storeData msg none
    let header ← readMsgInto (.header msg) headerLength c 0
    if header.1 < 0 then
      freeCtmpMsg msg
      pure ⟨none, [], header.2⟩
    else
      let valid ← validMagicAt msg
      if !valid then
        let found ← loadByte (.header msg) 0
        release msg
        pure ⟨none, [.magic found], header.2⟩
      else
        let padded ← validPaddingAt msg extended
        setMsgLengthAt host msg
        let data ← readCtmpDataAt alloc msg header.2
        -- incorrect padding is logged, the message is kept
        let log := if !padded then [.padding] else []
        if data.1 < 0 then
          freeCtmpMsg msg
          pure ⟨none, log, data.2⟩
        else
          finish msg log data.2

/-- `parse_ctmp_msg`. -/
def parseCtmpMsgAt (host : Endian) (alloc : Allocator) : Conn → Prog Block ParsedAt :=
  parseMsgAt host alloc false freeCtmpMsg fun msg log c => pure ⟨msg, log, c⟩

/-- `parse_ctmp_msg_extended`: a message with a wrong magic byte has no data array yet. -/
def parseCtmpMsgExtendedAt (host : Endian) (alloc : Allocator) : Conn → Prog Block ParsedAt :=
  parseMsgAt host alloc true free (checkOptionsAt host)

/-- `ctmp_parse_func`. -/
def ctmpParseAt (mode : Mode) (host : Endian) (alloc : Allocator) (c : Conn) :
    Prog Block ParsedAt :=
  match mode with
  | .base => parseCtmpMsgAt host alloc c
  | .extended => parseCtmpMsgExtendedAt host alloc c

/-- One call of `send` in `send_msg(fd, buf, len)`. -/
def sendMsgRoundAt (buf : BytePtr) (len total : Nat) (ev : SendEvent) :
    Prog Block (List UInt8 × SendMsg) := do
  let ahead ← loadBytes buf total (len - total)
  match ev with
  | .eintr => pure ([], sendMsgNext len total)
  | .error e => pure ([], .ret (-e.code))
  | .bytes n =>
    let sent := ahead.take n
    if sent = [] then
      pure ([], .ret (sendMsgResult len total))
    else
      pure (sent, sendMsgNext len (total + sent.length))

/-- `send_msg(fd, buf, len)` from `total_bytes_sent` on. Behind the schedule a call of `send`
has been given the bytes ahead, and has not returned yet. -/
def sendMsgAt (buf : BytePtr) (len : Nat) :
    Nat → List SendEvent → Prog Block (List UInt8 × SendMsg × List SendEvent)
  | total, [] => do
    let _ ← loadBytes buf total (len - total)
    pure ([], .more total, [])
  | total, ev :: evs => do
    let r ← sendMsgRoundAt buf len total ev
    match r with
    | (bs, .ret res) => pure (bs, .ret res, evs)
    | (bs, .more t) =>
      let s ← sendMsgAt buf len t evs
      pure (bs ++ s.1, s.2)

/-- `send_ctmp_msg`. -/
def sendCtmpMsgAt (msg : Ptr) (sched : List SendEvent) : Prog Block Sent := do
  let h ← sendMsgAt (.header msg) headerLength 0 sched
  match h with
  | (bs, .more _, _) => pure ⟨bs, none⟩
  | (bs, .ret res, evs) =>
    if res < 0 then
      pure ⟨bs, some res⟩
    else
      let data ← loadData msg
      let len ← loadLen msg
      let s ← sendMsgAt (.array data) len.toNat 0 evs
      let d := Sent.ofSendMsg s
      pure ⟨bs ++ d.written, d.res⟩

/-! ## Rules for blocks -/

section
variable {γ : Type} {p : Nat} {b b' : MsgBlock} {cells cells' : List (Option UInt8)}

theorem onMsg_returns {f : MsgBlock → Option (γ × MsgBlock)} {r : γ} (hf : f b = some (r, b')) :
    Returns (pointsTo p (.msg b)) (onMsg (some p) f) r (pointsTo p (.msg b')) :=
  Heap.access_returns (by simp [hf])

theorem loadLen_returns {len : UInt16} (hlen : b.len = some len) :
    Returns (pointsTo p (.msg b)) (loadLen (some p)) len (pointsTo p (.msg b)) :=
  onMsg_returns (by rw [hlen]; rfl)

theorem storeLen_returns (len : UInt16) :
    Returns (pointsTo p (.msg b)) (storeLen (some p) len) ()
      (pointsTo p (.msg { b with len := some len })) :=
  onMsg_returns rfl

theorem loadData_returns {data : Ptr} (hdata : b.data = some data) :
    Returns (pointsTo p (.msg b)) (loadData (some p)) data (pointsTo p (.msg b)) :=
  onMsg_returns (by rw [hdata]; rfl)

theorem storeData_returns (data : Ptr) :
    Returns (pointsTo p (.msg b)) (storeData (some p) data) ()
      (pointsTo p (.msg { b with data := some data })) :=
  onMsg_returns rfl

/-- The block that a byte pointer points into, with `cells` behind the pointer. -/
def BytePtr.holds (b : MsgBlock) (cells : List (Option UInt8)) : BytePtr → Assertion Block
  | .header (some p) => pointsTo p (.msg { b with header := cells })
  | .array (some p) => pointsTo p (.bytes cells)
  | .header none | .array none => ⊥

theorem onBytes_returns {f : List (Option UInt8) → Option (γ × List (Option UInt8))} {r : γ}
    (buf : BytePtr) (hf : f cells = some (r, cells')) :
    Returns (buf.holds b cells) (onBytes buf f) r (buf.holds b cells') := by
  cases buf with
  | header q =>
    cases q with
    | none => exact Triple.bot
    | some p => exact onMsg_returns (by simp [hf])
  | array q =>
    cases q with
    | none => exact Triple.bot
    | some p => exact Heap.access_returns (by simp [hf])

theorem loadByte_returns (buf : BytePtr) (b : MsgBlock) {i : Nat} {x : UInt8}
    (hx : cells[i]? = some (some x)) :
    Returns (buf.holds b cells) (loadByte buf i) x (buf.holds b cells) :=
  onBytes_returns buf (by rw [hx]; rfl)

theorem storeByte_returns (buf : BytePtr) (b : MsgBlock) {i : Nat} {x : UInt8}
    (hi : i < cells.length) :
    Returns (buf.holds b cells) (storeByte buf i x) () (buf.holds b (cells.set i (some x))) :=
  onBytes_returns buf (if_pos hi)

theorem loadBytes_returns (buf : BytePtr) (b : MsgBlock) {i count : Nat} {bs : List UInt8}
    (hcells : (cells.drop i).take count = bs.map some) (hi : i + count ≤ cells.length) :
    Returns (buf.holds b cells) (loadBytes buf i count) bs (buf.holds b cells) := by
  refine onBytes_returns buf ?_
  rw [if_pos hi, hcells, definedBytes_map_some]
  rfl

/-! ## `read_msg` -/

theorem length_overlay {bs : List UInt8} (hbs : bs.length ≤ cells.length) :
    (overlay bs cells).length = cells.length := by
  rw [overlay, List.length_append, List.length_map, List.length_drop]
  omega

theorem overlay_eq {bs : List UInt8} (hbs : bs.length = cells.length) :
    overlay bs cells = bs.map some := by
  rw [overlay, hbs, List.drop_length, List.append_nil]

/-- A read stores what it returns behind what has been stored. -/
theorem storeRead_returns {buf : BytePtr} {stored bs : List UInt8} {count : Nat}
    (hroom : stored.length + count ≤ cells.length) :
    Returns (buf.holds b (overlay stored cells)) (storeRead buf stored.length count bs) ()
      (buf.holds b (overlay (stored ++ bs) cells)) := by
  refine onBytes_returns buf ?_
  rw [length_overlay (by omega), if_pos hroom, overlay, overlay]
  have htake : (stored.map some ++ cells.drop stored.length).take stored.length =
      stored.map some := by
    rw [← List.length_map (f := some), List.take_left]
  have hdrop : (stored.map some ++ cells.drop stored.length).drop (stored.length + bs.length) =
      cells.drop (stored ++ bs).length := by
    rw [← List.length_map (f := some), List.drop_length_add_append, List.drop_drop,
      List.length_map, List.length_append]
  rw [htake, hdrop, List.map_append]

/-- **`read_msg` on memory** stores the bytes that it takes from the stream at the start of its
buffer, if the buffer has room for what is asked for. -/
theorem readMsgInto_returns {buf : BytePtr} {len : Nat} {c : Conn} {stored : List UInt8}
    (hroom : len ≤ cells.length) (hstored : stored.length ≤ len) :
    Returns (buf.holds b (overlay stored cells)) (readMsgInto buf len c stored.length)
      ((readMsgLoop len c stored).res, (readMsgLoop len c stored).conn)
      (buf.holds b (overlay (readMsgLoop len c stored).buf cells)) := by
  have hfits : ∀ {stored : List UInt8}, stored.length ≤ len →
      stored.length + (len - stored.length) ≤ cells.length := fun h => by omega
  have hnothing : ∀ {stored : List UInt8}, stored.length ≤ len →
      Returns (buf.holds b (overlay stored cells))
        (storeRead buf stored.length (len - stored.length) []) ()
        (buf.holds b (overlay stored cells)) := fun {stored} h => by
    have hr := @storeRead_returns b cells buf stored [] _ (hfits h)
    rwa [List.append_nil] at hr
  fun_induction readMsgLoop len c stored with
  | case1 c stored c' hread hlt ih =>
    rw [readMsgInto]
    split <;> rename_i heq <;> cases hread.symm.trans heq
    refine (hnothing hstored).next ?_
    rw [if_pos hlt]
    exact ih hstored
  | case2 c stored c' hread hlt =>
    rw [readMsgInto]
    split <;> rename_i heq <;> cases hread.symm.trans heq
    refine (hnothing hstored).next ?_
    rw [if_neg hlt]
    exact Returns.pure
  | case3 c stored e c' hread =>
    rw [readMsgInto]
    split <;> rename_i heq <;> cases hread.symm.trans heq
    exact (hnothing hstored).next Returns.pure
  | case4 c stored c' hread =>
    rw [readMsgInto]
    split <;> rename_i heq <;> cases hread.symm.trans heq
    refine (hnothing hstored).next ?_
    rw [if_pos rfl]
    exact Returns.pure
  | case5 c stored bs c' hread hne hlt ih =>
    rw [readMsgInto]
    split <;> rename_i heq <;> cases hread.symm.trans heq
    refine (storeRead_returns (hfits hstored)).next ?_
    rw [if_neg hne, if_pos (by rwa [List.length_append] at hlt), ← List.length_append]
    exact ih (Nat.le_of_lt hlt)
  | case6 c stored bs c' hread hne hlt =>
    rw [readMsgInto]
    split <;> rename_i heq <;> cases hread.symm.trans heq
    refine (storeRead_returns (hfits hstored)).next ?_
    rw [if_neg hne, if_neg (by rwa [List.length_append] at hlt), ← List.length_append]
    exact Returns.pure

theorem readMsgInto_start (buf : BytePtr) (b : MsgBlock) (c : Conn) {len : Nat}
    (hroom : len ≤ cells.length) :
    Returns (buf.holds b cells) (readMsgInto buf len c 0)
      ((readMsg c len).res, (readMsg c len).conn)
      (buf.holds b (overlay (readMsg c len).buf cells)) := by
  have hr := @readMsgInto_returns b cells buf len c [] hroom (Nat.zero_le len)
  exact hr

end

/-! ## The header functions -/

/-- The struct with header `h`. -/
def MsgBlock.ofHeader (h : Header) (len : Option UInt16) (data : Option Ptr) : MsgBlock :=
  ⟨h.bytes.map some, len, data⟩

section
variable {p i : Nat} {h : Header} {len : Option UInt16} {data : Option Ptr}

theorem loadHeader_returns (hi : i < headerLength) :
    Returns (pointsTo p (.msg (.ofHeader h len data))) (loadByte (.header (some p)) i) (h.byte i)
      (pointsTo p (.msg (.ofHeader h len data))) := by
  have hx : (h.bytes.map some)[i]? = some (some (h.byte i)) := by
    rw [← h.length_eq] at hi
    rw [List.getElem?_map, Header.byte, List.getD_eq_getElem?_getD, List.getElem?_eq_getElem hi]
    rfl
  exact loadByte_returns (.header (some p)) (.ofHeader h len data) hx

theorem validMagicAt_returns :
    Returns (pointsTo p (.msg (.ofHeader h len data))) (validMagicAt (some p)) (validMagic h)
      (pointsTo p (.msg (.ofHeader h len data))) :=
  (loadHeader_returns (by decide)).next Returns.pure

theorem paddingLoopAt_returns {n : Nat} (hn : i + n ≤ headerLength) :
    Returns (pointsTo p (.msg (.ofHeader h len data))) (paddingLoopAt (some p) i n)
      ((List.range' i n).all fun i => (h.byte i &&& padding) == 0)
      (pointsTo p (.msg (.ofHeader h len data))) := by
  induction n generalizing i with
  | zero => exact Returns.pure
  | succ n ih =>
    refine (loadHeader_returns (by omega)).next ?_
    rw [List.range'_succ, List.all_cons]
    by_cases hpad : (h.byte i &&& padding) = 0
    · rw [if_neg (by simpa using hpad), hpad]
      exact ih (by omega)
    · rw [if_pos (by simpa using hpad), beq_false_of_ne hpad]
      exact Returns.pure

theorem validPaddingAt_returns (extended : Bool) :
    Returns (pointsTo p (.msg (.ofHeader h len data))) (validPaddingAt (some p) extended)
      (validPadding h extended) (pointsTo p (.msg (.ofHeader h len data))) := by
  cases extended with
  | true => exact paddingLoopAt_returns (by decide)
  | false =>
    refine (loadHeader_returns (by decide)).next ?_
    have heq : validPadding h false = if (h.byte optionsOffset &&& padding) != 0 then false else
        (List.range' paddingStart (paddingEnd + 1 - paddingStart)).all
          fun i => (h.byte i &&& padding) == 0 := rfl
    rw [heq]
    split
    · exact Returns.pure
    · exact paddingLoopAt_returns (by decide)

theorem setMsgLengthAt_returns (host : Endian) :
    Returns (pointsTo p (.msg (.ofHeader h len data))) (setMsgLengthAt host (some p)) ()
      (pointsTo p (.msg (.ofHeader h (some (setMsgLength host h)) data))) :=
  (loadHeader_returns (by decide)).next <| (loadHeader_returns (by decide)).next <|
    (storeLen_returns _).next <| (loadLen_returns rfl).next (storeLen_returns _)

end

/-! ## Messages -/

/-- The struct at `p` and the data array at `d` hold the message `m`. -/
def msgOwned (p d : Nat) (m : CtmpMsg) : Assertion Block :=
  pointsTo p (.msg (.ofHeader m.header (some m.len) (some (some d)))) *
    pointsTo d (.bytes (m.data.map some ++ [some 0]))

/-- A pointer to a message, which owns its memory, or `NULL`. -/
def msgAt : Ptr → Option CtmpMsg → Assertion Block
  | none, none => 1
  | some p, some m => ⨆ d, msgOwned p d m
  | _, _ => ⊥

/-- The pointer is `NULL` when there is no message, and only then. -/
theorem msgAt_bot {p : Ptr} {msg : Option CtmpMsg} (hne : p.isSome ≠ msg.isSome) :
    msgAt p msg = ⊥ := by
  cases msg with
  | none =>
    cases p with
    | none => exact absurd rfl hne
    | some q => rfl
  | some m =>
    cases p with
    | none => rfl
    | some q => exact absurd rfl hne

section
variable {p d : Nat} {m : CtmpMsg} {host : Endian}

/-- The parts of the memory of a message. -/
theorem Returns.onStruct {γ : Type} {prog : Prog Block γ} {v : γ}
    (hr : Returns (pointsTo p (.msg (.ofHeader m.header (some m.len) (some (some d))))) prog v
      (pointsTo p (.msg (.ofHeader m.header (some m.len) (some (some d)))))) :
    Returns (msgOwned p d m) prog v (msgOwned p d m) :=
  hr.frame _

theorem freeCtmpMsg_returns {b : MsgBlock} {blk : Block} (hdata : b.data = some (some d)) :
    Returns (pointsTo p (.msg b) * pointsTo d blk) (freeCtmpMsg (some p)) () 1 := by
  refine ((loadData_returns hdata).frame _).next ?_
  refine ((Heap.free_returns d blk).frameLeft _).next ?_
  rw [mul_one]
  exact Heap.free_returns p _

/-- `free_ctmp_msg` of a message that has no data array yet. -/
theorem freeCtmpMsg_returns_null {b : MsgBlock} (hdata : b.data = some none) :
    Returns (pointsTo p (.msg b)) (freeCtmpMsg (some p)) () 1 := by
  refine (loadData_returns hdata).next ?_
  exact Returns.pure.next (Heap.free_returns p _)

/-- The array that `read_ctmp_data` makes, once `stored` has been read into it. -/
def dataCells (len : Nat) (stored : List UInt8) : List (Option UInt8) :=
  overlay stored ((List.replicate (len + 1) none).set len (some 0))

/-- The message at `p` once `stored` has been read into its data array at `d`. -/
def dataOwned (p : Nat) (h : Header) (len : UInt16) (stored : List UInt8) (d : Nat) :
    Assertion Block :=
  pointsTo p (.msg (.ofHeader h (some len) (some (some d)))) *
    pointsTo d (.bytes (dataCells len.toNat stored))

/-- **`read_ctmp_data`** gives the message a data array and reads its bytes into it. -/
theorem readCtmpDataAt_returns {h : Header} {len : UInt16} (alloc : Allocator) (c : Conn) :
    Triple (alloc.noRoom (atMost 1)) (pointsTo p (.msg (.ofHeader h (some len) (some none))))
      (readCtmpDataAt alloc (some p) c) fun r =>
        fact (r = ((readCtmpData c len).res, (readCtmpData c len).conn)) *
          ⨆ d, dataOwned p h len (readCtmpData c len).buf d := by
  refine (loadLen_returns rfl).next (Heap.malloc_bind ?_ fun d => ?_)
  · have hexit : GivesUp alloc (pointsTo p (.msg (.ofHeader h (some len) (some none))))
        (storeData (some p) none >>= fun _ => (exit : Prog Block (Int × Conn)))
        (pointsTo p (.msg (.ofHeader h (some len) (some none)))) :=
      (storeData_returns none).givesUp (Heap.at_pointsTo p _) (Heap.at_pointsTo p _)
        Heap.exit_givesUp
    exact hexit.le ((Heap.blocks_pointsTo p _).le_atMost le_rfl)
  have hstore : Returns
      ((BytePtr.array (some d)).holds .fresh (List.replicate (len.toNat + 1) none))
      (storeByte (.array (some d)) len.toNat 0) ()
      ((BytePtr.array (some d)).holds .fresh
        ((List.replicate (len.toNat + 1) none).set len.toNat (some 0))) :=
    storeByte_returns _ _ (by simp)
  have hread : Returns
      ((BytePtr.array (some d)).holds .fresh
        ((List.replicate (len.toNat + 1) none).set len.toNat (some 0)))
      (readMsgInto (.array (some d)) len.toNat c 0)
      ((readCtmpData c len).res, (readCtmpData c len).conn)
      ((BytePtr.array (some d)).holds .fresh (dataCells len.toNat (readCtmpData c len).buf)) :=
    readMsgInto_start _ _ c (by simp)
  refine ((storeData_returns (some d)).frameLeft _).next ((hstore.frame _).next ?_)
  refine ((hread.frame _).weaken bot_le).conseq le_rfl fun r => mul_le_mul_right ?_ _
  rw [mul_comm]
  exact le_iSup (dataOwned p h len (readCtmpData c len).buf) d

/-- All bytes of the message are there once they have been read. -/
theorem dataOwned_eq {h : Header} {len : UInt16} {c : Conn} (hres : ¬(readCtmpData c len).res < 0) :
    dataOwned p h len (readCtmpData c len).buf d =
      msgOwned p d (.ofRead h len (readCtmpData c len).buf) := by
  obtain ⟨hlen, -, -⟩ := readMsg_success (not_lt.mp hres)
  have hbuf : (readCtmpData c len).buf.length = len.toNat := hlen
  have hdata : (CtmpMsg.ofRead h len (readCtmpData c len).buf).data = (readCtmpData c len).buf :=
    buffer_eq hbuf
  have hlast : ((List.replicate (len.toNat + 1) none).set len.toNat (some 0)).drop len.toNat =
      [some (0 : UInt8)] := by
    rw [List.replicate_succ', List.set_append_right _ _ (by simp), List.length_replicate,
      Nat.sub_self, List.drop_append_of_le_length (by simp)]
    simp
  rw [dataOwned, msgOwned, hdata, dataCells, overlay, hbuf, hlast]
  rfl

/-! ## The checksum -/

theorem loadData_owned :
    Returns (msgOwned p d m) (loadData (some p)) (some d) (msgOwned p d m) :=
  Returns.onStruct (loadData_returns rfl)

theorem loadLen_owned : Returns (msgOwned p d m) (loadLen (some p)) m.len (msgOwned p d m) :=
  Returns.onStruct (loadLen_returns rfl)

/-- A byte of the data array. -/
theorem loadByte_owned {i : Nat} {x : UInt8} (hx : m.data[i]? = some x) :
    Returns (msgOwned p d m) (loadByte (.array (some d)) i) x (msgOwned p d m) := by
  refine Returns.frameLeft (loadByte_returns (.array (some d)) .fresh ?_) _
  have hi : i < (m.data.map some).length := by
    rw [List.length_map]
    exact (List.getElem?_eq_some_iff.mp hx).1
  rw [List.getElem?_append_left hi, List.getElem?_map, hx]
  rfl

theorem addWordsAt_returns {i sum : Nat} {bs : List UInt8} (hbs : m.data.drop i = bs) :
    Returns (msgOwned p d m) (addWordsAt host (some d) i sum bs.length) (addWords host sum bs)
      (msgOwned p d m) := by
  have hget : ∀ {i j : Nat} {bs : List UInt8} {x : UInt8}, m.data.drop i = bs → bs[j]? = some x →
      m.data[i + j]? = some x := fun hbs hx => by
    rw [← hx, ← hbs, List.getElem?_drop]
  fun_induction addWords host sum bs generalizing i with
  | case1 sum x y rest ih =>
    refine (loadByte_owned (hget (j := 0) hbs rfl)).next ?_
    refine (loadByte_owned (hget (j := 1) hbs rfl)).next ?_
    refine ih ?_
    rw [← List.drop_drop, hbs]
    rfl
  | case2 sum x =>
    exact (loadByte_owned (hget (j := 0) hbs rfl)).next Returns.pure
  | case3 sum => exact Returns.pure

/-- **`calc_checksum`** reads the message alone. -/
theorem calcChecksumAt_returns :
    Returns (msgOwned p d m) (calcChecksumAt host (some p)) (calcChecksum host m)
      (msgOwned p d m) := by
  have hheader : Returns (msgOwned p d m) (loadBytes (.header (some p)) 0 headerLength)
      m.header.bytes (msgOwned p d m) := by
    refine Returns.onStruct (loadBytes_returns (.header (some p))
      (.ofHeader m.header (some m.len) (some (some d))) ?_ ?_)
    · rw [List.drop_zero, ← m.header.length_eq, ← List.length_map (f := some), List.take_length]
    · rw [List.length_map, m.header.length_eq]
      exact le_rfl
  refine hheader.next <| loadData_owned.next <| loadLen_owned.next ?_
  rw [← m.data_length]
  exact (addWordsAt_returns (List.drop_zero)).next Returns.pure

/-! ## The parsers -/

/-- The result `r` of a parser on memory stands for `q`: with the errors and the connection of
`q`, and a pointer to its message. -/
def parsedAs (q : Parsed) (r : ParsedAt) : Assertion Block :=
  fact (r.log = q.log ∧ r.conn = q.conn) * msgAt r.msg q.msg

theorem parsedAs_null (log : List ParseError) (c : Conn) :
    1 ≤ parsedAs ⟨none, log, c⟩ ⟨none, log, c⟩ := by
  refine le_def.mpr fun h hh => holds_fact_mul.mpr ⟨⟨rfl, rfl⟩, ?_⟩
  exact hh

theorem parsedAs_msg (log : List ParseError) (c : Conn) :
    msgOwned p d m ≤ parsedAs ⟨some m, log, c⟩ ⟨some p, log, c⟩ := by
  refine le_def.mpr fun h hh => holds_fact_mul.mpr ⟨⟨rfl, rfl⟩, ?_⟩
  exact le_def.mp (le_iSup (fun d => msgOwned p d m) d) h hh

theorem freeCtmpMsg_owned : Returns (msgOwned p d m) (freeCtmpMsg (some p)) () 1 :=
  freeCtmpMsg_returns rfl

theorem checkOptionsAt_triple {E : Heap Block → Assertion Block} (log : List ParseError)
    (c : Conn) :
    Triple E (msgOwned p d m) (checkOptionsAt host (some p) log c)
      (parsedAs (checkOptions host m log c)) := by
  have hbyte : ∀ {i : Nat}, i < headerLength →
      Returns (msgOwned p d m) (loadByte (.header (some p)) i) (m.header.byte i)
        (msgOwned p d m) := fun hi => Returns.onStruct (loadHeader_returns hi)
  refine (hbyte (by decide)).next ?_
  unfold checkOptions
  by_cases hnorm : m.header.byte optionsOffset = optNorm
  · rw [if_pos hnorm, if_pos hnorm]
    exact Triple.pure (parsedAs_msg log c)
  rw [if_neg hnorm, if_neg hnorm]
  by_cases hsen : m.header.byte optionsOffset = optSen
  · rw [if_pos hsen, if_pos hsen]
    refine (hbyte (by decide)).next ((hbyte (by decide)).next (calcChecksumAt_returns.next ?_))
    show Triple _ _ (if headerChecksum m.header ≠ calcChecksum host m then _ else _) _
    by_cases hsum : headerChecksum m.header ≠ calcChecksum host m
    · rw [if_pos hsum, if_pos hsum]
      exact freeCtmpMsg_owned.next (Triple.pure (parsedAs_null _ c))
    · rw [if_neg hsum, if_neg hsum]
      exact Triple.pure (parsedAs_msg log c)
  · rw [if_neg hsen, if_neg hsen]
    exact freeCtmpMsg_owned.next (Triple.pure (parsedAs_null _ c))

/-- What both parsers return, up to the message that has been read. -/
def parseMsg (host : Endian) (extended : Bool)
    (finish : CtmpMsg → List ParseError → Conn → Parsed) (c : Conn) : Parsed :=
  let r := readCtmpHeader c
  if r.res < 0 then
    ⟨none, [], r.conn⟩
  else
    let header := Header.ofBuffer r.buf
    if !validMagic header then
      ⟨none, [.magic (header.byte 0)], r.conn⟩
    else
      let log := if !validPadding header extended then [.padding] else []
      let len := setMsgLength host header
      let d := readCtmpData r.conn len
      if d.res < 0 then
        ⟨none, log, d.conn⟩
      else
        finish (.ofRead header len d.buf) log d.conn

/-- A parser on memory and the one on values agree if they do on a message that has been
read. -/
theorem parseMsgAt_triple {alloc : Allocator} {extended : Bool} {release : Ptr → Prog Block Unit}
    {finish : Ptr → List ParseError → Conn → Prog Block ParsedAt}
    {finish' : CtmpMsg → List ParseError → Conn → Parsed}
    (hrelease : ∀ p b, b.data = some none →
      Returns (pointsTo p (.msg b)) (release (some p)) () 1)
    (hfinish : ∀ p d m log c, Triple (alloc.noRoom (atMost 1)) (msgOwned p d m)
      (finish (some p) log c) (parsedAs (finish' m log c))) (c : Conn) :
    Triple (alloc.noRoom (atMost 1)) 1 (parseMsgAt host alloc extended release finish c)
      (parsedAs (parseMsg host extended finish' c)) := by
  refine Heap.malloc_bind (Heap.exit_givesUp.le (blocks_one.le_atMost (Nat.zero_le 1))) fun p => ?_
  rw [mul_one]
  refine (storeData_returns none).next ?_
  have hread : Returns (pointsTo p (.msg ⟨List.replicate headerLength none, none, some none⟩))
      (readMsgInto (.header (some p)) headerLength c 0)
      ((readMsg c headerLength).res, (readMsg c headerLength).conn)
      (pointsTo p (.msg ⟨overlay (readMsg c headerLength).buf (List.replicate headerLength none),
        none, some none⟩)) :=
    readMsgInto_start (.header (some p)) ⟨[], none, some none⟩ c (by simp)
  refine hread.next ?_
  unfold parseMsg readCtmpHeader
  by_cases hres : (readMsg c headerLength).res < 0
  · rw [if_pos hres, if_pos hres]
    exact (freeCtmpMsg_returns_null rfl).next (Triple.pure (parsedAs_null _ _))
  rw [if_neg hres, if_neg hres]
  have hheader : overlay (readMsg c headerLength).buf (List.replicate headerLength none) =
      (Header.ofBuffer (readMsg c headerLength).buf).bytes.map some := by
    obtain ⟨hlen, -, -⟩ := readMsg_success (not_lt.mp hres)
    rw [Header.ofBuffer_bytes hlen]
    exact overlay_eq (by rw [hlen, List.length_replicate])
  rw [hheader]
  generalize Header.ofBuffer (readMsg c headerLength).buf = h
  refine (validMagicAt_returns (h := h)).next ?_
  by_cases hmagic : (!validMagic h) = true
  · rw [if_pos hmagic, if_pos hmagic]
    exact (loadHeader_returns (h := h) (by decide)).next
      ((hrelease p _ rfl).next (Triple.pure (parsedAs_null _ _)))
  rw [if_neg hmagic, if_neg hmagic]
  refine (validPaddingAt_returns (h := h) extended).next ((setMsgLengthAt_returns host).next ?_)
  refine (readCtmpDataAt_returns alloc _).next (Triple.of_iSup fun d => ?_)
  by_cases hdata : (readCtmpData (readMsg c headerLength).conn (setMsgLength host h)).res < 0
  · rw [if_pos hdata, if_pos hdata]
    exact (freeCtmpMsg_returns rfl).next (Triple.pure (parsedAs_null _ _))
  · rw [if_neg hdata, if_neg hdata, dataOwned_eq hdata]
    exact hfinish p d _ _ _

/-- **A parser** returns on memory what it returns on values. -/
theorem ctmpParseAt_triple (mode : Mode) (host : Endian) (alloc : Allocator) (c : Conn) :
    Triple (alloc.noRoom (atMost 1)) 1 (ctmpParseAt mode host alloc c)
      (parsedAs (ctmpParse mode host c)) := by
  cases mode with
  | base =>
    have heq : ctmpParse .base host c =
        parseMsg host false (fun m log c => ⟨some m, log, c⟩) c := by
      simp only [ctmpParse, parseCtmpMsg, parseMsg]
    rw [heq, ctmpParseAt, parseCtmpMsgAt]
    refine parseMsgAt_triple (fun p b hdata => ?_) (fun p d m log c => ?_) c
    · exact freeCtmpMsg_returns_null hdata
    · exact Triple.pure (parsedAs_msg log c)
  | extended =>
    have heq : ctmpParse .extended host c = parseMsg host true (checkOptions host) c := by
      simp only [ctmpParse, parseCtmpMsgExtended, parseMsg]
    rw [heq, ctmpParseAt, parseCtmpMsgExtendedAt]
    refine parseMsgAt_triple (fun p b hdata => ?_) (fun p d m log c => ?_) c
    · exact Heap.free_returns p _
    · exact checkOptionsAt_triple log c

/-- **The parsers in memory**: whatever is read and whatever the heap holds, a parser makes no
fault. It calls `exit` only when there is no room for a block on the heap as it is then, which
is the heap it was given and at most the struct of the message. Otherwise it returns what it
returns on values, and the memory that it has allocated and not freed is that of the message
that it returns; every other block is as before. -/
theorem parse_memory (mode : Mode) (host : Endian) (alloc : Allocator) (c : Conn)
    (h : Heap Block) :
    (∃ part, ctmpParseAt mode host alloc c h = .error (.exited (part ∪ h)) ∧ part.Disjoint h ∧
        part.keys.card ≤ 1 ∧ alloc.pick (part ∪ h).keys = none) ∨
      ∃ r part, ctmpParseAt mode host alloc c h = .ok (r, part ∪ h) ∧ part.Disjoint h ∧
        r.log = (ctmpParse mode host c).log ∧ r.conn = (ctmpParse mode host c).conn ∧
        (msgAt r.msg (ctmpParse mode host c).msg).Holds part := by
  rcases (ctmpParseAt_triple mode host alloc c).run h with
    ⟨part, hrun, hd, hexit⟩ | ⟨r, part, hrun, hd, hpost⟩
  · obtain ⟨hpick, hpart⟩ := holds_fact_mul.mp hexit
    exact .inl ⟨part, hrun, hd, hpart, hpick⟩
  · obtain ⟨⟨hlog, hconn⟩, hmsg⟩ := holds_fact_mul.mp hpost
    exact .inr ⟨r, part, hrun, hd, hlog, hconn, hmsg⟩

/-! ## Sending -/

theorem sendMsgRoundAt_returns {P : Assertion Block} {buf : BytePtr} {bs : List UInt8}
    {total : Nat} (ev : SendEvent)
    (hload : Returns P (loadBytes buf total (bs.length - total)) (bs.drop total) P) :
    Returns P (sendMsgRoundAt buf bs.length total ev) (sendMsgRound bs total ev) P := by
  refine hload.next ?_
  cases ev with
  | eintr => exact Returns.pure
  | error e => exact Returns.pure
  | bytes n =>
    simp only [sendMsgRound]
    split
    · exact Returns.pure
    · exact Returns.pure

/-- `send_msg` reads its buffer alone. -/
theorem sendMsgAt_returns {P : Assertion Block} {buf : BytePtr} {bs : List UInt8} {total : Nat}
    (hload : ∀ t ≤ bs.length, Returns P (loadBytes buf t (bs.length - t)) (bs.drop t) P)
    (htotal : total ≤ bs.length) (sched : List SendEvent) :
    Returns P (sendMsgAt buf bs.length total sched) (sendMsg bs total sched) P := by
  induction sched generalizing total with
  | nil => exact (hload total htotal).next Returns.pure
  | cons ev evs ih =>
    refine (sendMsgRoundAt_returns ev (hload total htotal)).next ?_
    rw [sendMsg]
    rcases hr : sendMsgRound bs total ev with ⟨bs', t | res⟩
    · have hlt := ((sendMsgRound_spec hr).2.1 t rfl).2
      exact (ih (Nat.le_of_lt hlt)).next Returns.pure
    · exact Returns.pure

/-- **`send_ctmp_msg`** reads the message alone. -/
theorem sendCtmpMsgAt_returns (sched : List SendEvent) :
    Returns (msgOwned p d m) (sendCtmpMsgAt (some p) sched) (sendCtmpMsg m sched)
      (msgOwned p d m) := by
  have hheader : ∀ t ≤ m.header.bytes.length, Returns (msgOwned p d m)
      (loadBytes (.header (some p)) t (m.header.bytes.length - t)) (m.header.bytes.drop t)
      (msgOwned p d m) := by
    intro t ht
    refine Returns.onStruct (loadBytes_returns (.header (some p))
      (.ofHeader m.header (some m.len) (some (some d))) ?_ ?_)
    · rw [← List.map_drop, List.take_of_length_le (by simp)]
    · rw [List.length_map]
      omega
  have hdata : ∀ t ≤ m.data.length, Returns (msgOwned p d m)
      (loadBytes (.array (some d)) t (m.data.length - t)) (m.data.drop t) (msgOwned p d m) := by
    intro t ht
    refine Returns.frameLeft (loadBytes_returns (.array (some d)) .fresh ?_ ?_) _
    · rw [List.drop_append_of_le_length (by simpa using ht), ← List.map_drop]
      exact List.take_left' (by simp)
    · rw [List.length_append, List.length_map]
      omega
  have hsend := sendMsgAt_returns hheader (Nat.zero_le _) sched
  rw [m.header.length_eq] at hsend
  refine hsend.next ?_
  rw [sendCtmpMsg, sendCtmpMsgFrom_header]
  rcases sendMsg m.header.bytes 0 sched with ⟨bs, t | res, evs⟩
  · exact Returns.pure
  · by_cases hres : res < 0
    · simp only [if_pos hres]
      exact Returns.pure
    · simp only [if_neg hres]
      have hrest := sendMsgAt_returns hdata (Nat.zero_le _) evs
      rw [m.data_length] at hrest
      exact loadData_owned.next (loadLen_owned.next (hrest.next Returns.pure))

/-- `send_ctmp_msg` on a null pointer. -/
theorem sendCtmpMsgAt_faults {P : Assertion Block} (sched : List SendEvent) :
    Faults P (sendCtmpMsgAt none sched) := by
  have hload : ∀ t n, Faults P (loadBytes (.header none) t n) := fun _ _ _ _ _ => rfl
  cases sched with
  | nil => exact Faults.bind (Faults.bind (hload 0 _))
  | cons ev evs => exact Faults.bind (Faults.bind (Faults.bind (hload 0 _)))

end

end WireStorm
