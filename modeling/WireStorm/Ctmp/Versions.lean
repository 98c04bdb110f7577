import WireStorm.Ctmp.Accept

/-!
# The two protocol versions

`parse_ctmp_msg` and `parse_ctmp_msg_extended` make the same reads (`parseReads`)
and differ in what they return. So successive calls of either take the same bytes
from a stream, whatever they drop, and messages that both return are the same
(`same_cuts`).
-/

namespace WireStorm

/-! ## The reads of a call -/

/-- The reads of both parsers: the header, and the data when the magic byte is right. -/
def parseReads (host : Endian) (c : Conn) : Conn :=
  let r := readCtmpHeader c
  if r.res < 0 then
    r.conn
  else
    let header := Header.ofBuffer r.buf
    if !validMagic header then r.conn else (readCtmpData r.conn (setMsgLength host header)).conn

theorem ctmpParse_conn (mode : Mode) (host : Endian) (c : Conn) :
    (ctmpParse mode host c).conn = parseReads host c := by
  cases mode with
  | base =>
    simp only [ctmpParse, parseCtmpMsg, parseReads]
    split
    · rfl
    · split
      · rfl
      · split <;> rfl
  | extended =>
    simp only [ctmpParse, parseCtmpMsgExtended, parseReads]
    split
    · rfl
    · split
      · rfl
      · split
        · rfl
        · rw [checkOptions_conn]

/-- `read_msg` takes bytes from the start of the stream. -/
theorem readMsg_taken (c : Conn) (len : Nat) :
    ∃ bytes, c.stream = bytes ++ (readMsg c len).conn.stream := by
  obtain ⟨⟨bytes, -, hstream⟩, -⟩ := readMsgLoop_stored len c []
  exact ⟨bytes, hstream⟩

theorem parseReads_taken (host : Endian) (c : Conn) :
    ∃ bytes, c.stream = bytes ++ (parseReads host c).stream := by
  obtain ⟨bytes, hheader⟩ := readMsg_taken c headerLength
  simp only [parseReads]
  split
  · exact ⟨bytes, hheader⟩
  · split
    · exact ⟨bytes, hheader⟩
    · obtain ⟨bytes', hdata⟩ := readMsg_taken (readCtmpHeader c).conn
        (setMsgLength host (Header.ofBuffer (readCtmpHeader c).buf)).toNat
      refine ⟨bytes ++ bytes', ?_⟩
      rw [List.append_assoc]
      exact hheader.trans (congrArg _ hdata)

/-! ## Successive calls -/

/-- The connection after `k` calls of the parser. -/
def afterParses (mode : Mode) (host : Endian) : Nat → Conn → Conn
  | 0, c => c
  | k + 1, c => afterParses mode host k (ctmpParse mode host c).conn

/-- The same bytes arrive: on one connection, whatever its reads return, or on two
connections without read errors. -/
def SameBytes (c c' : Conn) : Prop := c = c' ∨ c.stream = c'.stream ∧ c.NoError ∧ c'.NoError

section
variable {host : Endian} {c c' : Conn}

theorem SameBytes.stream_eq (h : SameBytes c c') : c.stream = c'.stream := by
  rcases h with rfl | h
  · rfl
  · exact h.1

/-- A call of each version leaves the same bytes. -/
theorem SameBytes.parse (h : SameBytes c c') (mode mode' : Mode) :
    SameBytes (ctmpParse mode host c).conn (ctmpParse mode' host c').conn := by
  rcases h with rfl | ⟨hs, hc, hc'⟩
  · left
    rw [ctmpParse_conn, ctmpParse_conn]
  · have hd := (parse_spec mode host hc).2
    have hd' := (parse_spec mode' host hc').2
    exact .inr ⟨by rw [hd.stream, hd'.stream, hs], hd.noError, hd'.noError⟩

/-- What `k` calls of each version have taken is the same. -/
theorem SameBytes.afterParses (mode mode' : Mode) (k : Nat) (h : SameBytes c c') :
    SameBytes (afterParses mode host k c) (afterParses mode' host k c') := by
  induction k generalizing c c' with
  | zero => exact h
  | succ k ih => exact ih (h.parse mode mode')

theorem afterParses_taken (mode : Mode) (host : Endian) (k : Nat) (c : Conn) :
    ∃ bytes, c.stream = bytes ++ (afterParses mode host k c).stream := by
  induction k generalizing c with
  | zero => exact ⟨[], rfl⟩
  | succ k ih =>
    obtain ⟨bytes, hcall⟩ := parseReads_taken host c
    obtain ⟨bytes', hcalls⟩ := ih (ctmpParse mode host c).conn
    rw [← ctmpParse_conn mode] at hcall
    refine ⟨bytes ++ bytes', ?_⟩
    rw [List.append_assoc, afterParses, ← hcalls]
    exact hcall

/-! ## Both versions cut a stream at the same places -/

/-- After `k` calls both versions have taken the same bytes, and if both return a message
from the next call it is the same. -/
structure SameCut (host : Endian) (k : Nat) (c c' : Conn) : Prop where
  taken : ∃ bytes, c.stream = bytes ++ (afterParses .base host k c).stream ∧
    c'.stream = bytes ++ (afterParses .extended host k c').stream
  message : ∀ m m', (ctmpParse .base host (afterParses .base host k c)).msg = some m →
    (ctmpParse .extended host (afterParses .extended host k c')).msg = some m' → m = m'

/-- **Both versions** cut a stream at the same places. -/
theorem same_cuts (h : SameBytes c c') (k : Nat) : SameCut host k c c' := by
  have hcalls : SameBytes (afterParses .base host k c) (afterParses .extended host k c') :=
    h.afterParses .base .extended k
  have hafter := hcalls.stream_eq
  obtain ⟨bytes, htaken⟩ := afterParses_taken .base host k c
  refine ⟨⟨bytes, htaken, ?_⟩, fun m m' hm hm' => ?_⟩
  · rw [← hafter, ← h.stream_eq]
    exact htaken
  · rw [parse_eq_messageAt hm, parse_eq_messageAt hm', hafter]

end

/-- A wrong checksum is dropped by one version; both go on with the frame behind it. -/
theorem same_cuts_checksum :
    SameCut .little 1
      ⟨[0xcc, 0x40, 0, 1, 0, 0, 0, 0, 0x41, 0xcc, 0, 0, 1, 0, 0, 0, 0, 0x42], true, [.bytes 3]⟩
      ⟨[0xcc, 0x40, 0, 1, 0, 0, 0, 0, 0x41, 0xcc, 0, 0, 1, 0, 0, 0, 0, 0x42], true, [.eintr]⟩ := by
  apply same_cuts
  exact .inr ⟨rfl, fun e => by simp, fun e => by simp⟩

end WireStorm
