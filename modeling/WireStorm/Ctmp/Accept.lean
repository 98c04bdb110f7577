import WireStorm.Ctmp.Parse

/-!
# What the parsers accept

The messages of base and of extended CTMP (`BaseCtmp`, `ExtendedCtmp`) against
the messages that the parsers return on a little-endian host. A complete frame
is returned when it has data and, in extended mode, its options and checksum are
right (`parse_eq_some_iff`). Padding is not looked at and a message without data
is dropped, so a parser follows the protocol exactly on the streams where no
complete frame makes a difference between the two
(`parsesExactly_base_iff`, `parsesExactly_extended_iff`).
-/

namespace WireStorm

/-! ## The protocol -/

/-- A complete frame: the magic byte, and the data that the header announces. -/
def Framed (m : CtmpMsg) : Prop :=
  m.header.byte 0 = magic ∧ m.len.toNat = m.header.payloadLength

/-- Base CTMP has zeros in header bytes 1 and 4 to 7. -/
def BasePadded (m : CtmpMsg) : Prop := ∀ i ∈ [1, 4, 5, 6, 7], m.header.byte i = 0x00

/-- Extended CTMP has zeros in header bytes 6 and 7. -/
def ExtPadded (m : CtmpMsg) : Prop := m.header.byte 6 = 0x00 ∧ m.header.byte 7 = 0x00

/-- The options byte says normal or sensitive, and the checksum of a sensitive
message is the one of the protocol description. -/
def OptionsOk (m : CtmpMsg) : Prop :=
  m.header.byte 1 = 0x00 ∨
    m.header.byte 1 = 0x40 ∧ m.header.checksumField = specChecksum m.header m.data

/-- A message of base CTMP. -/
def BaseCtmp (m : CtmpMsg) : Prop := Framed m ∧ BasePadded m

/-- A message of extended CTMP. -/
def ExtendedCtmp (m : CtmpMsg) : Prop := Framed m ∧ ExtPadded m ∧ OptionsOk m

/-- On this connection the parser returns the message at the start of the bytes
ahead if that is a message of the protocol, and nothing else. -/
def ParsesExactly (mode : Mode) (Valid : CtmpMsg → Prop) (c : Conn) : Prop :=
  ∀ m, (ctmpParse mode .little c).msg = some m ↔ m.image <+: c.stream ∧ Valid m

instance (m : CtmpMsg) : Decidable (Framed m) := inferInstanceAs (Decidable (_ ∧ _))
instance (m : CtmpMsg) : Decidable (BasePadded m) :=
  inferInstanceAs (Decidable (∀ i ∈ [1, 4, 5, 6, 7], m.header.byte i = 0x00))
instance (m : CtmpMsg) : Decidable (ExtPadded m) := inferInstanceAs (Decidable (_ ∧ _))
instance (m : CtmpMsg) : Decidable (BaseCtmp m) := inferInstanceAs (Decidable (_ ∧ _))
instance (m : CtmpMsg) : Decidable (OptionsOk m) := inferInstanceAs (Decidable (_ ∨ _ ∧ _))
instance (m : CtmpMsg) : Decidable (ExtendedCtmp m) := inferInstanceAs (Decidable (_ ∧ _ ∧ _))

/-! ## The start of the bytes ahead -/

theorem headerAt_image (m : CtmpMsg) (rest : List UInt8) :
    headerAt (m.image ++ rest) = m.header := by
  have hlen : m.header.bytes.length = headerLength := m.header.length_eq
  apply Header.ext
  rw [headerAt, CtmpMsg.image, List.append_assoc, List.take_left' hlen, Header.ofBuffer_bytes hlen]

/-- A frame at the start of the bytes ahead is what the parser reads. -/
theorem messageAt_image {host : Endian} {m : CtmpMsg} (hlen : m.len = setMsgLength host m.header)
    (rest : List UInt8) : messageAt host (m.image ++ rest) = m := by
  have hdrop : (m.image ++ rest).drop headerLength = m.data ++ rest := by
    rw [CtmpMsg.image, List.append_assoc, List.drop_left' m.header.length_eq]
  have hdata := m.data_length
  refine CtmpMsg.ext (headerAt_image m rest) ?_ ?_
  · rw [hlen, ← headerAt_image m rest]
    rfl
  · rw [hlen] at hdata
    have hbuf : (messageAt host (m.image ++ rest)).data =
        buffer (setMsgLength host (headerAt (m.image ++ rest))).toNat
          (((m.image ++ rest).drop headerLength).take
            (setMsgLength host (headerAt (m.image ++ rest))).toNat) := rfl
    rw [hbuf, headerAt_image, hdrop, List.take_left' hdata, buffer_eq hdata]

/-- The bytes ahead start with the message read from them. -/
theorem messageAt_starts {host : Endian} {s : List UInt8}
    (hlen : headerLength + (messageAt host s).len.toNat ≤ s.length) :
    (messageAt host s).image <+: s := by
  have hh : (messageAt host s).header.bytes = s.take headerLength :=
    Header.ofBuffer_bytes (List.length_take_of_le (by omega))
  have hd : (messageAt host s).data = (s.drop headerLength).take (messageAt host s).len.toNat :=
    buffer_eq (List.length_take_of_le (by rw [List.length_drop]; exact Nat.le_sub_of_add_le' hlen))
  rw [CtmpMsg.image, hh, hd, ← List.take_add]
  exact List.take_prefix _ _

theorem decode_eq_some_iff {mode : Mode} {host : Endian} {s : List UInt8} {m : CtmpMsg} :
    decode mode host s = some m ↔ m.image <+: s ∧ m.header.byte 0 = magic ∧
      m.len = setMsgLength host m.header ∧ 0 < m.len.toNat ∧ passesOptions mode host m := by
  simp only [decode]
  constructor
  · intro h
    split at h
    · rename_i hc
      obtain ⟨hmagic, hpos, hlen, hopt⟩ := hc
      obtain rfl := Option.some.inj h
      exact ⟨messageAt_starts hlen, eq_of_beq hmagic, rfl, hpos, hopt⟩
    · cases h
  · rintro ⟨⟨rest, rfl⟩, hmagic, hlen, hpos, hopt⟩
    have hm := messageAt_image hlen rest
    rw [hm, headerAt_image]
    have hlen' := m.length_image
    rw [if_pos ⟨beq_iff_eq.mpr hmagic, hpos, by
      rw [List.length_append]; omega, hopt⟩]

/-- The frame at the start of the bytes ahead is the only one there. -/
theorem Framed.eq_messageAt {m : CtmpMsg} (hm : Framed m) {s : List UInt8} (h : m.image <+: s) :
    m = messageAt .little s := by
  obtain ⟨rest, rfl⟩ := h
  have hlen : m.len = setMsgLength .little m.header := by
    rw [← UInt16.toNat_inj, hm.2, setMsgLength_little]
  exact (messageAt_image hlen rest).symm

/-! ## Acceptance -/

theorem len_eq_setMsgLength_iff {m : CtmpMsg} :
    m.len = setMsgLength .little m.header ↔ m.len.toNat = m.header.payloadLength := by
  rw [← UInt16.toNat_inj, setMsgLength_little]

theorem passesOptions_extended_iff {m : CtmpMsg} :
    passesOptions .extended .little m ↔ OptionsOk m := by
  unfold passesOptions OptionsOk
  simp only [checksum_little_iff]
  rfl

/-- **What the parsers return** on a little-endian host: the complete frame ahead,
if it has data and passes the tests of the mode. -/
theorem parse_eq_some_iff {mode : Mode} {c : Conn} (hc : c.NoError) {m : CtmpMsg} :
    (ctmpParse mode .little c).msg = some m ↔ m.image <+: c.stream ∧ Framed m ∧
      0 < m.len.toNat ∧ passesOptions mode .little m := by
  rw [(parse_spec mode .little hc).1, decode_eq_some_iff, len_eq_setMsgLength_iff, Framed, and_assoc]

/-- **A returned message** was at the start of the bytes ahead, and the parser took its
image, whatever the reads returned. -/
theorem parse_some {mode : Mode} {host : Endian} {c : Conn} {m : CtmpMsg}
    (h : (ctmpParse mode host c).msg = some m) :
    c.stream = m.image ++ (ctmpParse mode host c).conn.stream ∧ m.header.byte 0 = magic ∧
      m.len = setMsgLength host m.header ∧ 0 < m.len.toNat ∧ passesOptions mode host m := by
  have hres : ¬(readCtmpHeader c).res < 0 := by
    intro hneg
    cases mode <;> simp only [ctmpParse, parseCtmpMsg, parseCtmpMsgExtended, if_pos hneg] at h <;>
      cases h
  obtain ⟨hlen, -, hstream⟩ := readMsg_success (Int.not_lt.mp hres)
  have hhdr : Header.ofBuffer (readCtmpHeader c).buf = headerAt c.stream := by
    rw [headerAt, hstream, List.take_left' hlen]
    rfl
  have hmagic : validMagic (headerAt c.stream) = true := by
    by_contra hno
    have hno' : (!validMagic (headerAt c.stream)) = true := by simpa using hno
    cases mode <;> simp only [ctmpParse, parseCtmpMsg, parseCtmpMsgExtended, if_neg hres, hhdr,
      if_pos hno'] at h <;> cases h
  obtain ⟨hmsg, hconn⟩ := parse_data mode host hres hhdr hmagic
  rw [hmsg] at h
  split at h
  · rename_i hdata
    obtain ⟨hdata, hopt⟩ := hdata
    cases h
    obtain ⟨hdlen, hpos, hdstream⟩ := readMsg_success (Int.not_lt.mp hdata)
    have himage : (CtmpMsg.ofRead (headerAt c.stream) (setMsgLength host (headerAt c.stream))
        (dataRead host c).buf).image = (readCtmpHeader c).buf ++ (dataRead host c).buf := by
      have hheader : (Header.ofBuffer (readCtmpHeader c).buf).bytes = (readCtmpHeader c).buf :=
        Header.ofBuffer_bytes hlen
      have hbuffer : buffer (setMsgLength host (headerAt c.stream)).toNat (dataRead host c).buf =
          (dataRead host c).buf := buffer_eq hdlen
      simp only [CtmpMsg.image, CtmpMsg.ofRead]
      rw [hbuffer, ← hhdr, hheader]
    refine ⟨?_, eq_of_beq hmagic, rfl, hpos, hopt⟩
    rw [himage, hconn, List.append_assoc]
    exact hstream.trans (congrArg _ hdstream)
  · cases h

/-- A returned message is the one at the start of the bytes ahead. -/
theorem parse_eq_messageAt {mode : Mode} {host : Endian} {c : Conn} {m : CtmpMsg}
    (h : (ctmpParse mode host c).msg = some m) : m = messageAt host c.stream := by
  obtain ⟨hstream, -, hset, -⟩ := parse_some h
  rw [hstream, messageAt_image hset]

/-- The base parser follows the protocol exactly when the frame ahead, if there
is a complete one, is either non-empty and padded with zeros or empty and padded
with something else. -/
theorem parsesExactly_base_iff {c : Conn} (hc : c.NoError) :
    ParsesExactly .base BaseCtmp c ↔
      ∀ m, m.image <+: c.stream → Framed m → (0 < m.len.toNat ↔ BasePadded m) := by
  unfold ParsesExactly
  refine forall_congr' fun m => ?_
  rw [parse_eq_some_iff hc]
  constructor
  · intro h hpre hfr
    exact ⟨fun hpos => (h.mp ⟨hpre, hfr, hpos, trivial⟩).2.2,
      fun hpad => (h.mpr ⟨hpre, hfr, hpad⟩).2.2.1⟩
  · intro h
    exact ⟨fun ⟨hpre, hfr, hpos, _⟩ => ⟨hpre, hfr, (h hpre hfr).mp hpos⟩,
      fun ⟨hpre, hfr, hpad⟩ => ⟨hpre, hfr, (h hpre hfr).mpr hpad, trivial⟩⟩

theorem parsesExactly_base_one_byte :
    ParsesExactly .base BaseCtmp
      ⟨[0xcc, 0, 0, 1, 0, 0, 0, 0, 0x41, 0xcc], true, [.eintr, .bytes 3]⟩ := by
  refine (parsesExactly_base_iff fun e => by simp).mpr fun m hpre hfr => ?_
  obtain rfl := hfr.eq_messageAt hpre
  decide

/-- A message with a non-zero byte 1 is returned, an empty one is dropped. -/
theorem not_parsesExactly_base :
    ¬ParsesExactly .base BaseCtmp ⟨[0xcc, 1, 0, 1, 0, 0, 0, 0, 0x41], false, []⟩ ∧
      ¬ParsesExactly .base BaseCtmp ⟨[0xcc, 0, 0, 0, 0, 0, 0, 0], false, []⟩ := by
  constructor
  · intro h
    have hiff := h ⟨⟨[0xcc, 1, 0, 1, 0, 0, 0, 0], rfl⟩, 1, [0x41], rfl⟩
    rw [parse_eq_some_iff fun e => by simp] at hiff
    exact absurd (hiff.mp ⟨by decide, by decide, by decide, trivial⟩).2 (by decide)
  · intro h
    have hiff := h ⟨⟨[0xcc, 0, 0, 0, 0, 0, 0, 0], rfl⟩, 0, [], rfl⟩
    rw [parse_eq_some_iff fun e => by simp] at hiff
    exact absurd (hiff.mpr ⟨by decide, by decide⟩).2.2.1 (by decide)

/-- The extended parser follows the protocol exactly when the frame ahead, if
there is a complete one whose options and checksum are right, is either
non-empty and padded with zeros or empty and padded with something else. -/
theorem parsesExactly_extended_iff {c : Conn} (hc : c.NoError) :
    ParsesExactly .extended ExtendedCtmp c ↔
      ∀ m, m.image <+: c.stream → Framed m → OptionsOk m → (0 < m.len.toNat ↔ ExtPadded m) := by
  unfold ParsesExactly
  refine forall_congr' fun m => ?_
  rw [parse_eq_some_iff hc, passesOptions_extended_iff]
  constructor
  · intro h hpre hfr hopt
    exact ⟨fun hpos => (h.mp ⟨hpre, hfr, hpos, hopt⟩).2.2.1,
      fun hpad => (h.mpr ⟨hpre, hfr, hpad, hopt⟩).2.2.1⟩
  · intro h
    exact ⟨fun ⟨hpre, hfr, hpos, hopt⟩ => ⟨hpre, hfr, (h hpre hfr hopt).mp hpos, hopt⟩,
      fun ⟨hpre, hfr, hpad, hopt⟩ => ⟨hpre, hfr, (h hpre hfr hopt).mpr hpad, hopt⟩⟩

theorem parsesExactly_extended_sensitive :
    ParsesExactly .extended ExtendedCtmp
      ⟨[0xcc, 0x40, 0, 1, 0x25, 0xf1, 0, 0, 0x41], true, [.bytes 1, .eintr]⟩ := by
  refine (parsesExactly_extended_iff fun e => by simp).mpr fun m hpre hfr _ => ?_
  obtain rfl := hfr.eq_messageAt hpre
  decide

/-- A message with a non-zero padding byte is returned, an empty one is dropped. -/
theorem not_parsesExactly_extended :
    ¬ParsesExactly .extended ExtendedCtmp ⟨[0xcc, 0, 0, 1, 0, 0, 1, 0, 0x41], false, []⟩ ∧
      ¬ParsesExactly .extended ExtendedCtmp ⟨[0xcc, 0, 0, 0, 0, 0, 0, 0], false, []⟩ := by
  constructor
  · intro h
    have hiff := h ⟨⟨[0xcc, 0, 0, 1, 0, 0, 1, 0], rfl⟩, 1, [0x41], rfl⟩
    rw [parse_eq_some_iff (fun e => by simp), passesOptions_extended_iff] at hiff
    exact absurd (hiff.mp ⟨by decide, by decide, by decide, by decide⟩).2 (by decide)
  · intro h
    have hiff := h ⟨⟨[0xcc, 0, 0, 0, 0, 0, 0, 0], rfl⟩, 0, [], rfl⟩
    rw [parse_eq_some_iff fun e => by simp] at hiff
    exact absurd (hiff.mpr ⟨by decide, by decide, by decide, by decide⟩).2.2.1 (by decide)

end WireStorm
