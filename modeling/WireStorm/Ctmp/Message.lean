import Mathlib.Data.List.Basic

/-!
# CTMP messages

The constants of `lib/ctmp.h`, `struct ctmp_msg`, and the header functions of
`lib/ctmp.c` (`validMagic`, `validPadding`, `setMsgLength`). The functions that
depend on the byte order of the host take it as a parameter (`Endian`).
-/

namespace WireStorm

/-! ## Constants -/

/-- CTMP header magic byte. -/
def magic : UInt8 := 0xcc

/-- CTMP header length. -/
def headerLength : Nat := 8

/-- CTMP header padding byte. -/
def padding : UInt8 := 0x00

/-- First byte of message length: 2 bytes long. -/
def lengthOffset : Nat := 2

/-- Options byte of the extended version. -/
def optionsOffset : Nat := 1

/-- First byte of checksum: 2 bytes long. -/
def checksumOffset : Nat := 4

/-- Padding of base CTMP (excluding byte 1). -/
def paddingStart : Nat := 4
def paddingEnd : Nat := 7

/-- Padding of extended CTMP as `ctmp.h` defines it. -/
def extPaddingStart : Nat := 2
def extPaddingEnd : Nat := 3

/-- Extended CTMP "NORMAL" option. -/
def optNorm : UInt8 := 0x00

/-- Extended CTMP "SEN" (sensitive) option. -/
def optSen : UInt8 := 0x40

/-! ## Byte order -/

/-- Byte order of the host. -/
inductive Endian
  | little
  | big
  deriving DecidableEq, Repr

/-- `ntohs`: exchange the two bytes on a little-endian host. -/
def ntohs (host : Endian) (x : UInt16) : UInt16 :=
  match host with
  | .little => UInt16.ofNat (x.toNat % 256 * 256 + x.toNat / 256)
  | .big => x

theorem ntohs_little_toNat (x : UInt16) :
    (ntohs .little x).toNat = x.toNat % 256 * 256 + x.toNat / 256 := by
  have hx := x.toNat_lt
  simp only [ntohs, UInt16.toNat_ofNat']
  omega

/-! ## Buffers and headers -/

/-- An `n`-byte buffer after `stored` was written to its start; the bytes not
written to (which the program never reads) are taken to be 0. -/
def buffer (n : Nat) (stored : List UInt8) : List UInt8 := (stored ++ List.replicate n 0).take n

@[simp] theorem length_buffer (n : Nat) (stored : List UInt8) : (buffer n stored).length = n := by
  simp [buffer]

theorem buffer_eq {n : Nat} {stored : List UInt8} (h : stored.length = n) :
    buffer n stored = stored := by
  unfold buffer
  rw [List.take_append_of_le_length (by omega), List.take_of_length_le (by omega)]

/-- The header array of a message: `HEADER_LENGTH` bytes. -/
structure Header where
  bytes : List UInt8
  length_eq : bytes.length = headerLength
  deriving DecidableEq, Repr

namespace Header

/-- `header[i]`. -/
def byte (h : Header) (i : Nat) : UInt8 := h.bytes.getD i 0

/-- The header array after `stored` was read into it. -/
def ofBuffer (stored : List UInt8) : Header := ⟨buffer headerLength stored, length_buffer _ _⟩

theorem ofBuffer_bytes {stored : List UInt8} (h : stored.length = headerLength) :
    (ofBuffer stored).bytes = stored := buffer_eq h

@[ext] theorem ext {h h' : Header} (hb : h.bytes = h'.bytes) : h = h' := by
  cases h
  cases h'
  cases hb
  rfl

/-- The payload length that the header announces: bytes 2 and 3 in network order. -/
def payloadLength (h : Header) : Nat := 256 * (h.byte 2).toNat + (h.byte 3).toNat

end Header

/-- `struct ctmp_msg`, with its data buffer. -/
structure CtmpMsg where
  header : Header
  len : UInt16
  data : List UInt8
  data_length : data.length = len.toNat
  deriving DecidableEq, Repr

/-- The bytes of a message on the wire: header, then data. -/
def CtmpMsg.image (m : CtmpMsg) : List UInt8 := m.header.bytes ++ m.data

theorem CtmpMsg.ext {m m' : CtmpMsg} (hh : m.header = m'.header) (hl : m.len = m'.len)
    (hd : m.data = m'.data) : m = m' := by
  cases m
  cases m'
  cases hh
  cases hl
  cases hd
  rfl

theorem CtmpMsg.length_image (m : CtmpMsg) : m.image.length = headerLength + m.len.toNat := by
  rw [image, List.length_append, m.header.length_eq, m.data_length]

/-! ## Header functions -/

/-- `valid_magic`. -/
def validMagic (h : Header) : Bool := h.byte 0 == magic

/-- `valid_padding`. -/
def validPadding (h : Header) (extended : Bool) : Bool :=
  let first := if extended then extPaddingStart else paddingStart
  let last := if extended then extPaddingEnd else paddingEnd
  -- options byte should always be set to padding value if not in extended mode
  if !extended && (h.byte optionsOffset &&& padding) != 0 then
    false
  else
    (List.range' first (last + 1 - first)).all fun i => (h.byte i &&& padding) == 0

/-- `set_msg_length`: header bytes 2 and 3 put together in host order, then
converted from network to host order. -/
def setMsgLength (host : Endian) (h : Header) : UInt16 :=
  ntohs host
    (UInt16.ofNat (((h.byte (lengthOffset + 1)).toNat <<< 8) + (h.byte lengthOffset).toNat))

/-- The padding test masks with `PADDING = 0x00`, so it passes for every header. -/
theorem validPadding_eq_true (h : Header) (extended : Bool) : validPadding h extended = true := by
  have hand : ∀ b : UInt8, b &&& padding = 0 := fun b => by simp [padding]
  unfold validPadding
  simp [hand]

theorem setMsgLength_little (h : Header) :
    (setMsgLength .little h).toNat = h.payloadLength := by
  have h2 := (h.byte 2).toNat_lt
  have h3 := (h.byte 3).toNat_lt
  rw [setMsgLength, ntohs_little_toNat]
  simp only [lengthOffset, Nat.reduceAdd, UInt16.toNat_ofNat', Nat.shiftLeft_eq,
    Header.payloadLength]
  omega

end WireStorm
