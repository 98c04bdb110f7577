import WireStorm.Ctmp.Accept

/-!
# The byte order of the host

The length, the checksum field and the words of the checksum are put together in ways
that are right on a little-endian host. A big-endian host reads both fields with their
bytes exchanged and takes an odd last byte of data as the low byte of its word
(`passesOptions_big_iff`). So the hosts agree on a stream exactly when every message
there that one of them accepts has equal length bytes and is normal, or has complete
words whose sum is divisible by 257 (`sameVerdict_iff`).
-/

namespace WireStorm

open OnesComplement

/-! ## What a big-endian host reads -/

/-- The payload length, read with the bytes of its field exchanged. -/
def Header.exchangedLength (h : Header) : Nat := 256 * (h.byte 3).toNat + (h.byte 2).toNat

/-- The checksum, read with the bytes of its field exchanged. -/
def Header.exchangedChecksum (h : Header) : Nat := 256 * (h.byte 5).toNat + (h.byte 4).toNat

/-- The sum of the complete big-endian words of a byte string. -/
def completeSum : List UInt8 → Nat
  | a :: b :: rest => 256 * a.toNat + b.toNat + completeSum rest
  | [_] | [] => 0

/-- The odd last byte of a byte string, 0 if there is none. -/
def oddByte : List UInt8 → Nat
  | _ :: _ :: rest => oddByte rest
  | [a] => a.toNat
  | [] => 0

/-- The sum of the complete words that the checksum of a message covers. -/
def CtmpMsg.completeSum (m : CtmpMsg) : Nat :=
  WireStorm.completeSum (checksumHeader m.header) + WireStorm.completeSum m.data

/-- The checksum with the odd last byte of data as the low byte of its word. -/
def bigChecksum (m : CtmpMsg) : Nat := 65535 - canon 65535 (m.completeSum + oddByte m.data)

/-- A complete frame to a big-endian host. -/
def BigFramed (m : CtmpMsg) : Prop :=
  m.header.byte 0 = magic ∧ m.len.toNat = m.header.exchangedLength

/-- Right options to a big-endian host. -/
def BigOptionsOk (m : CtmpMsg) : Prop :=
  m.header.byte 1 = 0x00 ∨
    m.header.byte 1 = 0x40 ∧ m.header.exchangedChecksum = bigChecksum m

/-- A message of extended CTMP as the host reads it, padding apart. -/
def ValidOn : Endian → CtmpMsg → Prop
  | .little, m => Framed m ∧ OptionsOk m
  | .big, m => BigFramed m ∧ BigOptionsOk m

/-- The message is the same in either byte order. -/
def ByteSymmetric (m : CtmpMsg) : Prop :=
  m.header.byte 2 = m.header.byte 3 ∧ (m.header.byte 1 = 0x00 ∨ 257 ∣ m.completeSum)

section
variable {m : CtmpMsg} {h : Header}

theorem setMsgLength_big (h : Header) : (setMsgLength .big h).toNat = h.exchangedLength := by
  have h2 := (h.byte 2).toNat_lt
  have h3 := (h.byte 3).toNat_lt
  simp only [setMsgLength, ntohs, lengthOffset, Nat.reduceAdd, UInt16.toNat_ofNat',
    Nat.shiftLeft_eq, Header.exchangedLength]
  omega

theorem sum_beWords : ∀ bs : List UInt8,
    (beWords bs).sum = completeSum bs + 256 * oddByte bs
  | a :: b :: rest => by
    rw [beWords, List.sum_cons, sum_beWords rest, completeSum, oddByte]
    omega
  | [a] => by simp [beWords, completeSum, oddByte]
  | [] => rfl

theorem addWords_big : ∀ (sum : Nat) (bs : List UInt8),
    addWords .big sum bs = sum + completeSum bs + oddByte bs
  | sum, a :: b :: rest => by
    rw [addWords, addWords_big _ rest, completeSum, oddByte, loadWord]
    omega
  | sum, [a] => rfl
  | sum, [] => rfl

theorem oddByte_of_even : ∀ bs : List UInt8, bs.length % 2 = 0 → oddByte bs = 0
  | _ :: _ :: rest, h => by
    rw [List.length_cons, List.length_cons] at h
    exact oddByte_of_even rest (by omega)
  | [_], h => by cases h
  | [], _ => rfl

theorem oddByte_header (h : Header) : oddByte (checksumHeader h) = 0 := by
  apply oddByte_of_even
  rw [checksumHeader, List.length_set, List.length_set, h.length_eq]
  rfl

/-- The described checksum, with the odd last byte as the high byte of its word. -/
theorem specChecksum_eq_complete (m : CtmpMsg) : specChecksum m.header m.data =
    65535 - canon 65535 (m.completeSum + 256 * oddByte m.data) := by
  rw [specChecksum_eq, List.sum_append, sum_beWords, sum_beWords, oddByte_header,
    CtmpMsg.completeSum]
  congr 2
  omega

theorem calcChecksum_big_toNat (m : CtmpMsg) : (calcChecksum .big m).toNat = bigChecksum m := by
  have hsum : addWords .big (addWords .big 0 (checksumHeader m.header)) m.data =
      m.completeSum + oddByte m.data := by
    rw [addWords_big, addWords_big, oddByte_header, CtmpMsg.completeSum]
    omega
  have hle := canon_le (M := 65535) (by decide) (m.completeSum + oddByte m.data)
  have hsize : UInt16.size = 65536 := rfl
  rw [calcChecksum, bigChecksum]
  simp only [UInt16.toNat_not, UInt16.toNat_ofNat', hsum, foldSum_eq_canon]
  omega

theorem swap_checksumField (h : Header) : swap 256 h.checksumField = h.exchangedChecksum := by
  have h5 := (h.byte 5).toNat_lt
  rw [Header.checksumField, swap_digits _ h5, Header.exchangedChecksum, Nat.mul_comm]

theorem checksum_big_iff (m : CtmpMsg) :
    headerChecksum m.header = calcChecksum .big m ↔
      m.header.exchangedChecksum = bigChecksum m := by
  rw [← UInt16.toNat_inj, headerChecksum_toNat, calcChecksum_big_toNat, swap_checksumField]

theorem passesOptions_big_iff : passesOptions .extended .big m ↔ BigOptionsOk m := by
  unfold passesOptions BigOptionsOk
  simp only [checksum_big_iff]
  rfl

/-! ## The checksum in either byte order -/

/-- The checksum covers its own field, filled with magic bytes. -/
theorem completeSum_pos (m : CtmpMsg) : 0 < m.completeSum := by
  obtain ⟨⟨bytes, hlen⟩, len, data, hdata⟩ := m
  match bytes, hlen with
  | [b0, b1, b2, b3, b4, b5, b6, b7], _ =>
    have hcc : magic.toNat = 204 := rfl
    simp only [CtmpMsg.completeSum, checksumHeader, checksumOffset, List.set, completeSum, hcc]
    omega

/-- The described checksum with its bytes exchanged is the one of a big-endian host exactly
when 257 divides the sum of the complete words. -/
theorem swap_specChecksum_eq_iff (m : CtmpMsg) :
    swap 256 (specChecksum m.header m.data) = bigChecksum m ↔ 257 ∣ m.completeSum := by
  have hle := canon_le (M := 65535) (by decide) (m.completeSum + 256 * oddByte m.data)
  have hle' := canon_le (M := 65535) (by decide) (m.completeSum + oddByte m.data)
  have hswap : swap 256 (canon 65535 (m.completeSum + 256 * oddByte m.data)) ≤ 65535 :=
    swap_le (B := 256) (by decide) hle
  have hiff : swap 256 (canon 65535 (m.completeSum + 256 * oddByte m.data)) =
      canon 65535 (m.completeSum + oddByte m.data) ↔ 257 ∣ m.completeSum :=
    swap_canon_eq_iff (B := 256) (by decide) (completeSum_pos m) (oddByte m.data)
  rw [specChecksum_eq_complete, swap_compl (B := 256) (by decide) hle, bigChecksum]
  refine Iff.trans ?_ hiff
  omega

/-- Of a checksum field that is right on one host, when it is right on both. -/
theorem checksums_iff
    (h : m.header.checksumField = specChecksum m.header m.data ∨
      m.header.exchangedChecksum = bigChecksum m) :
    m.header.checksumField = specChecksum m.header m.data ∧
      m.header.exchangedChecksum = bigChecksum m ↔ 257 ∣ m.completeSum := by
  have hfield : m.header.checksumField < 256 * 256 := by
    have h4 := (m.header.byte 4).toNat_lt
    have h5 := (m.header.byte 5).toNat_lt
    unfold Header.checksumField
    omega
  have hspec : specChecksum m.header m.data < 256 * 256 :=
    Nat.lt_succ_of_le (specChecksum_le m.header m.data)
  rw [← swap_specChecksum_eq_iff, ← swap_checksumField]
  rw [← swap_checksumField] at h
  constructor
  · rintro ⟨hlittle, hbig⟩
    rw [← hlittle, hbig]
  · intro hswap
    rcases h with hlittle | hbig
    · exact ⟨hlittle, by rw [hlittle, hswap]⟩
    · exact ⟨(swap_inj hfield hspec).mp (hbig.trans hswap.symm), hbig⟩

theorem optionsOk_iff (h : OptionsOk m ∨ BigOptionsOk m) :
    OptionsOk m ∧ BigOptionsOk m ↔ m.header.byte 1 = 0x00 ∨ 257 ∣ m.completeSum := by
  by_cases hnorm : m.header.byte 1 = 0x00
  · exact iff_of_true ⟨.inl hnorm, .inl hnorm⟩ (.inl hnorm)
  · simp only [OptionsOk, BigOptionsOk, hnorm, false_or] at h ⊢
    rcases h with ⟨hsen, h⟩ | ⟨hsen, h⟩
    · rw [← checksums_iff (.inl h)]
      simp only [hsen, true_and]
    · rw [← checksums_iff (.inr h)]
      simp only [hsen, true_and]

theorem framed_iff (h : Framed m ∨ BigFramed m) :
    Framed m ∧ BigFramed m ↔ m.header.byte 2 = m.header.byte 3 := by
  have h2 := (m.header.byte 2).toNat_lt
  have h3 := (m.header.byte 3).toNat_lt
  have hlen : m.header.payloadLength = m.header.exchangedLength ↔
      m.header.byte 2 = m.header.byte 3 := by
    rw [← UInt8.toNat_inj, Header.payloadLength, Header.exchangedLength]
    omega
  rw [← hlen]
  constructor
  · rintro ⟨hlittle, hbig⟩
    rw [← hlittle.2, hbig.2]
  · intro heq
    rcases h with h | h
    · exact ⟨h, h.1, by rw [h.2, heq]⟩
    · exact ⟨⟨h.1, by rw [h.2, heq]⟩, h⟩

/-- **A message that one host accepts** is accepted by both when it is the same in either
byte order. -/
theorem valid_iff (h : ValidOn .little m ∨ ValidOn .big m) :
    ValidOn .little m ∧ ValidOn .big m ↔ ByteSymmetric m := by
  rw [ByteSymmetric, ← framed_iff (h.imp And.left And.left),
    ← optionsOk_iff (h.imp And.right And.right)]
  exact and_and_and_comm

/-! ## Both hosts on one stream -/

/-- The same verdict, and messages of the same length with the same data. -/
structure SameVerdict (p q : Option CtmpMsg) : Prop where
  verdict : p.isSome = q.isSome
  len : ∀ m m', p = some m → q = some m' → m.len = m'.len
  data : ∀ m m', p = some m → q = some m' → m.data = m'.data

/-- The non-empty messages at the start of `s` that one of the hosts finds valid are the
same in either byte order. -/
def OrderFree (s : List UInt8) : Prop :=
  ∀ m : CtmpMsg, m.image <+: s → 0 < m.len.toNat → ValidOn .little m ∨ ValidOn .big m → ByteSymmetric m

variable {c c' : Conn}

theorem parse_valid_iff (host : Endian) (hc : c.NoError) :
    (ctmpParse .extended host c).msg = some m ↔
      m.image <+: c.stream ∧ 0 < m.len.toNat ∧ ValidOn host m := by
  cases host with
  | little =>
    rw [parse_eq_some_iff hc, passesOptions_extended_iff, ValidOn]
    exact and_congr_right fun _ => and_left_comm
  | big =>
    rw [(parse_spec .extended .big hc).1, decode_eq_some_iff, passesOptions_big_iff, ValidOn,
      BigFramed, ← UInt16.toNat_inj, setMsgLength_big]
    refine and_congr_right fun _ => ?_
    constructor
    · rintro ⟨hmagic, hlen, hpos, hopt⟩
      exact ⟨hpos, ⟨hmagic, hlen⟩, hopt⟩
    · rintro ⟨hpos, ⟨hmagic, hlen⟩, hopt⟩
      exact ⟨hmagic, hlen, hpos, hopt⟩

/-- **Parsing depends on the byte order** of the host unless the message ahead, if a host
accepts one, is the same in either. -/
theorem sameVerdict_iff (hs : c'.stream = c.stream) (hc : c.NoError) (hc' : c'.NoError) :
    SameVerdict (ctmpParse .extended .little c).msg (ctmpParse .extended .big c').msg ↔
      OrderFree c.stream := by
  have hlittle := fun m => parse_valid_iff (m := m) .little hc
  have hbig := fun m => parse_valid_iff (m := m) .big hc'
  simp only [hs] at hbig
  constructor
  · rintro hsame m hpre hpos hvalid
    refine (valid_iff hvalid).mp ?_
    -- both hosts return a message, and it is the same
    have heq : ∀ m₁ m₂, (ctmpParse .extended .little c).msg = some m₁ →
        (ctmpParse .extended .big c').msg = some m₂ → m₁ = m₂ := by
      intro m₁ m₂ h₁ h₂
      refine CtmpMsg.ext ?_ (hsame.len m₁ m₂ h₁ h₂) (hsame.data m₁ m₂ h₁ h₂)
      rw [parse_eq_messageAt h₁, parse_eq_messageAt h₂, hs]
      rfl
    rcases hvalid with hvalid | hvalid
    · have hp := (hlittle m).mpr ⟨hpre, hpos, hvalid⟩
      obtain ⟨m', hq⟩ := Option.isSome_iff_exists.mp (hsame.verdict ▸ Option.isSome_of_eq_some hp)
      obtain rfl := heq m m' hp hq
      exact ⟨hvalid, ((hbig m).mp hq).2.2⟩
    · have hq := (hbig m).mpr ⟨hpre, hpos, hvalid⟩
      obtain ⟨m', hp⟩ := Option.isSome_iff_exists.mp (hsame.verdict ▸ Option.isSome_of_eq_some hq)
      obtain rfl := heq m' m hp hq
      exact ⟨((hlittle m').mp hp).2.2, hvalid⟩
  · intro hfree
    have hiff : ∀ m, (ctmpParse .extended .little c).msg = some m ↔
        (ctmpParse .extended .big c').msg = some m := by
      intro m
      rw [hlittle, hbig]
      refine and_congr_right fun hpre => and_congr_right fun hpos => ?_
      constructor
      · intro hvalid
        exact ((valid_iff (.inl hvalid)).mpr (hfree m hpre hpos (.inl hvalid))).2
      · intro hvalid
        exact ((valid_iff (.inr hvalid)).mpr (hfree m hpre hpos (.inr hvalid))).1
    rw [Option.ext hiff]
    constructor
    · rfl
    · rintro m m' h h'
      rw [Option.some.inj (h.symm.trans h')]
    · rintro m m' h h'
      rw [Option.some.inj (h.symm.trans h')]

end

/-- A normal message of 257 bytes. -/
theorem sameVerdict_iff_normal :
    SameVerdict
      (ctmpParse .extended .little
        ⟨[0xcc, 0, 1, 1, 0, 0, 0, 0] ++ List.replicate 257 0x41, true, []⟩).msg
      (ctmpParse .extended .big
        ⟨[0xcc, 0, 1, 1, 0, 0, 0, 0] ++ List.replicate 257 0x41, true, [.bytes 3]⟩).msg := by
  refine (sameVerdict_iff ?_ (fun e => ?_) fun e => ?_).mpr ?_
  · rfl
  · simp
  · simp
  rintro m ⟨rest, hrest⟩ - -
  have hheader : m.header = headerAt ([0xcc, 0, 1, 1, 0, 0, 0, 0] ++ List.replicate 257 0x41) := by
    rw [← headerAt_image m rest]
    exact congrArg headerAt hrest
  rw [ByteSymmetric, hheader]
  exact ⟨rfl, .inl rfl⟩

/-- A message with one byte of data, which a big-endian host takes for 256 bytes. -/
theorem not_sameVerdict :
    ¬∀ c : Conn, c.NoError → SameVerdict (ctmpParse .extended .little c).msg
      (ctmpParse .extended .big c).msg := by
  intro h
  have hc : Conn.NoError ⟨[0xcc, 0, 0, 1, 0, 0, 0, 0, 0x41], true, []⟩ := fun e => by simp
  have hsame := h _ hc
  have hlittle : (ctmpParse .extended .little
      ⟨[0xcc, 0, 0, 1, 0, 0, 0, 0, 0x41], true, []⟩).msg =
        some ⟨⟨[0xcc, 0, 0, 1, 0, 0, 0, 0], rfl⟩, 1, [0x41], rfl⟩ :=
    (parse_valid_iff .little hc).mpr ⟨by decide, by decide, ⟨rfl, rfl⟩, .inl rfl⟩
  obtain ⟨m, hbig⟩ :=
    Option.isSome_iff_exists.mp (hsame.verdict ▸ Option.isSome_of_eq_some hlittle)
  obtain ⟨⟨rest, hrest⟩, -, ⟨-, hlen⟩, -⟩ := (parse_valid_iff .big hc).mp hbig
  have hheader : m.header = headerAt [0xcc, 0, 0, 1, 0, 0, 0, 0, 0x41] := by
    rw [← headerAt_image m rest]
    exact congrArg headerAt hrest
  have hexchanged : m.header.exchangedLength = 256 := by
    rw [hheader]
    rfl
  have hcount := congrArg List.length hrest
  have hnine : [0xcc, 0, 0, 1, 0, 0, 0, 0, (0x41 : UInt8)].length = 9 := rfl
  rw [List.length_append, m.length_image, hlen, hexchanged, hnine] at hcount
  omega

end WireStorm
