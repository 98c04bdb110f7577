import WireStorm.Ctmp.Sensitive

/-!
# Corrupted words of sensitive messages

The words of an accepted sensitive message, behind the first half of its header
(`WordOf`). The sum of `calc_checksum` is a sum of words (`addWords_split`), and
its folding tells all words apart but the two that stand for zero
(`canon_word_eq_iff`). So the change of a word is noticed, unless these two are
exchanged outside the checksum field (`corrupted_word`).
-/

namespace WireStorm

open OnesComplement

/-! ## Words of a message -/

/-- Buffers are summed word by word. -/
theorem addWords_eq (host : Endian) : ∀ (sum : Nat) (bs : List UInt8),
    addWords host sum bs = sum + addWords host 0 bs
  | sum, a :: b :: rest => by
    rw [addWords, addWords, addWords_eq host _ rest, addWords_eq host (0 + _) rest]
    omega
  | sum, [a] => by simp [addWords]
  | sum, [] => by simp [addWords]

theorem addWords_append (host : Endian) : ∀ (sum : Nat) (xs ys : List UInt8),
    xs.length % 2 = 0 → addWords host sum (xs ++ ys) = addWords host (addWords host sum xs) ys
  | sum, a :: b :: rest, ys, h => by
    rw [List.cons_append, List.cons_append, addWords, addWords]
    rw [List.length_cons, List.length_cons] at h
    exact addWords_append host _ rest ys (by omega)
  | _, [_], _, h => by cases h
  | _, [], _, _ => rfl

/-- The bytes that the checksum covers, with the filled checksum field. -/
def covered (image : List UInt8) : List UInt8 :=
  (image.set checksumOffset magic).set (checksumOffset + 1) magic

theorem wordSum_eq (host : Endian) (m : CtmpMsg) :
    wordSum host m = addWords host 0 (covered m.image) := by
  have hlen := m.header.length_eq
  have hcovered : covered m.image = checksumHeader m.header ++ m.data := by
    rw [covered, CtmpMsg.image, List.set_append_left _ _ (by rw [hlen]; decide),
      List.set_append_left _ _ (by rw [List.length_set, hlen]; decide)]
    rfl
  rw [hcovered, addWords_append]
  · rfl
  · rw [checksumHeader, List.length_set, List.length_set, hlen]
    rfl

theorem loadWord_inj {host : Endian} {a b a' b' : UInt8} :
    loadWord host a b = loadWord host a' b' ↔ a = a' ∧ b = b' := by
  have ha := a.toNat_lt
  have hb := b.toNat_lt
  have ha' := a'.toNat_lt
  have hb' := b'.toNat_lt
  rw [← UInt8.toNat_inj, ← UInt8.toNat_inj]
  cases host <;> simp only [loadWord] <;> omega

/-- `word` is a word of the message behind `before` that is not in the first half of the
header: two aligned bytes, or the last byte of data of odd length. -/
structure WordOf (m : CtmpMsg) (before word : List UInt8) : Prop where
  aligned : before.length % 2 = 0
  behind : checksumOffset ≤ before.length
  fits : word.length = 2 ∧ before.length + 2 ≤ m.image.length ∨
    word.length = 1 ∧ before.length + 1 = m.image.length

/-- Outside the checksum field the two representations of zero are exchanged. -/
def Exchanged (before word word' : List UInt8) : Prop :=
  before.length ≠ checksumOffset ∧
    (word = [0x00, 0x00] ∧ word' = [0xff, 0xff] ∨ word = [0xff, 0xff] ∧ word' = [0x00, 0x00])

/-- The message with this image and this length. -/
def CtmpMsg.ofImage (image : List UInt8) (len : UInt16)
    (h : image.length = headerLength + len.toNat) : CtmpMsg where
  header := ⟨image.take headerLength, List.length_take_of_le (by omega)⟩
  len := len
  data := image.drop headerLength
  data_length := by rw [List.length_drop]; omega

theorem image_ofImage {image : List UInt8} {len : UInt16}
    (h : image.length = headerLength + len.toNat) : (CtmpMsg.ofImage image len h).image = image :=
  List.take_append_drop headerLength image

/-- The header bytes are the first bytes of the image. -/
theorem header_byte (m : CtmpMsg) {i : Nat} (hi : i < headerLength) :
    m.header.byte i = m.image.getD i 0 := by
  rw [Header.byte, CtmpMsg.image, List.getD_eq_getElem?_getD, List.getD_eq_getElem?_getD,
    List.getElem?_append_left (by rw [m.header.length_eq]; exact hi)]

theorem headerChecksum_inj {h h' : Header} : headerChecksum h = headerChecksum h' ↔
    h.byte checksumOffset = h'.byte checksumOffset ∧
      h.byte (checksumOffset + 1) = h'.byte (checksumOffset + 1) := by
  have h4 := (h.byte checksumOffset).toNat_lt
  have h5 := (h.byte (checksumOffset + 1)).toNat_lt
  have h4' := (h'.byte checksumOffset).toNat_lt
  have h5' := (h'.byte (checksumOffset + 1)).toNat_lt
  rw [← UInt16.toNat_inj, ← UInt8.toNat_inj, ← UInt8.toNat_inj]
  simp only [headerChecksum, UInt16.toNat_ofNat', Nat.shiftLeft_eq]
  omega

theorem calcChecksum_inj {host : Endian} {m m' : CtmpMsg} :
    calcChecksum host m = calcChecksum host m' ↔
      canon 65535 (wordSum host m) = canon 65535 (wordSum host m') := by
  have hle := canon_le (M := 65535) (by decide) (wordSum host m)
  have hle' := canon_le (M := 65535) (by decide) (wordSum host m')
  have hcalc : ∀ m : CtmpMsg, calcChecksum host m =
      ~~~(UInt16.ofNat (canon 65535 (wordSum host m))) := fun m => by
    rw [← foldSum_eq_canon]
    rfl
  rw [hcalc, hcalc, UInt16.not_inj, ← UInt16.toNat_inj, UInt16.toNat_ofNat', UInt16.toNat_ofNat']
  omega

theorem addWords_pos (host : Endian) {x : UInt8} (hx : x ≠ 0) : ∀ (sum : Nat) (bs : List UInt8),
    x ∈ bs → 0 < addWords host sum bs
  | sum, a :: b :: rest, hmem => by
    have hpos : 0 < x.toNat := Nat.pos_of_ne_zero fun h => hx (UInt8.toNat_inj.mp h)
    rcases List.mem_cons.mp hmem with rfl | hmem
    · refine Nat.lt_of_lt_of_le ?_ (le_addWords host _ rest)
      cases host <;> simp only [loadWord] <;> omega
    rcases List.mem_cons.mp hmem with rfl | hmem
    · refine Nat.lt_of_lt_of_le ?_ (le_addWords host _ rest)
      cases host <;> simp only [loadWord] <;> omega
    · exact addWords_pos host hx _ rest hmem
  | sum, [a], hmem => by
    have hpos : 0 < x.toNat := Nat.pos_of_ne_zero fun h => hx (UInt8.toNat_inj.mp h)
    rw [List.mem_singleton] at hmem
    rw [addWords, ← hmem]
    omega
  | _, [], hmem => by cases hmem

/-! ## A changed word -/

section
variable {host : Endian} {before word word' tail : List UInt8}

/-- The value of a word tells its bytes. -/
theorem addWords_word_inj (hword : word.length = 2 ∨ word.length = 1)
    (hlen : word'.length = word.length) :
    addWords host 0 word = addWords host 0 word' ↔ word = word' := by
  match word, word', hword, hlen with
  | [a, b], [a', b'], _, _ =>
    simp only [addWords, Nat.zero_add, loadWord_inj, List.cons.injEq, and_true]
  | [a], [a'], _, _ =>
    simp only [addWords, Nat.zero_add, UInt8.toNat_inj, List.cons.injEq, and_true]

theorem addWords_word_le (hword : word.length = 2 ∨ word.length = 1) :
    addWords host 0 word ≤ 65535 := by
  match word, hword with
  | [a, b], _ =>
    have h := loadWord_le host a b
    simpa [addWords] using h
  | [a], _ =>
    have ha := a.toNat_lt
    simp only [addWords]
    omega

/-- Only the two words that stand for zero cannot be told apart modulo 65535. -/
theorem canon_word_eq_iff {r : Nat} (hr : 0 < r) (hword : word.length = 2 ∨ word.length = 1)
    (hlen : word'.length = word.length) (hne : word' ≠ word) :
    canon 65535 (r + addWords host 0 word) = canon 65535 (r + addWords host 0 word') ↔
      word = [0x00, 0x00] ∧ word' = [0xff, 0xff] ∨ word = [0xff, 0xff] ∧ word' = [0x00, 0x00] := by
  have hword' : word'.length = 2 ∨ word'.length = 1 := by rw [hlen]; exact hword
  rw [canon_add_eq_iff hr (addWords_word_le hword) (addWords_word_le hword'),
    addWords_word_inj hword hlen, or_iff_right (Ne.symm hne)]
  rcases hword with htwo | hone
  · -- both words have two bytes
    have hzero : addWords host 0 [0x00, 0x00] = 0 := by cases host <;> rfl
    have hones : addWords host 0 [0xff, 0xff] = 65535 := by cases host <;> rfl
    have key : ∀ w : List UInt8, w.length = 2 →
        (addWords host 0 w = 0 ↔ w = [0x00, 0x00]) ∧
          (addWords host 0 w = 65535 ↔ w = [0xff, 0xff]) := by
      intro w hw
      have hz := @addWords_word_inj host w [0x00, 0x00] (.inl hw) hw.symm
      have ho := @addWords_word_inj host w [0xff, 0xff] (.inl hw) hw.symm
      rw [hzero] at hz
      rw [hones] at ho
      exact ⟨hz, ho⟩
    obtain ⟨h0, h1⟩ := key word htwo
    obtain ⟨h0', h1'⟩ := key word' (hlen.trans htwo)
    rw [h0, h1, h0', h1']
  · -- a leftover byte is never 65535
    have hsmall : ∀ w : List UInt8, w.length = 1 → addWords host 0 w ≠ 65535 := by
      intro w hw
      match w, hw with
      | [a], _ =>
        have ha := a.toNat_lt
        simp only [addWords]
        omega
    refine ⟨fun h => ?_, fun h => ?_⟩
    · rcases h with h | h
      · exact absurd h.2 (hsmall word' (hlen.trans hone))
      · exact absurd h.1 (hsmall word hone)
    · rcases h with ⟨rfl, -⟩ | ⟨rfl, -⟩ <;> cases hone

theorem covered_append {x : List UInt8} (h : checksumOffset + 2 ≤ before.length) :
    covered (before ++ x) = covered before ++ x := by
  rw [covered, List.set_append_left _ _ (by omega),
    List.set_append_left _ _ (by rw [List.length_set]; omega)]
  rfl

theorem magic_mem_covered (h : checksumOffset + 2 ≤ before.length) : magic ∈ covered before :=
  List.mem_set (by rw [List.length_set]; omega) _

theorem covered_field (h : before.length = checksumOffset) (hword : word.length = 2) :
    covered (before ++ (word ++ tail)) = before ++ ([magic, magic] ++ tail) := by
  match word, hword with
  | [a, b], _ =>
    rw [covered, List.set_append_right _ _ (by omega), List.set_append_right _ _ (by omega), h]
    rfl

/-- The sum, split at a word. -/
theorem addWords_split (heven : before.length % 2 = 0)
    (hword : word.length = 2 ∨ word.length = 1 ∧ tail = []) :
    addWords host 0 (before ++ (word ++ tail)) =
      addWords host 0 before + addWords host 0 tail + addWords host 0 word := by
  rw [addWords_append host 0 before _ heven, addWords_eq]
  rcases hword with htwo | ⟨-, rfl⟩
  · rw [addWords_append host 0 word tail (by rw [htwo]), addWords_eq host (addWords host 0 word)]
    omega
  · rw [List.append_nil]
    rfl

/-! ## The altered message -/

variable {m m' : CtmpMsg}

theorem WordOf.length_word (h : WordOf m before word) : word.length = 2 ∨ word.length = 1 :=
  h.fits.imp And.left And.left

/-- Behind a leftover byte there is nothing. -/
theorem WordOf.split (h : WordOf m before word) (hm : m.image = before ++ (word ++ tail)) :
    word.length = 2 ∨ word.length = 1 ∧ tail = [] := by
  refine h.fits.imp And.left fun ⟨hone, hlast⟩ => ⟨hone, ?_⟩
  rw [hm, List.length_append, List.length_append] at hlast
  exact List.eq_nil_of_length_eq_zero (by omega)

/-- The bytes before the word are the same in both headers. -/
theorem byte_before (hm : m.image = before ++ (word ++ tail))
    (hm' : m'.image = before ++ (word' ++ tail)) {i : Nat} (hi : i < headerLength)
    (hib : i < before.length) : m'.header.byte i = m.header.byte i := by
  rw [header_byte m hi, header_byte m' hi, hm, hm', List.getD_eq_getElem?_getD,
    List.getD_eq_getElem?_getD, List.getElem?_append_left hib, List.getElem?_append_left hib]

/-- A change of the checksum field changes what is compared with the checksum. -/
theorem headerChecksum_altered (hm : m.image = before ++ (word ++ tail))
    (hm' : m'.image = before ++ (word' ++ tail)) (hfield : before.length = checksumOffset)
    (htwo : word.length = 2) (hlen : word'.length = word.length) :
    headerChecksum m'.header = headerChecksum m.header ↔ word' = word := by
  rw [headerChecksum_inj, header_byte m (by decide), header_byte m (by decide),
    header_byte m' (by decide), header_byte m' (by decide), hm, hm', ← hfield]
  match word, word', htwo, hlen with
  | [a, b], [a', b'], _, _ => simp [List.getD_eq_getElem?_getD]

/-- The checksum of the altered message, for a word of the checksum field. -/
theorem calcChecksum_field (hm : m.image = before ++ (word ++ tail))
    (hm' : m'.image = before ++ (word' ++ tail)) (hfield : before.length = checksumOffset)
    (htwo : word.length = 2) (hlen : word'.length = word.length) :
    calcChecksum host m' = calcChecksum host m := by
  rw [calcChecksum_inj, wordSum_eq, wordSum_eq, hm, hm', covered_field hfield htwo,
    covered_field hfield (hlen.trans htwo)]

/-- The checksum of the altered message, for a word behind the checksum field. -/
theorem calcChecksum_behind (hword : WordOf m before word)
    (hm : m.image = before ++ (word ++ tail)) (hm' : m'.image = before ++ (word' ++ tail))
    (hbehind : checksumOffset + 2 ≤ before.length) (hlen : word'.length = word.length)
    (hne : word' ≠ word) :
    calcChecksum host m = calcChecksum host m' ↔
      word = [0x00, 0x00] ∧ word' = [0xff, 0xff] ∨ word = [0xff, 0xff] ∧ word' = [0x00, 0x00] := by
  have hsplit := hword.split hm
  have heven : (covered before).length % 2 = 0 := by
    rw [covered, List.length_set, List.length_set]
    exact hword.aligned
  have hpos : 0 < addWords host 0 (covered before) + addWords host 0 tail :=
    Nat.add_pos_left (addWords_pos host (by decide) 0 _ (magic_mem_covered hbehind)) _
  rw [calcChecksum_inj, wordSum_eq, wordSum_eq, hm, hm', covered_append hbehind,
    covered_append hbehind, addWords_split heven hsplit,
    addWords_split heven (by rw [hlen]; exact hsplit)]
  exact canon_word_eq_iff hpos hword.length_word hlen hne

/-- **An altered message** passes the test only if the representations of zero were exchanged. -/
theorem altered_passes_iff (hword : WordOf m before word)
    (hm : m.image = before ++ (word ++ tail)) (hm' : m'.image = before ++ (word' ++ tail))
    (hsen : m.header.byte optionsOffset = optSen)
    (hpass : passesOptions .extended host m) (hlen : word'.length = word.length)
    (hne : word' ≠ word) :
    passesOptions .extended host m' ↔ Exchanged before word word' := by
  have hbefore := hword.behind
  have hoffset : checksumOffset = 4 := rfl
  have hsen' : m'.header.byte optionsOffset = optSen := by
    rw [byte_before hm hm' (by decide) (by rw [optionsOffset]; omega), hsen]
  have hnorm : optSen ≠ optNorm := by decide
  have hsum : headerChecksum m.header = calcChecksum host m := by
    rcases hpass with h | h
    · exact absurd (hsen.symm.trans h) hnorm
    · exact h.2
  have hiff : passesOptions .extended host m' ↔
      headerChecksum m'.header = calcChecksum host m' := by
    unfold passesOptions
    simp only [hsen', hnorm, false_or, true_and]
  rw [hiff, Exchanged]
  by_cases hfield : before.length = checksumOffset
  · -- the checksum is the same, the field is not
    have htwo : word.length = 2 := by
      rcases hword.fits with h | h
      · exact h.1
      · have himage := m.length_image
        have hheader : headerLength = 8 := rfl
        omega
    rw [calcChecksum_field hm hm' hfield htwo hlen, ← hsum,
      headerChecksum_altered hm hm' hfield htwo hlen]
    exact ⟨fun h => absurd h hne, fun h => absurd hfield h.1⟩
  · -- the field is the same
    have haligned := hword.aligned
    have hbehind : checksumOffset + 2 ≤ before.length := by omega
    have hsame : headerChecksum m'.header = headerChecksum m.header :=
      headerChecksum_inj.mpr ⟨byte_before hm hm' (by decide) (by omega),
        byte_before hm hm' (by decide) (by omega)⟩
    rw [hsame, hsum, calcChecksum_behind hword hm hm' hbehind hlen hne]
    exact (and_iff_right hfield).symm

/-- The altered bytes are a frame of the same length. -/
theorem exists_altered (hword : WordOf m before word) (hm : m.image = before ++ (word ++ tail))
    (hmagic : m.header.byte 0 = magic) (hset : m.len = setMsgLength host m.header)
    (hlen : word'.length = word.length) :
    ∃ m' : CtmpMsg, m'.image = before ++ (word' ++ tail) ∧ m'.header.byte 0 = magic ∧
      m'.len = setMsgLength host m'.header ∧ m'.len = m.len := by
  have hbefore := hword.behind
  have hoffset : checksumOffset = 4 := rfl
  have hlength : (before ++ (word' ++ tail)).length = headerLength + m.len.toNat := by
    rw [← m.length_image, hm]
    simp only [List.length_append, hlen]
  have himage := image_ofImage hlength
  refine ⟨.ofImage _ m.len hlength, himage, ?_, ?_, rfl⟩
  · rw [byte_before hm himage (by decide) (by omega), hmagic]
  · rw [setMsgLength, byte_before hm himage (by decide) (by rw [lengthOffset]; omega),
      byte_before hm himage (by decide) (by rw [lengthOffset]; omega)]
    exact hset

/-- **A corrupted word** of a sensitive message is noticed on every connection, unless the
two representations of zero were exchanged outside the checksum field. -/
theorem corrupted_word {c : Conn} {after : List UInt8}
    (hparse : (ctmpParse .extended host c).msg = some m)
    (hsen : m.header.byte optionsOffset = optSen) (hword : WordOf m before word)
    (hs : c.stream = before ++ (word ++ after)) (hlen : word'.length = word.length)
    (hne : word' ≠ word) {c' : Conn} (hs' : c'.stream = before ++ (word' ++ after)) :
    (¬Exchanged before word word' → (ctmpParse .extended host c').msg = none) ∧
      (Exchanged before word word' → c'.NoError →
        ∃ m', (ctmpParse .extended host c').msg = some m') := by
  obtain ⟨hstream, hmagic, hset, hpos, hpass⟩ := parse_some hparse
  -- the word lies in the image of the message
  obtain ⟨tail, hm⟩ : ∃ tail, m.image = before ++ (word ++ tail) := by
    have hstart : before ++ word <+: c.stream := ⟨after, by rw [hs, List.append_assoc]⟩
    have himage : m.image <+: c.stream := ⟨_, hstream.symm⟩
    have hfits : (before ++ word).length ≤ m.image.length := by
      rw [List.length_append]
      rcases hword.fits with h | h <;> omega
    obtain ⟨tail, htail⟩ := List.prefix_of_prefix_length_le hstart himage hfits
    exact ⟨tail, by rw [← htail, List.append_assoc]⟩
  have hafter : after = tail ++ (ctmpParse .extended host c).conn.stream := by
    rw [hs, hm, List.append_assoc, List.append_assoc] at hstream
    exact List.append_cancel_left (List.append_cancel_left hstream)
  obtain ⟨m', hm', hmagic', hset', hmlen⟩ := exists_altered hword hm hmagic hset hlen
  have hahead : c'.stream = m'.image ++ (ctmpParse .extended host c).conn.stream := by
    rw [hs', hm', hafter, List.append_assoc, List.append_assoc]
  have hiff := altered_passes_iff hword hm hm' hsen hpass hlen hne
  refine ⟨fun hno => ?_, fun hex hc' => ⟨m', ?_⟩⟩
  · rw [Option.eq_none_iff_forall_ne_some]
    intro m'' hsome
    obtain rfl : m'' = m' := by rw [parse_eq_messageAt hsome, hahead, messageAt_image hset']
    obtain ⟨-, -, -, -, hpass''⟩ := parse_some hsome
    exact hno (hiff.mp hpass'')
  · rw [(parse_spec .extended host hc').1, decode_eq_some_iff]
    exact ⟨⟨_, hahead.symm⟩, hmagic', hset', by rw [hmlen]; exact hpos, hiff.mpr hex⟩

end

/-- Another data byte is noticed, ones instead of zeros in the padding are not. -/
theorem corrupted_word_one_byte :
    (ctmpParse .extended .little
        ⟨[0xcc, 0x40, 0, 1, 0x25, 0xf1, 0, 0, 0x42], true, [.bytes 3]⟩).msg = none ∧
      ∃ m', (ctmpParse .extended .little
        ⟨[0xcc, 0x40, 0, 1, 0x25, 0xf1, 0xff, 0xff, 0x41], true, [.bytes 3]⟩).msg = some m' := by
  let m : CtmpMsg := ⟨⟨[0xcc, 0x40, 0, 1, 0x25, 0xf1, 0, 0], rfl⟩, 1, [0x41], rfl⟩
  have hparse : (ctmpParse .extended .little ⟨m.image, true, []⟩).msg = some m :=
    (parse_eq_some_iff fun e => by simp).mpr
      ⟨by decide, by decide, by decide, passesOptions_extended_iff.mpr (by decide)⟩
  have hdata : WordOf m m.header.bytes [0x41] := ⟨by decide, by decide, by decide⟩
  have hpadding : WordOf m (m.header.bytes.take 6) [0x00, 0x00] :=
    ⟨by decide, by decide, by decide⟩
  have hone : [0x42] ≠ ([0x41] : List UInt8) := by decide
  have hones : [0xff, 0xff] ≠ ([0x00, 0x00] : List UInt8) := by decide
  constructor
  · exact (corrupted_word hparse rfl hdata rfl (by rfl) hone rfl).1 fun h => absurd h.2 (by decide)
  · exact (corrupted_word hparse rfl hpadding rfl (by rfl) hones rfl).2
      ⟨by decide, .inl ⟨rfl, rfl⟩⟩ fun e => by simp

end WireStorm
