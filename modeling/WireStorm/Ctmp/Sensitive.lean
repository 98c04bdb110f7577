import WireStorm.Ctmp.Accept
import WireStorm.Ctmp.Memory

/-!
# The checksum test of sensitive messages

The sum that `calc_checksum` forms, value by value (`runningSums`, `foldStep`):
with a payload of 65535 bytes it passes the largest 32-bit `long`
(`not_checksumTest`), but never 2147634582 (`checksum_test`). In memory `calc_checksum`
leaves the message as it is.
-/

namespace WireStorm

open Heap (Returns)
open OnesComplement

/-! ## The running sum -/

/-- The values of `sum` while the words of a buffer are added to it. -/
def partialSums (host : Endian) : Nat → List UInt8 → List Nat
  | sum, a :: b :: rest =>
    (sum + loadWord host a b) :: partialSums host (sum + loadWord host a b) rest
  | sum, [a] => [sum + a.toNat]
  | _, [] => []

/-- `sum` when all words have been added to it. -/
def wordSum (host : Endian) (m : CtmpMsg) : Nat :=
  addWords host (addWords host 0 (checksumHeader m.header)) m.data

/-- The values of `sum` up to the folding loop. -/
def runningSums (host : Endian) (m : CtmpMsg) : List Nat :=
  0 :: partialSums host 0 (checksumHeader m.header) ++
    partialSums host (addWords host 0 (checksumHeader m.header)) m.data

/-- One round of the folding loop. -/
def foldStep (sum : Nat) : Nat := (sum &&& 0xffff) + (sum >>> 16)

section
variable {host : Endian} {m : CtmpMsg} {h : Header} {sum : Nat} {bs : List UInt8}

theorem loadWord_le (host : Endian) (a b : UInt8) : loadWord host a b ≤ 65535 := by
  have ha := a.toNat_lt
  have hb := b.toNat_lt
  cases host <;> simp only [loadWord] <;> omega

theorem le_addWords (host : Endian) : ∀ (sum : Nat) (bs : List UInt8), sum ≤ addWords host sum bs
  | _, _ :: _ :: rest => (Nat.le_add_right _ _).trans (le_addWords host _ rest)
  | _, [_] => Nat.le_add_right _ _
  | _, [] => Nat.le_refl _

/-- The sum only grows. -/
theorem le_addWords_of_mem (host : Endian) : ∀ (sum : Nat) (bs : List UInt8),
    ∀ x ∈ partialSums host sum bs, x ≤ addWords host sum bs
  | sum, a :: b :: rest, x, hx => by
    rcases List.mem_cons.mp hx with rfl | hx
    · exact le_addWords host _ rest
    · exact le_addWords_of_mem host _ rest x hx
  | sum, [a], x, hx => by
    rw [List.mem_singleton.mp hx]
    rfl
  | _, [], x, hx => by cases hx

theorem le_wordSum (hx : sum ∈ runningSums host m) : sum ≤ wordSum host m := by
  rw [runningSums, List.cons_append, List.mem_cons, List.mem_append] at hx
  rcases hx with rfl | hx | hx
  · exact Nat.zero_le _
  · exact (le_addWords_of_mem host _ _ sum hx).trans (le_addWords host _ _)
  · exact le_addWords_of_mem host _ _ sum hx

/-- Full words count for 65535 at most, a leftover byte for 255. -/
theorem addWords_le (host : Endian) : ∀ (sum : Nat) (bs : List UInt8),
    addWords host sum bs ≤ sum + bs.length / 2 * 65535 + bs.length % 2 * 255
  | sum, a :: b :: rest => by
    have hword := loadWord_le host a b
    have hrest := addWords_le host (sum + loadWord host a b) rest
    rw [addWords, List.length_cons, List.length_cons]
    omega
  | sum, [a] => by
    have ha := a.toNat_lt
    simp only [addWords, List.length_singleton]
    omega
  | sum, [] => by simp [addWords]

/-- The words of the header, with its magic byte and the filled checksum field. -/
theorem addWords_header_le (hmagic : h.byte 0 = magic) :
    addWords .little 0 (checksumHeader h) ≤ 248982 := by
  obtain ⟨bytes, hlen⟩ := h
  match bytes, hlen with
  | [b0, b1, b2, b3, b4, b5, b6, b7], _ =>
    have h1 := b1.toNat_lt
    have h2 := b2.toNat_lt
    have h3 := b3.toNat_lt
    have h6 := b6.toNat_lt
    have h7 := b7.toNat_lt
    have h0 : b0 = magic := hmagic
    have hcc : magic.toNat = 204 := rfl
    simp only [checksumHeader, checksumOffset, List.set, addWords, loadWord, h0, hcc]
    omega

theorem wordSum_le (hmagic : m.header.byte 0 = magic) : wordSum .little m ≤ 2147634582 := by
  have hheader := addWords_header_le hmagic
  have hdata := addWords_le .little (addWords .little 0 (checksumHeader m.header)) m.data
  have hlen := m.len.toNat_lt
  rw [m.data_length] at hdata
  rw [wordSum]
  omega

/-- Two rounds of the folding loop are enough. -/
theorem foldStep_twice (hsum : sum ≤ 2147634582) : foldStep^[2] sum >>> 16 = 0 := by
  have hand : ∀ x : Nat, x &&& 0xffff = x % 65536 := fun x => Nat.and_two_pow_sub_one_eq_mod x 16
  simp only [Function.iterate_succ, Function.iterate_zero, Function.comp_apply, id, foldStep, hand,
    Nat.shiftRight_eq_div_pow]
  omega

theorem foldSum_eq : foldSum sum = if sum >>> 16 ≠ 0 then foldSum (foldStep sum) else sum := by
  rw [foldSum]
  rfl

theorem foldSum_done (h : sum >>> 16 = 0) : foldSum sum = sum := by
  rw [foldSum_eq, if_neg (not_not.mpr h)]

theorem foldStep_le (sum : Nat) : foldStep sum ≤ sum := by
  have hand : sum &&& 0xffff = sum % 65536 := Nat.and_two_pow_sub_one_eq_mod sum 16
  rw [foldStep, hand, Nat.shiftRight_eq_div_pow]
  omega

theorem iterate_foldStep_le : ∀ (k sum : Nat), foldStep^[k] sum ≤ sum
  | 0, _ => Nat.le_refl _
  | k + 1, sum => (iterate_foldStep_le k (foldStep sum)).trans (foldStep_le sum)

/-- The folding loop goes round until nothing is left above 16 bits. -/
theorem foldSum_iterate : ∀ (k sum : Nat), foldStep^[k] sum >>> 16 = 0 →
    ∃ j ≤ k, foldSum sum = foldStep^[j] sum ∧ foldStep^[j] sum >>> 16 = 0
  | 0, sum, hk => ⟨0, Nat.le_refl 0, foldSum_done hk, hk⟩
  | k + 1, sum, hk => by
    by_cases hsum : sum >>> 16 = 0
    · exact ⟨0, Nat.zero_le _, foldSum_done hsum, hsum⟩
    · obtain ⟨j, hj, hfold, hdone⟩ := foldSum_iterate k (foldStep sum) hk
      exact ⟨j + 1, Nat.succ_le_succ hj, by rw [foldSum_eq, if_pos hsum, hfold]; rfl, hdone⟩

/-! ## The test -/

/-- The test that `parse_ctmp_msg_extended` makes on a sensitive message: it compares the
field with the described checksum, `sum` stays within `bound` and the folding loop ends,
the memory of the message is the same afterwards, and so is the message that is returned. -/
structure ChecksumTest (bound : Nat) (m : CtmpMsg) : Prop where
  test : headerChecksum m.header = calcChecksum .little m ↔
    m.header.checksumField = specChecksum m.header m.data
  adding : ∀ sum ∈ runningSums .little m, sum ≤ bound
  folding : ∀ k, foldStep^[k] (wordSum .little m) ≤ bound
  ends : ∃ k, foldSum (wordSum .little m) = foldStep^[k] (wordSum .little m) ∧
    foldStep^[k] (wordSum .little m) >>> 16 = 0
  unchanged : ∀ p d, Returns (msgOwned p d m) (calcChecksumAt .little (some p))
    (calcChecksum .little m) (msgOwned p d m)
  returned : ∀ log conn m', (checkOptions .little m log conn).msg = some m' → m' = m

/-- **The checksum test** is the specified one, and its sum fits 32 bits without a sign. -/
theorem checksum_test (m : CtmpMsg) (hmagic : m.header.byte 0 = magic) :
    ChecksumTest 2147634582 m where
  test := checksum_little_iff m
  adding _ hsum := (le_wordSum hsum).trans (wordSum_le hmagic)
  folding k := (iterate_foldStep_le k _).trans (wordSum_le hmagic)
  ends := by
    obtain ⟨k, -, hk⟩ := foldSum_iterate 2 _ (foldStep_twice (wordSum_le hmagic))
    exact ⟨k, hk⟩
  unchanged _ _ := calcChecksumAt_returns
  returned log conn m' h := by
    rw [checkOptions_msg] at h
    split at h <;> cases h
    rfl

end

theorem checksum_test_one_byte :
    ChecksumTest 2147634582 ⟨⟨[0xcc, 0x40, 0, 1, 0x25, 0xf1, 0, 0], rfl⟩, 1, [0x41], rfl⟩ :=
  checksum_test _ rfl

theorem addWords_replicate : ∀ (k sum : Nat),
    addWords .little sum (List.replicate (2 * k + 1) 0xff) = sum + 65535 * k + 255
  | 0, _ => rfl
  | k + 1, sum => by
    have hlen : 2 * (k + 1) + 1 = 2 * k + 1 + 1 + 1 := by omega
    rw [hlen, List.replicate_succ, List.replicate_succ, addWords, addWords_replicate k]
    have hword : loadWord .little 0xff 0xff = 65535 := rfl
    rw [hword]
    omega

theorem addWords_mem (host : Endian) : ∀ (sum : Nat) (bs : List UInt8), bs ≠ [] →
    addWords host sum bs ∈ partialSums host sum bs
  | _, [_, _], _ => List.mem_cons_self
  | sum, a :: b :: c :: rest, _ =>
    List.mem_cons_of_mem _ (addWords_mem host (sum + loadWord host a b) (c :: rest) (by simp))
  | _, [_], _ => List.mem_cons_self
  | _, [], h => absurd rfl h

/-- The longest message, of bytes that are all ones. -/
def largestMsg : CtmpMsg where
  header := ⟨[0xcc, 0x40, 0xff, 0xff, 0, 0, 0xff, 0xff], rfl⟩
  len := 65535
  data := List.replicate (2 * 32767 + 1) 0xff
  data_length := by rw [List.length_replicate]; rfl

/-- The sum of the longest message does not fit a 32-bit `long`. -/
theorem not_checksumTest :
    ¬∀ m : CtmpMsg, m.header.byte 0 = magic → ChecksumTest (2 ^ 31 - 1) m := by
  intro h
  have hne : largestMsg.data ≠ [] :=
    List.ne_nil_of_length_pos (by rw [largestMsg.data_length]; decide)
  have hmem : wordSum .little largestMsg ∈ runningSums .little largestMsg :=
    List.mem_append_right _ (addWords_mem .little _ _ hne)
  have hle := (h largestMsg rfl).adding _ hmem
  have hheader : addWords .little 0 (checksumHeader largestMsg.header) = 200086 := rfl
  rw [wordSum, hheader, largestMsg, addWords_replicate] at hle
  omega

end WireStorm
