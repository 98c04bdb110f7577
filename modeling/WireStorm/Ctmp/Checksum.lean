import WireStorm.Ctmp.Message
import WireStorm.Lib.OnesComplement

/-!
# The CTMP checksum

`calc_checksum` of `lib/ctmp.c` sums 16-bit words loaded in host order, folds
the carries and complements. `specChecksum` is the checksum of the protocol
description: the one's complement of the one's complement sum of the big-endian
words, with the checksum field filled with magic bytes and an odd last byte
padded with zero. On a little-endian host the code compares the two after
exchanging the bytes of both (`checksum_little_iff`).
-/

namespace WireStorm

open OnesComplement

/-! ## The code -/

/-- A native 16-bit load from the bytes `a`, `b`. -/
def loadWord (host : Endian) (a b : UInt8) : Nat :=
  match host with
  | .little => b.toNat * 256 + a.toNat
  | .big => a.toNat * 256 + b.toNat

/-- Add the words of a buffer to `sum`, with the leftover byte (if any). -/
def addWords (host : Endian) : Nat → List UInt8 → Nat
  | sum, a :: b :: rest => addWords host (sum + loadWord host a b) rest
  | sum, [a] => sum + a.toNat
  | sum, [] => sum

theorem shiftRight_and_lt {sum : Nat} (h : sum >>> 16 ≠ 0) :
    (sum &&& 0xffff) + (sum >>> 16) < sum := by
  have hand : sum &&& 0xffff = sum % 65536 := Nat.and_two_pow_sub_one_eq_mod sum 16
  rw [Nat.shiftRight_eq_div_pow] at *
  omega

/-- Fold to 16 bits by adding 16-bit segments. -/
def foldSum (sum : Nat) : Nat :=
  if _h : sum >>> 16 ≠ 0 then foldSum ((sum &&& 0xffff) + (sum >>> 16)) else sum
termination_by sum
decreasing_by exact shiftRight_and_lt _h

/-- The copy of the header with the checksum field filled with magic bytes. -/
def checksumHeader (h : Header) : List UInt8 :=
  (h.bytes.set checksumOffset magic).set (checksumOffset + 1) magic

/-- `calc_checksum`. -/
def calcChecksum (host : Endian) (m : CtmpMsg) : UInt16 :=
  let sum := addWords host 0 (checksumHeader m.header)
  let sum := addWords host sum m.data
  ~~~(UInt16.ofNat (foldSum sum))

/-- `header_checksum` of `parse_ctmp_msg_extended`: header bytes 4 and 5 put
together in little-endian order, whatever the host. -/
def headerChecksum (h : Header) : UInt16 :=
  UInt16.ofNat (((h.byte (checksumOffset + 1)).toNat <<< 8) + (h.byte checksumOffset).toNat)

/-! ## The protocol description -/

/-- The big-endian 16-bit words of a byte string, an odd last byte padded with zero. -/
def beWords : List UInt8 → List Nat
  | a :: b :: rest => (256 * a.toNat + b.toNat) :: beWords rest
  | [a] => [256 * a.toNat]
  | [] => []

/-- The checksum of the protocol description. -/
def specChecksum (h : Header) (data : List UInt8) : Nat :=
  65535 - eacSum 65535 (beWords (checksumHeader h) ++ beWords data)

/-- The checksum field, in network order. -/
def Header.checksumField (h : Header) : Nat := 256 * (h.byte 4).toNat + (h.byte 5).toNat

/-! ## The code computes the described checksum -/

theorem beWords_le : ∀ (bs : List UInt8), ∀ x ∈ beWords bs, x ≤ 65535
  | a :: b :: rest, x, hx => by
    have ha := a.toNat_lt
    have hb := b.toNat_lt
    rcases List.mem_cons.mp hx with rfl | hx
    · omega
    · exact beWords_le rest x hx
  | [a], x, hx => by
    have ha := a.toNat_lt
    rw [beWords, List.mem_singleton] at hx
    omega
  | [], x, hx => by cases hx

theorem swap_digits (hi : Nat) {lo : Nat} (hlo : lo < 256) : swap 256 (256 * hi + lo) = lo * 256 + hi := by
  rw [swap, Nat.mul_add_mod, Nat.mod_eq_of_lt hlo, Nat.mul_add_div (by decide),
    Nat.div_eq_of_lt hlo, Nat.add_zero]

theorem loadWord_little (a b : UInt8) :
    loadWord .little a b = swap 256 (256 * a.toNat + b.toNat) := by
  have hb := b.toNat_lt
  rw [swap_digits _ hb]
  rfl

/-- The little-endian loads are the exchanged big-endian words, the leftover byte included. -/
theorem addWords_little : ∀ (sum : Nat) (bs : List UInt8),
    addWords .little sum bs = sum + ((beWords bs).map (swap 256)).sum
  | sum, a :: b :: rest => by
    rw [addWords, addWords_little _ rest, loadWord_little, beWords, List.map_cons, List.sum_cons,
      Nat.add_assoc]
  | sum, [a] => by
    have ha : swap 256 (256 * a.toNat) = a.toNat := by
      simpa using swap_digits a.toNat (by decide : 0 < 256)
    rw [addWords, beWords, List.map_singleton, List.sum_singleton, ha]
  | sum, [] => by simp [addWords, beWords]

theorem foldSum_eq_canon (sum : Nat) : foldSum sum = canon 65535 sum := by
  rw [← foldCarry_eq_canon (by decide : 0 < 65535)]
  induction sum using Nat.strongRecOn with
  | _ sum ih =>
    rw [foldSum, foldCarry]
    have hshift : sum >>> 16 = sum / (65535 + 1) := Nat.shiftRight_eq_div_pow sum 16
    have hand : sum &&& 0xffff = sum % (65535 + 1) := Nat.and_two_pow_sub_one_eq_mod sum 16
    by_cases h : sum / (65535 + 1) = 0
    · rw [dif_neg (by rw [hshift]; exact not_not.mpr h), dif_neg (not_not.mpr h)]
    · rw [dif_pos (by rw [hshift]; exact h), dif_pos h, ← hshift, ← hand]
      exact ih _ (shiftRight_and_lt (by rw [hshift]; exact h))

theorem specChecksum_eq (h : Header) (data : List UInt8) :
    specChecksum h data =
      65535 - canon 65535 (beWords (checksumHeader h) ++ beWords data).sum := by
  rw [specChecksum, eacSum_eq_canon (by decide)]
  intro x hx
  rcases List.mem_append.mp hx with hx | hx
  · exact beWords_le _ x hx
  · exact beWords_le _ x hx

theorem specChecksum_le (h : Header) (data : List UInt8) : specChecksum h data ≤ 65535 :=
  Nat.sub_le _ _

theorem calcChecksum_little_toNat (m : CtmpMsg) :
    (calcChecksum .little m).toNat = swap 256 (specChecksum m.header m.data) := by
  have hsum : addWords .little (addWords .little 0 (checksumHeader m.header)) m.data =
      ((beWords (checksumHeader m.header) ++ beWords m.data).map (swap 256)).sum := by
    rw [addWords_little, addWords_little, Nat.zero_add, List.map_append, List.sum_append]
  have hcanon := canon_sum_map_swap (B := 256) (by decide)
    (beWords (checksumHeader m.header) ++ beWords m.data)
  have hle := canon_le (M := 65535) (by decide)
    (beWords (checksumHeader m.header) ++ beWords m.data).sum
  have hswap := swap_le (B := 256) (by decide) hle
  rw [specChecksum_eq, swap_compl (B := 256) (by decide) hle, calcChecksum]
  simp only [UInt16.toNat_not, UInt16.toNat_ofNat', hsum, foldSum_eq_canon]
  have hcanon' : canon 65535 ((beWords (checksumHeader m.header) ++ beWords m.data).map
      (swap 256)).sum = swap 256 (canon 65535
        (beWords (checksumHeader m.header) ++ beWords m.data).sum) := hcanon
  rw [hcanon', Nat.mod_eq_of_lt (by omega)]

theorem headerChecksum_toNat (h : Header) :
    (headerChecksum h).toNat = swap 256 h.checksumField := by
  have h4 := (h.byte 4).toNat_lt
  have h5 := (h.byte 5).toNat_lt
  rw [Header.checksumField, swap_digits _ h5]
  simp only [headerChecksum, checksumOffset, Nat.reduceAdd, UInt16.toNat_ofNat', Nat.shiftLeft_eq]
  omega

/-- **On a little-endian host** the test `header_checksum == expected_checksum`
is the test of the checksum field against the described checksum. -/
theorem checksum_little_iff (m : CtmpMsg) :
    headerChecksum m.header = calcChecksum .little m ↔
      m.header.checksumField = specChecksum m.header m.data := by
  have hfield : m.header.checksumField < 256 * 256 := by
    have h4 := (m.header.byte 4).toNat_lt
    have h5 := (m.header.byte 5).toNat_lt
    unfold Header.checksumField
    omega
  have hspec := specChecksum_le m.header m.data
  rw [← UInt16.toNat_inj, headerChecksum_toNat, calcChecksum_little_toNat]
  exact swap_inj hfield (by omega)

end WireStorm
