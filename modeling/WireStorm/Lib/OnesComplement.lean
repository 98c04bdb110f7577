import Mathlib.Data.Nat.ModEq
import Mathlib.Tactic.Ring
import Mathlib.Tactic.Linarith

/-!
# One's complement sums

Addition with end-around carry on the words `0 .. M` (`M = 2 ^ w - 1`), where
`0` and `M` are two representations of zero. A sum of words is determined by
the plain sum of its terms (`eacSum_eq_canon`): it is `0` for the empty sum and
otherwise the representative in `1 .. M` of the plain sum mod `M`. Folding the
carries back after a plain sum computes the same word (`foldCarry_eq_canon`),
and exchanging the two halves of every word exchanges the halves of the sum
(`canon_sum_map_swap`), so the sum may be formed in either byte order.
-/

namespace OnesComplement

/-- Addition of two words with end-around carry. -/
def eac (M a b : Nat) : Nat := if M < a + b then a + b - M else a + b

/-- One's complement sum of a list of words. -/
def eacSum (M : Nat) (ws : List Nat) : Nat := ws.foldl (eac M) 0

/-- The word that stands for a plain sum `s`: `0` for `0`, else the residue of
`s` in `1 .. M`. -/
def canon (M s : Nat) : Nat := if s = 0 then 0 else (s - 1) % M + 1

theorem canon_le {M : Nat} (hM : 0 < M) (s : Nat) : canon M s ≤ M := by
  unfold canon
  split
  · exact Nat.zero_le _
  · exact Nat.mod_lt _ hM

theorem canon_pos {M s : Nat} (hs : 0 < s) : 0 < canon M s := by
  unfold canon
  rw [if_neg (by omega)]
  exact Nat.succ_pos _

theorem canon_modEq (M s : Nat) : canon M s ≡ s [MOD M] := by
  unfold canon
  split
  · rename_i h
    rw [h]
  · rename_i h
    have hs : s = s - 1 + 1 := by omega
    conv_rhs => rw [hs]
    exact (Nat.mod_modEq _ _).add_right 1

/-- A word in `1 .. M` is the only one of its residue class there. -/
theorem eq_of_modEq {M a b : Nat} (ha : 0 < a) (haM : a ≤ M) (hb : 0 < b) (hbM : b ≤ M)
    (h : a ≡ b [MOD M]) : a = b := by
  have h' : a - 1 + 1 ≡ b - 1 + 1 [MOD M] := by
    rwa [Nat.sub_add_cancel ha, Nat.sub_add_cancel hb]
  have := Nat.ModEq.eq_of_lt_of_lt (Nat.ModEq.add_right_cancel' 1 h') (by omega) (by omega)
  omega

theorem canon_eq_of {M s a : Nat} (hM : 0 < M) (hs : 0 < s) (ha : 0 < a) (haM : a ≤ M)
    (h : a ≡ s [MOD M]) : canon M s = a :=
  eq_of_modEq (canon_pos hs) (canon_le hM s) ha haM ((canon_modEq M s).trans h.symm)

theorem canon_of_le {M a : Nat} (haM : a ≤ M) : canon M a = a := by
  unfold canon
  split
  · rename_i h
    exact h.symm
  · rw [Nat.mod_eq_of_lt (by omega)]
    omega

/-- Positive sums stand for the same word exactly when they are congruent. -/
theorem canon_eq_iff {M a b : Nat} (ha : 0 < a) (hb : 0 < b) :
    canon M a = canon M b ↔ a ≡ b [MOD M] := by
  constructor
  · intro h
    exact (canon_modEq M a).symm.trans (h ▸ canon_modEq M b)
  · intro h
    rcases Nat.eq_zero_or_pos M with rfl | hM
    · rw [Nat.modEq_zero_iff.mp h]
    · exact canon_eq_of hM ha (canon_pos hb) (canon_le hM b) ((canon_modEq M b).trans h.symm)

/-- **One word of a sum** can only be exchanged for the other representation of zero. -/
theorem canon_add_eq_iff {M r a b : Nat} (hr : 0 < r) (ha : a ≤ M) (hb : b ≤ M) :
    canon M (r + a) = canon M (r + b) ↔ a = b ∨ a = 0 ∧ b = M ∨ a = M ∧ b = 0 := by
  have hmod : canon M (r + a) = canon M (r + b) ↔ a ≡ b [MOD M] := by
    rw [canon_eq_iff (by omega) (by omega)]
    exact ⟨fun h => Nat.ModEq.add_left_cancel' r h, fun h => h.add_left r⟩
  rw [hmod]
  constructor
  · intro h
    rcases Nat.eq_zero_or_pos a with rfl | hapos
    · rcases Nat.eq_zero_or_pos b with rfl | hbpos
      · exact .inl rfl
      · -- the only positive word that is zero mod `M` is `M`
        have hdvd : M ∣ b := (Nat.modEq_zero_iff_dvd).mp h.symm
        exact .inr (.inl ⟨rfl, Nat.le_antisymm hb (Nat.le_of_dvd hbpos hdvd)⟩)
    · rcases Nat.eq_zero_or_pos b with rfl | hbpos
      · have hdvd : M ∣ a := (Nat.modEq_zero_iff_dvd).mp h
        exact .inr (.inr ⟨Nat.le_antisymm ha (Nat.le_of_dvd hapos hdvd), rfl⟩)
      · exact .inl (eq_of_modEq hapos ha hbpos hb h)
  · rintro (rfl | ⟨rfl, rfl⟩ | ⟨rfl, rfl⟩)
    · rfl
    · exact (Nat.modEq_zero_iff_dvd.mpr (Nat.dvd_refl _)).symm
    · exact Nat.modEq_zero_iff_dvd.mpr (Nat.dvd_refl _)

theorem eac_modEq (M a b : Nat) : eac M a b ≡ a + b [MOD M] := by
  unfold eac
  split
  · rename_i h
    have hab : a + b = a + b - M + M := by omega
    conv_rhs => rw [hab]
    exact (Nat.add_modEq_right).symm
  · rfl

theorem eac_canon {M : Nat} (hM : 0 < M) (s : Nat) {b : Nat} (hb : b ≤ M) :
    eac M (canon M s) b = canon M (s + b) := by
  have hc := canon_le hM s
  rcases Nat.eq_zero_or_pos (s + b) with h0 | hpos
  · obtain ⟨rfl, rfl⟩ : s = 0 ∧ b = 0 := by omega
    simp [eac, canon]
  · symm
    apply canon_eq_of hM hpos
    · rcases Nat.eq_zero_or_pos s with hs | hs
      · unfold eac
        split <;> omega
      · have := canon_pos (M := M) hs
        unfold eac
        split <;> omega
    · unfold eac
      split <;> omega
    · exact (eac_modEq _ _ _).trans ((canon_modEq M s).add_right b)

/-- The one's complement sum depends only on the plain sum. -/
theorem eacSum_eq_canon {M : Nat} (hM : 0 < M) {ws : List Nat} (hws : ∀ x ∈ ws, x ≤ M) :
    eacSum M ws = canon M ws.sum := by
  suffices h : ∀ s, ws.foldl (eac M) (canon M s) = canon M (s + ws.sum) by
    have h0 := h 0
    rwa [Nat.zero_add] at h0
  induction ws with
  | nil => intro s; simp
  | cons x ws ih =>
    intro s
    rw [List.foldl_cons, eac_canon hM s (hws x List.mem_cons_self),
      ih (fun y hy => hws y (List.mem_cons_of_mem x hy)), List.sum_cons, Nat.add_assoc]

/-! ## Folding the carries -/

theorem carry_lt {M s : Nat} (hM : 0 < M) (h : s / (M + 1) ≠ 0) :
    s % (M + 1) + s / (M + 1) < s := by
  have hdm := Nat.div_add_mod s (M + 1)
  have : 1 * (s / (M + 1)) < (M + 1) * (s / (M + 1)) :=
    Nat.mul_lt_mul_of_pos_right (by omega) (Nat.pos_of_ne_zero h)
  omega

theorem carry_modEq (M s : Nat) : s % (M + 1) + s / (M + 1) ≡ s [MOD M] := by
  have hdm := Nat.div_add_mod s (M + 1)
  have hs : s = s % (M + 1) + s / (M + 1) + M * (s / (M + 1)) := by
    calc s = (M + 1) * (s / (M + 1)) + s % (M + 1) := hdm.symm
      _ = s % (M + 1) + s / (M + 1) + M * (s / (M + 1)) := by ring
  conv_rhs => rw [hs]
  exact Nat.modEq_add_modulus_mul_iff.mpr rfl

/-- Add the carries above the word until none is left. -/
def foldCarry (M : Nat) (hM : 0 < M) (s : Nat) : Nat :=
  if _h : s / (M + 1) ≠ 0 then foldCarry M hM (s % (M + 1) + s / (M + 1)) else s
termination_by s
decreasing_by exact carry_lt hM _h

theorem foldCarry_eq_canon {M : Nat} (hM : 0 < M) (s : Nat) : foldCarry M hM s = canon M s := by
  induction s using Nat.strongRecOn with
  | _ s ih =>
    rw [foldCarry]
    split
    · rename_i h
      rw [ih _ (carry_lt hM h)]
      have hpos : 0 < s / (M + 1) := Nat.pos_of_ne_zero h
      have hs : 0 < s := Nat.pos_of_ne_zero fun e => h (by rw [e, Nat.zero_div])
      exact (canon_eq_of hM hs (canon_pos (by omega)) (canon_le hM _)
        ((canon_modEq M _).trans (carry_modEq M s))).symm
    · rename_i h
      have hlt : s < M + 1 := by
        by_contra hge
        exact h (Nat.div_pos (by omega) (by omega)).ne'
      exact (canon_of_le (by omega)).symm

/-! ## Exchanging the halves of a word -/

/-- Exchange the two base-`B` digits of a word. -/
def swap (B x : Nat) : Nat := x % B * B + x / B

section Swap

variable {B : Nat} (hB : 1 < B)

include hB in
theorem swap_lt {x : Nat} (hx : x < B * B) : swap B x < B * B := by
  have h1 : x % B < B := Nat.mod_lt _ (by omega)
  have h2 : x / B < B := Nat.div_lt_of_lt_mul hx
  have : x % B * B + B ≤ B * B := by
    calc x % B * B + B = (x % B + 1) * B := by ring
      _ ≤ B * B := Nat.mul_le_mul_right B h1
  unfold swap
  omega

theorem swap_swap {x : Nat} (hx : x < B * B) : swap B (swap B x) = x := by
  have hpos : 0 < B := Nat.pos_of_ne_zero fun e => by simp [e] at hx
  have h2 : x / B < B := Nat.div_lt_of_lt_mul hx
  have hmod : swap B x % B = x / B := by
    rw [swap, Nat.add_comm, Nat.add_mul_mod_self_right, Nat.mod_eq_of_lt h2]
  have hdiv : swap B x / B = x % B := by
    rw [swap, Nat.add_comm, Nat.add_mul_div_right _ _ hpos, Nat.div_eq_of_lt h2, Nat.zero_add]
  rw [swap, hmod, hdiv, Nat.mul_comm]
  exact Nat.div_add_mod x B

theorem swap_inj {x y : Nat} (hx : x < B * B) (hy : y < B * B) : swap B x = swap B y ↔ x = y :=
  ⟨fun h => by rw [← swap_swap hx, h, swap_swap hy], fun h => by rw [h]⟩

include hB in
theorem swap_pos {x : Nat} (hx : 0 < x) : 0 < swap B x := by
  have hdm := Nat.div_add_mod x B
  rcases Nat.eq_zero_or_pos (x / B) with h | h
  · rw [h, Nat.mul_zero, Nat.zero_add] at hdm
    have : 0 < x % B * B := Nat.mul_pos (by omega) (by omega)
    unfold swap
    omega
  · unfold swap
    omega

include hB in
theorem swap_le {x : Nat} (hx : x ≤ B * B - 1) : swap B x ≤ B * B - 1 := by
  have : 0 < B * B := Nat.mul_pos (by omega) (by omega)
  have := swap_lt hB (x := x) (by omega)
  omega

include hB in
/-- Exchanging the digits multiplies by `B` modulo `B * B - 1`. -/
theorem swap_modEq (x : Nat) : swap B x ≡ B * x [MOD B * B - 1] := by
  have hpos : 0 < B * B := Nat.mul_pos (by omega) (by omega)
  have hBB : B * B = B * B - 1 + 1 := by omega
  have hx : B * x = swap B x + (B * B - 1) * (x / B) := by
    calc B * x = B * (B * (x / B) + x % B) := by rw [Nat.div_add_mod]
      _ = B * B * (x / B) + x % B * B := by ring
      _ = (B * B - 1 + 1) * (x / B) + x % B * B := by rw [← hBB]
      _ = swap B x + (B * B - 1) * (x / B) := by unfold swap; ring
  rw [hx]
  exact Nat.modEq_add_modulus_mul_iff.mpr rfl

include hB in
/-- Exchanging the digits of a sum multiplies it by `B`. -/
theorem swap_canon (s : Nat) :
    swap B (canon (B * B - 1) s) = canon (B * B - 1) (B * s) := by
  have hM : 0 < B * B - 1 := by
    have : 2 * 2 ≤ B * B := Nat.mul_le_mul hB hB
    omega
  rcases Nat.eq_zero_or_pos s with rfl | hs
  · simp [canon, swap]
  · symm
    apply canon_eq_of hM (Nat.mul_pos (by omega) hs)
    · exact swap_pos hB (canon_pos hs)
    · exact swap_le hB (canon_le hM _)
    · exact (swap_modEq hB _).trans ((canon_modEq _ s).mul_left B)

include hB in
theorem sum_map_swap_modEq (ws : List Nat) :
    (ws.map (swap B)).sum ≡ B * ws.sum [MOD B * B - 1] := by
  induction ws with
  | nil => rfl
  | cons x ws ih =>
    rw [List.map_cons, List.sum_cons, List.sum_cons, Nat.mul_add]
    exact (swap_modEq hB x).add ih

include hB in
/-- **Byte order independence**: the sum of the exchanged words is the exchanged
sum of the words. -/
theorem canon_sum_map_swap (ws : List Nat) :
    canon (B * B - 1) (ws.map (swap B)).sum = swap B (canon (B * B - 1) ws.sum) := by
  rw [swap_canon hB]
  rcases Nat.eq_zero_or_pos ws.sum with h0 | hpos
  · have hall : ∀ x ∈ ws, x = 0 := List.sum_eq_zero_iff_forall_eq_nat.mp h0
    have h0' : (ws.map (swap B)).sum = 0 := by
      rw [List.sum_eq_zero_iff_forall_eq_nat]
      intro y hy
      obtain ⟨x, hx, rfl⟩ := List.mem_map.mp hy
      rw [hall x hx]
      simp [swap]
    rw [h0, h0', Nat.mul_zero]
  · have hpos' : 0 < (ws.map (swap B)).sum := by
      obtain ⟨x, hx, hxpos⟩ := List.sum_pos_iff_exists_pos_nat.mp hpos
      exact List.sum_pos_iff_exists_pos_nat.mpr
        ⟨swap B x, List.mem_map_of_mem hx, swap_pos hB hxpos⟩
    rw [canon_eq_iff hpos' (Nat.mul_pos (by omega) hpos)]
    exact sum_map_swap_modEq hB ws

include hB in
/-- **A sum of words in either byte order**, with one digit `a` that counts as the high
digit of a word or as the low one: the sums are exchanged only if `B + 1` divides the sum
of the other words. -/
theorem swap_canon_eq_iff {t : Nat} (ht : 0 < t) (a : Nat) :
    swap B (canon (B * B - 1) (t + B * a)) = canon (B * B - 1) (t + a) ↔ B + 1 ∣ t := by
  have hle : t ≤ B * t := Nat.le_mul_of_pos_left t (by omega)
  have hone : 1 ≤ B * B := Nat.mul_pos (by omega) (by omega)
  have hfactor : B * B - 1 = (B - 1) * (B + 1) := by
    obtain ⟨k, rfl⟩ : ∃ k, B = k + 1 := ⟨B - 1, by omega⟩
    rw [Nat.add_sub_cancel]
    ring_nf
    omega
  -- the digit is worth the same in both places
  have hdigit : B * (t + B * a) ≡ B * t + a [MOD B * B - 1] := by
    have hsplit : B * (t + B * a) = B * t + a + (B * B - 1) * a := by
      rw [Nat.sub_mul, Nat.one_mul, Nat.mul_add, ← Nat.mul_assoc]
      have : a ≤ B * B * a := Nat.le_mul_of_pos_left a hone
      omega
    rw [hsplit]
    exact (Nat.modEq_add_modulus_mul_iff.mpr rfl).symm
  have hcancel : B * t + a ≡ t + a [MOD B * B - 1] ↔ t ≡ B * t [MOD B * B - 1] :=
    ⟨fun h => (Nat.ModEq.add_right_cancel' a h).symm, fun h => h.symm.add_right a⟩
  have hdiff : B * t - t = (B - 1) * t := by rw [Nat.sub_mul, Nat.one_mul]
  rw [swap_canon hB, canon_eq_iff (Nat.mul_pos (by omega) (by omega)) (by omega)]
  calc B * (t + B * a) ≡ t + a [MOD B * B - 1]
    _ ↔ B * t + a ≡ t + a [MOD B * B - 1] := ⟨hdigit.symm.trans, hdigit.trans⟩
    _ ↔ B * B - 1 ∣ B * t - t := hcancel.trans (Nat.modEq_iff_dvd' hle)
    _ ↔ (B - 1) * (B + 1) ∣ (B - 1) * t := by rw [hfactor, hdiff]
    _ ↔ B + 1 ∣ t := Nat.mul_dvd_mul_iff_left (by omega)

include hB in
/-- The halves of the complement are the complements of the halves. -/
theorem swap_compl {x : Nat} (hx : x ≤ B * B - 1) :
    swap B (B * B - 1 - x) = B * B - 1 - swap B x := by
  have hpos : 0 < B * B := Nat.mul_pos (by omega) (by omega)
  have hlo : x % B < B := Nat.mod_lt _ (by omega)
  have hhi : x / B < B := Nat.div_lt_of_lt_mul (by omega)
  have hdm := Nat.div_add_mod x B
  -- the complement has the digits `B - 1 - x / B` and `B - 1 - x % B`
  have hsplit : B * B - 1 - x = B * (B - 1 - x / B) + (B - 1 - x % B) := by
    have h1 : B * (B - 1 - x / B) + B * (x / B) = B * (B - 1) := by
      rw [← Nat.mul_add, Nat.sub_add_cancel (by omega)]
    have h2 : B * (B - 1) + B = B * B := by
      rw [← Nat.mul_succ, Nat.succ_eq_add_one, Nat.sub_add_cancel (by omega)]
    omega
  have hmod : (B * B - 1 - x) % B = B - 1 - x % B := by
    rw [hsplit, Nat.mul_add_mod, Nat.mod_eq_of_lt (by omega)]
  have hdiv : (B * B - 1 - x) / B = B - 1 - x / B := by
    have hlt : B - 1 - x % B < B := by omega
    rw [hsplit, Nat.mul_add_div (by omega), Nat.div_eq_of_lt hlt, Nat.add_zero]
  have h3 : (B - 1 - x % B) * B + x % B * B = (B - 1) * B := by
    rw [← Nat.add_mul, Nat.sub_add_cancel (by omega)]
  have h4 : (B - 1) * B + B = B * B := by
    rw [← Nat.succ_mul, Nat.succ_eq_add_one, Nat.sub_add_cancel (by omega)]
  rw [swap, hmod, hdiv, swap]
  omega

end Swap

end OnesComplement
