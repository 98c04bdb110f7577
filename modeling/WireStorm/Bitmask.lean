import Mathlib.Data.List.Induction
import Mathlib.Data.Nat.Basic

/-!
# Bitmasks

`lib/bitmask.c` over a 64-bit mask. `1 << pos` is a shift of a 32-bit signed
int: the count is taken mod 32 and the result is sign extended to 64 bits, so
the position 31 stands for the bits 31 to 63 together and the positions from 32
on name the same bits as those 32 below (`isSet_setBit`). So the 64 positions are
not 64 flags: a position keeps the value last written to it until another one with
the same remainder mod 32 is given the other value (`isSet_setBits_iff`).
-/

namespace WireStorm

/-- `1 << pos` as the 32-bit int the shift produces. -/
def oneShl (pos : Nat) : BitVec 32 := 1#32 <<< (pos % 32)

/-- `is_set`. -/
def isSet (mask : BitVec 64) (pos : Nat) : Bool :=
  mask &&& (oneShl pos).signExtend 64 != 0#64

/-- `set_bit`. -/
def setBit (mask : BitVec 64) (pos : Nat) (val : Bool) : BitVec 64 :=
  if val then
    mask ||| (oneShl pos).signExtend 64
  else
    mask &&& (~~~oneShl pos).signExtend 64

/-- The bits of the mask for a position: its own bit mod 32, and with position 31
every bit above. -/
def Covers (pos j : Nat) : Prop := j < 64 ∧ (j = pos % 32 ∨ pos % 32 = 31 ∧ 31 ≤ j)

instance (pos j : Nat) : Decidable (Covers pos j) :=
  inferInstanceAs (Decidable (_ ∧ (_ ∨ _ ∧ _)))

theorem Covers.mod {pos pos' j : Nat} (h : Covers pos j) (h' : Covers pos' j) :
    pos % 32 = pos' % 32 := by
  unfold Covers at h h'
  omega

theorem covers_self (pos : Nat) : Covers pos (pos % 32) := by
  unfold Covers
  omega

theorem covers_congr {pos pos' : Nat} (h : pos % 32 = pos' % 32) (j : Nat) :
    Covers pos j ↔ Covers pos' j := by
  unfold Covers
  rw [h]

theorem getLsbD_oneShl (pos j : Nat) :
    ((oneShl pos).signExtend 64).getLsbD j = decide (Covers pos j) := by
  have hp : pos % 32 < 32 := Nat.mod_lt _ (by decide)
  rw [BitVec.getLsbD_signExtend, BitVec.msb_eq_getLsbD_last]
  simp only [oneShl, BitVec.getLsbD_shiftLeft, BitVec.getLsbD_one]
  rw [Bool.eq_iff_iff, decide_eq_true_iff]
  unfold Covers
  by_cases hj : j < 32 <;> simp [hj] <;> omega

theorem isSet_iff {mask : BitVec 64} {pos : Nat} :
    isSet mask pos = true ↔ ∃ j, Covers pos j ∧ mask.getLsbD j = true := by
  unfold isSet
  rw [bne_iff_ne]
  constructor
  · intro h
    by_contra hno
    apply h
    apply BitVec.eq_of_getLsbD_eq
    intro j hj
    rw [BitVec.getLsbD_and, getLsbD_oneShl, BitVec.getLsbD_zero, Bool.and_eq_false_iff]
    by_cases hc : Covers pos j
    · exact Or.inl (Bool.eq_false_iff.mpr fun hbit => hno ⟨j, hc, hbit⟩)
    · exact Or.inr (decide_eq_false hc)
  · rintro ⟨j, hc, hbit⟩ h
    have h' := congrArg (·.getLsbD j) h
    simp only [BitVec.getLsbD_and, getLsbD_oneShl, hbit, decide_eq_true hc, BitVec.getLsbD_zero] at h'
    cases h'

theorem getLsbD_setBit (mask : BitVec 64) (pos : Nat) (val : Bool) {j : Nat} (hj : j < 64) :
    (setBit mask pos val).getLsbD j = if Covers pos j then val else mask.getLsbD j := by
  have hbit := getLsbD_oneShl pos j
  unfold setBit
  cases val with
  | true =>
    simp only [ite_true, BitVec.getLsbD_or, hbit]
    by_cases hc : Covers pos j <;> simp [hc]
  | false =>
    have hnot : (~~~oneShl pos).signExtend 64 = ~~~(oneShl pos).signExtend 64 :=
      BitVec.signExtend_not (by decide)
    simp only [Bool.false_eq_true, ite_false, hnot, BitVec.getLsbD_and, BitVec.getLsbD_not, hbit,
      decide_eq_true hj, Bool.true_and]
    by_cases hc : Covers pos j <;> simp [hc]

/-- **`set_bit` and `is_set`** see 32 independent flags: a position reads back
the value last written at a position with the same remainder mod 32. -/
theorem isSet_setBit (mask : BitVec 64) (p q : Nat) (val : Bool) :
    isSet (setBit mask p val) q = if p % 32 = q % 32 then val else isSet mask q := by
  rw [Bool.eq_iff_iff, isSet_iff]
  split
  · rename_i h
    constructor
    · rintro ⟨j, hc, hbit⟩
      rwa [getLsbD_setBit _ _ _ hc.1, if_pos ((covers_congr h j).mpr hc)] at hbit
    · intro hval
      refine ⟨q % 32, covers_self q, ?_⟩
      rw [getLsbD_setBit _ _ _ (covers_self q).1, if_pos ((covers_congr h _).mpr (covers_self q))]
      exact hval
  · rename_i h
    rw [isSet_iff]
    refine exists_congr fun j => and_congr_right fun hc => ?_
    rw [getLsbD_setBit _ _ _ hc.1, if_neg fun hp => h (hp.mod hc)]

@[simp] theorem isSet_zero (pos : Nat) : isSet 0#64 pos = false := by
  simp [isSet]

/-! ## Sequences of calls -/

/-- The mask after calls of `set_bit` on a mask that starts at 0. -/
def setBits (calls : List (Nat × Bool)) : BitVec 64 :=
  calls.foldl (fun mask call => setBit mask call.1 call.2) 0#64

/-- The last call at a position for which `here` holds. -/
def lastCall (calls : List (Nat × Bool)) (here : Nat → Bool) : Option (Nat × Bool) :=
  calls.reverse.find? fun call => here call.1

/-- The value written by a call, `false` without one. -/
def valueOf (call : Option (Nat × Bool)) : Bool := (call.map (·.2)).getD false

/-- Position `q` of 64 independent flags after the calls: the value of the last call at
`q`, `false` if there is none. -/
def flag (calls : List (Nat × Bool)) (q : Nat) : Bool := valueOf (lastCall calls (· = q))

/-- The last call at a position with the remainder of `q` mod 32. -/
def lastShared (calls : List (Nat × Bool)) (q : Nat) : Option (Nat × Bool) :=
  lastCall calls (· % 32 = q % 32)

theorem lastCall_concat (calls : List (Nat × Bool)) (call : Nat × Bool) (here : Nat → Bool) :
    lastCall (calls ++ [call]) here = if here call.1 then some call else lastCall calls here := by
  rw [lastCall, List.reverse_concat, List.find?_cons]
  split <;> simp_all [lastCall]

theorem at_of_lastCall {calls : List (Nat × Bool)} {here : Nat → Bool} {call : Nat × Bool}
    (h : lastCall calls here = some call) : here call.1 = true :=
  List.find?_some (p := fun call : Nat × Bool => here call.1) h

/-- **What a position reads** after the calls: the last value written at a position with
its remainder mod 32. -/
theorem isSet_setBits (calls : List (Nat × Bool)) (q : Nat) :
    isSet (setBits calls) q = valueOf (lastShared calls q) := by
  induction calls using List.reverseRecOn with
  | nil => exact isSet_zero q
  | append_singleton calls call ih =>
    have hstep : setBits (calls ++ [call]) = setBit (setBits calls) call.1 call.2 := by
      simp [setBits]
    rw [hstep, isSet_setBit, lastShared, lastCall_concat]
    by_cases hq : call.1 % 32 = q % 32
    · simp [hq, valueOf]
    · simp [hq, ih, lastShared]

/-- The flag that `q` shares was last written at `q`, or at another position with the
value that `q` has. -/
def Intact (calls : List (Nat × Bool)) (q : Nat) : Prop :=
  ∀ p val, lastShared calls q = some (p, val) → p ≠ q → val = flag calls q

/-- Only the positions with the remainder of `q` mod 32 have a flag in common with it. -/
theorem lastCall_of_lastShared {calls : List (Nat × Bool)} {q : Nat} {val : Bool}
    (h : lastShared calls q = some (q, val)) : lastCall calls (· = q) = some (q, val) := by
  induction calls using List.reverseRecOn with
  | nil => cases h
  | append_singleton calls call ih =>
    rw [lastShared, lastCall_concat] at h
    rw [lastCall_concat]
    by_cases hq : call.1 % 32 = q % 32
    · simp only [hq, decide_true, if_true, Option.some.injEq] at h
      simp [h]
    · have hne : call.1 ≠ q := fun heq => hq (by rw [heq])
      simp only [hq, decide_false, Bool.false_eq_true, if_false] at h
      simpa [hne] using ih h

theorem lastCall_of_lastShared_none {calls : List (Nat × Bool)} {q : Nat}
    (h : lastShared calls q = none) : lastCall calls (· = q) = none := by
  rw [lastShared, lastCall, List.find?_eq_none] at h
  rw [lastCall, List.find?_eq_none]
  intro call hcall heq
  refine h call hcall ?_
  simp_all

/-- **A position reads as a flag of its own** if and only if no other position with its
remainder mod 32 was given the other value since. -/
theorem isSet_setBits_iff (calls : List (Nat × Bool)) (q : Nat) :
    isSet (setBits calls) q = flag calls q ↔ Intact calls q := by
  rw [isSet_setBits]
  cases hshared : lastShared calls q with
  | none =>
    refine iff_of_true ?_ fun p val h => ?_
    · rw [flag, lastCall_of_lastShared_none hshared]
    · rw [hshared] at h
      cases h
  | some call =>
    obtain ⟨p, val⟩ := call
    by_cases hp : p = q
    · subst hp
      refine iff_of_true ?_ fun p' val' h hne => ?_
      · rw [flag, lastCall_of_lastShared hshared]
      · rw [hshared] at h
        cases h
        exact absurd rfl hne
    · constructor
      · intro h p' val' h' _
        rw [hshared] at h'
        cases h'
        exact h
      · intro h
        exact h p val hshared hp

/-- Below 32 every position has a flag of its own. -/
theorem intact_of_lt {calls : List (Nat × Bool)} {q : Nat} (hq : q < 32)
    (hcalls : ∀ call ∈ calls, call.1 < 32) : Intact calls q := by
  intro p val h hne
  have hmod : p % 32 = q % 32 := by simpa using at_of_lastCall h
  have hp : p < 32 := hcalls (p, val) (List.mem_reverse.mp (List.mem_of_find?_eq_some h))
  rw [Nat.mod_eq_of_lt hp, Nat.mod_eq_of_lt hq] at hmod
  exact absurd hmod hne

/-- Position 32 reads as set after a call at position 0. -/
theorem not_independent_flags :
    ¬∀ calls : List (Nat × Bool), (∀ call ∈ calls, call.1 < 64) → ∀ q < 64,
      isSet (setBits calls) q = flag calls q := by
  intro h
  have h32 := h [(0, true)] (by decide) 32 (by decide)
  revert h32
  decide

end WireStorm
