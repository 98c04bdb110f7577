import Mathlib.Data.Prod.Lex
import Mathlib.Order.Lattice

/-!
# Timestamps

`struct timespec` and the comparison of `lib/timestamp.c`. The comparison is
the strict part of the lexicographic order (`compareTimes_iff`), so the proofs
use `<` on `Timespec`.
-/

namespace WireStorm

/-- `struct timespec`. -/
structure Timespec where
  tvSec : Int
  tvNsec : Int
  deriving DecidableEq, Repr

/-- `compare_times`: `lhs < rhs`. -/
def compareTimes (lhs rhs : Timespec) : Bool :=
  if lhs.tvSec = rhs.tvSec then
    -- compare nanoseconds if number of seconds is equal
    decide (lhs.tvNsec < rhs.tvNsec)
  else
    decide (lhs.tvSec < rhs.tvSec)

/-- `ts.tv_sec += secs`. -/
def Timespec.addSec (ts : Timespec) (secs : Nat) : Timespec :=
  { ts with tvSec := ts.tvSec + secs }

/-- The seconds and nanoseconds as a key of the lexicographic order. -/
def Timespec.key (ts : Timespec) : Int ×ₗ Int := toLex (ts.tvSec, ts.tvNsec)

theorem Timespec.key_injective : Function.Injective Timespec.key := by
  intro a b h
  have h' : (a.tvSec, a.tvNsec) = (b.tvSec, b.tvNsec) := toLex.injective h
  cases a
  cases b
  simpa using h'

instance : LinearOrder Timespec := LinearOrder.lift' Timespec.key Timespec.key_injective

theorem Timespec.lt_iff {a b : Timespec} :
    a < b ↔ a.tvSec < b.tvSec ∨ a.tvSec = b.tvSec ∧ a.tvNsec < b.tvNsec :=
  show a.key < b.key ↔ _ from Prod.Lex.toLex_lt_toLex

theorem compareTimes_iff {a b : Timespec} : compareTimes a b = true ↔ a < b := by
  rw [Timespec.lt_iff]
  unfold compareTimes
  split
  · rename_i h
    simp [h]
  · rename_i h
    simp [h]

end WireStorm
