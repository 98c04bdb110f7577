import Mathlib.Data.Nat.Basic

/-!
# Command-line arguments

The bounds of `lib/args.h` and the arguments that the server threads read. Only
values that pass `valid_int_arg` are stored, so `Args` carries that they did.
-/

namespace WireStorm

/-- Need at least one thread to handle receivers. -/
def minNumWorkers : Nat := 1
/-- Bounded by the `sent` field of `struct msg_entry`. -/
def maxNumWorkers : Nat := 64
/-- Default number of client worker threads. -/
def defaultNumWorkers : Nat := 32

def minTtl : Nat := 2
def maxTtl : Nat := 10
/-- Default time in seconds that messages remain in memory for. -/
def defaultTtl : Nat := 5

/-- `valid_int_arg`. -/
def validIntArg (arg min max : Nat) : Bool := min ≤ arg && arg ≤ max

/-- `struct args`: the number of client worker threads and the message time to live. -/
structure Args where
  numWorkers : Nat
  ttl : Nat
  valid_numWorkers : validIntArg numWorkers minNumWorkers maxNumWorkers = true
  valid_ttl : validIntArg ttl minTtl maxTtl = true

/-- `set_default_args`. -/
def Args.default : Args := ⟨defaultNumWorkers, defaultTtl, rfl, rfl⟩

end WireStorm
