import Mathlib

/-!
# Programs on a heap

Programs that allocate, use and free blocks (`Heap.Prog`), and what they own. An assertion
describes a part of a heap; `P * Q` describes two parts that have no address in common, and
with it the assertions are a commutative quantale. A triple `{P} m {Q}` (`Heap.Triple`) says
that `m` runs without a fault wherever `P` holds of a part of the heap, turns this part into
one with `Q`, and leaves the rest as it is. So a program with `{1} m {1}` has freed all that
it allocated, and nothing else. The address of a new block is any that is not in use, and any
allocation may fail (`Heap.Allocator`). A program that calls `exit` stops with the heap as it
is then; where it does so because an allocation has failed, there is no room for a block on
that very heap (`Heap.GivesUp`).

A data structure on the heap is a family of programs, one for each call, that implements a
partial function on values (`Heap.Implements`). Then any calls one after another do on the
heap what they do on the values, and where the values do not allow one of them, there is a
fault.
-/

universe u v

/-- The blocks at the addresses in use. -/
abbrev Heap (β : Type u) : Type u := Finmap fun _ : Nat => β

namespace Heap

/-! ## Programs -/

/-- How a program stops before its end: it calls `exit`, with the heap as it is then, or uses
memory that it may not use. -/
inductive Stop (β : Type)
  | exited (h : Heap β)
  | fault

abbrev Prog (β α : Type) : Type := StateT (Heap β) (Except (Stop β)) α

/-- Where the next block goes, given the addresses in use: to one that is not, or nowhere. -/
structure Allocator where
  pick : Finset Nat → Option Nat
  notMem : ∀ {used : Finset Nat} {p : Nat}, pick used = some p → p ∉ used

section
variable {α β γ : Type}

/-- Stop the program. -/
def exit : Prog β α := fun h => .error (.exited h)

/-- Allocate a block; nothing if there is no room for it. -/
def malloc (alloc : Allocator) (b : β) : Prog β (Option Nat) := fun h =>
  match alloc.pick h.keys with
  | none => .ok (none, h)
  | some p => .ok (some p, h.insert p b)

/-- Free the block at `p`; nothing for a null pointer. -/
def free : Option Nat → Prog β Unit
  | none => pure ()
  | some p => fun h => if p ∈ h then .ok ((), h.erase p) else .error .fault

/-- Use the block at `p` as `f` says, which fails where the block does not allow it. -/
def access (p : Option Nat) (f : β → Option (γ × β)) : Prog β γ := fun h =>
  match p.bind fun p => (h.lookup p).bind fun b => (f b).map fun r => (r.1, h.insert p r.2) with
  | none => .error .fault
  | some r => .ok r

end

/-! ## Assertions -/

/-- What a part of a heap holds. -/
def Assertion (β : Type u) : Type u := Heap β → Prop

namespace Assertion

section
variable {β : Type u} {P Q R : Assertion β} {h : Heap β}

def of (p : Heap β → Prop) : Assertion β := p

def Holds (P : Assertion β) (h : Heap β) : Prop := P h

@[simp] theorem holds_of {p : Heap β → Prop} : (of p).Holds h ↔ p h := Iff.rfl

instance : CompleteLattice (Assertion β) := inferInstanceAs (CompleteLattice (Heap β → Prop))

theorem le_def : P ≤ Q ↔ ∀ h, P.Holds h → Q.Holds h := Iff.rfl

theorem holds_sSup {s : Set (Assertion β)} : (sSup s).Holds h ↔ ∃ P ∈ s, P.Holds h := by
  refine ⟨fun hh => ?_, fun ⟨P, hP, hh⟩ => le_def.mp (le_sSup hP) h hh⟩
  have hle : sSup s ≤ of fun h => ∃ P ∈ s, P.Holds h :=
    sSup_le fun P hP => le_def.mpr fun h hh => ⟨P, hP, hh⟩
  exact le_def.mp hle h hh

theorem holds_iSup {ι : Sort v} {F : ι → Assertion β} :
    (⨆ x, F x).Holds h ↔ ∃ x, (F x).Holds h := by
  rw [iSup, holds_sSup]
  simp

/-- No memory. -/
def emp : Assertion β := of fun h => h = ∅

/-- Two parts with no address in common. -/
def sep (P Q : Assertion β) : Assertion β := of fun h =>
  ∃ h₁ h₂, P.Holds h₁ ∧ Q.Holds h₂ ∧ h₁.Disjoint h₂ ∧ h = h₁ ∪ h₂

theorem sep_comm (P Q : Assertion β) : P.sep Q ≤ Q.sep P := by
  refine le_def.mpr ?_
  rintro h ⟨h₁, h₂, hp, hq, hd, rfl⟩
  exact ⟨h₂, h₁, hq, hp, hd.symm, Finmap.union_comm_of_disjoint hd⟩

theorem sep_assoc (P Q R : Assertion β) : (P.sep Q).sep R ≤ P.sep (Q.sep R) := by
  refine le_def.mpr ?_
  rintro h ⟨h₁₂, h₃, ⟨h₁, h₂, hp, hq, hd, rfl⟩, hr, hd', rfl⟩
  obtain ⟨hd₁, hd₂⟩ := (Finmap.disjoint_union_left _ _ _).mp hd'
  exact ⟨h₁, h₂ ∪ h₃, hp, ⟨h₂, h₃, hq, hr, hd₂, rfl⟩,
    (Finmap.disjoint_union_right _ _ _).mpr ⟨hd, hd₁⟩, Finmap.union_assoc⟩

theorem emp_sep (P : Assertion β) : emp.sep P = P := by
  refine le_antisymm (le_def.mpr ?_) (le_def.mpr fun h hp => ?_)
  · rintro h ⟨h₁, h₂, rfl, hp, -, rfl⟩
    rwa [Finmap.empty_union]
  · exact ⟨∅, h, rfl, hp, Finmap.disjoint_empty h, Finmap.empty_union.symm⟩

instance : CommMonoid (Assertion β) where
  mul := sep
  one := emp
  mul_assoc P Q R := by
    refine le_antisymm (sep_assoc P Q R) ?_
    calc P.sep (Q.sep R) ≤ (Q.sep R).sep P := sep_comm _ _
      _ ≤ Q.sep (R.sep P) := sep_assoc _ _ _
      _ ≤ (R.sep P).sep Q := sep_comm _ _
      _ ≤ R.sep (P.sep Q) := sep_assoc _ _ _
      _ ≤ (P.sep Q).sep R := sep_comm _ _
  mul_comm P Q := le_antisymm (sep_comm P Q) (sep_comm Q P)
  one_mul := emp_sep
  mul_one P := (le_antisymm (sep_comm P emp) (sep_comm emp P)).trans (emp_sep P)

theorem holds_mul :
    (P * Q).Holds h ↔ ∃ h₁ h₂, P.Holds h₁ ∧ Q.Holds h₂ ∧ h₁.Disjoint h₂ ∧ h = h₁ ∪ h₂ := Iff.rfl

theorem mul_sSup_eq (P : Assertion β) (s : Set (Assertion β)) : P * sSup s = ⨆ Q ∈ s, P * Q := by
  refine le_antisymm (le_def.mpr fun h hh => ?_) (iSup₂_le fun Q hQ => le_def.mpr fun h hh => ?_)
  · obtain ⟨h₁, h₂, hp, hq, hd, rfl⟩ := holds_mul.mp hh
    obtain ⟨Q, hQ, hq⟩ := holds_sSup.mp hq
    have hle : P * Q ≤ ⨆ Q ∈ s, P * Q := le_iSup₂_of_le Q hQ le_rfl
    exact le_def.mp hle _ (holds_mul.mpr ⟨h₁, h₂, hp, hq, hd, rfl⟩)
  · obtain ⟨h₁, h₂, hp, hq, hd, rfl⟩ := holds_mul.mp hh
    exact holds_mul.mpr ⟨h₁, h₂, hp, holds_sSup.mpr ⟨Q, hQ, hq⟩, hd, rfl⟩

/-- Alternatives may be taken out of a part. -/
instance : IsQuantale (Assertion β) where
  mul_sSup_distrib := mul_sSup_eq
  sSup_mul_distrib s P := by
    rw [mul_comm, mul_sSup_eq]
    simp only [mul_comm]

theorem iSup_mul_eq {ι : Sort v} (F : ι → Assertion β) (P : Assertion β) :
    (⨆ x, F x) * P = ⨆ x, F x * P := by
  rw [iSup, sSup_mul_distrib, iSup_range]

/-- A fact, which needs no memory. -/
def fact (φ : Prop) : Assertion β := ⨆ _ : φ, 1

theorem holds_fact_mul {φ : Prop} : (fact φ * P).Holds h ↔ φ ∧ P.Holds h := by
  have heq : fact φ * P = ⨆ _ : φ, P := by
    rw [fact, iSup_mul_eq]
    simp only [one_mul]
  rw [heq, holds_iSup, exists_prop]

theorem fact_of {φ : Prop} (hφ : φ) : (fact φ : Assertion β) = 1 := iSup_pos hφ

/-- The heaps of an assertion have blocks at the addresses `s`. -/
def At (P : Assertion β) (s : Finset Nat) : Prop := ∀ h, P.Holds h → h.keys = s

/-- The heaps of an assertion have `n` blocks. -/
def Blocks (P : Assertion β) (n : Nat) : Prop := ∀ h, P.Holds h → h.keys.card = n

/-- At most `n` blocks. -/
def atMost (n : Nat) : Assertion β := of fun h => h.keys.card ≤ n

theorem Blocks.le_atMost {n k : Nat} (hp : P.Blocks n) (hle : n ≤ k) : P ≤ atMost k :=
  le_def.mpr fun h hh => (hp h hh).trans_le hle

theorem blocks_one : (1 : Assertion β).Blocks 0 := by
  rintro h rfl
  rfl

theorem blocks_bot (n : Nat) : (⊥ : Assertion β).Blocks n := fun _ hh => hh.elim

theorem Blocks.iSup {ι : Sort v} {F : ι → Assertion β} {n : Nat} (hF : ∀ x, (F x).Blocks n) :
    (⨆ x, F x).Blocks n := by
  intro h hh
  obtain ⟨x, hx⟩ := holds_iSup.mp hh
  exact hF x h hx

theorem Blocks.mul {n k : Nat} (hp : P.Blocks n) (hq : Q.Blocks k) : (P * Q).Blocks (n + k) := by
  rintro h ⟨h₁, h₂, h₁p, h₂q, hd, rfl⟩
  have hdisjoint : Disjoint h₁.keys h₂.keys :=
    Finset.disjoint_left.mpr fun p hp₁ hp₂ => hd p (Finmap.mem_keys.mp hp₁) (Finmap.mem_keys.mp hp₂)
  rw [Finmap.keys_union, Finset.card_union_of_disjoint hdisjoint, hp h₁ h₁p, hq h₂ h₂q]

theorem Blocks.prod {ι : Type v} {s : Finset ι} {F : ι → Assertion β} {n : ι → Nat}
    (hF : ∀ x ∈ s, (F x).Blocks (n x)) : (∏ x ∈ s, F x).Blocks (∑ x ∈ s, n x) := by
  induction s using Finset.cons_induction with
  | empty => exact blocks_one
  | cons x s hx ih =>
    rw [Finset.prod_cons, Finset.sum_cons]
    exact (hF x (Finset.mem_cons_self x s)).mul (ih fun y hy => hF y (Finset.mem_cons_of_mem hy))

end

end Assertion

open Assertion

/-- The heap with one block. -/
def single {β : Type u} (p : Nat) (b : β) : Heap β := Finmap.singleton p b

section
variable {β : Type u} {p q : Nat} {b b' : β} {h : Heap β}

theorem mem_single : q ∈ single p b ↔ q = p := Finmap.mem_singleton q p b

theorem lookup_single_union : (single p b ∪ h).lookup p = some b := by
  rw [Finmap.lookup_union_left (mem_single.mpr rfl)]
  exact Finmap.lookup_singleton_eq

theorem lookup_single_union_ne (hq : q ≠ p) : (single p b ∪ h).lookup q = h.lookup q :=
  Finmap.lookup_union_right (mt mem_single.mp hq)

theorem insert_eq_union : h.insert p b = single p b ∪ h := by
  refine Finmap.ext_lookup fun q => ?_
  by_cases hq : q = p
  · rw [hq, Finmap.lookup_insert, lookup_single_union]
  · rw [Finmap.lookup_insert_of_ne _ hq, lookup_single_union_ne hq]

theorem insert_single_union : (single p b ∪ h).insert p b' = single p b' ∪ h := by
  calc (single p b ∪ h).insert p b' = (h.insert p b).insert p b' :=
        congrArg (Finmap.insert p b') insert_eq_union.symm
    _ = h.insert p b' := Finmap.insert_insert h
    _ = single p b' ∪ h := insert_eq_union

theorem erase_single_union (hp : p ∉ h) : (single p b ∪ h).erase p = h := by
  refine Finmap.ext_lookup fun q => ?_
  by_cases hq : q = p
  · rw [hq, Finmap.lookup_erase, Finmap.lookup_eq_none.mpr hp]
  · rw [Finmap.lookup_erase_ne hq, lookup_single_union_ne hq]

end

/-- One block. -/
def pointsTo {β : Type u} (p : Nat) (b : β) : Assertion β := .of fun h => h = single p b

theorem holds_pointsTo_mul {β : Type u} {p : Nat} {b : β} {F : Assertion β} {h : Heap β} :
    (pointsTo p b * F).Holds h ↔ ∃ h', F.Holds h' ∧ p ∉ h' ∧ h = single p b ∪ h' := by
  refine ⟨?_, ?_⟩
  · rintro ⟨h₁, h₂, rfl, hF, hd, rfl⟩
    exact ⟨h₂, hF, hd p (mem_single.mpr rfl), rfl⟩
  · rintro ⟨h', hF, hp, rfl⟩
    exact ⟨single p b, h', rfl, hF, fun q hq => mem_single.mp hq ▸ hp, rfl⟩

theorem at_pointsTo {β : Type u} (p : Nat) (b : β) : (pointsTo p b).At {p} := by
  rintro h rfl
  rw [single, Finmap.keys_singleton]

theorem blocks_pointsTo {β : Type u} (p : Nat) (b : β) : (pointsTo p b).Blocks 1 := fun h hh => by
  rw [at_pointsTo p b h hh, Finset.card_singleton]

/-! ## Triples -/

/-- The end of a run: the program returned and the heap is as `q` says, or it called `exit`
and the heap is as `e` says. -/
def Ends {α β : Type} (e : Heap β → Prop) (q : α → Heap β → Prop) :
    Except (Stop β) (α × Heap β) → Prop
  | .ok (a, h) => q a h
  | .error (.exited h) => e h
  | .error .fault => False

/-- **`{P} m {Q}`**: from a part of the heap with `P` the program makes one with `Q`, without a
fault, and it leaves every other part as it is. If it calls `exit`, on a heap `h`, the part has
`E h`. -/
def Triple {α β : Type} (E : Heap β → Assertion β) (P : Assertion β) (m : Prog β α)
    (Q : α → Assertion β) : Prop :=
  ∀ F h, (P * F).Holds h →
    Ends (fun h' => (E h' * F).Holds h') (fun a h' => (Q a * F).Holds h') (m h)

/-- From `P` the program makes `Q`, and returns `v`. -/
def Returns {α β : Type} (P : Assertion β) (m : Prog β α) (v : α) (Q : Assertion β) : Prop :=
  Triple ⊥ P m fun a => fact (a = v) * Q

/-- No room for a block, on a heap with a part that has `X`. -/
def Allocator.noRoom {β : Type} (alloc : Allocator) (X : Assertion β) (h : Heap β) : Assertion β :=
  fact (alloc.pick h.keys = none) * X

/-- Where there is no room for a block, the program calls `exit`, and there is no room then. The
part of the heap with `P` has become one with `X`. -/
def GivesUp {α β : Type} (alloc : Allocator) (P : Assertion β) (m : Prog β α) (X : Assertion β) :
    Prop :=
  ∀ F h, alloc.pick h.keys = none → (P * F).Holds h →
    ∃ h', m h = .error (.exited h') ∧ alloc.pick h'.keys = none ∧ (X * F).Holds h'

/-- Wherever `P` holds of a part of the heap, the program makes a fault. -/
def Faults {α β : Type} (P : Assertion β) (m : Prog β α) : Prop :=
  ∀ F h, (P * F).Holds h → m h = .error .fault

section
variable {α β γ : Type} {E E' : Heap β → Assertion β} {P P' R R' X X' : Assertion β}
  {m : Prog β α} {k : α → Prog β γ} {Q Q' : α → Assertion β} {S : γ → Assertion β} {v : α}
  {h : Heap β} {alloc : Allocator}

theorem bind_apply (m : Prog β α) (k : α → Prog β γ) (h : Heap β) :
    (m >>= k) h = (m h).bind fun r => k r.1 r.2 := rfl

theorem Ends.mono {e e' : Heap β → Prop} {q q' : α → Heap β → Prop} (he : ∀ h, e h → e' h)
    (hq : ∀ a h, q a h → q' a h) :
    ∀ {r : Except (Stop β) (α × Heap β)}, Ends e q r → Ends e' q' r
  | .ok (a, h), hr => hq a h hr
  | .error (.exited h), hr => he h hr

theorem Ends.bind {e : Heap β → Prop} {q : α → Heap β → Prop} {q' : γ → Heap β → Prop}
    (hm : Ends e q (m h)) (hk : ∀ a h', q a h' → Ends e q' (k a h')) :
    Ends e q' ((m >>= k) h) := by
  rw [bind_apply]
  cases hr : m h with
  | ok r =>
    rw [hr] at hm
    exact hk r.1 r.2 hm
  | error stop =>
    rw [hr] at hm
    cases stop with
    | exited h' => exact hm
    | fault => exact hm

/-! ### Rules -/

theorem Triple.conseq (ht : Triple E P m Q) (hp : P' ≤ P) (hq : ∀ a, Q a ≤ Q' a) :
    Triple E P' m Q' := by
  intro F h hh
  refine (ht F h (le_def.mp (mul_le_mul_left hp F) h hh)).mono (fun _ => id) fun a h' => ?_
  exact le_def.mp (mul_le_mul_left (hq a) F) h'

theorem Triple.weaken (ht : Triple E P m Q) (hE : E ≤ E') : Triple E' P m Q := fun F h hh =>
  (ht F h hh).mono (fun h' => le_def.mp (mul_le_mul_left (hE h') F) h') fun _ _ hq => hq

theorem Triple.frame (ht : Triple E P m Q) (F : Assertion β) :
    Triple (fun h => E h * F) (P * F) m fun a => Q a * F := by
  intro G h hh
  rw [mul_assoc] at hh
  refine (ht (F * G) h hh).mono (fun h' he => ?_) fun a h' hq => ?_
  · rwa [mul_assoc]
  · rwa [mul_assoc]

theorem Triple.bind (ht : Triple E P m Q) (hk : ∀ a, Triple E (Q a) (k a) S) :
    Triple E P (m >>= k) S := fun F h hh =>
  (ht F h hh).bind fun a h' hq => hk a F h' hq

theorem Triple.pure (hp : P ≤ Q v) : Triple E P (pure v) Q := fun F h hh =>
  le_def.mp (mul_le_mul_left hp F) h hh

theorem Triple.bot : Triple E ⊥ m Q := by
  intro F h hh
  rw [Quantale.bot_mul] at hh
  exact hh.elim

/-- A program may be run on each of several alternatives. -/
theorem Triple.of_iSup {ι : Sort v} {G : ι → Assertion β} (ht : ∀ x, Triple E (G x) m Q) :
    Triple E (⨆ x, G x) m Q := by
  intro F h hh
  rw [iSup_mul_eq, holds_iSup] at hh
  obtain ⟨x, hx⟩ := hh
  exact ht x F h hx

theorem Triple.of_fact {φ : Prop} (ht : φ → Triple E P m Q) : Triple E (fact φ * P) m Q := by
  intro F h hh
  rw [mul_assoc, holds_fact_mul] at hh
  exact ht hh.1 F h hh.2

/-- What follows a program that, if it does not call `exit`, returns `v`. -/
theorem Triple.next (ht : Triple E P m fun a => fact (a = v) * R) (hk : Triple E R (k v) S) :
    Triple E P (m >>= k) S := by
  refine ht.bind fun a => Triple.of_fact fun heq => ?_
  rwa [heq]

/-- What follows a program that returns `v`. -/
theorem Returns.next (hr : Returns P m v R) (hk : Triple E R (k v) S) : Triple E P (m >>= k) S :=
  Triple.next (hr.weaken bot_le) hk

theorem Returns.pure : Returns P (pure v) v P := by
  refine Triple.pure (le_def.mpr fun h hp => ?_)
  exact holds_fact_mul.mpr ⟨rfl, hp⟩

theorem Returns.frame (hr : Returns P m v R) (F : Assertion β) : Returns (P * F) m v (R * F) :=
  ((Triple.frame hr F).weaken fun _ => (Quantale.bot_mul).le).conseq le_rfl
    fun _ => (mul_assoc _ _ _).le

theorem Returns.le (hr : Returns P m v R) (hR : R ≤ R') : Returns P m v R' :=
  Triple.conseq hr le_rfl fun _ => mul_le_mul_right hR _

theorem Returns.frameLeft (hr : Returns P m v R) (F : Assertion β) :
    Returns (F * P) m v (F * R) := by
  rw [mul_comm F P, mul_comm F R]
  exact hr.frame F

/-- A part beside a given heap. -/
theorem exists_part {A : Assertion β} {h h' : Heap β} (hh : (A * .of fun g => g = h).Holds h') :
    ∃ part, h' = part ∪ h ∧ part.Disjoint h ∧ A.Holds part := by
  obtain ⟨part, rest, hpart, hrest, hd, heq⟩ := hh
  rw [holds_of.mp hrest] at hd heq
  exact ⟨part, heq, hd, hpart⟩

theorem one_beside (h : Heap β) : ((1 : Assertion β) * .of fun g => g = h).Holds h := by
  rw [one_mul]
  exact holds_of.mpr rfl

/-- A program that needs no memory, on any heap: it leaves the heap as it is and adds the part
that it returns, or that it has when it calls `exit`. -/
theorem Triple.run (ht : Triple E 1 m Q) (h : Heap β) :
    (∃ part, m h = .error (.exited (part ∪ h)) ∧ part.Disjoint h ∧
        (E (part ∪ h)).Holds part) ∨
      ∃ a part, m h = .ok (a, part ∪ h) ∧ part.Disjoint h ∧ (Q a).Holds part := by
  have hends := ht _ h (one_beside h)
  cases hm : m h with
  | ok r =>
    rw [hm] at hends
    obtain ⟨part, heq, hd, hpart⟩ := exists_part hends
    exact .inr ⟨r.1, part, congrArg Except.ok (Prod.ext rfl heq), hd, hpart⟩
  | error stop =>
    rw [hm] at hends
    cases stop with
    | exited h' =>
      obtain ⟨part, rfl, hd, hpart⟩ := exists_part hends
      exact .inl ⟨part, rfl, hd, hpart⟩
    | fault => exact hends.elim

/-! ### Blocks -/

theorem exit_givesUp : GivesUp alloc P (exit : Prog β α) P := fun _ h hpick hh =>
  ⟨h, rfl, hpick, hh⟩

theorem GivesUp.le (hg : GivesUp alloc P m X) (hX : X ≤ X') : GivesUp alloc P m X' := by
  intro F h hpick hh
  obtain ⟨h', hm, hpick', hh'⟩ := hg F h hpick hh
  exact ⟨h', hm, hpick', le_def.mp (mul_le_mul_left hX F) h' hh'⟩

theorem GivesUp.frame (hg : GivesUp alloc P m X) (F : Assertion β) :
    GivesUp alloc (P * F) m (X * F) := by
  intro G h hpick hh
  rw [mul_assoc] at hh
  obtain ⟨h', hm, hpick', hh'⟩ := hg (F * G) h hpick hh
  exact ⟨h', hm, hpick', by rwa [mul_assoc]⟩

/-- A program that only changes the blocks of a part leaves no more room than there was. -/
theorem Returns.givesUp {s : Finset Nat} (hr : Returns P m v R) (hP : P.At s) (hR : R.At s)
    (hk : GivesUp alloc R (k v) X) : GivesUp alloc P (m >>= k) X := by
  intro F h hpick hh
  -- the addresses of the part are known, so the rest alone says that there is no room
  let G : Assertion β := .of fun rest => F.Holds rest ∧ alloc.pick (s ∪ rest.keys) = none
  have hG : (P * G).Holds h := by
    obtain ⟨part, rest, hpart, hrest, hd, rfl⟩ := holds_mul.mp hh
    rw [Finmap.keys_union, hP part hpart] at hpick
    exact ⟨part, rest, hpart, ⟨hrest, hpick⟩, hd, rfl⟩
  have hends := hr G h hG
  rw [bind_apply]
  cases hm : m h with
  | ok r =>
    rw [hm] at hends
    have hpost : (fact (r.1 = v) * R * G).Holds r.2 := hends
    rw [mul_assoc] at hpost
    obtain ⟨hv, part, rest, hpart, ⟨hrest, hpick'⟩, hd, heq⟩ := holds_fact_mul.mp hpost
    have hkeys : r.2.keys = s ∪ rest.keys := by rw [heq, Finmap.keys_union, hR part hpart]
    rw [← hv] at hk
    exact hk F r.2 (hkeys ▸ hpick') ⟨part, rest, hpart, hrest, hd, heq⟩
  | error stop =>
    rw [hm] at hends
    cases stop with
    | exited h' =>
      have hnone : (⊥ * G : Assertion β).Holds h' := hends
      rw [Quantale.bot_mul] at hnone
      exact hnone.elim
    | fault => exact hends.elim

/-- What follows an allocation: there was room, or the program calls `exit`. -/
theorem malloc_bind {b : β} {k : Option Nat → Prog β γ} (hnone : GivesUp alloc P (k none) X)
    (hsome : ∀ p, Triple (alloc.noRoom X) (pointsTo p b * P) (k (some p)) S) :
    Triple (alloc.noRoom X) P (malloc alloc b >>= k) S := by
  intro F h hh
  rw [bind_apply, malloc]
  cases hpick : alloc.pick h.keys with
  | none =>
    obtain ⟨h', hm, hpick', hh'⟩ := hnone F h hpick hh
    simp only [Except.bind, hm]
    show (fact (alloc.pick h'.keys = none) * X * F).Holds h'
    rw [mul_assoc]
    exact holds_fact_mul.mpr ⟨hpick', hh'⟩
  | some p =>
    have hp : p ∉ h := fun hp => alloc.notMem hpick (Finmap.mem_keys.mpr hp)
    refine hsome p F (h.insert p b) ?_
    rw [mul_assoc]
    exact holds_pointsTo_mul.mpr ⟨h, hh, hp, insert_eq_union⟩

theorem free_returns (p : Nat) (b : β) : Returns (pointsTo p b) (free (some p)) () 1 := by
  intro F h hh
  obtain ⟨h', hF, hp, rfl⟩ := holds_pointsTo_mul.mp hh
  have hmem : p ∈ single p b ∪ h' := Finmap.mem_union.mpr (.inl (mem_single.mpr rfl))
  unfold free
  simp only [if_pos hmem, erase_single_union hp]
  show (fact True * 1 * F).Holds h'
  rwa [mul_one, fact_of trivial, one_mul]

theorem access_returns {p : Nat} {b b' : β} {f : β → Option (γ × β)} {c : γ}
    (hf : f b = some (c, b')) :
    Returns (pointsTo p b) (access (some p) f) c (pointsTo p b') := by
  intro F h hh
  obtain ⟨h', hF, hp, rfl⟩ := holds_pointsTo_mul.mp hh
  unfold access
  simp only [Option.bind_some, lookup_single_union, hf, Option.map_some, insert_single_union]
  show (fact (c = c) * pointsTo p b' * F).Holds _
  rw [mul_assoc]
  exact holds_fact_mul.mpr ⟨rfl, holds_pointsTo_mul.mpr ⟨h', hF, hp, rfl⟩⟩

/-! ### Faults -/

theorem Faults.bind (hm : Faults P m) : Faults P (m >>= k) := by
  intro F h hh
  rw [bind_apply, hm F h hh]
  rfl

theorem Faults.frame (hm : Faults P m) (F : Assertion β) : Faults (P * F) m := fun G h hh =>
  hm (F * G) h (by rwa [mul_assoc] at hh)

theorem Faults.bot : Faults ⊥ m := by
  intro F h hh
  rw [Quantale.bot_mul] at hh
  exact hh.elim

theorem Faults.of_iSup {ι : Sort v} {G : ι → Assertion β} (hm : ∀ x, Faults (G x) m) :
    Faults (⨆ x, G x) m := by
  intro F h hh
  rw [iSup_mul_eq, holds_iSup] at hh
  obtain ⟨x, hx⟩ := hh
  exact hm x F h hx

/-- A fault in what follows a program that returns `v`. -/
theorem Returns.faults (hr : Returns P m v R) (hk : Faults R (k v)) : Faults P (m >>= k) := by
  intro F h hh
  have hends := hr F h hh
  rw [bind_apply]
  cases hm : m h with
  | ok r =>
    rw [hm] at hends
    have hpost : (fact (r.1 = v) * R * F).Holds r.2 := hends
    rw [mul_assoc] at hpost
    obtain ⟨hv, hR⟩ := holds_fact_mul.mp hpost
    rw [← hv] at hk
    exact hk F r.2 hR
  | error stop =>
    rw [hm] at hends
    cases stop with
    | exited h' =>
      have hnone : (⊥ * F : Assertion β).Holds h' := hends
      rw [Quantale.bot_mul] at hnone
      exact hnone.elim
    | fault => rfl

end

/-! ## Data structures -/

/-- Calls on values, one after another; nothing where one of them is not allowed. -/
def callAll {σ κ ρ : Type} (f : κ → σ → Option (ρ × σ)) : List κ → σ → Option (List ρ × σ)
  | [], s => some ([], s)
  | c :: cs, s => (f c s).bind fun r => (callAll f cs r.2).map fun rs => (r.1 :: rs.1, rs.2)

/-- Calls on a heap, one after another. -/
def runAll {β τ κ ρ : Type} (m : κ → τ → Prog β (ρ × τ)) : List κ → τ → Prog β (List ρ × τ)
  | [], t => pure ([], t)
  | c :: cs, t => do
    let r ← m c t
    let rs ← runAll m cs r.2
    pure (r.1 :: rs.1, rs.2)

/-- Wherever `P` holds of a part of the heap, the program makes a fault, if it does not call
`exit` before. -/
def Crashes {α β : Type} (E : Heap β → Assertion β) (P : Assertion β) (m : Prog β α) : Prop :=
  ∀ F h, (P * F).Holds h →
    m h = .error .fault ∨ ∃ h', m h = .error (.exited h') ∧ (E h' * F).Holds h'

/-- **A data structure**: `R s t` is the memory of the value `s` for a user with the pointers
`t`. On it each call returns what it returns on values, and makes a fault where it is not
allowed. The memory at an exit is as `E s` says. -/
structure Implements {β σ τ κ ρ : Type} (E : σ → Heap β → Assertion β) (R : σ → τ → Assertion β)
    (m : κ → τ → Prog β (ρ × τ)) (f : κ → σ → Option (ρ × σ)) : Prop where
  returns : ∀ {c s r} t, f c s = some r →
    Triple (E s) (R s t) (m c t) fun a => fact (a.1 = r.1) * R r.2 a.2
  faults : ∀ {c s} t, f c s = none → Faults (R s t) (m c t)

/-- The memory at an exit in one of the calls: the ones before have been allowed. -/
def exitAll {β σ κ ρ : Type} (f : κ → σ → Option (ρ × σ)) (E : σ → Heap β → Assertion β)
    (cs : List κ) (s : σ) : Heap β → Assertion β :=
  ⨆ (pre : List κ) (r : List ρ × σ) (_ : pre <+: cs ∧ callAll f pre s = some r), E r.2

section
variable {α β γ σ τ κ ρ : Type} {E : Heap β → Assertion β} {P : Assertion β} {m : Prog β α}
  {k : α → Prog β γ} {Q : α → Assertion β} {E' : Heap β → Assertion β} {P' : Assertion β}
  {X : σ → Heap β → Assertion β} {R : σ → τ → Assertion β} {prog : κ → τ → Prog β (ρ × τ)}
  {f : κ → σ → Option (ρ × σ)} {c : κ} {cs : List κ} {s : σ}

theorem Faults.crashes (hm : Faults P m) : Crashes E P m := fun F h hh => .inl (hm F h hh)

theorem Crashes.bind (hm : Crashes E P m) : Crashes E P (m >>= k) := by
  intro F h hh
  rw [bind_apply]
  rcases hm F h hh with hfault | ⟨h', hexit, he⟩
  · rw [hfault]
    exact .inl rfl
  · rw [hexit]
    exact .inr ⟨h', rfl, he⟩

theorem Crashes.of_fact {φ : Prop} (hm : φ → Crashes E P m) : Crashes E (fact φ * P) m := by
  intro F h hh
  rw [mul_assoc, holds_fact_mul] at hh
  exact hm hh.1 F h hh.2

theorem Crashes.conseq (hm : Crashes E P m) (hE : E ≤ E') (hp : P' ≤ P) : Crashes E' P' m := by
  intro F h hh
  refine (hm F h (le_def.mp (mul_le_mul_left hp F) h hh)).imp_right fun ⟨h', hexit, he⟩ => ?_
  exact ⟨h', hexit, le_def.mp (mul_le_mul_left (hE h') F) h' he⟩

/-- A crash of a program that needs no memory. -/
theorem Crashes.run (hm : Crashes E 1 m) (h : Heap β) :
    m h = .error .fault ∨ ∃ part, m h = .error (.exited (part ∪ h)) ∧ part.Disjoint h ∧
      (E (part ∪ h)).Holds part := by
  refine (hm _ h (one_beside h)).imp_right fun ⟨h', hexit, he⟩ => ?_
  obtain ⟨part, rfl, hd, hpart⟩ := exists_part he
  exact ⟨part, hexit, hd, hpart⟩

/-- A crash in what follows a program. -/
theorem Triple.crashes (ht : Triple E P m Q) (hk : ∀ a, Crashes E (Q a) (k a)) :
    Crashes E P (m >>= k) := by
  intro F h hh
  have hends := ht F h hh
  rw [bind_apply]
  cases hm : m h with
  | ok r =>
    rw [hm] at hends
    exact hk r.1 F r.2 hends
  | error stop =>
    rw [hm] at hends
    cases stop with
    | exited h' => exact .inr ⟨h', rfl, hends⟩
    | fault => exact hends.elim

theorem le_exitAll : X s ≤ exitAll f X cs s :=
  le_iSup₂_of_le [] ([], s) (le_iSup_of_le ⟨List.nil_prefix, rfl⟩ le_rfl)

theorem exitAll_cons_le {r : ρ × σ} (hc : f c s = some r) :
    exitAll f X cs r.2 ≤ exitAll f X (c :: cs) s := by
  refine iSup₂_le fun pre r' => iSup_le fun ⟨hpre, hcalls⟩ => ?_
  refine le_iSup₂_of_le (c :: pre) (r.1 :: r'.1, r'.2) (le_iSup_of_le ⟨?_, ?_⟩ le_rfl)
  · exact (List.prefix_cons_inj c).mpr hpre
  · rw [callAll, hc, Option.bind_some, hcalls, Option.map_some]

/-- **Calls that are allowed** return what they return on values. -/
theorem Implements.runAll_returns (hi : Implements X R prog f) {r : List ρ × σ} (t : τ)
    (h : callAll f cs s = some r) :
    Triple (exitAll f X cs s) (R s t) (runAll prog cs t)
      fun a => fact (a.1 = r.1) * R r.2 a.2 := by
  induction cs generalizing s t r with
  | nil =>
    cases h
    refine Triple.pure ?_
    rw [fact_of rfl, one_mul]
  | cons c cs ih =>
    obtain ⟨r₁, hc, h⟩ := Option.bind_eq_some_iff.mp h
    obtain ⟨r₂, hcs, rfl⟩ := Option.map_eq_some_iff.mp h
    refine ((hi.returns t hc).weaken le_exitAll).bind fun a => Triple.of_fact fun ha => ?_
    refine ((ih a.2 hcs).weaken (exitAll_cons_le hc)).bind fun b => Triple.of_fact fun hb => ?_
    refine Triple.pure ?_
    rw [fact_of (by rw [ha, hb]), one_mul]

/-- **A call that is not allowed** makes a fault, whatever calls came before. -/
theorem Implements.runAll_crashes (hi : Implements X R prog f) (t : τ)
    (h : callAll f cs s = none) :
    Crashes (exitAll f X cs s) (R s t) (runAll prog cs t) := by
  induction cs generalizing s t with
  | nil => cases h
  | cons c cs ih =>
    cases hc : f c s with
    | none => exact (hi.faults t hc).crashes.bind
    | some r =>
      rw [callAll, hc, Option.bind_some, Option.map_eq_none_iff] at h
      refine ((hi.returns t hc).weaken le_exitAll).crashes fun a => Crashes.of_fact fun _ => ?_
      exact ((ih a.2 h).conseq (exitAll_cons_le hc) le_rfl).bind

end

end Heap
