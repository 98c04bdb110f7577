import Mathlib.Logic.Relation
import WireStorm.Lib.Transition

/-!
# Mutexes

A mutex is held by the thread in its critical section (`Mutex.Guards`), and a thread that
takes it, gives it back or leaves it alone keeps that so (`Mutex.Guards.step`).

Threads that hold several mutexes take them in the order of a rank (`Mutex.Discipline`). Then
the threads that wait for each other form no cycle (`Mutex.InOrder.acyclic`), and where a
thread that holds a mutex and need not wait has a step that brings it closer to giving its
mutexes back, every mutex becomes free by steps of threads that hold one of at least its
rank (`Mutex.Discipline.exists_free`), and a thread gets its work done
(`Mutex.Discipline.exists_done`). A system with more state inherits the order
(`Mutex.Discipline.lift`).
-/

universe u v w x

namespace Mutex

variable {τ : Type u} {ρ : Type v} {σ : Type w} {ℓ : Type x}

/-! ## The owner of a mutex -/

/-- The owner of a mutex is the thread inside its critical section, and no other is inside. -/
def Guards (owner : Option τ) (inside : τ → Bool) : Prop := ∀ t, owner = some t ↔ inside t = true

/-- What a step of thread `t` does to a mutex, with whether it is inside before and after. -/
inductive Move (t : τ) (owner owner' : Option τ) (before after : Bool) : Prop
  | keep (howner : owner' = owner) (h : after = before)
  | take (hfree : owner = none) (howner : owner' = some t) (h : after = true)
  | give (howner : owner' = none) (hbefore : before = true) (h : after = false)

section
variable {owner owner' : Option τ} {inside inside' : τ → Bool} {t u : τ}

/-- **Mutual exclusion**. -/
theorem Guards.exclusive (h : Guards owner inside) (ht : inside t = true)
    (hu : inside u = true) : t = u :=
  Option.some.inj (((h t).mpr ht).symm.trans ((h u).mpr hu))

theorem Guards.free (h : Guards owner inside) : owner = none ↔ ∀ t, inside t = false := by
  rw [Option.eq_none_iff_forall_ne_some]
  exact forall_congr' fun t => by rw [ne_eq, h t, Bool.not_eq_true]

/-- One thread steps; the others are where they were. -/
theorem Guards.step (h : Guards owner inside) (hmove : Move t owner owner' (inside t) (inside' t))
    (hothers : ∀ u, u ≠ t → inside' u = inside u) : Guards owner' inside' := by
  intro u
  by_cases hu : u = t
  · subst hu
    cases hmove with
    | keep howner hsame => rw [howner, hsame, h u]
    | take hfree howner hin => simp [howner, hin]
    | give howner hbefore hout => simp [howner, hout]
  · rw [hothers u hu]
    cases hmove with
    | keep howner hsame => rw [howner, h u]
    | take hfree howner hin =>
      have hout := h u
      rw [hfree] at hout
      rw [howner, ← hout]
      simp [Ne.symm hu]
    | give howner hbefore hout =>
      have hout' := h u
      rw [(h t).mpr hbefore] at hout'
      rw [howner, ← hout']
      simp [Ne.symm hu]

end

/-! ## The order of mutexes -/

/-- `t` waits for a mutex that `u` holds. -/
def WaitsFor (owner : ρ → Option τ) (wants : τ → Option ρ) (t u : τ) : Prop :=
  ∃ r, wants t = some r ∧ owner r = some u

/-- A thread waits for a mutex only with mutexes of lower ranks held. -/
def InOrder (owner : ρ → Option τ) (wants : τ → Option ρ) (rank : ρ → Nat) : Prop :=
  ∀ t r r', wants t = some r → owner r' = some t → rank r' < rank r

section
variable {owner : ρ → Option τ} {wants : τ → Option ρ} {rank : ρ → Nat} {t u : τ} {r : ρ}

/-- Behind a wait for a mutex are holders of mutexes of at least its rank. -/
theorem InOrder.rank_le (h : InOrder owner wants rank)
    (hwaits : Relation.TransGen (WaitsFor owner wants) t u) (hwants : wants t = some r) :
    ∃ r', owner r' = some u ∧ rank r ≤ rank r' := by
  induction hwaits with
  | single hwait =>
    obtain ⟨r', hr', howner⟩ := hwait
    cases hwants.symm.trans hr'
    exact ⟨r, howner, Nat.le_refl _⟩
  | tail _ hwait ih =>
    obtain ⟨r₁, howner₁, hle⟩ := ih
    obtain ⟨r₂, hwants₂, howner₂⟩ := hwait
    exact ⟨r₂, howner₂, Nat.le_trans hle (Nat.le_of_lt (h _ _ _ hwants₂ howner₁))⟩

/-- **No deadlock**: no thread waits for itself, through any number of others. -/
theorem InOrder.acyclic (h : InOrder owner wants rank) (t : τ) :
    ¬Relation.TransGen (WaitsFor owner wants) t t := by
  intro hwaits
  obtain ⟨u, ⟨r, hwants, -⟩, -⟩ := Relation.TransGen.head'_iff.mp hwaits
  obtain ⟨r', howner, hle⟩ := h.rank_le hwaits hwants
  exact absurd (h _ _ _ hwants howner) (Nat.not_lt_of_le hle)

end

/-- Threads that take mutexes in the order of their rank, in the states of `I`: `wants` is the
mutex that the next step of a thread takes, and `left` bounds the steps after which it holds
none. -/
structure Discipline (T : LTS σ ℓ) (tid : ℓ → Option τ) (owner : σ → ρ → Option τ)
    (wants : σ → τ → Option ρ) (left : σ → τ → Nat) (rank : ρ → Nat) (I : σ → Prop) : Prop where
  inOrder : ∀ s, I s → InOrder (owner s) (wants s) rank
  progress : ∀ s t r, I s → owner s r = some t →
    (∀ r', wants s t = some r' → owner s r' = none) →
      ∃ l s', tid l = some t ∧ T.step s l s' ∧ I s' ∧ left s' t < left s t
  frame : ∀ s l s' t u, I s → T.step s l s' → tid l = some u → u ≠ t →
    wants s' t = wants s t ∧ left s' t = left s t ∧
      ∀ r, owner s' r = some t ↔ owner s r = some t

/-- A step of a thread that holds a mutex of at least the rank `n`. -/
def HolderStep (tid : ℓ → Option τ) (owner : σ → ρ → Option τ) (rank : ρ → Nat) (I : σ → Prop)
    (n : Nat) (s : σ) (l : ℓ) (_ : σ) : Prop :=
  I s ∧ ∃ t r, tid l = some t ∧ owner s r = some t ∧ n ≤ rank r

/-- A step of a thread other than `t` that holds a mutex. -/
def OthersStep (tid : ℓ → Option τ) (owner : σ → ρ → Option τ) (I : σ → Prop) (t : τ) (s : σ)
    (l : ℓ) (_ : σ) : Prop :=
  I s ∧ ∃ u r, tid l = some u ∧ u ≠ t ∧ owner s r = some u

namespace Discipline

variable {T : LTS σ ℓ} {tid : ℓ → Option τ} {owner : σ → ρ → Option τ} {wants : σ → τ → Option ρ}
  {left : σ → τ → Nat} {rank : ρ → Nat} {I : σ → Prop} {s s' : σ} {t u : τ} {r : ρ} {n : Nat}

/-- A thread that holds no mutex of at least the rank `n` is left alone while holders of such
mutexes step. -/
theorem frame_steps (h : Discipline T tid owner wants left rank I)
    (hs : T.Steps (HolderStep tid owner rank I n) s s')
    (hlow : ∀ r, owner s r = some t → rank r < n) :
    T.Steps (OthersStep tid owner I t) s s' ∧ wants s' t = wants s t ∧ left s' t = left s t ∧
      ∀ r, owner s' r = some t ↔ owner s r = some t := by
  induction hs with
  | refl => exact ⟨.refl _, rfl, rfl, fun _ => Iff.rfl⟩
  | tail _ hc hstep ih =>
    obtain ⟨hsteps, hwants, hleft, howner⟩ := ih
    obtain ⟨hI, u, r, htid, hu, hle⟩ := hc
    have hne : u ≠ t := by
      rintro rfl
      exact absurd (hlow r ((howner r).mp hu)) (Nat.not_lt_of_le hle)
    obtain ⟨hwants', hleft', howner'⟩ := h.frame _ _ _ t u hI hstep htid hne
    exact ⟨.tail hsteps ⟨hI, u, r, htid, hne, hu⟩ hstep, hwants'.trans hwants,
      hleft'.trans hleft, fun r => (howner' r).trans (howner r)⟩

/-- **Every mutex becomes free**, by steps of threads that hold one of at least its rank. -/
theorem exists_free (h : Discipline T tid owner wants left rank I) {bound : Nat}
    (hbound : ∀ r, rank r < bound) (r : ρ) (hs : I s) :
    ∃ s', T.Steps (HolderStep tid owner rank I (rank r)) s s' ∧ I s' ∧ owner s' r = none := by
  induction hn : bound - rank r using Nat.strongRecOn generalizing r s with
  | ind n ih =>
    cases howner : owner s r with
    | none => exact ⟨s, .refl s, hs, howner⟩
    | some t =>
      induction hk : left s t using Nat.strongRecOn generalizing s with
      | ind k ihk =>
        -- what the owner waits for becomes free first
        obtain ⟨s₁, hsteps, hI, hwait, hleft, howner₁⟩ : ∃ s₁,
            T.Steps (HolderStep tid owner rank I (rank r)) s s₁ ∧ I s₁ ∧
              (∀ r', wants s₁ t = some r' → owner s₁ r' = none) ∧ left s₁ t = left s t ∧
                owner s₁ r = some t := by
          cases hwants : wants s t with
          | none => exact ⟨s, .refl s, hs, by simp [hwants], rfl, howner⟩
          | some r' =>
            have hlt := h.inOrder _ hs _ _ _ hwants howner
            obtain ⟨s₁, hsteps, hI, hfree⟩ := ih (bound - rank r')
              (by have := hbound r'; omega) r' hs rfl
            obtain ⟨-, hwants₁, hleft, howner₁⟩ := h.frame_steps hsteps fun r'' hr'' =>
              h.inOrder _ hs _ _ _ hwants hr''
            have hmono : ∀ s l s', HolderStep tid owner rank I (rank r') s l s' →
                HolderStep tid owner rank I (rank r) s l s' := by
              rintro s l s' ⟨hI, u, r₂, htid, hu, hle⟩
              exact ⟨hI, u, r₂, htid, hu, Nat.le_trans (Nat.le_of_lt hlt) hle⟩
            refine ⟨s₁, hsteps.mono hmono, hI, fun r'' hr'' => ?_, hleft, (howner₁ r).mpr howner⟩
            rw [hwants₁, hwants] at hr''
            cases hr''
            exact hfree
        obtain ⟨l, s₂, htid, hstep, hI₂, hlt⟩ := h.progress _ _ _ hI howner₁ hwait
        have hrun : T.Steps (HolderStep tid owner rank I (rank r)) s s₂ :=
          .tail hsteps ⟨hI, t, r, htid, howner₁, Nat.le_refl _⟩ hstep
        cases howner₂ : owner s₂ r with
        | none => exact ⟨s₂, hrun, hI₂, howner₂⟩
        | some u =>
          have hu : u = t := by
            by_contra hne
            have hold := ((h.frame _ _ _ u t hI hstep htid (Ne.symm hne)).2.2 r).mp howner₂
            exact hne (Option.some.inj (hold.symm.trans howner₁))
          subst hu
          rw [hleft] at hlt
          obtain ⟨s₃, hsteps₃, hI₃, hfree⟩ := ihk (left s₂ u) (hk ▸ hlt) hI₂ howner₂ rfl
          exact ⟨s₃, hrun.trans hsteps₃, hI₃, hfree⟩

/-- A thread that waits for a mutex gets to where the mutex is free, by steps of others. -/
theorem exists_granted (h : Discipline T tid owner wants left rank I) {bound : Nat}
    (hbound : ∀ r, rank r < bound) (hs : I s) (hwants : wants s t = some r) :
    ∃ s', T.Steps (OthersStep tid owner I t) s s' ∧ I s' ∧ owner s' r = none ∧
      wants s' t = some r := by
  obtain ⟨s', hsteps, hI, hfree⟩ := h.exists_free hbound r hs
  obtain ⟨hothers, hwants', -⟩ := h.frame_steps (t := t) hsteps fun r' hr' =>
    h.inOrder _ hs _ _ _ hwants hr'
  exact ⟨s', hothers, hI, hfree, hwants'.trans hwants⟩

/-- **A thread gets its work done**, by steps of its own and of other threads that hold a mutex:
its own steps reach the goal or leave less work to do whenever the mutex that it waits for is
free, and the steps of the others add no work. -/
theorem exists_done (h : Discipline T tid owner wants left rank I) {bound : Nat}
    (hbound : ∀ r, rank r < bound) {J G : σ → Prop} {C : σ → ℓ → σ → Prop} (work : σ → Nat)
    (hothers : ∀ s l s', J s → OthersStep tid owner I t s l s' → T.step s l s' →
      J s' ∧ work s' ≤ work s)
    (hown : ∀ s, I s → J s → (∀ r, wants s t = some r → owner s r = none) →
      G s ∨ ∃ l s', C s l s' ∧ T.step s l s' ∧ (G s' ∨ I s' ∧ J s' ∧ work s' < work s))
    (hI : I s) (hJ : J s) :
    ∃ s', T.Steps (fun s l s' => C s l s' ∨ OthersStep tid owner I t s l s') s s' ∧ G s' := by
  induction hn : work s using Nat.strongRecOn generalizing s with
  | ind n ih =>
    -- the others give back the mutex that the thread waits for
    obtain ⟨s₁, hsteps, hI₁, hfree⟩ : ∃ s₁, T.Steps (OthersStep tid owner I t) s s₁ ∧ I s₁ ∧
        ∀ r, wants s₁ t = some r → owner s₁ r = none := by
      cases hwants : wants s t with
      | none => exact ⟨s, .refl s, hI, by simp [hwants]⟩
      | some r =>
        obtain ⟨s₁, hsteps, hI₁, hfree, hwants₁⟩ := h.exists_granted hbound hI hwants
        refine ⟨s₁, hsteps, hI₁, fun r' hr' => ?_⟩
        cases hwants₁.symm.trans hr'
        exact hfree
    obtain ⟨hJ₁, hle⟩ : J s₁ ∧ work s₁ ≤ work s := by
      refine hsteps.invariant (P := fun s' => J s' ∧ work s' ≤ work s) ?_ ⟨hJ, Nat.le_refl _⟩
      rintro s₁ l s₂ ⟨hJ₁, hle⟩ hc hs
      obtain ⟨hJ₂, hle₂⟩ := hothers s₁ l s₂ hJ₁ hc hs
      exact ⟨hJ₂, Nat.le_trans hle₂ hle⟩
    have hrun := hsteps.mono fun s l s' hc => Or.inr (a := C s l s') hc
    rcases hown s₁ hI₁ hJ₁ hfree with hG | ⟨l, s₂, hC, hs, hG | ⟨hI₂, hJ₂, hlt⟩⟩
    · exact ⟨s₁, hrun, hG⟩
    · exact ⟨s₂, .tail hrun (.inl hC) hs, hG⟩
    · obtain ⟨s', hsteps', hG⟩ := ih (work s₂) (hn ▸ Nat.lt_of_lt_of_le hlt hle) hI₂ hJ₂ rfl
      exact ⟨s', .trans (.tail hrun (.inl hC) hs) hsteps', hG⟩

/-- The threads of a system with more state, whose steps are steps of the smaller system or
leave it alone, and which has the steps of the threads that hold a mutex. -/
theorem lift (h : Discipline T tid owner wants left rank I) {σ' : Type*} {ℓ' : Type*}
    {T' : LTS σ' ℓ'} {tid' : ℓ' → Option τ} {I' : σ' → Prop} (π : σ' → σ) (hI : ∀ f, I' f → I (π f))
    (hstep : ∀ f l f', I' f → T'.step f l f' →
      π f' = π f ∨ ∃ l', T.step (π f) l' (π f') ∧ tid l' = tid' l)
    (hlift : ∀ f t r l s', I' f → owner (π f) r = some t → tid l = some t → T.step (π f) l s' →
      I s' → ∃ l' f', tid' l' = some t ∧ T'.step f l' f' ∧ π f' = s' ∧ I' f') :
    Discipline T' tid' (fun f => owner (π f)) (fun f => wants (π f)) (fun f => left (π f)) rank
      I' where
  inOrder f hf := h.inOrder _ (hI f hf)
  progress := by
    intro f t r hf howner hfree
    obtain ⟨l, s', htid, hs, hIs', hleft⟩ := h.progress _ t r (hI f hf) howner hfree
    obtain ⟨l', f', htid', hs', rfl, hf'⟩ := hlift f t r l s' hf howner htid hs hIs'
    exact ⟨l', f', htid', hs', hf', hleft⟩
  frame := by
    intro f l f' t u hf hs htid hne
    rcases hstep f l f' hf hs with heq | ⟨l', hs', htid'⟩
    · rw [heq]
      exact ⟨rfl, rfl, fun _ => Iff.rfl⟩
    · exact h.frame _ _ _ t u (hI f hf) hs' (htid'.trans htid) hne

end Discipline

end Mutex
