import Mathlib.Data.List.Induction

/-!
# Labelled transition systems

Runs of a labelled transition system whose steps satisfy a side condition
(`LTS.ReachVia`), the invariant rule for them (`LTS.ReachVia.invariant`), and the
facts that survive from one state of a run to every later one
(`LTS.Steps.preserved`). A system given by a partial step function
(`LTS.ofFn`) can be executed on a list of labels (`LTS.execIf`), and what the
execution reaches is reached by a run (`LTS.exists_reachVia`).

An observer sees some steps of a run as events (`LTS.Observed`); the events of one
kind are read back from a log in the state (`LTS.Observed.filterMap_eq`). When the
steps it does not see leave its view of the state alone, and the ones it sees change the
view in a way that depends on the view and the event, two runs with the same
events end with the same view (`LTS.Observed.view_eq`).
-/

universe u v w

/-- Labelled transition system with a set of initial states. -/
structure LTS (σ : Type u) (ℓ : Type v) where
  init : σ → Prop
  step : σ → ℓ → σ → Prop

namespace LTS

variable {σ : Type u} {ℓ : Type v}

/-- The states reached by the runs all of whose steps satisfy `C`. -/
inductive ReachVia (T : LTS σ ℓ) (C : σ → ℓ → σ → Prop) : σ → Prop
  | init {s : σ} (h : T.init s) : ReachVia T C s
  | step {s s' : σ} {l : ℓ} (hr : ReachVia T C s) (hc : C s l s') (h : T.step s l s') :
      ReachVia T C s'

/-- The states reached by any run. -/
def Reachable (T : LTS σ ℓ) : σ → Prop := T.ReachVia fun _ _ _ => True

/-- `s'` comes after `s` in some run all of whose steps from `s` on satisfy `C`. -/
inductive Steps (T : LTS σ ℓ) (C : σ → ℓ → σ → Prop) : σ → σ → Prop
  | refl (s : σ) : Steps T C s s
  | tail {s s' s'' : σ} {l : ℓ} (hr : Steps T C s s') (hc : C s' l s'') (h : T.step s' l s'') :
      Steps T C s s''

variable {T : LTS σ ℓ} {C D : σ → ℓ → σ → Prop}

/-- The system that has only the steps satisfying `C`. -/
def restrict (T : LTS σ ℓ) (C : σ → ℓ → σ → Prop) : LTS σ ℓ where
  init := T.init
  step s l s' := C s l s' ∧ T.step s l s'

theorem ReachVia.mono (hCD : ∀ s l s', C s l s' → D s l s') {s : σ} (h : T.ReachVia C s) :
    T.ReachVia D s := by
  induction h with
  | init h => exact .init h
  | step _ hc h ih => exact .step ih (hCD _ _ _ hc) h

theorem ReachVia.reachable {s : σ} (h : T.ReachVia C s) : T.Reachable s :=
  h.mono fun _ _ _ _ => trivial

/-- **The invariant rule**: what holds initially and is kept by every step
satisfying the side condition holds of every state reached by such steps. -/
theorem ReachVia.invariant {I : σ → Prop} (hinit : ∀ s, T.init s → I s)
    (hstep : ∀ s l s', T.ReachVia C s → I s → C s l s' → T.step s l s' → I s') {s : σ}
    (h : T.ReachVia C s) : I s := by
  induction h with
  | init h => exact hinit _ h
  | step hr hc h ih => exact hstep _ _ _ hr ih hc h

/-- The invariant rule without a side condition. -/
theorem Reachable.invariant {I : σ → Prop} (hinit : ∀ s, T.init s → I s)
    (hstep : ∀ s l s', T.Reachable s → I s → T.step s l s' → I s') {s : σ}
    (h : T.Reachable s) : I s :=
  ReachVia.invariant hinit (fun s l s' hr hi _ hs => hstep s l s' hr hi hs) h

theorem Reachable.of_restrict {s : σ} (h : (T.restrict C).Reachable s) : T.ReachVia C s := by
  induction h with
  | init h => exact .init h
  | step _ _ h ih => exact .step ih h.1 h.2

theorem Steps.reachVia {s s' : σ} (hr : T.ReachVia C s) (h : T.Steps C s s') :
    T.ReachVia C s' := by
  induction h with
  | refl => exact hr
  | tail _ hc hs ih => exact .step ih hc hs

theorem Steps.reachable {s s' : σ} (h : T.Steps C s s') (hr : T.Reachable s) : T.Reachable s' := by
  induction h with
  | refl => exact hr
  | tail _ _ hs ih => exact .step ih trivial hs

theorem Steps.mono (hCD : ∀ s l s', C s l s' → D s l s') {s s' : σ} (h : T.Steps C s s') :
    T.Steps D s s' := by
  induction h with
  | refl => exact .refl _
  | tail _ hc hs ih => exact .tail ih (hCD _ _ _ hc) hs

theorem Steps.trans {s s' s'' : σ} (h : T.Steps C s s') (h' : T.Steps C s' s'') :
    T.Steps C s s'' := by
  induction h' with
  | refl => exact h
  | tail _ hc hs ih => exact .tail ih hc hs

/-- What every step from a reached state keeps still holds in every later state. -/
theorem Steps.preserved {P : σ → Prop} {s s' : σ} (hr : T.ReachVia C s)
    (hstep : ∀ s l s', T.ReachVia C s → P s → C s l s' → T.step s l s' → P s')
    (h : T.Steps C s s') (hp : P s) : P s' := by
  induction h with
  | refl => exact hp
  | tail h hc hs ih => exact hstep _ _ _ (h.reachVia hr) ih hc hs

/-- What every step satisfying the side condition keeps still holds in every later state. -/
theorem Steps.invariant {P : σ → Prop} (hstep : ∀ s l s', P s → C s l s' → T.step s l s' → P s')
    {s s' : σ} (h : T.Steps C s s') (hp : P s) : P s' := by
  induction h with
  | refl => exact hp
  | tail _ hc hs ih => exact hstep _ _ _ ih hc hs

/-- What every step satisfying the side condition keeps can be added to it. -/
theorem Steps.strengthen {P : σ → Prop} (hstep : ∀ s l s', P s → C s l s' → T.step s l s' → P s')
    {s s' : σ} (h : T.Steps C s s') (hp : P s) : T.Steps (fun s l s' => C s l s' ∧ P s) s s' := by
  induction h with
  | refl => exact .refl _
  | tail hsteps hc hs ih => exact .tail ih ⟨hc, hsteps.invariant hstep hp⟩ hs

/-- **The progress rule**: where every state of `I` meets the goal or has a step within `I`
that lowers the rank, the goal is reached. -/
theorem exists_steps_of_rank {I G : σ → Prop} (rank : σ → Nat)
    (hstep : ∀ s, I s → G s ∨ ∃ l s', C s l s' ∧ T.step s l s' ∧ I s' ∧ rank s' < rank s) {s : σ}
    (h : I s) : ∃ s', T.Steps C s s' ∧ G s' := by
  induction hn : rank s using Nat.strongRecOn generalizing s with
  | ind n ih =>
    rcases hstep s h with hg | ⟨l, s₁, hc, hs, h₁, hlt⟩
    · exact ⟨s, .refl s, hg⟩
    · obtain ⟨s', hsteps, hg⟩ := ih (rank s₁) (hn ▸ hlt) h₁ rfl
      exact ⟨s', .trans (.tail (.refl s) hc hs) hsteps, hg⟩

/-! ## Observers -/

section Observed

variable {ε : Type w} {obs : σ → ℓ → Option ε}

/-- The states reached by the runs in which an observer sees the events `es`; of a
step for which `obs` is `none` it sees nothing. -/
inductive Observed (T : LTS σ ℓ) (obs : σ → ℓ → Option ε) : List ε → σ → Prop
  | init {s : σ} (h : T.init s) : Observed T obs [] s
  | step {s s' : σ} {l : ℓ} {es : List ε} (hr : Observed T obs es s) (h : T.step s l s') :
      Observed T obs (es ++ (obs s l).toList) s'

theorem Observed.reachable {es : List ε} {s : σ} (h : T.Observed obs es s) : T.Reachable s := by
  induction h with
  | init h => exact .init h
  | step _ h ih => exact .step ih trivial h

/-- **The history rule**: a log `L` kept in the state, to which every step appends what `f`
takes from the events that an observer sees in it, is what `f` takes from all events. -/
theorem Observed.filterMap_eq {α : Type*} {f : ε → Option α} {L : σ → List α}
    (hinit : ∀ s, T.init s → L s = [])
    (hstep : ∀ s l s', T.Reachable s → T.step s l s' → L s' = L s ++ (obs s l).toList.filterMap f)
    {es : List ε} {s : σ} (h : T.Observed obs es s) : es.filterMap f = L s := by
  induction h with
  | init h => rw [hinit _ h, List.filterMap_nil]
  | step hr hs ih => rw [hstep _ _ _ hr.reachable hs, List.filterMap_append, ih]

variable {V : Type*} {view : σ → V}

/-- The view at the end of a run is the one after the last event. -/
theorem Observed.last_seen
    (hhidden : ∀ s l s', T.Reachable s → T.step s l s' → obs s l = none → view s' = view s)
    {es : List ε} {s : σ} (h : T.Observed obs es s) :
    (es = [] ∧ ∃ s₀, T.init s₀ ∧ view s = view s₀) ∨
      ∃ es' e s₀ l s₁, es = es' ++ [e] ∧ T.Observed obs es' s₀ ∧ T.step s₀ l s₁ ∧
        obs s₀ l = some e ∧ view s = view s₁ := by
  induction h with
  | init h => exact .inl ⟨rfl, _, h, rfl⟩
  | @step s s' l es hr hs ih =>
    cases hobs : obs s l with
    | some e => exact .inr ⟨es, e, s, l, s', rfl, hr, hs, hobs, rfl⟩
    | none =>
      have hview := hhidden s l s' hr.reachable hs hobs
      rw [Option.toList_none, List.append_nil, hview]
      exact ih

/-- **Unwinding**: two runs with the same events end with the same view. -/
theorem Observed.view_eq (hinit : ∀ s t, T.init s → T.init t → view s = view t)
    (hhidden : ∀ s l s', T.Reachable s → T.step s l s' → obs s l = none → view s' = view s)
    (hseen : ∀ s l s' t m t' e, T.Reachable s → T.Reachable t → view s = view t →
      obs s l = some e → obs t m = some e → T.step s l s' → T.step t m t' → view s' = view t')
    {es : List ε} {s t : σ} (hs : T.Observed obs es s) (ht : T.Observed obs es t) :
    view s = view t := by
  induction es using List.reverseRecOn generalizing s t with
  | nil =>
    rcases hs.last_seen hhidden with ⟨-, s₀, hs₀, hs⟩ | ⟨es', e, _, _, _, hes, -⟩
    · rcases ht.last_seen hhidden with ⟨-, t₀, ht₀, ht⟩ | ⟨es', e, _, _, _, hes, -⟩
      · rw [hs, ht]
        exact hinit s₀ t₀ hs₀ ht₀
      · simp at hes
    · simp at hes
  | append_singleton es e ih =>
    rcases hs.last_seen hhidden with ⟨hes, -⟩ | ⟨es₁, e₁, s₀, l, s₁, hes₁, hs₀, hstep, hobs, hs⟩
    · simp at hes
    · rcases ht.last_seen hhidden with ⟨hes, -⟩ | ⟨es₂, e₂, t₀, m, t₁, hes₂, ht₀, htstep, htobs, ht⟩
      · simp at hes
      · obtain ⟨rfl, rfl⟩ := List.append_singleton_inj.mp hes₁
        obtain ⟨rfl, rfl⟩ := List.append_singleton_inj.mp hes₂
        rw [hs, ht]
        exact hseen s₀ l s₁ t₀ m t₁ e hs₀.reachable ht₀.reachable (ih hs₀ ht₀) hobs htobs hstep
          htstep

end Observed

/-! ## Systems given by a step function -/

/-- The system of a partial step function with one initial state. -/
def ofFn (init : σ) (step : σ → ℓ → Option σ) : LTS σ ℓ where
  init s := s = init
  step s l s' := step s l = some s'

/-- The invariant rule for a step function. -/
theorem ReachVia.invariant_ofFn {init : σ} {step : σ → ℓ → Option σ} {I : σ → Prop} (hinit : I init)
    (hstep : ∀ s l s', (ofFn init step).ReachVia C s → I s → C s l s' → step s l = some s' → I s')
    {s : σ} (h : (ofFn init step).ReachVia C s) : I s :=
  h.invariant (fun _ hs => Eq.subst (motive := I) (Eq.symm hs) hinit) hstep

/-- The invariant rule for a step function, without a side condition. -/
theorem Reachable.invariant_ofFn {init : σ} {step : σ → ℓ → Option σ} {I : σ → Prop}
    (hinit : I init) (hstep : ∀ s l s', I s → step s l = some s' → I s') {s : σ}
    (h : (ofFn init step).Reachable s) : I s :=
  ReachVia.invariant_ofFn hinit (fun s l s' _ hi _ hs => hstep s l s' hi hs) h

section Exec

variable (step : σ → ℓ → Option σ) (C : σ → ℓ → σ → Prop) [∀ s l s', Decidable (C s l s')]

/-- Execute the labels in order; `none` when a step is disabled or fails the side
condition. -/
def execIf : σ → List ℓ → Option σ
  | s, [] => some s
  | s, l :: ls =>
    match step s l with
    | none => none
    | some s' => if C s l s' then execIf s' ls else none

variable {step C}

/-- An execution is a run. -/
theorem steps_of_execIf {init s₀ : σ} :
    ∀ {s : σ} {ls : List ℓ} {s' : σ}, (ofFn init step).Steps C s₀ s →
      execIf step C s ls = some s' → (ofFn init step).Steps C s₀ s'
  | s, [], s', hr, h => by
    simp only [execIf, Option.some.injEq] at h
    exact h ▸ hr
  | s, l :: ls, s', hr, h => by
    simp only [execIf] at h
    split at h
    · cases h
    · rename_i s₁ hs
      split at h
      · rename_i hc
        exact steps_of_execIf (.tail hr hc hs) h
      · cases h

variable (step C)

/-- What holds at the end of an execution holds of a reached state. -/
theorem exists_reachVia (init : σ) (ls : List ℓ) (p : σ → Bool)
    (h : (execIf step C init ls).any p = true) :
    ∃ s, (ofFn init step).ReachVia C s ∧ p s = true := by
  cases hs : execIf step C init ls with
  | none =>
    rw [hs] at h
    cases h
  | some s =>
    rw [hs] at h
    exact ⟨s, (steps_of_execIf (.refl _) hs).reachVia (.init rfl), h⟩

omit [∀ s l s', Decidable (C s l s')] in
/-- What holds at the end of an execution holds of a reachable state. -/
theorem exists_reachable (init : σ) (ls : List ℓ) (p : σ → Bool)
    (h : (execIf step (fun _ _ _ => True) init ls).any p = true) :
    ∃ s, (ofFn init step).Reachable s ∧ p s = true :=
  exists_reachVia step (fun _ _ _ => True) init ls p h

/-- The events that an observer sees in an execution. -/
def seen {ε : Type w} (obs : σ → ℓ → Option ε) : σ → List ℓ → List ε
  | _, [] => []
  | s, l :: ls =>
    match step s l with
    | none => []
    | some s' => (obs s l).toList ++ seen obs s' ls

omit [∀ s l s', Decidable (C s l s')] in
theorem observed_of_execIf {ε : Type w} {obs : σ → ℓ → Option ε} {init : σ} :
    ∀ {s : σ} {ls : List ℓ} {es : List ε} {s' : σ}, (ofFn init step).Observed obs es s →
      execIf step (fun _ _ _ => True) s ls = some s' →
        (ofFn init step).Observed obs (es ++ seen step obs s ls) s'
  | s, [], es, s', hr, h => by
    simp only [execIf, Option.some.injEq] at h
    rw [seen, List.append_nil]
    exact h ▸ hr
  | s, l :: ls, es, s', hr, h => by
    simp only [execIf, if_true] at h
    split at h
    · cases h
    · rename_i s₁ hs
      rw [seen, hs, ← List.append_assoc]
      exact observed_of_execIf (.step hr hs) h

omit [∀ s l s', Decidable (C s l s')] in
/-- What holds at the end of an execution holds after the events seen in it. -/
theorem exists_observed {ε : Type w} (obs : σ → ℓ → Option ε) (init : σ) (ls : List ℓ)
    (p : σ → Bool) (h : (execIf step (fun _ _ _ => True) init ls).any p = true) :
    ∃ s, (ofFn init step).Observed obs (seen step obs init ls) s ∧ p s = true := by
  cases hs : execIf step (fun _ _ _ => True) init ls with
  | none =>
    rw [hs] at h
    cases h
  | some s =>
    rw [hs] at h
    exact ⟨s, observed_of_execIf step (.init rfl) hs, h⟩

end Exec

end LTS
