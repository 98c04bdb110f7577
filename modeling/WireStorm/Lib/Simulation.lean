import WireStorm.Lib.Transition

/-!
# Forward simulations

A concrete system is simulated by an abstract one (`LTS.Simulates`) when each of its
steps is matched by a path of the abstract system on which an observer sees the same
(`LTS.Path`). Then what is seen of a run of the concrete system is seen of a run of the
abstract one (`Simulates.observed`), so an abstract system on whose runs something is
always true of what is seen says the same of the concrete runs. Simulations compose
(`Simulates.trans`). A log kept in the state of a system is what it takes from the events of
its run (`Observed.flatMap_eq`).
-/

universe u₁ u₂ u₃ v₁ v₂ v₃ w

namespace LTS

variable {σ : Type u₁} {τ : Type u₂} {υ : Type u₃} {ℓ : Type v₁} {m : Type v₂} {k : Type v₃}
  {ε : Type w}

/-! ## Paths -/

/-- The steps from one state to another in which an observer sees the events `es`. -/
inductive Path (T : LTS σ ℓ) (obs : σ → ℓ → Option ε) (s : σ) : List ε → σ → Prop
  | refl : Path T obs s [] s
  | tail {s' s'' : σ} {l : ℓ} {es : List ε} (hp : Path T obs s es s') (h : T.step s' l s'') :
      Path T obs s (es ++ (obs s' l).toList) s''

section
variable {T : LTS σ ℓ} {obs : σ → ℓ → Option ε} {s s' s'' : σ} {l : ℓ} {e : ε} {es es' : List ε}

theorem Path.trans (h : T.Path obs s es s') (h' : T.Path obs s' es' s'') :
    T.Path obs s (es ++ es') s'' := by
  induction h' with
  | refl => rwa [List.append_nil]
  | tail _ hs ih =>
    rw [← List.append_assoc]
    exact .tail ih hs

/-- One step as a path. -/
theorem Path.single (h : T.step s l s') : T.Path obs s (obs s l).toList s' :=
  Path.refl.tail h

/-- A step that is seen. -/
theorem Path.visible (h : T.step s l s') (hobs : obs s l = some e) : T.Path obs s [e] s' := by
  have hpath : T.Path obs s (obs s l).toList s' := .single h
  rwa [hobs] at hpath

/-- A step that is not seen. -/
theorem Path.hidden (h : T.step s l s') (hobs : obs s l = none) : T.Path obs s [] s' := by
  have hpath : T.Path obs s (obs s l).toList s' := .single h
  rwa [hobs] at hpath

theorem Observed.append_path (h : T.Observed obs es s) (hp : T.Path obs s es' s') :
    T.Observed obs (es ++ es') s' := by
  induction hp with
  | refl => rwa [List.append_nil]
  | tail _ hs ih =>
    rw [← List.append_assoc]
    exact .step ih hs

theorem Reachable.append_path (h : T.Reachable s) (hp : T.Path obs s es s') : T.Reachable s' := by
  induction hp with
  | refl => exact h
  | tail _ hs ih => exact .step ih trivial hs

/-- What a step appends to a log `L` is what `f` takes from the event seen in it, so the log is
what `f` takes from all events. -/
theorem Observed.flatMap_eq {α : Type*} {f : ε → List α} {L : σ → List α}
    (hinit : ∀ s, T.init s → L s = [])
    (hstep : ∀ s l s', T.step s l s' → L s' = L s ++ (obs s l).toList.flatMap f)
    (h : T.Observed obs es s) : es.flatMap f = L s := by
  induction h with
  | init h => rw [hinit _ h, List.flatMap_nil]
  | step _ hs ih => rw [hstep _ _ _ hs, List.flatMap_append, ih]

end

/-! ## Simulations -/

/-- `A` simulates `T` along `R`: every initial state of `T` is related to one of `A`, and
every step of `T` from a reachable state to a path of `A` with the same events. -/
structure Simulates (T : LTS σ ℓ) (obs : σ → ℓ → Option ε) (A : LTS τ m)
    (obsA : τ → m → Option ε) (R : σ → τ → Prop) : Prop where
  init : ∀ s, T.init s → ∃ t, A.init t ∧ R s t
  step : ∀ s l s' t, T.Reachable s → R s t → T.step s l s' →
    ∃ t', A.Path obsA t (obs s l).toList t' ∧ R s' t'

section
variable {T : LTS σ ℓ} {obs : σ → ℓ → Option ε} {A : LTS τ m} {obsA : τ → m → Option ε}
  {R : σ → τ → Prop} {B : LTS υ k} {obsB : υ → k → Option ε} {Q : τ → υ → Prop}

/-- **What is seen** of a run of the concrete system is seen of a run of the abstract one. -/
theorem Simulates.observed (h : T.Simulates obs A obsA R) {es : List ε} {s : σ}
    (hs : T.Observed obs es s) : ∃ t, A.Observed obsA es t ∧ R s t := by
  induction hs with
  | init hs =>
    obtain ⟨t, ht, hR⟩ := h.init _ hs
    exact ⟨t, .init ht, hR⟩
  | step hr hs ih =>
    obtain ⟨t, ht, hR⟩ := ih
    obtain ⟨t', hpath, hR'⟩ := h.step _ _ _ t hr.reachable hR hs
    exact ⟨t', ht.append_path hpath, hR'⟩

theorem Simulates.reachable (h : T.Simulates obs A obsA R) {s : σ} (hs : T.Reachable s) :
    ∃ t, A.Reachable t ∧ R s t := by
  induction hs with
  | init hs =>
    obtain ⟨t, ht, hR⟩ := h.init _ hs
    exact ⟨t, .init ht, hR⟩
  | step hr _ hs ih =>
    obtain ⟨t, ht, hR⟩ := ih
    obtain ⟨t', hpath, hR'⟩ := h.step _ _ _ t hr hR hs
    exact ⟨t', ht.append_path hpath, hR'⟩

/-- A path of the simulated system is matched by a path of the other. -/
theorem Simulates.path (h : T.Simulates obs A obsA R) {s s' : σ} {t : τ} {es : List ε}
    (hs : T.Reachable s) (hR : R s t) (hp : T.Path obs s es s') :
    ∃ t', A.Path obsA t es t' ∧ R s' t' := by
  induction hp with
  | refl => exact ⟨t, .refl, hR⟩
  | tail hp hs' ih =>
    obtain ⟨t₁, hpath, hR₁⟩ := ih
    obtain ⟨t', hpath', hR'⟩ := h.step _ _ _ t₁ (hs.append_path hp) hR₁ hs'
    exact ⟨t', hpath.trans hpath', hR'⟩

/-- **Simulations compose**. -/
theorem Simulates.trans (h : T.Simulates obs A obsA R) (h' : A.Simulates obsA B obsB Q) :
    T.Simulates obs B obsB fun s u => ∃ t, A.Reachable t ∧ R s t ∧ Q t u where
  init s hs := by
    obtain ⟨t, ht, hR⟩ := h.init s hs
    obtain ⟨u, hu, hQ⟩ := h'.init t ht
    exact ⟨u, hu, t, .init ht, hR, hQ⟩
  step := by
    rintro s l s' u hr ⟨t, ht, hR, hQ⟩ hs
    obtain ⟨t', hpath, hR'⟩ := h.step s l s' t hr hR hs
    obtain ⟨u', hpath', hQ'⟩ := h'.path ht hQ hpath
    exact ⟨u', hpath', t', ht.append_path hpath, hR', hQ'⟩

end

end LTS
