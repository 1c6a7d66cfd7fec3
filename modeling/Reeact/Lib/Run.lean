import Mathlib.Data.List.Basic
import Mathlib.Tactic.Common

/-!
# Runs of a labelled transition relation

A step carries the LIST of events it emits (empty for a silent step), so
the trace of a run is one flat list of events and a history quantity —
how often, how many since — is a fold over that list. Nothing here
mentions a particular system.
-/

namespace Transition

variable {σ ε α : Type*}

/-- Finite runs from `s₀`, with the emitted events in order. -/
inductive Run (step : σ → List ε → σ → Prop) (s₀ : σ) : List ε → σ → Prop
  | nil : Run step s₀ [] s₀
  | snoc {tr : List ε} {s : σ} {es : List ε} {s' : σ} :
      Run step s₀ tr s → step s es s' → Run step s₀ (tr ++ es) s'

namespace Run

variable {step : σ → List ε → σ → Prop} {s₀ s s' : σ} {tr tr' es : List ε}

theorem single (h : step s es s') : Run step s es s' := by
  simpa using Run.snoc .nil h

theorem append (h : Run step s₀ tr s) (h' : Run step s tr' s') :
    Run step s₀ (tr ++ tr') s' := by
  induction h' with
  | nil => simpa using h
  | snoc _ hs ih => simpa [List.append_assoc] using ih.snoc hs

/-- **The invariant rule.** What holds of the empty run and survives every
step taken after a run holds of every run, its trace included. -/
theorem invariant {P : List ε → σ → Prop} (h0 : P [] s₀)
    (hstep : ∀ tr s es s', Run step s₀ tr s → P tr s → step s es s' →
      P (tr ++ es) s')
    (h : Run step s₀ tr s) : P tr s := by
  induction h with
  | nil => exact h0
  | snoc hr hs ih => exact hstep _ _ _ _ hr ih hs

/-- A run of a finer relation is a run of a coarser one. -/
theorem mono {step' : σ → List ε → σ → Prop}
    (hsub : ∀ s es s', step s es s' → step' s es s') (h : Run step s₀ tr s) :
    Run step' s₀ tr s := by
  induction h with
  | nil => exact .nil
  | snoc _ hs ih => exact ih.snoc (hsub _ _ _ hs)

/-- **The simulation rule, with events left out.** If every step from related
states is matched by a run with the same events of the kind `vis`, then so is
every run. The match may take no step, or several. -/
theorem simulation {τ : Type*} (step' : τ → List ε → τ → Prop) {s₀' : τ} (vis : ε → Bool)
    (R : σ → τ → Prop)
    (hstep : ∀ s es s' r, R s r → step s es s' →
      ∃ es' r', Run step' r es' r' ∧ R s' r' ∧ es'.filter vis = es.filter vis)
    (h0 : R s₀ s₀') (h : Run step s₀ tr s) :
    ∃ tr' r, Run step' s₀' tr' r ∧ R s r ∧ tr'.filter vis = tr.filter vis := by
  induction h with
  | nil => exact ⟨[], s₀', .nil, h0, rfl⟩
  | snoc _ hs ih =>
      obtain ⟨tr', r, hr, hR, hvis⟩ := ih
      obtain ⟨es', r', hr', hR', hvis'⟩ := hstep _ _ _ _ hR hs
      refine ⟨tr' ++ es', r', hr.append hr', hR', ?_⟩
      rw [List.filter_append, List.filter_append, hvis, hvis']

/-- **The refinement rule.** If every step taken after a run, from related
states, is matched by a run over what `view` shows of its events, then so is
every run. -/
theorem refinement {τ δ : Type*} (step' : τ → List δ → τ → Prop) {s₀' : τ}
    (view : ε → Option δ) (R : σ → τ → Prop)
    (hstep : ∀ tr s es s' r, Run step s₀ tr s → R s r → step s es s' →
      ∃ r', Run step' r (es.filterMap view) r' ∧ R s' r')
    (h0 : R s₀ s₀') (h : Run step s₀ tr s) :
    ∃ r, Run step' s₀' (tr.filterMap view) r ∧ R s r := by
  induction h with
  | nil => exact ⟨s₀', .nil, h0⟩
  | snoc hr hs ih =>
      obtain ⟨r, hr', hR⟩ := ih
      obtain ⟨r', hs', hR'⟩ := hstep _ _ _ _ _ hr hR hs
      refine ⟨r', ?_, hR'⟩
      rw [List.filterMap_append]
      exact hr'.append hs'

end Run

/-! ## Executable schedules -/

/-- Follow a list of actions through a step function, collecting the events;
`none` as soon as an action is not enabled. -/
def exec (next : σ → α → Option (σ × List ε)) : σ → List α → Option (σ × List ε)
  | s, [] => some (s, [])
  | s, a :: as => do
      let (s₁, es) ← next s a
      let (s₂, es') ← exec next s₁ as
      pure (s₂, es ++ es')

/-- The relation a step function computes: some action does it. -/
def Does (next : σ → α → Option (σ × List ε)) (s : σ) (es : List ε) (s' : σ) :
    Prop :=
  ∃ a, next s a = some (s', es)

theorem exec_cons {next : σ → α → Option (σ × List ε)} {s s₂ : σ} {a : α}
    {as : List α} {tr : List ε} :
    exec next s (a :: as) = some (s₂, tr) ↔
      ∃ s₁ es es', next s a = some (s₁, es) ∧
        exec next s₁ as = some (s₂, es') ∧ tr = es ++ es' := by
  simp only [exec, Option.bind_eq_bind, Option.bind_eq_some_iff, Prod.exists,
    Option.pure_def, Option.some.injEq, Prod.mk.injEq]
  constructor
  · rintro ⟨s₁, es, h, _, es', h', rfl, rfl⟩
    exact ⟨s₁, es, es', h, h', rfl⟩
  · rintro ⟨s₁, es, es', h, h', rfl⟩
    exact ⟨s₁, es, h, s₂, es', h', rfl, rfl⟩

variable {next : σ → α → Option (σ × List ε)}

/-- One schedule after another. -/
theorem exec_append {as bs : List α} {s s₁ s₂ : σ} {tr tr' : List ε}
    (h : exec next s as = some (s₁, tr)) (h' : exec next s₁ bs = some (s₂, tr')) :
    exec next s (as ++ bs) = some (s₂, tr ++ tr') := by
  induction as generalizing s tr with
  | nil =>
      simp only [exec, Option.some.injEq, Prod.mk.injEq] at h
      obtain ⟨rfl, rfl⟩ := h
      exact h'
  | cons a as ih =>
      obtain ⟨s₃, es, es', hs, hr, rfl⟩ := exec_cons.mp h
      rw [List.cons_append, List.append_assoc]
      exact exec_cons.mpr ⟨s₃, es, es' ++ tr', hs, ih hr, rfl⟩

/-- **Schedules are runs.** -/
theorem run_of_exec {as : List α}
    {s s' : σ} {tr : List ε} (h : exec next s as = some (s', tr)) :
    Run (Does next) s tr s' := by
  induction as generalizing s tr with
  | nil =>
      simp only [exec, Option.some.injEq, Prod.mk.injEq] at h
      obtain ⟨rfl, rfl⟩ := h
      exact .nil
  | cons a as ih =>
      obtain ⟨s₁, es, es', hs, hr, rfl⟩ := exec_cons.mp h
      exact (Run.single ⟨a, hs⟩).append (ih hr)

/-- What has been computed of a schedule's outcome holds at the end of a run. -/
theorem run_of_outcome {β : Type*} (f : σ × List ε → β) (as : List α) {s : σ} {v : β}
    (h : (exec next s as).map f = some v) :
    ∃ s' tr, Run (Does next) s tr s' ∧ f (s', tr) = v := by
  obtain ⟨⟨s', tr⟩, he, hv⟩ := Option.map_eq_some_iff.mp h
  exact ⟨s', tr, run_of_exec he, hv⟩

/-- A schedule whose trace has been computed is a run with that trace. -/
theorem run_of_trace (as : List α) {s : σ} {tr : List ε}
    (h : (exec next s as).map Prod.snd = some tr) : ∃ s', Run (Does next) s tr s' := by
  obtain ⟨s', tr', hr, rfl⟩ := run_of_outcome Prod.snd as h
  exact ⟨s', hr⟩

/-- **The countdown rule.** If every step of its own makes the rank of a busy
party smaller, until the step that emits `done`, and no other step touches it,
then after any schedule it is done, or its rank pays for the steps it took. -/
theorem exec_countdown (busy : σ → Prop) (rank : σ → ℕ) (own : α → Bool) {isDone : ε → Prop}
    (hown : ∀ s a s' es, busy s → own a = true → next s a = some (s', es) →
      (∃ e ∈ es, isDone e) ∨ (busy s' ∧ rank s' < rank s))
    (hother : ∀ s a s' es, busy s → own a = false → next s a = some (s', es) →
      busy s' ∧ rank s' = rank s) {as : List α} {s s' : σ} {tr : List ε}
    (h : exec next s as = some (s', tr)) (hs : busy s) :
    (∃ e ∈ tr, isDone e) ∨ (busy s' ∧ rank s' + as.countP own ≤ rank s) := by
  induction as generalizing s tr with
  | nil =>
      cases h
      exact .inr ⟨hs, Nat.le_refl _⟩
  | cons a as ih =>
      obtain ⟨s₁, es, es', ha, hr, rfl⟩ := exec_cons.mp h
      have hnext : (∃ e ∈ es, isDone e) ∨ (busy s₁ ∧ rank s₁ + [a].countP own ≤ rank s) := by
        cases hown' : own a with
        | true =>
            rcases hown s a s₁ es hs hown' ha with hd | ⟨hb, hlt⟩
            · exact .inl hd
            · have hone : [a].countP own = 1 := by simp [hown']
              exact .inr ⟨hb, by omega⟩
        | false =>
            obtain ⟨hb, heq⟩ := hother s a s₁ es hs hown' ha
            refine .inr ⟨hb, ?_⟩
            simp [hown', heq]
      rcases hnext with ⟨e, he, hd⟩ | ⟨hb, hle⟩
      · exact .inl ⟨e, List.mem_append_left _ he, hd⟩
      · rcases ih hr hb with ⟨e, he, hd⟩ | ⟨hb', hle'⟩
        · exact .inl ⟨e, List.mem_append_right _ he, hd⟩
        · have hcount : (a :: as).countP own = as.countP own + [a].countP own := by
            rw [List.countP_cons, List.countP_singleton]
          exact .inr ⟨hb', by omega⟩

/-- **The simulation rule.** A function of the state that commutes with every
step from a state of the invariant commutes with every schedule. -/
theorem exec_map {f : σ → σ} {I : σ → Prop}
    (hstep : ∀ s a, I s → next (f s) a = (next s a).map (Prod.map f id))
    (hI : ∀ s a s' es, I s → next s a = some (s', es) → I s') (as : List α) {s : σ}
    (h : I s) : exec next (f s) as = (exec next s as).map (Prod.map f id) := by
  induction as generalizing s with
  | nil => rfl
  | cons a as ih =>
      simp only [exec, hstep s a h]
      cases ha : next s a with
      | none => rfl
      | some r =>
          have hr := ih (hI s a r.1 r.2 h ha)
          simp only [Option.map_some, Option.bind_eq_bind, Option.bind_some, Prod.map]
          rw [hr]
          cases exec next r.1 as <;> rfl

end Transition
