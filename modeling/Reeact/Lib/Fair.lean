import Reeact.Lib.Run
import Mathlib.Data.Nat.Init
import Mathlib.Tactic.Common

/-!
# Infinite runs and weak fairness

An infinite run of a step function takes one action at each instant, or lets
the instant pass. A thread (any set of actions) is treated fairly when it does
not stay ready for ever without one of its actions being taken. The rules say
what fairness makes happen: a thread that keeps its position until it moves
does move, and what each instant brings nearer is reached.
-/

namespace Transition

variable {σ α ε : Type}

/-- **The unless rule.** What every instant hands on to the next, unless
something else has come about, holds until it has. -/
theorem holds_unless {R Q : ℕ → Prop} (hstep : ∀ l, R l → ¬ Q l → R (l + 1) ∨ Q (l + 1))
    {i j : ℕ} (hij : i ≤ j) (hi : R i) : (∃ l, i ≤ l ∧ l ≤ j ∧ Q l) ∨ R j := by
  induction j, hij using Nat.le_induction with
  | base => exact .inr hi
  | succ j hij ih =>
      rcases ih with ⟨l, hil, hlj, hq⟩ | hr
      · exact .inl ⟨l, hil, Nat.le_succ_of_le hlj, hq⟩
      · by_cases hq : Q j
        · exact .inl ⟨j, hij, Nat.le_succ j, hq⟩
        · rcases hstep j hr hq with hr' | hq'
          · exact .inr hr'
          · exact .inl ⟨j + 1, by omega, Nat.le_refl _, hq'⟩

/-- An infinite run: its actions, and the state and the trace at each instant. -/
structure Path (next : σ → α → Option (σ × List ε)) (s₀ : σ) where
  act : ℕ → Option α
  state : ℕ → σ
  trace : ℕ → List ε
  state_zero : state 0 = s₀
  trace_zero : trace 0 = []
  pass : ∀ i, act i = none → state (i + 1) = state i ∧ trace (i + 1) = trace i
  take : ∀ i a, act i = some a →
    ∃ es, next (state i) a = some (state (i + 1), es) ∧ trace (i + 1) = trace i ++ es

namespace Path

variable {next : σ → α → Option (σ × List ε)} {s₀ : σ} (p : Path next s₀)

/-- What an infinite run has done so far is a run. -/
theorem run (i : ℕ) : Run (Does next) s₀ (p.trace i) (p.state i) := by
  induction i with
  | zero =>
      rw [p.state_zero, p.trace_zero]
      exact .nil
  | succ i ih =>
      cases ha : p.act i with
      | none =>
          obtain ⟨hs, ht⟩ := p.pass i ha
          rw [hs, ht]
          exact ih
      | some a =>
          obtain ⟨es, hs, ht⟩ := p.take i a ha
          rw [ht]
          exact ih.snoc ⟨a, hs⟩

/-- The trace only grows. -/
theorem trace_prefix {i j : ℕ} (h : i ≤ j) : p.trace i <+: p.trace j := by
  induction h with
  | refl => exact List.prefix_refl _
  | @step j _ ih =>
      cases ha : p.act j with
      | none =>
          rw [Nat.succ_eq_add_one, (p.pass j ha).2]
          exact ih
      | some a =>
          obtain ⟨es, -, ht⟩ := p.take j a ha
          rw [Nat.succ_eq_add_one, ht]
          exact ih.trans (List.prefix_append _ _)

/-- So is what happens between two instants. -/
theorem later {i j : ℕ} (h : i ≤ j) :
    ∃ tr, p.trace j = p.trace i ++ tr ∧ Run (Does next) (p.state i) tr (p.state j) := by
  induction j, h using Nat.le_induction with
  | base => exact ⟨[], (List.append_nil _).symm, .nil⟩
  | succ j hij ih =>
      obtain ⟨tr, htr, hr⟩ := ih
      cases ha : p.act j with
      | none =>
          obtain ⟨hs, ht⟩ := p.pass j ha
          rw [hs, ht]
          exact ⟨tr, htr, hr⟩
      | some a =>
          obtain ⟨es, hs, ht⟩ := p.take j a ha
          refine ⟨tr ++ es, ?_, hr.snoc ⟨a, hs⟩⟩
          rw [ht, htr, List.append_assoc]

/-- The same run, of a step function that allows more. -/
def mono {next' : σ → α → Option (σ × List ε)}
    (hsub : ∀ s a r, next s a = some r → next' s a = some r) : Path next' s₀ where
  act := p.act
  state := p.state
  trace := p.trace
  state_zero := p.state_zero
  trace_zero := p.trace_zero
  pass := p.pass
  take i a ha := by
    obtain ⟨es, hs, ht⟩ := p.take i a ha
    exact ⟨es, hsub _ _ _ hs, ht⟩

/-- Weak fairness towards the actions `own`: they are not put off for ever
while the state stays `ready` for them. -/
def Fair (ready : σ → Prop) (own : α → Prop) : Prop :=
  ∀ i, (∀ j, i ≤ j → ready (p.state j)) → ∃ j a, i ≤ j ∧ p.act j = some a ∧ own a

variable {p} {ready : σ → Prop} {own : α → Prop}

/-- **The fairness rule.** What makes a thread ready and lasts until the
thread moves, or something else has come about, leads to one of the two. -/
theorem Fair.moves (hfair : p.Fair ready own) {P Q : ℕ → Prop}
    (hready : ∀ i, P i → ready (p.state i))
    (hkeep : ∀ i, P i → (∀ a, p.act i = some a → ¬ own a) → P (i + 1) ∨ Q (i + 1))
    {i : ℕ} (hi : P i) :
    ∃ j, i ≤ j ∧ (Q j ∨ P j ∧ ∃ a, p.act j = some a ∧ own a) := by
  by_contra hno
  have hnever : ∀ j, i ≤ j → ¬ Q j ∧ ¬ (P j ∧ ∃ a, p.act j = some a ∧ own a) := by
    intro j hij
    constructor
    · exact fun hq => hno ⟨j, hij, .inl hq⟩
    · exact fun hp => hno ⟨j, hij, .inr hp⟩
  -- `P` holds for ever, so the thread is ready for ever
  have hall : ∀ j, i ≤ j → P j := by
    intro j hij
    induction hij with
    | refl => exact hi
    | @step j hij ih =>
        have hquiet : ∀ a, p.act j = some a → ¬ own a :=
          fun a ha ho => (hnever j hij).2 ⟨ih, a, ha, ho⟩
        exact (hkeep j ih hquiet).resolve_right (hnever (j + 1) (Nat.le_succ_of_le hij)).1
  obtain ⟨j, a, hij, ha, ho⟩ := hfair i (fun j hij => hready j (hall j hij))
  exact (hnever j hij).2 ⟨hall j hij, a, ha, ho⟩

/-- A thread moves from the very position it is in, if no other changes it. -/
theorem Fair.moves_from {β : Type} (hfair : p.Fair ready own) (pos : σ → β) {v : β}
    (hready : ∀ s, pos s = v → ready s)
    (hkeep : ∀ i a es, ¬ own a → next (p.state i) a = some (p.state (i + 1), es) →
      pos (p.state i) = v → pos (p.state (i + 1)) = v)
    {i : ℕ} (hi : pos (p.state i) = v) :
    ∃ j a, i ≤ j ∧ pos (p.state j) = v ∧ p.act j = some a ∧ own a := by
  obtain ⟨j, hij, hj⟩ := hfair.moves (P := fun j => pos (p.state j) = v) (Q := fun _ => False)
    (fun j hj => hready _ hj)
    (by
      intro j hj hquiet
      left
      cases ha : p.act j with
      | none =>
          rw [(p.pass j ha).1]
          exact hj
      | some a =>
          obtain ⟨es, hs, -⟩ := p.take j a ha
          exact hkeep j a es (hquiet a ha) hs hj) hi
  obtain ⟨hpos, a, ha, ho⟩ := hj.resolve_left id
  exact ⟨j, a, hij, hpos, ha, ho⟩

end Path

/-! ## Finite schedules -/

variable {next : σ → α → Option (σ × List ε)}

/-- A prefix of a schedule can be followed, and then its next action taken. -/
theorem exec_take {as : List α} {s : σ} {r : σ × List ε} (h : exec next s as = some r)
    {i : ℕ} {a : α} (ha : as[i]? = some a) :
    ∃ s₁ s₂ tr es, exec next s (as.take i) = some (s₁, tr) ∧ next s₁ a = some (s₂, es) ∧
      exec next s (as.take (i + 1)) = some (s₂, tr ++ es) := by
  induction as generalizing s r i with
  | nil => cases ha
  | cons b as ih =>
      obtain ⟨s₁, es, es', hs, hr, -⟩ := exec_cons.mp h
      cases i with
      | zero =>
          cases ha
          exact ⟨s, s₁, [], es, rfl, hs, exec_cons.mpr ⟨s₁, es, [], hs, rfl, by simp⟩⟩
      | succ i =>
          obtain ⟨s₂, s₃, tr, es₂, h₁, h₂, h₃⟩ := ih hr ha
          refine ⟨s₂, s₃, es ++ tr, es₂, exec_cons.mpr ⟨s₁, es, tr, hs, h₁, rfl⟩, h₂, ?_⟩
          rw [List.append_assoc]
          exact exec_cons.mpr ⟨s₁, es, tr ++ es₂, hs, h₃, rfl⟩

/-- A schedule followed to its end, after which nothing happens any more. -/
def Path.ofExec {s₀ s : σ} {tr : List ε} (as : List α) (h : exec next s₀ as = some (s, tr)) :
    Path next s₀ where
  act i := as[i]?
  state i := ((exec next s₀ (as.take i)).getD (s, tr)).1
  trace i := ((exec next s₀ (as.take i)).getD (s, tr)).2
  state_zero := rfl
  trace_zero := rfl
  pass i ha := by
    have hlen : as.length ≤ i := List.getElem?_eq_none_iff.mp ha
    rw [List.take_of_length_le hlen, List.take_of_length_le (Nat.le_succ_of_le hlen)]
    exact ⟨rfl, rfl⟩
  take i a ha := by
    obtain ⟨s₁, s₂, tr', es, h₁, h₂, h₃⟩ := exec_take h ha
    refine ⟨es, ?_, ?_⟩
    · simp only [h₁, h₃, Option.getD_some]
      exact h₂
    · simp only [h₁, h₃, Option.getD_some]

section OfExec

variable {s₀ s : σ} {tr : List ε} {as : List α} {h : exec next s₀ as = some (s, tr)}

theorem Path.ofExec_end {i : ℕ} (hi : as.length ≤ i) :
    (Path.ofExec as h).state i = s ∧ (Path.ofExec as h).trace i = tr := by
  simp only [Path.ofExec, List.take_of_length_le hi, h, Option.getD_some, and_self]

/-- The state at an instant, as far as the schedule has been followed then. -/
theorem Path.ofExec_state {i : ℕ} {r : σ × List ε} (hr : exec next s₀ (as.take i) = some r) :
    (Path.ofExec as h).state i = r.1 := by
  simp only [Path.ofExec, hr, Option.getD_some]

/-- A schedule at whose end a thread is not ready is fair to it. -/
theorem Path.ofExec_fair {ready : σ → Prop} {own : α → Prop} (hend : ¬ ready s) :
    (Path.ofExec as h).Fair ready own := by
  intro i hall
  have hlast := hall (max i as.length) (Nat.le_max_left _ _)
  rw [(Path.ofExec_end (h := h) (Nat.le_max_right _ _)).1] at hlast
  exact absurd hlast hend

end OfExec

end Transition
