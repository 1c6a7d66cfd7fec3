import Mathlib.Logic.Relation
import Mathlib.Logic.Function.Basic
import Mathlib.Tactic.Common

/-!
# Rounds over a hierarchy

A hierarchy of parties (`sub y x`: `y` is a member of `x`) that go through
rounds together: a party arrives at its superior once all its members have
arrived at it, and completes its round once its superior has completed that
round. This is what a barrier organised as a tree is for; the parties are
threads and barrier nodes alike. The relation `sub` is arbitrary.
-/

namespace Rounds

variable {X : Type*}

/-- How often each party has arrived at its superior, and how many rounds it
has completed. -/
structure Counts (X : Type*) where
  arrived : X → ℕ
  done : X → ℕ

namespace Counts

variable [DecidableEq X]

def arrive (c : Counts X) (y : X) : Counts X :=
  { c with arrived := Function.update c.arrived y (c.arrived y + 1) }

def complete (c : Counts X) (x : X) : Counts X :=
  { c with done := Function.update c.done x (c.done x + 1) }

@[simp] theorem arrive_self (c : Counts X) (y : X) :
    (c.arrive y).arrived y = c.arrived y + 1 := Function.update_self ..

@[simp] theorem arrive_ne (c : Counts X) {y z : X} (h : z ≠ y) :
    (c.arrive y).arrived z = c.arrived z := Function.update_of_ne h ..

@[simp] theorem arrive_done (c : Counts X) (y : X) : (c.arrive y).done = c.done := rfl

@[simp] theorem complete_self (c : Counts X) (x : X) :
    (c.complete x).done x = c.done x + 1 := Function.update_self ..

@[simp] theorem complete_ne (c : Counts X) {x z : X} (h : z ≠ x) :
    (c.complete x).done z = c.done z := Function.update_of_ne h ..

@[simp] theorem complete_arrived (c : Counts X) (x : X) :
    (c.complete x).arrived = c.arrived := rfl

end Counts

/-- Every member of `x` has arrived for the round `x` is in. -/
def Full (sub : X → X → Prop) (c : Counts X) (x : X) : Prop :=
  ∀ y, sub y x → c.arrived y = c.done x + 1

inductive Step [DecidableEq X] (sub : X → X → Prop) : Counts X → Counts X → Prop
  /-- `y` arrives, at most once a round and after all its members. -/
  | arrive {c : Counts X} (y : X) : c.arrived y = c.done y → Full sub c y →
      Step sub c (c.arrive y)
  /-- `x` completes its round: everyone below has arrived, `x` itself has
  arrived, and its superior has already completed the round. -/
  | complete {c : Counts X} (x : X) : Full sub c x →
      (∀ z, sub x z → c.arrived x = c.done x + 1 ∧ c.done z = c.done x + 1) →
      Step sub c (c.complete x)

/-- The invariant of the hierarchy: member and superior are never more than
one round apart, and an arrival stands for the arrival of all members. -/
structure Inv (sub : X → X → Prop) (c : Counts X) : Prop where
  done_le : ∀ y x, sub y x → c.done y ≤ c.done x
  le_arrived : ∀ y x, sub y x → c.done x ≤ c.arrived y
  arrived_le : ∀ y, c.arrived y ≤ c.done y + 1
  full : ∀ x, c.arrived x = c.done x + 1 → Full sub c x

variable {sub : X → X → Prop} {c c' : Counts X}

theorem Inv.init : Inv sub (⟨fun _ => 0, fun _ => 0⟩ : Counts X) where
  done_le := fun _ _ _ => Nat.le_refl 0
  le_arrived := fun _ _ _ => Nat.le_refl 0
  arrived_le := fun _ => Nat.zero_le 1
  full := fun _ h => by simp at h

section Steps

variable [DecidableEq X]

theorem Inv.arrive (hirr : ∀ x, ¬ sub x x) (h : Inv sub c) {y : X}
    (hy : c.arrived y = c.done y) (hf : Full sub c y) : Inv sub (c.arrive y) := by
  refine ⟨h.done_le, ?_, ?_, ?_⟩
  · intro z x hz
    have := h.le_arrived z x hz
    by_cases hzy : z = y
    · subst hzy
      rw [Counts.arrive_self, Counts.arrive_done]
      omega
    · simpa [hzy] using this
  · intro z
    have := h.arrived_le z
    by_cases hzy : z = y
    · subst hzy
      rw [Counts.arrive_self, Counts.arrive_done]
      omega
    · simpa [hzy] using this
  · intro x hx z hz
    rw [Counts.arrive_done] at hx ⊢
    by_cases hzy : z = y
    · -- `x` was not full, so it has not arrived either
      subst hzy
      have hxz : x ≠ z := fun e => hirr x (e ▸ hz)
      rw [Counts.arrive_ne c hxz] at hx
      have h1 := h.full x hx z hz
      have h2 := h.done_le z x hz
      omega
    · rw [Counts.arrive_ne c hzy]
      by_cases hxy : x = y
      · subst hxy; exact hf z hz
      · rw [Counts.arrive_ne c hxy] at hx
        exact h.full x hx z hz

theorem Inv.complete (hirr : ∀ x, ¬ sub x x) (h : Inv sub c) {x : X} (hf : Full sub c x)
    (hup : ∀ z, sub x z → c.arrived x = c.done x + 1 ∧ c.done z = c.done x + 1) :
    Inv sub (c.complete x) := by
  refine ⟨?_, ?_, ?_, ?_⟩
  · intro y z hy
    have := h.done_le y z hy
    by_cases hyx : y = x
    · subst hyx
      have hzy : z ≠ y := fun e => hirr y (e ▸ hy)
      rw [Counts.complete_self, Counts.complete_ne c hzy]
      exact Nat.le_of_eq (hup z hy).2.symm
    · by_cases hzx : z = x
      · subst hzx
        rw [Counts.complete_self, Counts.complete_ne c hyx]
        omega
      · simpa [hyx, hzx] using this
  · intro y z hy
    have := h.le_arrived y z hy
    by_cases hzx : z = x
    · subst hzx
      rw [Counts.complete_self, Counts.complete_arrived]
      exact Nat.le_of_eq (hf y hy).symm
    · simpa [hzx] using this
  · intro y
    have := h.arrived_le y
    by_cases hyx : y = x
    · subst hyx
      rw [Counts.complete_self, Counts.complete_arrived]
      omega
    · simpa [hyx] using this
  · intro z hz y hy
    rw [Counts.complete_arrived] at hz ⊢
    by_cases hzx : z = x
    · subst hzx
      rw [Counts.complete_self] at hz
      have := h.arrived_le z
      omega
    · rw [Counts.complete_ne c hzx] at hz ⊢
      exact h.full z hz y hy

/-- Every step keeps the invariant. -/
theorem Inv.step (hirr : ∀ x, ¬ sub x x) (h : Inv sub c) (hs : Step sub c c') :
    Inv sub c' := by
  cases hs with
  | arrive y hy hf => exact h.arrive hirr hy hf
  | complete x hf hup => exact h.complete hirr hf hup

end Steps

/-! ## What the invariant says about distant parties -/

/-- A party arrives no more often than its members. -/
theorem Inv.arrived_mono (h : Inv sub c) {y x : X} (hy : sub y x) :
    c.arrived x ≤ c.arrived y := by
  have h1 := h.le_arrived y x hy
  rcases Nat.lt_or_ge (c.done x) (c.arrived x) with hlt | hge
  · have hx : c.arrived x = c.done x + 1 := by
      have := h.arrived_le x
      omega
    exact Nat.le_of_eq (hx.trans (h.full x hx y hy).symm)
  · omega

open Relation in
theorem Inv.arrived_mono_trans (h : Inv sub c) {y x : X}
    (hy : ReflTransGen sub y x) : c.arrived x ≤ c.arrived y := by
  induction hy with
  | refl => exact Nat.le_refl _
  | tail _ hs ih => exact Nat.le_trans (h.arrived_mono hs) ih

open Relation in
theorem Inv.done_mono_trans (h : Inv sub c) {y x : X}
    (hy : ReflTransGen sub y x) : c.done y ≤ c.done x := by
  induction hy with
  | refl => exact Nat.le_refl _
  | tail _ hs ih => exact Nat.le_trans ih (h.done_le _ _ hs)

open Relation in
/-- **Separation.** Below a common superior, no party has completed more
rounds than any other party has arrived for. -/
theorem Inv.separation (h : Inv sub c) {y z r : X} (hy : TransGen sub y r)
    (hz : TransGen sub z r) : c.done y ≤ c.arrived z := by
  obtain ⟨w, hzw, hwr⟩ := TransGen.tail'_iff.mp hz
  calc c.done y ≤ c.done r := h.done_mono_trans hy.to_reflTransGen
    _ ≤ c.arrived w := h.le_arrived w r hwr
    _ ≤ c.arrived z := h.arrived_mono_trans hzw

/-- A member that has not yet arrived for its next round is in the same round
as its superior. -/
theorem Inv.done_eq_of_idle (h : Inv sub c) {y x : X} (hy : sub y x)
    (hidle : c.arrived y = c.done y) : c.done x = c.done y := by
  have h1 := h.done_le y x hy
  have h2 := h.le_arrived y x hy
  omega

/-- A member that has arrived is one round behind its superior at most. -/
theorem Inv.done_cases (h : Inv sub c) {y x : X} (hy : sub y x)
    (harr : c.arrived y = c.done y + 1) :
    c.done x = c.done y ∨ c.done x = c.done y + 1 := by
  have h1 := h.done_le y x hy
  have h2 := h.le_arrived y x hy
  omega

/-- The members of a full party are all in its round. -/
theorem Inv.done_eq_of_full (h : Inv sub c) {y x : X} (hy : sub y x)
    (hf : Full sub c x) : c.done y = c.done x := by
  have h1 := h.done_le y x hy
  have h2 := h.arrived_le y
  have h3 := hf y hy
  omega

end Rounds
