import Reeact.Fastsync.Barrier
import Reeact.Lib.Rounds
import Mathlib.Algebra.BigOperators.Fin
import Mathlib.Data.Fintype.BigOperators
import Mathlib.Data.Fintype.Sum
import Mathlib.Tactic

/-!
# fastsync_barrier — trees of barriers

A tree as its user must build it: every thread waits at one leaf, a leaf's
`total_count` is the number of its threads, an inner node's is the sum of its
children's. The structure carries these facts. Threads and barriers are
alike PARTIES of the barrier above them (`Sub`), so one count covers leaves
and inner nodes; a barrier with `total_count` 0 has no thread below it and
takes part in nothing.
-/

namespace Reeact.Barrier

open Relation

structure BarrierTree (Node Thr : Type) [Fintype Node] [DecidableEq Node]
    [Fintype Thr] [DecidableEq Thr] where
  parentBar : Node → Option Node
  totalCount : Node → BitVec 32
  /-- the leaf a thread waits at -/
  home : Thr → Node
  root : Node
  depth : Node → ℕ
  parentBar_eq_none : ∀ n, parentBar n = none ↔ n = root
  depth_parentBar : ∀ c p, parentBar c = some p → depth c = depth p + 1
  home_leaf : ∀ t c, parentBar c ≠ some (home t)
  leaf_total : ∀ n, (∀ c, parentBar c ≠ some n) →
    (totalCount n).toNat = (Finset.univ.filter (fun t => home t = n)).card
  inner_total : ∀ n c, parentBar c = some n →
    (totalCount n).toNat =
      ∑ c' ∈ Finset.univ.filter (fun c' => parentBar c' = some n), (totalCount c').toNat

/-- The parties of a barrier tree: its threads and its barriers. -/
abbrev Party (Node Thr : Type) := Thr ⊕ Node

namespace BarrierTree

variable {Node Thr : Type} [Fintype Node] [DecidableEq Node] [Fintype Thr]
  [DecidableEq Thr] (T : BarrierTree Node Thr)

/-- `y` arrives at the barrier `x`. -/
def Sub : Party Node Thr → Party Node Thr → Prop
  | .inl t, .inr n => T.home t = n
  | .inr c, .inr n => T.parentBar c = some n ∧ 0 < (T.totalCount c).toNat
  | _, .inl _ => False

instance : DecidableRel T.Sub := fun y x =>
  match y, x with
  | .inl t, .inr n => inferInstanceAs (Decidable (T.home t = n))
  | .inr c, .inr n =>
      inferInstanceAs (Decidable (T.parentBar c = some n ∧ 0 < (T.totalCount c).toNat))
  | .inl _, .inl _ => inferInstanceAs (Decidable False)
  | .inr _, .inl _ => inferInstanceAs (Decidable False)

/-- What a party adds to `waiting` when it arrives. -/
def weight : Party Node Thr → ℕ
  | .inl _ => 1
  | .inr c => (T.totalCount c).toNat

/-- The parties that arrive at `n`. -/
def parties (n : Node) : Finset (Party Node Thr) :=
  Finset.univ.filter (fun y => T.Sub y (.inr n))

variable {T}

@[simp] theorem mem_parties {n : Node} {y : Party Node Thr} :
    y ∈ T.parties n ↔ T.Sub y (.inr n) := by
  simp [parties]

theorem sub_inl {t : Thr} : T.Sub (.inl t) (.inr (T.home t)) := rfl

theorem not_sub_inl (y : Party Node Thr) (t : Thr) : ¬ T.Sub y (.inl t) := by
  cases y <;> exact id

theorem sub_irrefl (x : Party Node Thr) : ¬ T.Sub x x := by
  cases x with
  | inl t => exact id
  | inr n =>
      intro h
      have := T.depth_parentBar n n h.1
      omega

/-- A party arrives at one barrier only. -/
theorem sub_unique {y : Party Node Thr} {m n : Node} (hm : T.Sub y (.inr m))
    (hn : T.Sub y (.inr n)) : m = n := by
  cases y with
  | inl t => exact hm.symm.trans hn
  | inr c => exact Option.some.inj (hm.1.symm.trans hn.1)

theorem weight_pos {y : Party Node Thr} {n : Node} (h : T.Sub y (.inr n)) :
    0 < T.weight y := by
  cases y with
  | inl t => exact Nat.one_pos
  | inr c => exact h.2

/-! ## A barrier's total is the weight of its parties -/

private theorem parties_leaf {n : Node} (h : ∀ c, T.parentBar c ≠ some n) :
    T.parties n = (Finset.univ.filter (fun t => T.home t = n)).map .inl := by
  ext y
  cases y with
  | inl t => simp [Sub]
  | inr c => simp [Sub, h c]

private theorem sum_parties_inner {n c : Node} (h : T.parentBar c = some n) :
    ∑ y ∈ T.parties n, T.weight y =
      ∑ c' ∈ Finset.univ.filter (fun c' => T.parentBar c' = some n),
        (T.totalCount c').toNat := by
  have hsub : T.parties n ⊆
      (Finset.univ.filter (fun c' => T.parentBar c' = some n)).map .inr := by
    intro y hy
    cases y with
    | inl t => exact absurd (mem_parties.mp hy ▸ h) (T.home_leaf t c)
    | inr c' => simpa using (mem_parties.mp hy).1
  rw [Finset.sum_subset hsub, Finset.sum_map]
  · rfl
  · -- the children left out of `parties` have total 0
    intro y hy hn
    obtain ⟨c', hc', rfl⟩ := Finset.mem_map.mp hy
    have hp : T.parentBar c' = some n := by simpa using hc'
    have : ¬ 0 < (T.totalCount c').toNat := fun h0 => hn (mem_parties.mpr ⟨hp, h0⟩)
    simpa [weight] using this

/-- **Leaves and inner nodes alike**: `total_count` is the weight of the
parties that arrive at the barrier. -/
theorem totalCount_eq (n : Node) :
    (T.totalCount n).toNat = ∑ y ∈ T.parties n, T.weight y := by
  by_cases hc : ∃ c, T.parentBar c = some n
  · obtain ⟨c, hc⟩ := hc
    rw [sum_parties_inner hc]
    exact T.inner_total n c hc
  · have hleaf : ∀ c, T.parentBar c ≠ some n := fun c h => hc ⟨c, h⟩
    rw [T.leaf_total n hleaf, parties_leaf hleaf, Finset.sum_map]
    simp [weight]

theorem weight_le_totalCount {y : Party Node Thr} {n : Node} (h : T.Sub y (.inr n)) :
    T.weight y ≤ (T.totalCount n).toNat := by
  rw [totalCount_eq]
  exact Finset.single_le_sum (f := T.weight) (fun _ _ => Nat.zero_le _) (mem_parties.mpr h)

theorem totalCount_pos {y : Party Node Thr} {n : Node} (h : T.Sub y (.inr n)) :
    0 < (T.totalCount n).toNat :=
  Nat.lt_of_lt_of_le (weight_pos h) (weight_le_totalCount h)

/-- A barrier with a party is itself a party of its parent. -/
theorem sub_parent {y : Party Node Thr} {n p : Node} (h : T.Sub y (.inr n))
    (hp : T.parentBar n = some p) : T.Sub (.inr n) (.inr p) :=
  ⟨hp, totalCount_pos h⟩

/-! ## Everything is below the root -/

theorem below_root_of_sub {y : Party Node Thr} {n : Node} (h : T.Sub y (.inr n)) :
    TransGen T.Sub y (.inr T.root) := by
  induction hd : T.depth n using Nat.strongRecOn generalizing y n with
  | _ d ih =>
    cases hp : T.parentBar n with
    | none =>
        have hn : n = T.root := (T.parentBar_eq_none n).mp hp
        exact hn ▸ .single h
    | some p =>
        have hlt : T.depth p < d := by
          have := T.depth_parentBar n p hp
          omega
        exact .head h (ih _ hlt (sub_parent h hp) rfl)

theorem thread_below_root (t : Thr) : TransGen T.Sub (.inl t) (.inr T.root) :=
  below_root_of_sub sub_inl

/-- Induction from the leaves up: a property of a barrier may use it of every
child. -/
theorem upward_induction {P : Node → Prop}
    (h : ∀ n, (∀ c, T.parentBar c = some n → P c) → P n) (n : Node) : P n := by
  have key : ∀ k n, Finset.univ.sup T.depth - T.depth n = k → P n := by
    intro k
    induction k using Nat.strongRecOn with
    | _ k ih =>
      intro n hk
      refine h n (fun c hc => ih _ ?_ c rfl)
      have h1 := T.depth_parentBar c n hc
      have h2 : T.depth c ≤ Finset.univ.sup T.depth := Finset.le_sup (Finset.mem_univ c)
      omega
  exact key _ n rfl

/-! ## The path a thread has climbed -/

/-- The barriers below `b` that a thread's call came up through are its
suspended frames, down to its leaf. -/
def OnPath (T : BarrierTree Node Thr) (t : Thr) : Node → List Node → Prop
  | b, [] => T.home t = b
  | b, c :: fs => T.parentBar c = some b ∧ OnPath T t c fs

/-- The party a thread stands for at its current barrier. -/
def party (t : Thr) : List Node → Party Node Thr
  | [] => .inl t
  | c :: _ => .inr c

/-- All parties the thread stands for, innermost first. -/
def standsFor (t : Thr) : List Node → List (Party Node Thr)
  | [] => [.inl t]
  | c :: fs => .inr c :: standsFor t fs

theorem OnPath.sub {t : Thr} {b : Node} {fs : List Node} (h : OnPath T t b fs) :
    T.Sub (party t fs) (.inr b) := by
  induction fs generalizing b with
  | nil => exact h
  | cons c fs ih => exact sub_parent (ih h.2) h.1

theorem OnPath.depth_le {t : Thr} {b c : Node} {fs : List Node} (h : OnPath T t b fs)
    (hc : c ∈ fs) : T.depth b < T.depth c := by
  induction fs generalizing b with
  | nil => simp at hc
  | cons c' fs ih =>
      have h1 := T.depth_parentBar c' b h.1
      rcases List.mem_cons.mp hc with rfl | hc
      · omega
      · have := ih h.2 hc
        omega

theorem OnPath.not_mem {t : Thr} {b : Node} {fs : List Node} (h : OnPath T t b fs) :
    b ∉ fs := fun hb => Nat.lt_irrefl _ (h.depth_le hb)

/-- A suspended barrier has its parent suspended too, or the thread is at it. -/
theorem OnPath.parent_mem {t : Thr} {b c : Node} {fs : List Node} (h : OnPath T t b fs)
    (hc : c ∈ fs) : ∃ p, T.parentBar c = some p ∧ (p ∈ fs ∨ (p = b ∧ party t fs = .inr c)) := by
  induction fs generalizing b with
  | nil => cases hc
  | cons c' fs ih =>
      rcases List.mem_cons.mp hc with rfl | hc
      · exact ⟨b, h.1, .inr ⟨rfl, rfl⟩⟩
      · obtain ⟨p, hp, hmem | ⟨rfl, -⟩⟩ := ih h.2 hc
        · exact ⟨p, hp, .inl (List.mem_cons_of_mem _ hmem)⟩
        · exact ⟨p, hp, .inl List.mem_cons_self⟩

/-- The leaf a thread waits at is suspended, or the thread is at it. -/
theorem OnPath.home_mem {t : Thr} {b : Node} {fs : List Node} (h : OnPath T t b fs) :
    T.home t ∈ fs ∨ (T.home t = b ∧ fs = []) := by
  induction fs generalizing b with
  | nil => exact .inr ⟨h, rfl⟩
  | cons c fs ih =>
      rcases ih h.2 with hm | ⟨hm, -⟩
      · exact .inl (List.mem_cons_of_mem _ hm)
      · exact .inl (hm ▸ List.mem_cons_self)

section

omit [Fintype Node] [DecidableEq Node] [Fintype Thr] [DecidableEq Thr]

theorem mem_standsFor {t : Thr} {fs : List Node} {y : Party Node Thr} :
    y ∈ standsFor t fs ↔ y = .inl t ∨ ∃ c ∈ fs, y = .inr c := by
  induction fs with
  | nil => simp [standsFor]
  | cons c fs ih =>
      simp only [standsFor, List.mem_cons, ih]
      constructor
      · intro h
        rcases h with h | h | ⟨c', h, h'⟩
        · exact .inr ⟨c, .inl rfl, h⟩
        · exact .inl h
        · exact .inr ⟨c', .inr h, h'⟩
      · intro h
        rcases h with h | ⟨c', rfl | h, h'⟩
        · exact .inr (.inl h)
        · exact .inl h'
        · exact .inr (.inr ⟨c', h, h'⟩)

theorem standsFor_eq (t : Thr) (fs : List Node) :
    standsFor t fs = party t fs :: (standsFor t fs).tail := by
  cases fs <;> rfl

theorem party_mem_standsFor (t : Thr) (fs : List Node) : party t fs ∈ standsFor t fs := by
  rw [standsFor_eq]
  exact List.mem_cons_self

end

end BarrierTree

end Reeact.Barrier
