import Reeact.Fastsync.BarrierLive

/-!
# fastsync_barrier — the reset is done alone

`barrier->reset = barrier->seq + 1` is a plain load and a plain store, over a
word that others add to. From the last arrival at a barrier to that store all
its parties are there, behind `cur_seq == barrier->seq`, and nobody else is:
there is no arrival for the store to lose, and nobody who could take `seq` for
that of another round.
-/

namespace Reeact.Barrier

open Transition BarrierTree

variable {Node Thr : Type} [Fintype Node] [DecidableEq Node] [Fintype Thr]
  [DecidableEq Thr] {T : BarrierTree Node Thr} {mem : Node → FastsyncBarrier Node}

/-- The barrier a thread is at. -/
def Pc.node : Pc Node → Option Node
  | .readSeq b _ | .addWaiting b _ _ | .spin b _ | .futexWait b _ | .asleep b _ | .loadSeq b
  | .storeReset b _ | .futexWake b => some b
  | .out | .ret _ => none

/-- In the wait loop of `b` with `cur_seq`, awake or asleep. -/
def Pc.Waits (b : Node) (curSeq : BitVec 32) (pc : Pc Node) : Prop :=
  pc = .spin b curSeq ∨ pc = .futexWait b curSeq ∨ pc = .asleep b curSeq

/-- What the leader `t` of `n` finds there, until it has reset `n`. -/
structure ResetAlone (T : BarrierTree Node Thr) (s : State Node Thr) (t : Thr) (n : Node) :
    Prop where
  full : (s.bar n).waiting = (s.bar n).totalCount
  /-- whoever else is at the barrier waits for this reset, -/
  others : ∀ u, u ≠ t → (s.thr u).pc.node = some n → (s.thr u).pc.Waits n (s.bar n).seq
  /-- and nobody is missing: each party has come, with the leader or before it -/
  present : ∀ y, T.Sub y (.inr n) → ∃ u, y ∈ standsFor u (s.thr u).frames ∧
    (u = t ∨ (s.thr u).pc.Waits n (s.bar n).seq)

section Full

variable {tr : List (Ev Node Thr)} {s : State Node Thr} {u : Thr} {n : Node}

/-- Everybody at a full barrier waits there, or leads it. -/
theorem Inv.waits_of_full (h : Inv T tr s) (hf : Rounds.Full T.Sub (counts tr) (.inr n))
    (hu : (s.thr u).pc.node = some n) :
    (s.thr u).pc.Waits n (s.bar n).seq ∨ Leads (s.thr u) n := by
  have hpc := (h.thread u).pc
  have hseq : ∀ {curSeq : BitVec 32}, OnPath T u n (s.thr u).frames →
      curSeq = BitVec.ofNat 32 ((counts tr).done (party u (s.thr u).frames)) →
      curSeq = (s.bar n).seq := by
    intro curSeq hpath hcur
    rw [hcur, h.seq n, h.rounds.done_eq_of_full hpath.sub hf]
  cases hth : (s.thr u).pc with
  | readSeq b inc =>
      rw [hth] at hu hpc
      cases hu
      exact absurd hf (h.not_full hpc.1.sub hpc.2.1)
  | addWaiting b inc curSeq =>
      rw [hth] at hu hpc
      cases hu
      exact absurd hf (h.not_full hpc.1.sub hpc.2.1)
  | spin b curSeq =>
      rw [hth] at hu hpc
      cases hu
      left
      rw [hseq hpc.1 hpc.2.2]
      exact .inl rfl
  | futexWait b curSeq =>
      rw [hth] at hu hpc
      cases hu
      left
      rw [hseq hpc.2.1 hpc.2.2.2]
      exact .inr (.inl rfl)
  | asleep b curSeq =>
      rw [hth] at hu hpc
      cases hu
      left
      rw [hseq hpc.2.1 hpc.2.2.2]
      exact .inr (.inr rfl)
  | loadSeq b =>
      rw [hth] at hu
      cases hu
      exact .inr (.inr (.inl hth))
  | storeReset b v =>
      rw [hth] at hu
      cases hu
      exact .inr (.inr (.inr ⟨v, hth⟩))
  | futexWake b =>
      -- the waker of the round before: it has not arrived again
      rw [hth] at hu hpc
      cases hu
      obtain ⟨-, hhome, -, hdone⟩ := hpc
      have hsub : T.Sub (.inl u) (.inr n) := hhome
      have hsame := h.rounds.done_eq_of_full hsub hf
      omega
  | out =>
      rw [hth] at hu
      cases hu
  | ret v =>
      rw [hth] at hu
      cases hu

/-- A thread of a full leaf is at it, or above. -/
theorem Inv.home_of_full (h : Inv T tr s)
    (hf : Rounds.Full T.Sub (counts tr) (.inr (T.home u))) :
    (s.thr u).pc.node = some (T.home u) ∨ T.home u ∈ (s.thr u).frames := by
  have hpc := (h.thread u).pc
  have hat : ∀ {b : Node}, OnPath T u b (s.thr u).frames → (s.thr u).pc.node = some b →
      (s.thr u).pc.node = some (T.home u) ∨ T.home u ∈ (s.thr u).frames := by
    intro b hpath hb
    rcases hpath.home_mem with hmem | ⟨hhome, -⟩
    · exact .inr hmem
    · exact .inl (hb.trans (congrArg some hhome.symm))
  cases hth : (s.thr u).pc with
  | out =>
      rw [hth] at hpc
      exact absurd hf (h.not_full sub_inl hpc.2)
  | ret v =>
      rw [hth] at hpc
      have hsub : T.Sub (.inl u) (.inr (T.home u)) := sub_inl
      have hsame := h.rounds.done_eq_of_full hsub hf
      have hdone := hpc.2.2
      omega
  | futexWake b =>
      rw [hth] at hpc
      exact .inl (congrArg some hpc.2.1.symm)
  | futexWait b curSeq | asleep b curSeq =>
      rw [hth] at hpc hat
      exact hat hpc.2.1 rfl
  | _ =>
      rw [hth] at hpc hat
      exact hat hpc.1 rfl

/-- Every party of a full barrier has its thread there. -/
theorem Inv.present_of_full (h : Inv T tr s) (hf : Rounds.Full T.Sub (counts tr) (.inr n))
    {y : Party Node Thr} (hy : T.Sub y (.inr n)) :
    ∃ u, y ∈ standsFor u (s.thr u).frames ∧
      ((s.thr u).pc.Waits n (s.bar n).seq ∨ Leads (s.thr u) n) := by
  have hdone := h.rounds.done_eq_of_full hy hf
  have harr := hf y hy
  cases y with
  | inl u =>
      obtain rfl : T.home u = n := hy
      refine ⟨u, mem_standsFor.mpr (.inl rfl), ?_⟩
      rcases h.home_of_full hf with hat | hmem
      · exact h.waits_of_full hf hat
      · exact .inr (.inl hmem)
  | inr c =>
      -- the leader of the child, on its way up
      obtain ⟨hparent, hpos⟩ := hy
      have hfull : Rounds.Full T.Sub (counts tr) (.inr c) :=
        h.rounds.full _ (by rw [harr, hdone])
      obtain ⟨u, hu⟩ := h.full_led c (exists_party hpos) hfull
      have hwaiting : ¬ Released T (counts tr) c := by
        intro hr
        have hnext := (hr n hparent).2
        omega
      have hpc := (h.thread u).pc
      have hno : ∀ pc, (s.thr u).pc = pc → pc ≠ .loadSeq c ∧ ∀ v, pc ≠ .storeReset c v := by
        intro pc hth
        rw [hth] at hpc
        constructor
        · rintro rfl
          exact hwaiting hpc.2.2
        · rintro v rfl
          exact hwaiting hpc.2.2.1
      have hmem : c ∈ (s.thr u).frames := by
        rcases hu with hmem | hth | ⟨v, hth⟩
        · exact hmem
        · exact absurd rfl (hno _ hth).1
        · exact absurd rfl ((hno _ hth).2 v)
      refine ⟨u, mem_standsFor.mpr (.inr ⟨c, hmem, rfl⟩), ?_⟩
      cases h.leaderAt hu with
      | resetting fs hat =>
          rcases hat with hth | ⟨v, hth⟩
          · exact absurd rfl (hno _ (congrArg Thread.pc hth)).1
          · exact absurd rfl ((hno _ (congrArg Thread.pc hth)).2 v)
      | above q hq hlead =>
          obtain rfl : q = n := Option.some.inj (hq.symm.trans hparent)
          exact .inr hlead
      | arriving q inc fs hq hat =>
          obtain rfl : q = n := Option.some.inj (hq.symm.trans hparent)
          apply h.waits_of_full hf
          rcases hat with hth | ⟨curSeq, hth⟩ <;> rw [hth] <;> rfl
      | spinning q curSeq fs hq hth =>
          obtain rfl : q = n := Option.some.inj (hq.symm.trans hparent)
          apply h.waits_of_full hf
          rw [hth]
          rfl

end Full

/-- **The reset is done alone.** In every reachable state of every tree: while
a thread leads a barrier, from its arrival as the last one up to the store
`barrier->reset = barrier->seq + 1`, everybody else at the barrier waits in the
loop for this very round, and every party of the barrier has its thread there. -/
theorem reset_alone (T : BarrierTree Node Thr) (mem : Node → FastsyncBarrier Node)
    {tr : List (Ev Node Thr)} {s : State Node Thr} (h : Runs T mem tr s) {t : Thr} {n : Node}
    (hl : Leads (s.thr t) n) : ResetAlone T s t n := by
  have hi := h.inv
  have hf := hi.leads_full t n hl
  constructor
  · apply BitVec.eq_of_toNat_eq
    rw [hi.waiting n, hi.totalCount n]
    exact (load_eq_iff hi.rounds n).mpr hf
  · intro u hut hu
    rcases hi.waits_of_full hf hu with hw | hlead
    · exact hw
    · exact absurd (hi.leads_unique u t n hlead hl) hut
  · intro y hy
    obtain ⟨u, hmem, hw | hlead⟩ := hi.present_of_full hf hy
    · exact ⟨u, hmem, .inr hw⟩
    · exact ⟨u, hmem, .inl (hi.leads_unique u t n hlead hl)⟩

/-- Thread 1 has arrived at the root, where thread 0 spins. -/
theorem reset_alone_pair : ∃ s : State (Fin 3) (Fin 2), (s.thr 1).pc = .loadSeq 0 ∧
    ResetAlone pairTree s 1 0 := by
  have hout : (exec (step pairTree.home) (State.init pairTree (fun _ => zeroBar _))
      (pairSchedule.take 10)).map (fun r => (r.1.thr 1).pc) = some (.loadSeq 0) := by decide
  obtain ⟨s, tr, hr, hpc⟩ := run_of_outcome _ _ hout
  exact ⟨s, hpc, reset_alone pairTree (fun _ => zeroBar _) hr (.inr (.inl hpc))⟩

end Reeact.Barrier
