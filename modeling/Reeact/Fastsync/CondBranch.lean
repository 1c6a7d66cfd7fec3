import Reeact.Fastsync.CondLaws

/-!
# fastsync_cond — a condition whose parent branch is closed

`fastsync_cond_wait` goes on to the parent only where `use_child` is 0 and a
parent exists. Where that is not so, nobody ever enters the branch, and
nobody writes the two fields: only threads inside the branch do.
-/

namespace Reeact.Sync

open Transition

variable {Thr Mtx Cnd : Type} [DecidableEq Thr] [Fintype Thr] [DecidableEq Mtx]
  [DecidableEq Cnd]

/-- The condition whose parent branch the innermost call is in. -/
def Pc.branch : Pc Mtx Cnd → Option Cnd
  | .waitSetChild c _ _ => some c
  | pc => pc.releasing

/-- In the parent branch of `fastsync_cond_wait` on `c`, at whatever depth. -/
def Thread.InBranch (th : Thread Mtx Cnd) (c : Cnd) : Prop :=
  c ∈ th.frames ∨ th.pc.branch = some c

/-- The parent branch of `c` is closed, and nobody is in it. -/
structure OffBranch (c : Cnd) (s : State Thr Mtx Cnd) : Prop where
  closed : (s.cond c).useChild ≠ 0 ∨ (s.cond c).parent = none
  outside : ∀ u, ¬ (s.thr u).InBranch c

section Branch

variable {s s' : State Thr Mtx Cnd} {t : Thr} {es : List (Ev Thr Mtx Cnd)} {c : Cnd}

section

omit [DecidableEq Mtx] [DecidableEq Cnd]

theorem inBranch_goto {th : Thread Mtx Cnd} {pc : Pc Mtx Cnd} (hpc : pc.branch = none)
    (h : (th.goto pc).InBranch c) : th.InBranch c := by
  rcases h with hf | hb
  · exact .inl hf
  · rw [show (th.goto pc).pc = pc from rfl, hpc] at hb
    cases hb

/-- Returning leads into the caller's branch, which it was in already. -/
theorem inBranch_leave {th : Thread Mtx Cnd} {m : Mtx} {v : Int}
    (h : (th.leave m v).InBranch c) : th.InBranch c := by
  rcases th with ⟨call, pc, fs, held⟩
  cases fs with
  | nil =>
      rcases h with hf | hb
      · cases hf
      · cases hb
  | cons d fs =>
      left
      rcases h with hf | hb
      · exact List.mem_cons_of_mem d hf
      · cases hb
        exact List.mem_cons_self

theorem branch_lockLoop (m : Mtx) (i : ℕ) : (lockLoop m i : Pc Mtx Cnd).branch = none := by
  rw [lockLoop]
  split <;> rfl

theorem branch_pollLoop (m : Mtx) (k : Option (Cnd × BitVec 32)) (i : ℕ) :
    (pollLoop m k i).branch = none := by
  rw [pollLoop]
  split <;> rfl

theorem inBranch_unlocked {th : Thread Mtx Cnd} {m : Mtx} {k : Option (Cnd × BitVec 32)}
    (h : (th.unlocked m k).InBranch c) : th.InBranch c := by
  cases k with
  | none => exact inBranch_goto rfl h
  | some k => exact inBranch_goto rfl h

theorem branch_entry (call : Call Mtx Cnd) : call.entry.branch = none := by
  cases call with
  | lock m =>
      cases m with
      | none => rfl
      | some m => exact branch_lockLoop m 0
  | trylock m => cases m <;> rfl
  | unlock m => cases m <;> rfl
  | wait d m => cases d <;> cases m <;> rfl
  | signal d => cases d <;> rfl
  | broadcast d => cases d <;> rfl
  | increment m => rfl

theorem Moved.inBranch {cond : Cnd → FastsyncCond Mtx Cnd} {th th' : Thread Mtx Cnd}
    (h : Moved cond th th') (hb : th'.InBranch c) : th.InBranch c := by
  cases h with
  | same => exact hb
  | woken _ => exact inBranch_goto rfl hb
  | requeued _ _ => exact inBranch_goto rfl hb

end

omit [Fintype Thr] [DecidableEq Mtx] [DecidableEq Cnd] in
/-- What a step has made of its thread. -/
theorem inBranch_own {s₁ : State Thr Mtx Cnd} {th : Thread Mtx Cnd}
    (h : ((s₁.setThr t th).thr t).InBranch c) : th.InBranch c := by
  rw [setThr_thr] at h
  exact h

omit [Fintype Thr] [DecidableEq Mtx] [DecidableEq Cnd] in
theorem inBranch_of_frames {s₁ : State Thr Mtx Cnd} {th : Thread Mtx Cnd}
    (h : ((s₁.setThr t th).thr t).InBranch c) (hf : th.frames = (s.thr t).frames)
    (hpc : th.pc.branch = none) : (s.thr t).InBranch c := by
  rcases inBranch_own h with hm | hb
  · rw [hf] at hm
    exact .inl hm
  · rw [hpc] at hb
    cases hb

/-- The branch is entered in one place. -/
theorem run_inBranch {pick : Option Thr} (hs : run s t pick = some (s', es))
    (hb : (s'.thr t).InBranch c) : (s.thr t).InBranch c ∨
      ∃ m p, (s.thr t).pc = .waitUseChild c m ∧ (s.cond c).useChild = 0 ∧
        (s.cond c).parent = some p := by
  cases hpc : (s.thr t).pc with
  | idle => simp [run, hpc] at hs
  | asleep q m => simp [run, hpc] at hs
  | lockFor m i =>
      simp only [run, hpc] at hs
      split at hs <;> cases hs
      · exact .inl (inBranch_of_frames hb rfl rfl)
      · exact .inl (inBranch_of_frames hb rfl (branch_lockLoop m (i + 1)))
  | xchg m =>
      simp only [run, hpc] at hs
      split at hs <;> cases hs
      · have hth : ((s.thr t).take m).InBranch c := inBranch_leave (inBranch_own hb)
        exact .inl hth
      · exact .inl (inBranch_of_frames hb rfl rfl)
  | unlockCas m k =>
      simp only [run, hpc] at hs
      split at hs <;> cases hs
      · have hth : ((s.thr t).drop m).InBranch c := inBranch_unlocked (inBranch_own hb)
        exact .inl hth
      · exact .inl (inBranch_of_frames hb rfl rfl)
  | unlockAnd m k =>
      simp only [run, hpc] at hs
      cases hs
      exact .inl (inBranch_of_frames hb rfl (branch_pollLoop m k 0))
  | unlockPoll m k i =>
      simp only [run, hpc] at hs
      split at hs <;> cases hs
      · exact .inl (inBranch_of_frames hb rfl (branch_pollLoop m k (i + 1)))
      · exact .inl (inBranch_unlocked (inBranch_own hb))
  | unlockWake m k =>
      simp only [run, hpc, Option.map_eq_some_iff] at hs
      obtain ⟨s₁, -, hs⟩ := hs
      cases hs
      exact .inl (inBranch_unlocked (inBranch_own hb))
  | waitNull d m =>
      simp only [run, hpc] at hs
      split at hs <;> cases hs
      · exact .inl (inBranch_of_frames hb rfl rfl)
      · exact .inl (inBranch_leave (inBranch_own hb))
  | waitCas d m =>
      simp only [run, hpc] at hs
      split at hs <;> cases hs
      · exact .inl (inBranch_of_frames hb rfl rfl)
      · exact .inl (inBranch_leave (inBranch_own hb))
  | waitUseChild d m =>
      simp only [run, hpc] at hs
      split at hs
      · rename_i huse
        split at hs <;> cases hs
        · rename_i p hp
          -- `!cond->use_child && cond->parent`: the one way in
          rcases inBranch_own hb with hm | hd
          · exact .inl (.inl hm)
          · cases hd
            exact .inr ⟨m, p, rfl, huse, hp⟩
        · exact .inl (inBranch_of_frames hb rfl rfl)
      · cases hs
        exact .inl (inBranch_of_frames hb rfl rfl)
  | waitSetChild d m p =>
      simp only [run, hpc] at hs
      cases hs
      left
      -- `d` becomes a frame, and was the innermost branch before
      rcases inBranch_own hb with hm | hd
      · rcases List.mem_cons.mp hm with rfl | hm
        · exact .inr (by rw [hpc]; rfl)
        · exact .inl hm
      · cases hd
  | waitSeqLoad d m =>
      simp only [run, hpc] at hs
      cases hs
      left
      rcases inBranch_own hb with hm | hd
      · exact .inl hm
      · exact .inr (by rw [hpc]; exact hd)
  | waitSeqStore d m v =>
      simp only [run, hpc] at hs
      cases hs
      left
      rcases inBranch_own hb with hm | hd
      · exact .inl hm
      · exact .inr (by rw [hpc]; exact hd)
  | waitRequeue d m =>
      simp only [run, hpc, Option.map_eq_some_iff] at hs
      obtain ⟨s₁, h₁, hs⟩ := hs
      cases hs
      left
      rcases inBranch_own hb with hm | hd
      · rw [requeue_thr_self h₁ (by simp [hpc])] at hm
        exact .inl hm
      · exact .inr (by rw [hpc]; exact hd)
  | waitClearChild d m =>
      simp only [run, hpc] at hs
      cases hs
      exact .inl (inBranch_leave (inBranch_own hb))
  | signalWake d =>
      simp only [run, hpc, Option.map_eq_some_iff] at hs
      obtain ⟨s₁, h₁, hs⟩ := hs
      cases hs
      have hself : (s₁.thr t).frames = (s.thr t).frames := by
        rw [wakeOne_thr_self h₁ (by simp [hpc])]
      exact .inl (inBranch_of_frames hb hself rfl)
  | broadcastRequeue d =>
      simp only [run, hpc] at hs
      split at hs
      · simp only [Option.map_eq_some_iff] at hs
        obtain ⟨s₁, h₁, hs⟩ := hs
        cases hs
        have hself : (s₁.thr t).frames = (s.thr t).frames := by
          rw [requeue_thr_self h₁ (by simp [hpc])]
        exact .inl (inBranch_of_frames hb hself rfl)
      · cases hs
        exact .inl (inBranch_of_frames hb rfl rfl)
  | _ =>
      simp only [run, hpc] at hs
      first
        | (cases hs; exact .inl (inBranch_of_frames hb rfl rfl))
        | (split at hs <;> cases hs <;> exact .inl (inBranch_of_frames hb rfl rfl))

omit [Fintype Thr] [DecidableEq Mtx] in
/-- Only a thread inside the branch writes the two fields. -/
theorem CondEffect.closed (h : CondEffect s t s' es) (hout : ¬ (s.thr t).InBranch c) :
    (s'.cond c).useChild = (s.cond c).useChild ∧ (s'.cond c).parent = (s.cond c).parent := by
  -- `hat`: a write to one condition; `hne`: `t` is not in the branch of `c`
  have hat : ∀ {d : Cnd} (v : FastsyncCond Mtx Cnd), s'.cond = Function.update s.cond d v →
      (c = d → v.useChild = (s.cond d).useChild) → v.parent = (s.cond d).parent →
      (s'.cond c).useChild = (s.cond c).useChild ∧
        (s'.cond c).parent = (s.cond c).parent := by
    intro d v hc huse hp
    rw [hc]
    by_cases hcd : c = d
    · subst hcd
      rw [Function.update_self]
      exact ⟨huse rfl, hp⟩
    · rw [Function.update_of_ne hcd]
      exact ⟨rfl, rfl⟩
  have hne : ∀ {d : Cnd}, (s.thr t).pc.branch = some d → c ≠ d := by
    rintro d hd rfl
    exact hout (.inr hd)
  cases h with
  | quiet _ hc _ _ =>
      rw [hc]
      exact ⟨rfl, rfl⟩
  | @bind d m _ _ hs =>
      subst hs
      exact hat { s.cond d with mutex := some m } rfl (fun _ => rfl) rfl
  | @mark d p m hpc hs =>
      subst hs
      have hcd : c ≠ d := hne (by rw [hpc]; rfl)
      exact hat { s.cond d with useChild := 1 } rfl (fun e => absurd e hcd) rfl
  | snap _ hs =>
      subst hs
      exact ⟨rfl, rfl⟩
  | load _ hs =>
      subst hs
      exact ⟨rfl, rfl⟩
  | @store d m v _ hs =>
      subst hs
      exact hat { s.cond d with seq := v + 1 } rfl (fun _ => rfl) rfl
  | @clear d m hpc hs =>
      subst hs
      have hcd : c ≠ d := hne (by rw [hpc]; rfl)
      exact hat { s.cond d with useChild := 0 } rfl (fun e => absurd e hcd) rfl
  | @add d pc _ hs =>
      subst hs
      exact hat { s.cond d with seq := (s.cond d).seq + 1 } rfl (fun _ => rfl) rfl

theorem OffBranch.run {pick : Option Thr} (hl : Local s) (h : OffBranch c s)
    (hs : run s t pick = some (s', es)) : OffBranch c s' := by
  constructor
  · obtain ⟨huse, hp⟩ := (run_cond hs).closed (h.outside t)
    rw [huse, hp]
    exact h.closed
  · intro u hu
    by_cases hut : u = t
    · subst hut
      rcases run_inBranch hs hu with hin | ⟨m, p, -, huse, hp⟩
      · exact h.outside u hin
      -- whoever enters has read 0 and a parent, and one of the two is not there
      · rcases h.closed with hne | hnone
        · exact hne huse
        · rw [hp] at hnone
          cases hnone
    · exact h.outside u ((run_moved hl hs hut).inBranch hu)

/-- **A closed branch stays closed.** -/
theorem OffBranch.step {a : Act Thr Mtx Cnd} (hl : Local s) (h : OffBranch c s)
    (hs : step s a = some (s', es)) : OffBranch c s' := by
  cases a with
  | run t pick => exact h.run hl hs
  | spurious t =>
      obtain ⟨-, rfl, rfl⟩ := step_spurious hs
      have hcond := wake_cond s t
      refine ⟨by rw [hcond]; exact h.closed, fun u hu => ?_⟩
      exact h.outside u ((wake_thr s t u).inBranch hu)
  | call t call =>
      obtain ⟨-, rfl, rfl⟩ := step_call hs
      refine ⟨h.closed, fun u hu => ?_⟩
      by_cases hut : u = t
      · subst hut
        exact h.outside u (inBranch_of_frames hu rfl (branch_entry call))
      · simp only [State.setThr, Function.update_of_ne hut] at hu
        exact h.outside u hu

omit [DecidableEq Thr] [Fintype Thr] [DecidableEq Mtx] [DecidableEq Cnd] in
theorem OffBranch.init {mem : Mtx → FastsyncMutex} {cond : Cnd → FastsyncCond Mtx Cnd}
    (h : (cond c).useChild ≠ 0 ∨ (cond c).parent = none) :
    OffBranch c (State.init mem cond : State Thr Mtx Cnd) := by
  refine ⟨h, fun u hu => ?_⟩
  rcases hu with hf | hb
  · cases hf
  · cases hb

theorem Runs.offBranch {mem : Mtx → FastsyncMutex} {cond : Cnd → FastsyncCond Mtx Cnd}
    {tr : List (Ev Thr Mtx Cnd)} (h : Runs mem cond tr s)
    (hc : (cond c).useChild ≠ 0 ∨ (cond c).parent = none) : OffBranch c s := by
  refine Run.invariant (P := fun _ s => OffBranch c s) (OffBranch.init hc) ?_ h
  intro tr s es s' hr hoff hs
  obtain ⟨a, ha⟩ := hs
  exact hoff.step (Runs.local hr) ha

end Branch

end Reeact.Sync
