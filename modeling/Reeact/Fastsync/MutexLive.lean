import Reeact.Fastsync.CondCall
import Reeact.Lib.Fair

/-!
# fastsync_mutex — a wanted mutex is acquired

Under a scheduler that does not put off an awake thread for ever, and if
whoever holds the mutex gives it up some day, a mutex that somebody wants is
acquired, again and again. It need not be acquired by the one who wants it:
the mutex is free of deadlock, not of starvation.
-/

namespace Reeact.Sync

open Transition

variable {Thr Mtx Cnd : Type} [DecidableEq Thr] [Fintype Thr] [DecidableEq Mtx]
  [DecidableEq Cnd]

/-- The infinite runs of any threads over any mutexes and conditions. -/
abbrev Paths (Thr : Type) {Mtx Cnd : Type} [DecidableEq Thr] [Fintype Thr] [DecidableEq Mtx]
    [DecidableEq Cnd] (mem : Mtx → FastsyncMutex) (cond : Cnd → FastsyncCond Mtx Cnd) :=
  Path step (State.init mem cond : State Thr Mtx Cnd)

/-- Inside a call, and not in a futex queue. -/
def Awake (t : Thr) (s : State Thr Mtx Cnd) : Prop :=
  (s.thr t).pc ≠ .idle ∧ ∀ q m, (s.thr t).pc ≠ .asleep q m

section Paths

variable {mem : Mtx → FastsyncMutex} {cond : Cnd → FastsyncCond Mtx Cnd} {p : Paths Thr mem cond}

/-- No thread that stays awake inside a call is put off for ever. -/
def FairRun (p : Paths Thr mem cond) : Prop := ∀ t, p.Fair (Awake t) (fun a => a.runs t = true)

theorem Paths.local (p : Paths Thr mem cond) (i : ℕ) : Local (p.state i) := Runs.local (p.run i)

theorem Paths.lock (p : Paths Thr mem cond) (i : ℕ) (m : Mtx) :
    FutexLock.Inv (view m (p.state i)) := Runs.lock (p.run i) m

/-- **An awake thread takes its next step** from the very position it is in. -/
theorem FairRun.moves (hf : FairRun p) {t : Thr} {i : ℕ} {th : Thread Mtx Cnd}
    (hi : (p.state i).thr t = th) (hin : th.pc ≠ .idle) (hawake : ∀ q m, th.pc ≠ .asleep q m) :
    ∃ j pick es, i ≤ j ∧ (p.state j).thr t = th ∧
      run (p.state j) t pick = some (p.state (j + 1), es) ∧ p.trace (j + 1) = p.trace j ++ es := by
  obtain ⟨j, a, hij, hj, ha, hown⟩ := (hf t).moves_from (fun s => s.thr t) (v := th)
    (fun s hs => ⟨by rw [hs]; exact hin, by rw [hs]; exact hawake⟩)
    (by
      intro j a es ha hs hth
      have hm := step_moved (p.local j) hs (by simpa using ha) (by rw [hth]; exact hin)
      rw [hth] at hm
      generalize hth' : (p.state (j + 1)).thr t = th' at hm ⊢
      cases hm with
      | same => rfl
      | woken hpc => exact absurd hpc (hawake _ _)
      | requeued hpc _ => exact absurd hpc (hawake _ _)) hi
  obtain ⟨es, hs, ht⟩ := p.take j _ ha
  cases a with
  | call u c => cases hown
  | spurious u => cases hown
  | run u pick =>
      obtain rfl : u = t := by simpa [Act.runs] using hown
      exact ⟨j, pick, es, hij, hj, hs, ht⟩

end Paths

/-! ## Who wants a mutex -/

/-- In lock, or in wait to re-acquire it. -/
def Pc.Wants (m : Mtx) : Pc Mtx Cnd → Prop
  | .lockFor m' _ | .xchg m' | .mutexWait m' => m' = m
  | .asleep (.mutex m') _ => m' = m
  | _ => False

/-- How often `m` has been acquired. -/
def acquisitions (m : Mtx) (tr : List (Ev Thr Mtx Cnd)) : ℕ :=
  tr.countP (fun e => match e with
    | .acquire _ m' => m' = m
    | _ => false)

omit [DecidableEq Thr] [Fintype Thr] [DecidableEq Cnd] in
theorem acquisitions_append_lt {m : Mtx} {tr es : List (Ev Thr Mtx Cnd)} {t : Thr}
    (h : .acquire t m ∈ es) : acquisitions m tr < acquisitions m (tr ++ es) := by
  simp only [acquisitions, List.countP_append]
  have hpos : 0 < es.countP (fun e => match e with
    | .acquire _ m' => decide (m' = m)
    | _ => false) := List.countP_pos_iff.mpr ⟨_, h, by simp⟩
  omega

omit [DecidableEq Thr] [Fintype Thr] [DecidableEq Cnd] in
theorem acquisitions_mono {m : Mtx} {tr tr' : List (Ev Thr Mtx Cnd)} (h : tr <+: tr') :
    acquisitions m tr ≤ acquisitions m tr' := h.sublist.countP_le

section Step

variable {s s' : State Thr Mtx Cnd} {t : Thr} {es : List (Ev Thr Mtx Cnd)} {pick : Option Thr}

omit [Fintype Thr] [DecidableEq Mtx] [DecidableEq Cnd] in
theorem goto_held (s : State Thr Mtx Cnd) (t : Thr) (pc : Pc Mtx Cnd) :
    ((s.goto t pc).thr t).held = (s.thr t).held := by
  rw [State.goto, setThr_thr]
  rfl

/-- Who holds a mutex after a step of its own has held it before, or acquires
it with the step. -/
theorem run_held (hs : run s t pick = some (s', es)) {m : Mtx} (hm : (s'.thr t).held m = true) :
    (s.thr t).held m = true ∨ .acquire t m ∈ es := by
  have htake : ∀ m', ((s.thr t).take m').held m = true →
      (s.thr t).held m = true ∨ (.acquire t m : Ev Thr Mtx Cnd) ∈ [.acquire t m'] := by
    intro m' h
    by_cases hmm : m' = m
    · exact .inr (by rw [hmm]; exact List.mem_singleton.mpr rfl)
    · rw [held_take_ne _ hmm] at h
      exact .inl h
  have hdrop : ∀ m', ((s.thr t).drop m').held m = true → (s.thr t).held m = true := by
    intro m' h
    by_cases hmm : m' = m
    · subst hmm
      simp only [Thread.drop, Function.update_self] at h
      cases h
    · rw [held_drop_ne _ hmm] at h
      exact h
  -- nothing but the position changes
  have hgoto : ∀ {s₁ : State Thr Mtx Cnd} {pc : Pc Mtx Cnd}, s₁.thr t = s.thr t →
      ((s₁.goto t pc).thr t).held m = true → (s.thr t).held m = true ∨ .acquire t m ∈ es := by
    intro s₁ pc hself h
    rw [goto_held, hself] at h
    exact .inl h
  cases hpc : (s.thr t).pc with
  | idle => simp [run, hpc] at hs
  | asleep q m' => simp [run, hpc] at hs
  | lockFor m' i =>
      simp only [run, hpc] at hs
      split at hs <;> cases hs
      · rw [setThr_thr] at hm
        exact htake m' hm
      · exact hgoto rfl hm
  | xchg m' =>
      simp only [run, hpc] at hs
      split at hs <;> cases hs
      · rw [setThr_thr, held_leave] at hm
        exact htake m' hm
      · exact hgoto rfl hm
  | tryFor m' =>
      simp only [run, hpc] at hs
      split at hs <;> cases hs
      · rw [setThr_thr] at hm
        exact htake m' hm
      · exact hgoto rfl hm
  | unlockCas m' k =>
      simp only [run, hpc] at hs
      split at hs <;> cases hs
      · rw [setThr_thr, held_unlocked] at hm
        exact .inl (hdrop m' hm)
      · exact hgoto rfl hm
  | unlockAnd m' k =>
      simp only [run, hpc] at hs
      cases hs
      rw [setThr_thr] at hm
      exact .inl (hdrop m' hm)
  | unlockPoll m' k i =>
      simp only [run, hpc] at hs
      split at hs <;> cases hs
      · exact hgoto rfl hm
      · rw [setThr_thr, held_unlocked] at hm
        exact .inl hm
  | unlockWake m' k =>
      simp only [run, hpc, Option.map_eq_some_iff] at hs
      obtain ⟨s₁, h₁, hs⟩ := hs
      cases hs
      rw [setThr_thr, held_unlocked] at hm
      exact .inl hm
  | waitNull c m' =>
      simp only [run, hpc] at hs
      split at hs <;> cases hs
      · exact hgoto rfl hm
      · rw [setThr_thr, held_leave] at hm
        exact .inl hm
  | waitCas c m' =>
      simp only [run, hpc] at hs
      split at hs <;> cases hs
      · exact hgoto rfl hm
      · rw [setThr_thr, held_leave] at hm
        exact .inl hm
  | waitUseChild c m' =>
      simp only [run, hpc] at hs
      split at hs
      · split at hs <;> cases hs <;> exact hgoto rfl hm
      · cases hs
        exact hgoto rfl hm
  | waitSetChild c m' q =>
      simp only [run, hpc] at hs
      cases hs
      rw [setThr_thr] at hm
      exact .inl hm
  | waitRequeue c m' =>
      simp only [run, hpc, Option.map_eq_some_iff] at hs
      obtain ⟨s₁, h₁, hs⟩ := hs
      cases hs
      exact hgoto (requeue_thr_self h₁ (by simp [hpc])) hm
  | waitClearChild c m' =>
      simp only [run, hpc] at hs
      cases hs
      rw [setThr_thr, held_leave] at hm
      exact .inl hm
  | signalWake c =>
      simp only [run, hpc, Option.map_eq_some_iff] at hs
      obtain ⟨s₁, h₁, hs⟩ := hs
      cases hs
      exact hgoto (wakeOne_thr_self h₁ (by simp [hpc])) hm
  | broadcastRequeue c =>
      simp only [run, hpc] at hs
      split at hs
      · simp only [Option.map_eq_some_iff] at hs
        obtain ⟨s₁, h₁, hs⟩ := hs
        cases hs
        exact hgoto (requeue_thr_self h₁ (by simp [hpc])) hm
      · cases hs
        exact hgoto rfl hm
  | ret v =>
      simp only [run, hpc] at hs
      cases hs
      rw [setThr_thr] at hm
      exact .inl hm
  | mutexWait m' | unlockRead m' k | waitMutex c m' | waitFutex c m' curSeq | broadcastMutex c =>
      simp only [run, hpc] at hs
      split at hs <;> cases hs <;> exact hgoto rfl hm
  | unlockClear m' k | waitSeqLoad c m' | waitSeqStore c m' v | waitCurSeq c m' | signalAdd c
  | broadcastAdd c | counterLoad m' | counterStore m' v =>
      simp only [run, hpc] at hs
      cases hs
      exact hgoto rfl hm

theorem step_held {a : Act Thr Mtx Cnd} (hl : Local s) (hs : step s a = some (s', es)) {u : Thr}
    {m : Mtx} (hm : (s'.thr u).held m = true) :
    (s.thr u).held m = true ∨ .acquire u m ∈ es := by
  by_cases hown : a.runs u = true
  · cases a with
    | call v c => cases hown
    | spurious v => cases hown
    | run v pick =>
        obtain rfl : v = u := by simpa [Act.runs] using hown
        exact run_held hs hm
  · left
    cases a with
    | call v c =>
        obtain ⟨-, rfl, -⟩ := step_call hs
        by_cases huv : u = v
        · subst huv
          rw [setThr_thr] at hm
          exact hm
        · simpa only [State.setThr, Function.update_of_ne huv] using hm
    | spurious v =>
        obtain ⟨-, rfl, -⟩ := step_spurious hs
        rwa [(wake_thr s v u).held] at hm
    | run v pick =>
        have huv : u ≠ v := by
          rintro rfl
          simp [Act.runs] at hown
        rwa [(run_moved hl hs huv).held] at hm

/-- A thread that wants a mutex goes on wanting it until it acquires it. -/
theorem step_wants {a : Act Thr Mtx Cnd} (hl : Local s) (hs : step s a = some (s', es)) {u : Thr}
    {m : Mtx} (hw : (s.thr u).pc.Wants m) :
    (s'.thr u).pc.Wants m ∨ .acquire u m ∈ es := by
  have hidle : (s.thr u).pc ≠ .idle := by
    intro e
    rw [e] at hw
    exact hw
  by_cases hown : a.runs u = true
  · cases a with
    | call v c => cases hown
    | spurious v => cases hown
    | run v pick =>
        obtain rfl : v = u := by simpa [Act.runs] using hown
        simp only [step] at hs
        cases hpc : (s.thr v).pc with
        | lockFor m' i =>
            rw [hpc] at hw
            obtain rfl : m' = m := hw
            simp only [run, hpc] at hs
            split at hs <;> cases hs
            · exact .inr (List.mem_singleton.mpr rfl)
            · left
              rw [State.goto, setThr_thr]
              simp only [Thread.goto, lockLoop]
              split <;> rfl
        | xchg m' =>
            rw [hpc] at hw
            obtain rfl : m' = m := hw
            simp only [run, hpc] at hs
            split at hs <;> cases hs
            · exact .inr (List.mem_singleton.mpr rfl)
            · left
              rw [State.goto, setThr_thr]
              rfl
        | mutexWait m' =>
            rw [hpc] at hw
            obtain rfl : m' = m := hw
            simp only [run, hpc] at hs
            left
            split at hs <;> cases hs <;> (rw [State.goto, setThr_thr]; rfl)
        | asleep q m' => simp [run, hpc] at hs
        | _ =>
            rw [hpc] at hw
            exact hw.elim
  · left
    have hm := step_moved hl hs (by simpa using hown) hidle
    generalize hth : s'.thr u = th at hm ⊢
    cases hm with
    | same => exact hw
    | @woken q m' hpc =>
        have hok := hl u
        rw [ThreadOk, hpc] at hok
        rw [hpc] at hw
        cases q with
        | mutex m'' => exact hok.1.symm.trans hw
        | cond c => exact hw.elim
    | requeued hpc _ =>
        rw [hpc] at hw
        exact hw.elim

end Step

/-! ## A free mutex that is wanted -/

section Free

variable {mem : Mtx → FastsyncMutex} {cond : Cnd → FastsyncCond Mtx Cnd} {p : Paths Thr mem cond}
  {m : Mtx}

/-- Nobody holds a mutex whose bit 0 is clear, and conversely. -/
theorem Paths.free_iff (p : Paths Thr mem cond) (i : ℕ) :
    ((p.state i).mutex m).state &&& 1 = 0 ↔ ∀ u, ((p.state i).thr u).held m = false := by
  have hlocked := (p.lock i m).locked
  constructor
  · intro hfree u
    by_contra hu
    refine hlocked.mpr ⟨u, ?_⟩ hfree
    show ((p.state i).thr u).held m = true
    simpa using hu
  · intro hnone
    by_contra htaken
    obtain ⟨u, hu⟩ := hlocked.mp htaken
    rw [show (view m (p.state i)).held u = _ from hnone u] at hu
    cases hu

section Untaken

variable {i : ℕ}

/-- Nobody ever holds the mutex from the instant `i` on. -/
def Paths.Untaken (p : Paths Thr mem cond) (m : Mtx) (i : ℕ) : Prop :=
  ∀ j u, i ≤ j → ((p.state j).thr u).held m = false

theorem Paths.Untaken.free (hno : p.Untaken m i) {j : ℕ} (hij : i ≤ j) :
    ((p.state j).mutex m).state &&& 1 = 0 :=
  (p.free_iff j).mpr (fun u => hno j u hij)

/-- Then nobody is about to try it, -/
theorem FairRun.not_lockFor (hf : FairRun p) (hno : p.Untaken m i) {j : ℕ} (hij : i ≤ j) (u : Thr)
    (n : ℕ) : ((p.state j).thr u).pc ≠ .lockFor m n := by
  intro hpc
  obtain ⟨l, pick, es, hjl, hl, hs, -⟩ := hf.moves (rfl : _ = (p.state j).thr u)
    (by simp [hpc]) (by simp [hpc])
  simp only [run, hl, hpc, if_pos (hno.free (Nat.le_trans hij hjl)), Option.some.injEq,
    Prod.mk.injEq] at hs
  have hheld : ((p.state (l + 1)).thr u).held m = true := by
    rw [← hs.1, setThr_thr]
    exact Function.update_self ..
  rw [hno (l + 1) u (by omega)] at hheld
  cases hheld

/-- with either instruction, -/
theorem FairRun.not_xchg (hf : FairRun p) (hno : p.Untaken m i) {j : ℕ} (hij : i ≤ j) (u : Thr) :
    ((p.state j).thr u).pc ≠ .xchg m := by
  intro hpc
  obtain ⟨l, pick, es, hjl, hl, hs, -⟩ := hf.moves (rfl : _ = (p.state j).thr u)
    (by simp [hpc]) (by simp [hpc])
  simp only [run, hl, hpc, if_pos (hno.free (Nat.le_trans hij hjl)), Option.some.injEq,
    Prod.mk.injEq] at hs
  have hheld : ((p.state (l + 1)).thr u).held m = true := by
    rw [← hs.1, setThr_thr, held_leave]
    exact Function.update_self ..
  rw [hno (l + 1) u (by omega)] at hheld
  cases hheld

/-- nor about to go to sleep on it, -/
theorem FairRun.not_mutexWait (hf : FairRun p) (hno : p.Untaken m i) {j : ℕ} (hij : i ≤ j)
    (u : Thr) : ((p.state j).thr u).pc ≠ .mutexWait m := by
  intro hpc
  obtain ⟨l, pick, es, hjl, hl, hs, -⟩ := hf.moves (rfl : _ = (p.state j).thr u)
    (by simp [hpc]) (by simp [hpc])
  have hstate : ((p.state l).mutex m).state ≠ 3 := by
    intro e
    have hfree := hno.free (Nat.le_trans hij hjl)
    rw [e] at hfree
    exact absurd hfree (by decide)
  simp only [run, hl, hpc, if_neg hstate, Option.some.injEq, Prod.mk.injEq] at hs
  refine hf.not_xchg hno (by omega : i ≤ l + 1) u ?_
  rw [← hs.1, State.goto, setThr_thr]
  rfl

/-- so that whoever wants it is asleep, -/
theorem FairRun.asleep_of_wants (hf : FairRun p) (hno : p.Untaken m i) {j : ℕ} (hij : i ≤ j)
    {t : Thr} (ht : ((p.state j).thr t).pc.Wants m) :
    ((p.state j).thr t).pc = .asleep (.mutex m) m := by
  have hok := p.local j t
  cases hpc : ((p.state j).thr t).pc with
  | lockFor m' n =>
      rw [hpc] at ht
      obtain rfl : m' = m := ht
      exact absurd hpc (hf.not_lockFor hno hij t n)
  | xchg m' =>
      rw [hpc] at ht
      obtain rfl : m' = m := ht
      exact absurd hpc (hf.not_xchg hno hij t)
  | mutexWait m' =>
      rw [hpc] at ht
      obtain rfl : m' = m := ht
      exact absurd hpc (hf.not_mutexWait hno hij t)
  | asleep q m' =>
      rw [hpc] at ht
      rw [ThreadOk, hpc] at hok
      cases q with
      | cond c => exact ht.elim
      | mutex m'' =>
          obtain rfl : m'' = m := ht
          rw [hok.1]
  | _ =>
      rw [hpc] at ht
      exact ht.elim

/-- and stays so. -/
theorem FairRun.stays_asleep (hf : FairRun p) (hno : p.Untaken m i) {t : Thr}
    (ht : ((p.state i).thr t).pc = .asleep (.mutex m) m) {j : ℕ} (hij : i ≤ j) :
    ((p.state j).thr t).pc = .asleep (.mutex m) m := by
  induction j, hij using Nat.le_induction with
  | base => exact ht
  | succ j hij ih =>
      cases ha : p.act j with
      | none => rw [(p.pass j ha).1, ih]
      | some a =>
          obtain ⟨es, hs, -⟩ := p.take j a ha
          have hown : a.runs t = false := by
            cases a with
            | call u c => rfl
            | spurious u => rfl
            | run u pick =>
                by_contra hu
                obtain rfl : u = t := by simpa [Act.runs] using hu
                simp [step, run, ih] at hs
          have hm := step_moved (p.local j) hs hown (by simp [ih])
          generalize hth : (p.state (j + 1)).thr t = th at hm ⊢
          cases hm with
          | same => exact ih
          | @woken q m' hpc =>
              obtain ⟨-, rfl⟩ : _ ∧ m = m' := by simpa [ih] using hpc
              refine absurd ?_ (hf.not_xchg hno (Nat.le_succ_of_le hij) t)
              rw [hth]
              rfl
          | requeued hpc _ => simp [ih] at hpc

/-- The wake-up of an unlocker would reach some sleeper, -/
theorem FairRun.not_unlockWake (hf : FairRun p) (hno : p.Untaken m i) {t : Thr}
    (ht : ((p.state i).thr t).pc = .asleep (.mutex m) m) {j : ℕ} (hij : i ≤ j) (u : Thr)
    (k : Option (Cnd × BitVec 32)) : ((p.state j).thr u).pc ≠ .unlockWake m k := by
  intro hpc
  obtain ⟨l, pick, es, hjl, hl, hs, -⟩ := hf.moves (rfl : _ = (p.state j).thr u)
    (by simp [hpc]) (by simp [hpc])
  simp only [run, hl, hpc, Option.map_eq_some_iff, Prod.mk.injEq] at hs
  obtain ⟨s₁, h₁, hs, -⟩ := hs
  rcases wakeOne_cases h₁ with ⟨v, m', hv, rfl⟩ | ⟨hnobody, -⟩
  · have hok := p.local l v
    rw [ThreadOk, hv] at hok
    obtain rfl : m = m' := hok.1
    have hvu : v ≠ u := by
      rintro rfl
      rw [hl, hpc] at hv
      cases hv
    refine hf.not_xchg hno (by omega : i ≤ l + 1) v ?_
    rw [← hs]
    simp only [State.setThr, State.goto, Function.update_of_ne hvu, Function.update_self]
    rfl
  · exact hnobody t m (hf.stays_asleep hno ht (Nat.le_trans hij hjl))

/-- and there is none on the way to it. -/
theorem FairRun.not_releasing (hf : FairRun p) (hno : p.Untaken m i) {t : Thr}
    (ht : ((p.state i).thr t).pc = .asleep (.mutex m) m) {j : ℕ} (hij : i ≤ j) (u : Thr)
    (k : Option (Cnd × BitVec 32)) :
    ((p.state j).thr u).pc ≠ .unlockClear m k ∧
      ∀ n, ((p.state j).thr u).pc ≠ .unlockPoll m k n := by
  have hclear : ∀ j, i ≤ j → ((p.state j).thr u).pc ≠ .unlockClear m k := by
    intro j hij hpc
    obtain ⟨l, pick, es, hjl, hl, hs, -⟩ := hf.moves (rfl : _ = (p.state j).thr u)
      (by simp [hpc]) (by simp [hpc])
    simp only [run, hl, hpc, Option.some.injEq, Prod.mk.injEq] at hs
    refine hf.not_unlockWake hno ht (by omega : i ≤ l + 1) u k ?_
    rw [← hs.1, State.goto, setThr_thr]
    rfl
  refine ⟨hclear j hij, fun n hpc => ?_⟩
  obtain ⟨l, pick, es, hjl, hl, hs, -⟩ := hf.moves (rfl : _ = (p.state j).thr u)
    (by simp [hpc]) (by simp [hpc])
  simp only [run, hl, hpc, if_pos (hno.free (Nat.le_trans hij hjl)), Option.some.injEq,
    Prod.mk.injEq] at hs
  refine hclear (l + 1) (by omega) ?_
  rw [← hs.1, State.goto, setThr_thr]
  show (pollLoop m k (n + 1) : Pc Mtx Cnd) = .unlockClear m k
  rw [pollLoop, if_neg (by simp [FASTSYNC_MUTEX_SPIN_LOCK_LOOPS])]

end Untaken

/-- **A free mutex that somebody wants is acquired.** Whoever is about to try
it takes it; a sleeper has somebody who is about to try it, or will wake it. -/
theorem FairRun.acquired_of_wants (hf : FairRun p) {t : Thr} {i : ℕ}
    (ht : ((p.state i).thr t).pc.Wants m) :
    ∃ j u, i ≤ j ∧ ((p.state j).thr u).held m = true := by
  by_contra hnot
  have hno : p.Untaken m i := by
    intro j u hij
    by_contra hu
    exact hnot ⟨j, u, hij, by simpa using hu⟩
  have hasleep := hf.asleep_of_wants hno (Nat.le_refl i) ht
  rcases (p.lock i m).sleeper (role_eq_parked.mpr ⟨m, hasleep⟩) with
    ⟨-, u, hu⟩ | ⟨-, u, hu⟩ | ⟨u, hu⟩ | ⟨u, hu⟩
  · exact hnot ⟨i, u, Nat.le_refl i, hu⟩
  · obtain ⟨k, ⟨n, hpc⟩ | hpc⟩ := role_eq_releasing.mp hu
    · exact (hf.not_releasing hno hasleep (Nat.le_refl i) u k).2 n hpc
    · exact (hf.not_releasing hno hasleep (Nat.le_refl i) u k).1 hpc
  · obtain ⟨k, hpc⟩ := role_eq_waking.mp hu
    exact hf.not_unlockWake hno hasleep (Nat.le_refl i) u k hpc
  · exact hf.not_xchg hno (Nat.le_refl i) u (role_eq_exchanging.mp hu)

end Free

/-! ## Progress -/

section Progress

variable {mem : Mtx → FastsyncMutex} {cond : Cnd → FastsyncCond Mtx Cnd} {p : Paths Thr mem cond}
  {m : Mtx}

/-- As long as nobody acquires it, it has no new holder, -/
theorem Paths.held_back (p : Paths Thr mem cond) {i j : ℕ} (hij : i ≤ j)
    (hno : ∀ l, i ≤ l → acquisitions m (p.trace l) ≤ acquisitions m (p.trace i)) {u : Thr}
    (hu : ((p.state j).thr u).held m = true) : ((p.state i).thr u).held m = true := by
  induction j, hij using Nat.le_induction with
  | base => exact hu
  | succ j hij ih =>
      cases ha : p.act j with
      | none =>
          rw [(p.pass j ha).1] at hu
          exact ih hu
      | some a =>
          obtain ⟨es, hs, ht⟩ := p.take j a ha
          rcases step_held (p.local j) hs hu with hback | hev
          · exact ih hback
          · have hlt : acquisitions m (p.trace j) < acquisitions m (p.trace j ++ es) :=
              acquisitions_append_lt hev
            have hle := hno (j + 1) (by omega)
            have hmono := acquisitions_mono (m := m) (p.trace_prefix hij)
            rw [ht] at hle
            omega

/-- and who wants it goes on wanting it. -/
theorem Paths.wants_on (p : Paths Thr mem cond) {i j : ℕ} (hij : i ≤ j)
    (hno : ∀ l, i ≤ l → acquisitions m (p.trace l) ≤ acquisitions m (p.trace i)) {u : Thr}
    (hu : ((p.state i).thr u).pc.Wants m) : ((p.state j).thr u).pc.Wants m := by
  induction j, hij using Nat.le_induction with
  | base => exact hu
  | succ j hij ih =>
      cases ha : p.act j with
      | none =>
          rw [(p.pass j ha).1]
          exact ih
      | some a =>
          obtain ⟨es, hs, ht⟩ := p.take j a ha
          rcases step_wants (p.local j) hs ih with hon | hev
          · exact hon
          · have hlt : acquisitions m (p.trace j) < acquisitions m (p.trace j ++ es) :=
              acquisitions_append_lt hev
            have hle := hno (j + 1) (by omega)
            have hmono := acquisitions_mono (m := m) (p.trace_prefix hij)
            rw [ht] at hle
            omega

end Progress

/-- **A wanted mutex is acquired, again and again.** In every infinite run of
any threads over any mutexes and conditions under a fair scheduler, in which
no thread holds `m` for ever: whenever a thread is in `fastsync_mutex_lock` of
`m`, or in `fastsync_cond_wait` to re-acquire it, some thread acquires `m`
later. -/
theorem lock_deadlock_free (mem : Mtx → FastsyncMutex) (cond : Cnd → FastsyncCond Mtx Cnd)
    (p : Paths Thr mem cond) (hf : FairRun p) (m : Mtx)
    (hrelease : ∀ i u, ((p.state i).thr u).held m = true →
      ∃ j, i ≤ j ∧ ((p.state j).thr u).held m = false)
    (i : ℕ) (t : Thr) (ht : ((p.state i).thr t).pc.Wants m) :
    ∃ j, i ≤ j ∧ acquisitions m (p.trace i) < acquisitions m (p.trace j) := by
  by_contra hnot
  have hno : ∀ l, i ≤ l → acquisitions m (p.trace l) ≤ acquisitions m (p.trace i) := by
    intro l hil
    by_contra hlt
    exact hnot ⟨l, hil, by omega⟩
  have hfrom : ∀ j, i ≤ j → ∀ l, j ≤ l →
      acquisitions m (p.trace l) ≤ acquisitions m (p.trace j) := fun j hij l hjl =>
    Nat.le_trans (hno l (by omega)) (acquisitions_mono (p.trace_prefix hij))
  -- the holder, if any, gives it up, and nobody holds it any more
  obtain ⟨j, hij, hfree⟩ : ∃ j, i ≤ j ∧ ∀ u, ((p.state j).thr u).held m = false := by
    by_cases hheld : ∃ u, ((p.state i).thr u).held m = true
    · obtain ⟨u, hu⟩ := hheld
      obtain ⟨j, hij, hj⟩ := hrelease i u hu
      refine ⟨j, hij, fun v => ?_⟩
      by_contra hv
      have hv' : ((p.state j).thr v).held m = true := by simpa using hv
      obtain rfl := (p.lock i m).unique v u (p.held_back hij hno hv') hu
      rw [hj] at hv'
      cases hv'
    · exact ⟨i, Nat.le_refl i, fun u => by simpa using fun hu => hheld ⟨u, hu⟩⟩
  obtain ⟨l, u, hjl, hu⟩ := hf.acquired_of_wants (p.wants_on hij hno ht)
  have hback := p.held_back hjl (hfrom j hij) hu
  rw [hfree u] at hback
  cases hback

/-- Thread 1 has waited for the mutex of thread 0, and both have unlocked it. -/
def handoverSchedule : List (Act (Fin 2) Unit Unit) :=
  sleeperSchedule ++ [.call 0 (.unlock (some ()))] ++ List.replicate 4 (.run 0 none) ++
    [.run 0 (some 1), .run 0 none, .run 1 none, .run 1 none, .call 1 (.unlock (some ()))] ++
    List.replicate 4 (.run 1 none) ++ [.run 1 none, .run 1 none]

theorem lock_deadlock_free_handover : ∃ p : Paths (Fin 2) oneMutex oneCond, FairRun p ∧
    ∃ j, 7 ≤ j ∧ acquisitions () (p.trace 7) < acquisitions () (p.trace j) := by
  have hout : (exec step (State.init oneMutex oneCond : State (Fin 2) Unit Unit)
      handoverSchedule).map (fun r =>
        (decide (∀ t, (r.1.thr t).pc = .idle), decide (∀ t, (r.1.thr t).held () = false))) =
      some (true, true) := by decide
  obtain ⟨⟨s, tr⟩, he, hv⟩ := Option.map_eq_some_iff.mp hout
  simp only [Prod.mk.injEq, decide_eq_true_eq] at hv
  have hf : FairRun (Path.ofExec _ he) := fun t => Path.ofExec_fair (fun hr => hr.1 (hv.1 t))
  have hrelease : ∀ i u, (((Path.ofExec _ he).state i).thr u).held () = true →
      ∃ j, i ≤ j ∧ (((Path.ofExec _ he).state j).thr u).held () = false := by
    intro i u _
    refine ⟨max i handoverSchedule.length, Nat.le_max_left _ _, ?_⟩
    rw [(Path.ofExec_end (h := he) (Nat.le_max_right _ _)).1]
    exact hv.2 u
  have hasleep : (((Path.ofExec _ he).state 7).thr 1).pc = .asleep (.mutex ()) () := by
    have hseven : (exec step (State.init oneMutex oneCond : State (Fin 2) Unit Unit)
        (handoverSchedule.take 7)).map (fun r => (r.1.thr 1).pc) =
        some (.asleep (.mutex ()) ()) := by decide
    obtain ⟨r, hr, hpc⟩ := Option.map_eq_some_iff.mp hseven
    rw [Path.ofExec_state hr]
    exact hpc
  have hwants : (((Path.ofExec _ he).state 7).thr 1).pc.Wants () := by
    rw [hasleep]
    rfl
  exact ⟨Path.ofExec _ he, hf, lock_deadlock_free _ _ _ hf () hrelease 7 1 hwants⟩

end Reeact.Sync
