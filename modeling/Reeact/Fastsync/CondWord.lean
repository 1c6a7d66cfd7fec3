import Reeact.Fastsync.CondBranch
import Reeact.Fastsync.CondRelease

/-!
# fastsync_cond — which signals a waiter about to sleep sees

`seq` has 64 bits, `cur_seq` is an `int`, and `FUTEX_WAIT` compares the low
word. On a condition without a parent `seq` is only ever moved by the atomic
additions of signal and broadcast, so the word is ahead of `cur_seq` by
exactly the number of moves, modulo 2³² (`WordOk`).
-/

namespace Reeact.Sync

open Transition

variable {Thr Mtx Cnd : Type} [DecidableEq Thr] [Fintype Thr] [DecidableEq Mtx]
  [DecidableEq Cnd]

/-! ## The word, move by move -/

/-- The word of `c` is ahead of what a waiter has read by the moves since. -/
def WordOk (c : Cnd) (tr : List (Ev Thr Mtx Cnd)) (s : State Thr Mtx Cnd) : Prop :=
  ∀ t cur, (s.thr t).pc.window = some (c, cur) →
    (s.cond c).word = cur + BitVec.ofNat 32 (missed t c tr)

/-- The word is back where it was after a multiple of 2³² moves, and only then. -/
theorem add_ofNat_eq_self (cur : BitVec 32) (n : ℕ) :
    cur + BitVec.ofNat 32 n = cur ↔ 2 ^ 32 ∣ n := by
  constructor
  · intro e
    have hz : BitVec.ofNat 32 n = 0 := by
      apply (BitVec.add_right_inj cur).mp
      rw [e]
      exact (BitVec.add_zero cur).symm
    have hmod : n % 2 ^ 32 = 0 := by simpa using congrArg BitVec.toNat hz
    exact Nat.dvd_of_mod_eq_zero hmod
  · rintro ⟨k, rfl⟩
    have hz : BitVec.ofNat 32 (2 ^ 32 * k) = 0 := by
      apply BitVec.eq_of_toNat_eq
      simp
    rw [hz]
    exact BitVec.add_zero cur

omit [DecidableEq Mtx] [DecidableEq Cnd] in
theorem word_succ (cond : FastsyncCond Mtx Cnd) :
    ({ cond with seq := cond.seq + 1 } : FastsyncCond Mtx Cnd).word = cond.word + 1 := by
  show (cond.seq + 1).setWidth 32 = cond.seq.setWidth 32 + 1
  rw [BitVec.setWidth_add _ _ (by decide)]
  rfl

section Word

variable {s s' : State Thr Mtx Cnd} {t : Thr} {tr es : List (Ev Thr Mtx Cnd)} {c : Cnd}

omit [Fintype Thr] [DecidableEq Mtx] in
/-- Nobody starts to wait, and the word moves with the count. -/
theorem WordOk.keep (h : WordOk c tr s)
    (hwin : ∀ u, (s'.thr u).pc.window = none ∨ (s'.thr u).pc.window = (s.thr u).pc.window)
    {n : ℕ} (hword : (s'.cond c).word = (s.cond c).word + BitVec.ofNat 32 n)
    (hmiss : ∀ u, missed u c (tr ++ es) = missed u c tr + n) : WordOk c (tr ++ es) s' := by
  intro u cur hu
  rcases hwin u with hn | hs
  · rw [hn] at hu
    cases hu
  · rw [hs] at hu
    rw [hword, h u cur hu, hmiss, BitVec.ofNat_add, BitVec.add_assoc]

omit [Fintype Thr] [DecidableEq Mtx] in
/-- The word and the count stay. -/
theorem WordOk.frame (h : WordOk c tr s) (hes : ∀ e ∈ es, e.NoSeq)
    (hwin : ∀ u, (s'.thr u).pc.window = none ∨ (s'.thr u).pc.window = (s.thr u).pc.window)
    (hword : (s'.cond c).word = (s.cond c).word) : WordOk c (tr ++ es) s' := by
  apply h.keep hwin (n := 0)
  · rw [hword]
    exact (BitVec.add_zero _).symm
  · exact fun u => missed_noSeq hes u c tr

theorem WordOk.run {pick : Option Thr} (hl : Local s) (hoff : OffBranch c s)
    (h : WordOk c tr s) (hs : run s t pick = some (s', es)) : WordOk c (tr ++ es) s' := by
  have hmoved : ∀ u, u ≠ t → Moved s.cond (s.thr u) (s'.thr u) := fun u hu => run_moved hl hs hu
  have hwin := windows_of_moved hmoved
  cases run_cond hs with
  | quiet hes hc hw _ => exact h.frame hes (hwin hw) (by rw [hc])
  | @bind d m _ _ hs' =>
      apply h.frame (by simp) (hwin (.inl (by rw [thr_of_setThr hs']; rfl)))
      rw [hs']
      exact word_update s.cond d (v := { s.cond d with mutex := some m }) rfl c
  | @mark d p m _ hs' =>
      apply h.frame (by simp) (hwin (.inl (by rw [thr_of_setThr hs']; rfl)))
      rw [hs']
      exact word_update s.cond d (v := { s.cond d with useChild := 1 }) rfl c
  | @clear d m _ hs' =>
      apply h.frame (by simp) (hwin (.inl (by rw [thr_of_setThr hs']; exact (plain_leave _ m 0).1)))
      rw [hs']
      exact word_update s.cond d (v := { s.cond d with useChild := 0 }) rfl c
  | @load d m _ hs' =>
      apply h.frame (by simp) (hwin (.inl (by rw [thr_of_setThr hs']; rfl)))
      rw [hs']
      rfl
  | @store d m v hpc hs' =>
      -- `cond->seq++` is for the leader of a parent branch
      have hcd : c ≠ d := by
        rintro rfl
        exact hoff.outside t (.inr (by rw [hpc]; rfl))
      apply h.keep (hwin (.inl (by rw [thr_of_setThr hs']; rfl))) (n := 0)
      · rw [hs']
        show (Function.update s.cond d _ c).word = _
        rw [Function.update_of_ne hcd]
        exact (BitVec.add_zero _).symm
      · intro u
        rw [missed_bump, if_neg hcd.symm]
        rfl
  | @add d pc hor hs' =>
      have hnone : (s'.thr t).pc.window = none := by
        rw [thr_of_setThr hs']
        rcases hor with ⟨-, rfl⟩ | ⟨-, rfl⟩ <;> rfl
      by_cases hcd : c = d
      · subst hcd
        apply h.keep (hwin (.inl hnone)) (n := 1)
        · rw [hs']
          show (Function.update s.cond c _ c).word = _
          rw [Function.update_self]
          exact word_succ (s.cond c)
        · intro u
          rw [missed_bump, if_pos rfl]
      · apply h.keep (hwin (.inl hnone)) (n := 0)
        · rw [hs']
          show (Function.update s.cond d _ c).word = _
          rw [Function.update_of_ne hcd]
          exact (BitVec.add_zero _).symm
        · intro u
          rw [missed_bump, if_neg (Ne.symm hcd)]
          rfl
  | @snap d m _ hs' =>
      -- the read itself: the count starts again at 0
      have hcond : s'.cond = s.cond := by
        rw [hs']
        rfl
      intro u cur hu
      rw [hcond]
      by_cases hut : u = t
      · subst hut
        rw [thr_of_setThr hs'] at hu
        cases hu
        rw [missed_snap, if_pos ⟨rfl, rfl⟩]
        exact (BitVec.add_zero _).symm
      · rw [(hmoved u hut).window] at hu
        rw [missed_snap, if_neg (fun e => hut e.1.symm)]
        exact h u cur hu

theorem WordOk.step {a : Act Thr Mtx Cnd} (hl : Local s) (hoff : OffBranch c s)
    (h : WordOk c tr s) (hs : step s a = some (s', es)) : WordOk c (tr ++ es) s' := by
  cases a with
  | run t pick => exact h.run hl hoff hs
  | spurious t =>
      obtain ⟨-, rfl, rfl⟩ := step_spurious hs
      apply h.frame (by simp) (fun u => .inr (wake_thr s t u).window)
      rw [wake_cond]
  | call t call =>
      obtain ⟨-, rfl, rfl⟩ := step_call hs
      refine h.frame (by simp [Ev.NoSeq]) (fun u => ?_) rfl
      by_cases hut : u = t
      · subst hut
        left
        simp only [State.setThr, Function.update_self]
        exact (plain_entry call).1
      · right
        simp only [State.setThr, Function.update_of_ne hut]

theorem Runs.wordOk {mem : Mtx → FastsyncMutex} {cond : Cnd → FastsyncCond Mtx Cnd}
    (h : Runs mem cond tr s) (hp : (cond c).parent = none) : WordOk c tr s := by
  refine Run.invariant (P := WordOk c) (fun t cur ht => by cases ht) ?_ h
  intro tr s es s' hr hw hs
  obtain ⟨a, ha⟩ := hs
  exact hw.step (Runs.local hr) (Runs.offBranch hr (.inr hp)) ha

end Word

/-! ## The law -/

/-- **A waiter about to sleep sees every number of signals but the multiples
of 2³²**: after `n` moves of `seq` since it was read, `FUTEX_WAIT` puts the
waiter to sleep if 2³² divides `n`, and else lets it go on to the mutex. -/
theorem futex_wait_sleeps_iff (mem : Mtx → FastsyncMutex) (cond : Cnd → FastsyncCond Mtx Cnd)
    {tr : List (Ev Thr Mtx Cnd)} {s : State Thr Mtx Cnd} (h : Runs mem cond tr s) {c : Cnd}
    (hp : (cond c).parent = none) {t : Thr} {m : Mtx} {curSeq : BitVec 32}
    (ht : (s.thr t).pc = .waitFutex c m curSeq) (pick : Option Thr) :
    ∃ s', step s (.run t pick) = some (s', [.futexWait t c]) ∧
      ((s'.thr t).pc = .asleep (.cond c) m ↔ 2 ^ 32 ∣ missed t c tr) ∧
      (¬ 2 ^ 32 ∣ missed t c tr → (s'.thr t).pc = .xchg m) := by
  have hword : (s.cond c).word = curSeq + BitVec.ofNat 32 (missed t c tr) :=
    h.wordOk hp t curSeq (by rw [ht]; rfl)
  by_cases hn : 2 ^ 32 ∣ missed t c tr
  · have hsame : (s.cond c).word = curSeq := hword.trans ((add_ofNat_eq_self _ _).mpr hn)
    refine ⟨s.goto t (.asleep (.cond c) m), ?_, ?_, fun hno => absurd hn hno⟩
    · simp only [Sync.step, run, ht, hsame, if_true]
    · have hpc : ((s.goto t (.asleep (.cond c) m)).thr t).pc = .asleep (.cond c) m := by
        simp only [State.goto, State.setThr, Function.update_self, Thread.goto]
      exact ⟨fun _ => hn, fun _ => hpc⟩
  · have hdiff : (s.cond c).word ≠ curSeq := by
      intro e
      exact hn ((add_ofNat_eq_self _ _).mp (hword.symm.trans e))
    have hpc : ((s.goto t (.xchg m)).thr t).pc = .xchg m := by
      simp only [State.goto, State.setThr, Function.update_self, Thread.goto]
    refine ⟨s.goto t (.xchg m), ?_, ?_, fun _ => hpc⟩
    · simp only [Sync.step, run, ht, hdiff, if_false]
    · rw [hpc]
      constructor
      · intro e
        cases e
      · exact fun hd => absurd hd hn

/-- One signal between the reading of `seq` and the `FUTEX_WAIT`. -/
theorem futex_wait_sees_signal : ∃ (tr : List (Ev (Fin 2) Unit Unit))
    (s s' : State (Fin 2) Unit Unit), missed 0 () tr = 1 ∧
      step s (.run 0 none) = some (s', [.futexWait 0 ()]) ∧ (s'.thr 0).pc = .xchg () := by
  have hout : (exec step (State.init oneMutex (treeCond oneNode) : State (Fin 2) Unit Unit)
      (goWait () 7 ++ [.call 1 (.signal (some ())), .run 1 none])).map (fun p =>
        ((p.1.thr 0).pc, missed 0 () p.2)) = some (.waitFutex () () 0, 1) := by decide
  obtain ⟨s, tr, hr, hv⟩ := run_of_outcome _ _ hout
  simp only [Prod.mk.injEq] at hv
  obtain ⟨hpc, hmiss⟩ := hv
  obtain ⟨s', hs, -, hgo⟩ := futex_wait_sleeps_iff oneMutex (treeCond oneNode) hr rfl hpc none
  refine ⟨tr, s, s', hmiss, hs, hgo ?_⟩
  rw [hmiss]
  decide

/-- After 2³² signals the waiter goes to sleep on a condition that has been
signalled. -/
theorem futex_wait_misses_wrap :
    ¬ ∀ (tr : List (Ev (Fin 2) Unit Unit)) (s s' : State (Fin 2) Unit Unit) (t : Fin 2)
        (curSeq : BitVec 32) (pick : Option (Fin 2)),
      Runs oneMutex (treeCond oneNode) tr s → (s.thr t).pc = .waitFutex () () curSeq →
      1 ≤ missed t () tr → step s (.run t pick) = some (s', [.futexWait t ()]) →
      (s'.thr t).pc ≠ .asleep (.cond ()) () := by
  intro hall
  have hout : (exec (treeStep ()) (State.init oneMutex (treeCond oneNode) :
      State (Fin 2) Unit Unit) (goWait () 7)).map (fun p =>
        ((p.1.cond ()).seq, (p.1.thr 0).pc, (p.1.thr 0).frames, (p.1.thr 1).pc,
          (p.1.thr 1).frames, missed 0 () p.2)) =
      some (0, .waitFutex () () 0, [], .idle, [], 0) := rfl
  obtain ⟨s, tr, hr, hv⟩ := run_of_outcome _ _ hout
  simp only [Prod.mk.injEq] at hv
  obtain ⟨hseq, hw, hwf, hi, hif, hmiss⟩ := hv
  obtain ⟨tr', s₁, hr₁, hrace, -, hcount⟩ := (Racing.mk hseq hw hwf hi hif).signals 4294967296
  have hn : missed 0 () (tr ++ tr') = 4294967296 := by rw [hcount, hmiss]
  have hrun : Runs oneMutex (treeCond oneNode) (tr ++ tr') s₁ := TreeRuns.runs (hr.append hr₁)
  have hword : (s₁.cond ()).word = 0 := by
    rw [FastsyncCond.word, hrace.seq]
    decide
  have hstep : step s₁ (.run 0 none) =
      some (s₁.goto 0 (.asleep (.cond ()) ()), [.futexWait 0 ()]) := by
    simp [step, run, hrace.waiter, hword]
  refine hall (tr ++ tr') s₁ _ 0 0 none hrun hrace.waiter (by rw [hn]; decide) hstep ?_
  simp [State.goto, State.setThr, Thread.goto]

end Reeact.Sync
