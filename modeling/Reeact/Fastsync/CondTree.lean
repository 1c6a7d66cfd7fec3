import Reeact.Fastsync.MutexLaws
import Reeact.Lib.LeaderTree

/-!
# fastsync_cond — a tree of conditions used with one mutex

The conditions of a tree, all fields zero but `parent`, and threads that wait
on any of them with the one mutex `M`. Signals and broadcasts go to any node,
other mutexes may be in use.
-/

namespace Reeact.Sync

open Transition

variable {Thr Mtx Cnd : Type} [DecidableEq Thr] [Fintype Thr] [DecidableEq Mtx]
  [DecidableEq Cnd]

/-! ## The client -/

/-- The conditions of `T`, initialised, not used yet. -/
def treeCond (T : LeaderTree.Tree Cnd) (c : Cnd) : FastsyncCond Mtx Cnd :=
  ⟨0, none, 0, T.parent c⟩

/-- Whoever waits, waits with `M`. -/
def Act.uses (M : Mtx) : Act Thr Mtx Cnd → Bool
  | .call _ (.wait _ (some m)) => m = M
  | _ => true

def treeStep (M : Mtx) (s : State Thr Mtx Cnd) (a : Act Thr Mtx Cnd) :
    Option (State Thr Mtx Cnd × List (Ev Thr Mtx Cnd)) :=
  if a.uses M then step s a else none

/-- All interleavings of threads that use the tree with `M`. -/
abbrev TreeRuns (T : LeaderTree.Tree Cnd) (M : Mtx) (mem : Mtx → FastsyncMutex) :
    List (Ev Thr Mtx Cnd) → State Thr Mtx Cnd → Prop :=
  Run (Does (treeStep M)) (State.init mem (treeCond T))

/-- What can still happen from `s` on. -/
abbrev Later (M : Mtx) (s : State Thr Mtx Cnd) :
    List (Ev Thr Mtx Cnd) → State Thr Mtx Cnd → Prop :=
  Run (Does (treeStep M)) s

theorem treeStep_step {M : Mtx} {s s' : State Thr Mtx Cnd} {a : Act Thr Mtx Cnd}
    {es : List (Ev Thr Mtx Cnd)} (h : treeStep M s a = some (s', es)) :
    a.uses M = true ∧ step s a = some (s', es) := by
  unfold treeStep at h
  split at h
  · rename_i hu
    exact ⟨hu, h⟩
  · cases h

theorem TreeRuns.runs {T : LeaderTree.Tree Cnd} {M : Mtx} {mem : Mtx → FastsyncMutex}
    {tr : List (Ev Thr Mtx Cnd)} {s : State Thr Mtx Cnd} (h : TreeRuns T M mem tr s) :
    Runs mem (treeCond T) tr s := by
  apply Run.mono _ h
  rintro s es s' ⟨a, ha⟩
  exact ⟨a, (treeStep_step ha).2⟩

/-! ## What a step does to the conditions -/

/-- The condition a thread is about to sleep on, with the `cur_seq` it has
read. -/
def Pc.window : Pc Mtx Cnd → Option (Cnd × BitVec 32)
  | .unlockRead _ k | .unlockCas _ k | .unlockAnd _ k | .unlockPoll _ k _ | .unlockClear _ k
  | .unlockWake _ k => k
  | .waitFutex c _ curSeq => some (c, curSeq)
  | _ => none

/-- Events that neither read a `seq` in order to wait, nor move one. -/
def Ev.NoSeq : Ev Thr Mtx Cnd → Prop
  | .snap _ _ | .bump _ _ => False
  | _ => True

/-- Not about to store a `seq`; what it has found out about `cond->mutex` is so. -/
def PcFits (cond : Cnd → FastsyncCond Mtx Cnd) : Pc Mtx Cnd → Prop
  | .waitSeqStore _ _ _ => False
  | .waitNull c m => (cond c).mutex ≠ some m
  | .waitCas c _ => (cond c).mutex = none
  | _ => True

/-- A step of `t` inside a call, by what it does to the conditions. -/
inductive CondEffect (s : State Thr Mtx Cnd) (t : Thr) (s' : State Thr Mtx Cnd) :
    List (Ev Thr Mtx Cnd) → Prop
  | quiet {es : List (Ev Thr Mtx Cnd)} : (∀ e ∈ es, e.NoSeq) → s'.cond = s.cond →
      ((s'.thr t).pc.window = none ∨ (s'.thr t).pc.window = (s.thr t).pc.window) →
      PcFits s.cond (s'.thr t).pc → CondEffect s t s' es
  | bind {c : Cnd} {m : Mtx} : (s.thr t).pc = .waitCas c m → (s.cond c).mutex = none →
      s' = (s.setCond c { s.cond c with mutex := some m }).goto t (.waitUseChild c m) →
      CondEffect s t s' []
  | mark {c p : Cnd} {m : Mtx} : (s.thr t).pc = .waitSetChild c m p →
      s' = (s.setCond c { s.cond c with useChild := 1 }).setThr t
        { s.thr t with pc := .waitMutex p m, frames := c :: (s.thr t).frames } →
      CondEffect s t s' []
  | snap {c : Cnd} {m : Mtx} : (s.thr t).pc = .waitCurSeq c m →
      s' = s.goto t (.unlockRead m (some (c, (s.cond c).word))) → CondEffect s t s' [.snap t c]
  | load {c : Cnd} {m : Mtx} : (s.thr t).pc = .waitSeqLoad c m →
      s' = s.goto t (.waitSeqStore c m (s.cond c).seq) → CondEffect s t s' []
  | store {c : Cnd} {m : Mtx} {v : BitVec 64} : (s.thr t).pc = .waitSeqStore c m v →
      s' = (s.setCond c { s.cond c with seq := v + 1 }).goto t (.waitRequeue c m) →
      CondEffect s t s' [.bump t c]
  | clear {c : Cnd} {m : Mtx} : (s.thr t).pc = .waitClearChild c m →
      s' = (s.setCond c { s.cond c with useChild := 0 }).setThr t ((s.thr t).leave m 0) →
      CondEffect s t s' []
  | add {c : Cnd} {pc : Pc Mtx Cnd} :
      (s.thr t).pc = .signalAdd c ∧ pc = .signalWake c ∨
        (s.thr t).pc = .broadcastAdd c ∧ pc = .broadcastMutex c →
      s' = (s.setCond c { s.cond c with seq := (s.cond c).seq + 1 }).goto t pc →
      CondEffect s t s' [.bump t c]

/-- Out of the code that reads or writes conditions. -/
def Pc.Plain (pc : Pc Mtx Cnd) : Prop :=
  pc.window = none ∧ ∀ cond : Cnd → FastsyncCond Mtx Cnd, PcFits cond pc

section

omit [DecidableEq Mtx] [DecidableEq Cnd]

theorem plain_leave (th : Thread Mtx Cnd) (m : Mtx) (v : Int) : (th.leave m v).pc.Plain := by
  rw [Thread.leave]
  split <;> exact ⟨rfl, fun _ => trivial⟩

theorem plain_lockLoop (m : Mtx) (i : ℕ) : (lockLoop m i : Pc Mtx Cnd).Plain := by
  rw [lockLoop]
  split <;> exact ⟨rfl, fun _ => trivial⟩

theorem window_pollLoop (m : Mtx) (k : Option (Cnd × BitVec 32)) (i : ℕ) :
    (pollLoop m k i).window = k := by
  rw [pollLoop]
  split <;> rfl

theorem fits_pollLoop (cond : Cnd → FastsyncCond Mtx Cnd) (m : Mtx)
    (k : Option (Cnd × BitVec 32)) (i : ℕ) : PcFits cond (pollLoop m k i) := by
  rw [pollLoop]
  split <;> exact trivial

theorem window_unlocked (th : Thread Mtx Cnd) (m : Mtx) (k : Option (Cnd × BitVec 32)) :
    (th.unlocked m k).pc.window = k := by
  cases k <;> rfl

theorem fits_unlocked (cond : Cnd → FastsyncCond Mtx Cnd) (th : Thread Mtx Cnd) (m : Mtx)
    (k : Option (Cnd × BitVec 32)) : PcFits cond (th.unlocked m k).pc := by
  cases k <;> exact trivial

end

section Effect

variable {s s' s₁ : State Thr Mtx Cnd} {t : Thr} {es : List (Ev Thr Mtx Cnd)}

section

omit [Fintype Thr] [DecidableEq Mtx]

theorem CondEffect.own {th : Thread Mtx Cnd} (hes : ∀ e ∈ es, e.NoSeq) (hc : s₁.cond = s.cond)
    (hw : th.pc.window = none ∨ th.pc.window = (s.thr t).pc.window)
    (hf : PcFits s.cond th.pc) : CondEffect s t (s₁.setThr t th) es := by
  have hself : (s₁.setThr t th).thr t = th := Function.update_self ..
  refine .quiet hes hc ?_ ?_
  · rw [hself]
    exact hw
  · rw [hself]
    exact hf

theorem CondEffect.plain {th : Thread Mtx Cnd} (hes : ∀ e ∈ es, e.NoSeq)
    (hc : s₁.cond = s.cond) (h : th.pc.Plain) : CondEffect s t (s₁.setThr t th) es :=
  .own hes hc (.inl h.1) (h.2 s.cond)

theorem CondEffect.goto {pc : Pc Mtx Cnd} (hc : s₁.cond = s.cond)
    (hw : pc.window = none ∨ pc.window = (s.thr t).pc.window) (hf : PcFits s.cond pc) :
    CondEffect s t (s₁.goto t pc) [] :=
  .own (by simp) hc hw hf

end

theorem run_cond {pick : Option Thr} (hs : run s t pick = some (s', es)) :
    CondEffect s t s' es := by
  cases hpc : (s.thr t).pc with
  | idle => simp [run, hpc] at hs
  | asleep q m' => simp [run, hpc] at hs
  | lockFor m i =>
      simp only [run, hpc] at hs
      split at hs <;> cases hs
      · exact .plain (by simp [Ev.NoSeq]) rfl ⟨rfl, fun _ => trivial⟩
      · exact .plain (by simp) rfl (plain_lockLoop m (i + 1))
  | xchg m =>
      simp only [run, hpc] at hs
      split at hs <;> cases hs
      · exact .plain (by simp [Ev.NoSeq]) rfl (plain_leave _ m 0)
      · exact .goto rfl (.inl rfl) trivial
  | tryFor m =>
      simp only [run, hpc] at hs
      split at hs <;> cases hs
      · exact .plain (by simp [Ev.NoSeq]) rfl ⟨rfl, fun _ => trivial⟩
      · exact .plain (by simp [Ev.NoSeq]) rfl ⟨rfl, fun _ => trivial⟩
  | unlockRead m k =>
      simp only [run, hpc] at hs
      split at hs <;> cases hs <;> exact .goto rfl (.inr (by rw [hpc]; rfl)) trivial
  | unlockCas m k =>
      simp only [run, hpc] at hs
      split at hs <;> cases hs
      · exact .own (by simp [Ev.NoSeq]) rfl (.inr (by rw [window_unlocked, hpc]; rfl))
          (fits_unlocked _ _ m k)
      · exact .goto rfl (.inr (by rw [hpc]; rfl)) trivial
  | unlockAnd m k =>
      simp only [run, hpc] at hs
      cases hs
      have hw : (pollLoop m k 0).window = (s.thr t).pc.window := by
        rw [window_pollLoop, hpc]
        rfl
      exact .own (by simp [Ev.NoSeq]) rfl (.inr hw) (fits_pollLoop s.cond m k 0)
  | unlockPoll m k i =>
      simp only [run, hpc] at hs
      split at hs <;> cases hs
      · exact .goto rfl (.inr (by rw [window_pollLoop, hpc]; rfl)) (fits_pollLoop _ m k (i + 1))
      · exact .own (by simp) rfl (.inr (by rw [window_unlocked, hpc]; rfl))
          (fits_unlocked _ _ m k)
  | unlockClear m k =>
      simp only [run, hpc] at hs
      cases hs
      exact .goto rfl (.inr (by rw [hpc]; rfl)) trivial
  | unlockWake m k =>
      simp only [run, hpc, Option.map_eq_some_iff] at hs
      obtain ⟨s₁, h₁, hs⟩ := hs
      cases hs
      exact .own (by simp) (wakeOne_cond h₁) (.inr (by rw [window_unlocked, hpc]; rfl))
        (fits_unlocked _ _ m k)
  | waitMutex c m =>
      simp only [run, hpc] at hs
      split at hs
      · cases hs
        exact .goto rfl (.inl rfl) trivial
      · rename_i hne
        cases hs
        exact .goto rfl (.inl rfl) hne
  | waitNull c m =>
      simp only [run, hpc] at hs
      split at hs
      · rename_i hnull
        cases hs
        exact .goto rfl (.inl rfl) hnull
      · cases hs
        exact .plain (by simp) rfl (plain_leave _ m 2)
  | waitCas c m =>
      simp only [run, hpc] at hs
      split at hs
      · rename_i hnull
        cases hs
        exact .bind hpc hnull rfl
      · cases hs
        exact .plain (by simp) rfl (plain_leave _ m 2)
  | waitUseChild c m =>
      simp only [run, hpc] at hs
      split at hs
      · split at hs <;> cases hs <;> exact .goto rfl (.inl rfl) trivial
      · cases hs
        exact .goto rfl (.inl rfl) trivial
  | waitSetChild c m p =>
      simp only [run, hpc] at hs
      cases hs
      exact .mark hpc rfl
  | waitSeqLoad c m =>
      simp only [run, hpc] at hs
      cases hs
      exact .load hpc rfl
  | waitSeqStore c m v =>
      simp only [run, hpc] at hs
      cases hs
      exact .store hpc rfl
  | waitRequeue c m =>
      simp only [run, hpc, Option.map_eq_some_iff] at hs
      obtain ⟨s₁, h₁, hs⟩ := hs
      cases hs
      exact .goto (requeue_cond h₁) (.inl rfl) trivial
  | waitClearChild c m =>
      simp only [run, hpc] at hs
      cases hs
      exact .clear hpc rfl
  | waitCurSeq c m =>
      simp only [run, hpc] at hs
      cases hs
      exact .snap hpc rfl
  | waitFutex c m curSeq =>
      simp only [run, hpc] at hs
      split at hs <;> cases hs <;>
        exact .plain (by simp [Ev.NoSeq]) rfl ⟨rfl, fun _ => trivial⟩
  | signalAdd c =>
      simp only [run, hpc] at hs
      cases hs
      exact .add (.inl ⟨hpc, rfl⟩) rfl
  | broadcastAdd c =>
      simp only [run, hpc] at hs
      cases hs
      exact .add (.inr ⟨hpc, rfl⟩) rfl
  | signalWake c =>
      simp only [run, hpc, Option.map_eq_some_iff] at hs
      obtain ⟨s₁, h₁, hs⟩ := hs
      cases hs
      exact .goto (wakeOne_cond h₁) (.inl rfl) trivial
  | broadcastRequeue c =>
      simp only [run, hpc] at hs
      split at hs
      · simp only [Option.map_eq_some_iff] at hs
        obtain ⟨s₁, h₁, hs⟩ := hs
        cases hs
        exact .goto (requeue_cond h₁) (.inl rfl) trivial
      · cases hs
        exact .goto rfl (.inl rfl) trivial
  | ret v =>
      simp only [run, hpc] at hs
      cases hs
      exact .plain (by simp [Ev.NoSeq]) rfl ⟨rfl, fun _ => trivial⟩
  | counterStore m v =>
      simp only [run, hpc] at hs
      cases hs
      exact .plain (by simp [Ev.NoSeq]) rfl ⟨rfl, fun _ => trivial⟩
  | _ =>
      simp only [run, hpc] at hs
      first
        | (cases hs; exact .goto rfl (.inl rfl) trivial)
        | (split at hs <;> cases hs <;> exact .goto rfl (.inl rfl) trivial)

omit [DecidableEq Mtx] [DecidableEq Cnd] in
theorem call_leave (th : Thread Mtx Cnd) (m : Mtx) (v : Int) : (th.leave m v).call = th.call := by
  rw [Thread.leave]
  split <;> rfl

omit [DecidableEq Mtx] [DecidableEq Cnd] in
theorem call_unlocked (th : Thread Mtx Cnd) (m : Mtx) (k : Option (Cnd × BitVec 32)) :
    (th.unlocked m k).call = th.call := by
  cases k <;> rfl

omit [Fintype Thr] [DecidableEq Mtx] [DecidableEq Cnd] in
theorem call_setThr {th : Thread Mtx Cnd} (h : th.call = (s.thr t).call) :
    ((s₁.setThr t th).thr t).call = (s.thr t).call := by
  simp only [State.setThr, Function.update_self, h]

omit [Fintype Thr] [DecidableEq Mtx] [DecidableEq Cnd] in
theorem call_goto {pc : Pc Mtx Cnd} (h : s₁.thr t = s.thr t) :
    ((s₁.goto t pc).thr t).call = (s.thr t).call := by
  apply call_setThr
  show (s₁.thr t).call = (s.thr t).call
  rw [h]

/-- A call lasts until it returns. -/
theorem run_call {pick : Option Thr} (hs : run s t pick = some (s', es)) :
    (s'.thr t).call = (s.thr t).call ∨ (s'.thr t).call = none := by
  cases hpc : (s.thr t).pc with
  | ret v =>
      simp only [run, hpc] at hs
      cases hs
      right
      simp only [State.setThr, Function.update_self]
  | unlockWake m k =>
      simp only [run, hpc, Option.map_eq_some_iff] at hs
      obtain ⟨s₁, -, hs⟩ := hs
      cases hs
      exact .inl (call_setThr (call_unlocked _ m k))
  | waitRequeue c m =>
      simp only [run, hpc, Option.map_eq_some_iff] at hs
      obtain ⟨s₁, h₁, hs⟩ := hs
      cases hs
      exact .inl (call_goto (requeue_thr_self h₁ (by simp [hpc])))
  | signalWake c =>
      simp only [run, hpc, Option.map_eq_some_iff] at hs
      obtain ⟨s₁, h₁, hs⟩ := hs
      cases hs
      exact .inl (call_goto (wakeOne_thr_self h₁ (by simp [hpc])))
  | broadcastRequeue c =>
      simp only [run, hpc] at hs
      split at hs
      · simp only [Option.map_eq_some_iff] at hs
        obtain ⟨s₁, h₁, hs⟩ := hs
        cases hs
        exact .inl (call_goto (requeue_thr_self h₁ (by simp [hpc])))
      · cases hs
        exact .inl (call_setThr rfl)
  | _ =>
      left
      simp only [run, hpc] at hs
      repeat' split at hs
      all_goals
        cases hs <;>
          exact call_setThr (by
            first | rfl | exact call_leave _ _ _ | exact call_unlocked _ _ _)

omit [Fintype Thr] [DecidableEq Mtx] in
/-- What happens to a condition: another condition's field, or a field that
does not tell who waits with which mutex. -/
theorem CondEffect.cond (h : CondEffect s t s' es) :
    s'.cond = s.cond ∨ ∃ c v, s'.cond = Function.update s.cond c v ∧
      v.parent = (s.cond c).parent ∧
      (v.useChild = (s.cond c).useChild ∨ v.useChild = 0 ∨ v.useChild = 1) ∧
      (v.mutex = (s.cond c).mutex ∨ ∃ m, (s.thr t).pc = .waitCas c m ∧ v.mutex = some m) := by
  cases h with
  | quiet _ hc _ _ => exact .inl hc
  | @bind c m hpc _ hs =>
      subst hs
      exact .inr ⟨c, _, rfl, rfl, .inl rfl, .inr ⟨m, hpc, rfl⟩⟩
  | @mark c p m hpc hs =>
      subst hs
      exact .inr ⟨c, _, rfl, rfl, .inr (.inr rfl), .inl rfl⟩
  | snap _ hs =>
      subst hs
      exact .inl rfl
  | load _ hs =>
      subst hs
      exact .inl rfl
  | @store c m v hpc hs =>
      subst hs
      exact .inr ⟨c, _, rfl, rfl, .inl rfl, .inl rfl⟩
  | @clear c m hpc hs =>
      subst hs
      exact .inr ⟨c, _, rfl, rfl, .inr (.inl rfl), .inl rfl⟩
  | @add c pc hpc hs =>
      subst hs
      exact .inr ⟨c, _, rfl, rfl, .inl rfl, .inl rfl⟩

/-- Finding `c` unbound, or about to bind it to `m`. -/
def Pc.Binds (c : Cnd) (m : Mtx) (pc : Pc Mtx Cnd) : Prop :=
  pc = .waitNull c m ∨ pc = .waitCas c m

omit [DecidableEq Mtx] [DecidableEq Cnd] in
theorem Pc.Plain.not_binds {pc : Pc Mtx Cnd} (h : pc.Plain) (c : Cnd) (m : Mtx) :
    ¬ pc.Binds c m := by
  have hf : PcFits (fun _ => ⟨0, some m, 0, none⟩) pc := h.2 _
  rintro (rfl | rfl)
  · exact hf rfl
  · cases hf

omit [DecidableEq Mtx] [DecidableEq Cnd] in
theorem plain_entry (call : Call Mtx Cnd) : call.entry.Plain := by
  cases call with
  | lock m => cases m <;> first | exact plain_lockLoop _ 0 | exact ⟨rfl, fun _ => trivial⟩
  | trylock m => cases m <;> exact ⟨rfl, fun _ => trivial⟩
  | unlock m => cases m <;> exact ⟨rfl, fun _ => trivial⟩
  | wait c m => cases c <;> cases m <;> exact ⟨rfl, fun _ => trivial⟩
  | signal c => cases c <;> exact ⟨rfl, fun _ => trivial⟩
  | broadcast c => cases c <;> exact ⟨rfl, fun _ => trivial⟩
  | increment m => exact ⟨rfl, fun _ => trivial⟩

omit [Fintype Thr] [DecidableEq Mtx] in
theorem CondEffect.fits (h : CondEffect s t s' es) {c : Cnd} {m : Mtx}
    (hpc : (s'.thr t).pc.Binds c m) : s'.cond = s.cond ∧ (s.cond c).mutex ≠ some m := by
  have hno : ∀ {s₁ : State Thr Mtx Cnd} {th : Thread Mtx Cnd}, s' = s₁.setThr t th →
      ¬ th.pc.Binds c m → False := by
    intro s₁ th hs hth
    have hself := thr_of_setThr hs
    rw [hself] at hpc
    exact hth hpc
  cases h with
  | quiet _ hc _ hf =>
      refine ⟨hc, ?_⟩
      rcases hpc with hpc | hpc
      · rw [hpc] at hf
        exact hf
      · rw [hpc] at hf
        rw [show (s.cond c).mutex = none from hf]
        exact (Option.some_ne_none m).symm
  | bind _ _ hs => exact (hno hs (by rintro (h | h) <;> cases h)).elim
  | mark _ hs => exact (hno hs (by rintro (h | h) <;> cases h)).elim
  | snap _ hs => exact (hno hs (by rintro (h | h) <;> cases h)).elim
  | load _ hs => exact (hno hs (by rintro (h | h) <;> cases h)).elim
  | store _ hs => exact (hno hs (by rintro (h | h) <;> cases h)).elim
  | @clear _ m' _ hs => exact (hno hs ((plain_leave _ m' 0).not_binds c m)).elim
  | add hor hs =>
      refine (hno hs ?_).elim
      rcases hor with ⟨-, rfl⟩ | ⟨-, rfl⟩ <;> (rintro (h | h) <;> cases h)

end Effect

/-! ## One mutex -/

/-- The client's side: one mutex for all conditions, the parents those of the
tree, flags 0 or 1. -/
structure TreeOk (T : LeaderTree.Tree Cnd) (M : Mtx) (s : State Thr Mtx Cnd) : Prop where
  call : ∀ t c m, (s.thr t).call = some (.wait c (some m)) → m = M
  parent : ∀ c, (s.cond c).parent = T.parent c
  useChild : ∀ c, (s.cond c).useChild = 0 ∨ (s.cond c).useChild = 1
  mutex : ∀ c m, (s.cond c).mutex = some m → m = M
  null : ∀ t c m, (s.thr t).pc.Binds c m →
    (s.cond c).mutex = none

section Client

variable {T : LeaderTree.Tree Cnd} {M : Mtx} {s s' : State Thr Mtx Cnd} {t : Thr}
  {es : List (Ev Thr Mtx Cnd)}

omit [DecidableEq Thr] [Fintype Thr] [DecidableEq Mtx] [DecidableEq Cnd] in
theorem TreeOk.wait (h : TreeOk T M s) {m : Mtx} {cond : Cnd → FastsyncCond Mtx Cnd}
    (hw : InWait cond (s.thr t) m) : m = M := by
  obtain ⟨⟨c, hc⟩, -⟩ := hw
  exact h.call t c m hc

omit [DecidableEq Thr] [Fintype Thr] [DecidableEq Mtx] [DecidableEq Cnd] in
/-- At most one thread is binding a condition. -/
theorem TreeOk.holds (hl : Local s) (h : TreeOk T M s) {c : Cnd} {m : Mtx}
    (hpc : (s.thr t).pc.Binds c m) :
    m = M ∧ (s.thr t).held M = true := by
  have hok := hl t
  rw [ThreadOk] at hok
  have hboth : (s.thr t).held m = true ∧ InWait s.cond (s.thr t) m := by
    rcases hpc with hpc | hpc
    · rw [hpc] at hok
      exact hok
    · rw [hpc] at hok
      exact hok
  have hm : m = M := h.wait hboth.2
  subst hm
  exact ⟨rfl, hboth.1⟩

theorem TreeOk.run {pick : Option Thr} (hl : Local s) (hx : FutexLock.Inv (view M s))
    (h : TreeOk T M s) (hs : run s t pick = some (s', es)) : TreeOk T M s' := by
  have hmoved : ∀ u, u ≠ t → Moved s.cond (s.thr u) (s'.thr u) := fun u hu => run_moved hl hs hu
  have heff : CondEffect s t s' es := run_cond hs
  have hcall : ∀ u c m, (s'.thr u).call = some (.wait c (some m)) → m = M := by
    intro u c m hu
    by_cases hut : u = t
    · subst hut
      rcases run_call hs with hsame | hnone
      · rw [hsame] at hu
        exact h.call u c m hu
      · rw [hnone] at hu
        cases hu
    · rw [(hmoved u hut).call] at hu
      exact h.call u c m hu
  refine ⟨hcall, ?_, ?_, ?_, ?_⟩
  · intro c
    rcases heff.cond with hc | ⟨d, v, hc, hp, -, -⟩
    · rw [hc]
      exact h.parent c
    · rw [hc]
      by_cases hcd : c = d
      · subst hcd
        rw [Function.update_self, hp]
        exact h.parent c
      · rw [Function.update_of_ne hcd]
        exact h.parent c
  · intro c
    rcases heff.cond with hc | ⟨d, v, hc, -, hu, -⟩
    · rw [hc]
      exact h.useChild c
    · rw [hc]
      by_cases hcd : c = d
      · subst hcd
        rw [Function.update_self]
        rcases hu with hu | hu
        · rw [hu]
          exact h.useChild c
        · exact hu
      · rw [Function.update_of_ne hcd]
        exact h.useChild c
  · intro c m hm
    rcases heff.cond with hc | ⟨d, v, hc, -, -, hv⟩
    · rw [hc] at hm
      exact h.mutex c m hm
    · rw [hc] at hm
      by_cases hcd : c = d
      · subst hcd
        rw [Function.update_self] at hm
        rcases hv with hv | ⟨m', hpc, hv⟩
        · rw [hv] at hm
          exact h.mutex c m hm
        · rw [hv] at hm
          cases hm
          exact (h.holds hl (.inr hpc)).1
      · rw [Function.update_of_ne hcd] at hm
        exact h.mutex c m hm
  · intro u c m hpc
    by_cases hut : u = t
    · subst hut
      obtain ⟨hc, hne⟩ := heff.fits hpc
      rw [hc]
      cases hmut : (s.cond c).mutex with
      | none => rfl
      | some m' =>
          have hok := Local.run hl hs u
          rw [ThreadOk] at hok
          have hm : m = M := by
            rcases hpc with hpc | hpc <;> rw [hpc] at hok <;>
              exact hcall u _ m hok.2.1.choose_spec
          rw [hm, hmut, h.mutex c m' hmut] at hne
          exact absurd rfl hne
    · -- whoever binds `c` holds the mutex, and so does `u`
      have hpc' : (s.thr u).pc.Binds c m := by
        rcases hpc with hpc | hpc
        · exact .inl ((hmoved u hut).eq_of_pc hpc trivial ▸ hpc)
        · exact .inr ((hmoved u hut).eq_of_pc hpc trivial ▸ hpc)
      have hnull := h.null u c m hpc'
      rcases heff.cond with hc | ⟨d, v, hc, -, -, hv⟩
      · rw [hc]
        exact hnull
      · rw [hc]
        by_cases hcd : c = d
        · subst hcd
          rw [Function.update_self]
          rcases hv with hv | ⟨m', hpct, -⟩
          · rw [hv]
            exact hnull
          · have hu := (h.holds hl hpc').2
            have ht := (h.holds hl (.inr hpct)).2
            exact absurd (hx.unique u t hu ht) hut
        · rw [Function.update_of_ne hcd]
          exact hnull

theorem TreeOk.step {a : Act Thr Mtx Cnd} (hl : Local s) (hx : FutexLock.Inv (view M s))
    (h : TreeOk T M s) (hs : treeStep M s a = some (s', es)) : TreeOk T M s' := by
  obtain ⟨huses, hs⟩ := treeStep_step hs
  cases a with
  | run t pick => exact h.run hl hx hs
  | spurious t =>
      obtain ⟨-, rfl, rfl⟩ := step_spurious hs
      have hmoved : ∀ u, Moved s.cond (s.thr u) ((s.wake t).thr u) := fun u => wake_thr s t u
      have hcond := wake_cond s t
      refine ⟨?_, by rw [hcond]; exact h.parent, by rw [hcond]; exact h.useChild,
        by rw [hcond]; exact h.mutex, ?_⟩
      · intro u c m hu
        rw [(hmoved u).call] at hu
        exact h.call u c m hu
      · intro u c m hpc
        rw [hcond]
        apply h.null u c m
        rcases hpc with hpc | hpc
        · exact .inl ((hmoved u).eq_of_pc hpc trivial ▸ hpc)
        · exact .inr ((hmoved u).eq_of_pc hpc trivial ▸ hpc)
  | call t c =>
      obtain ⟨-, rfl, rfl⟩ := step_call hs
      refine ⟨?_, h.parent, h.useChild, h.mutex, ?_⟩
      · intro u d m hu
        by_cases hut : u = t
        · subst hut
          simp only [State.setThr, Function.update_self] at hu
          cases hu
          simpa [Act.uses] using huses
        · simp only [State.setThr, Function.update_of_ne hut] at hu
          exact h.call u d m hu
      · intro u d m hpc
        by_cases hut : u = t
        · subst hut
          simp only [State.setThr, Function.update_self] at hpc
          exact absurd hpc ((plain_entry c).not_binds d m)
        · simp only [State.setThr, Function.update_of_ne hut] at hpc
          exact h.null u d m hpc

end Client

end Reeact.Sync
