import Reeact.Fastsync.CondSeq

/-!
# fastsync_cond — waiting in a tree of queues, led by the first

What the threads do to the conditions of the tree, as the library knows it:
every step of the code is a step of the tree of queues, or nothing
(`tree_step`). A thread on the mutex, in its queue or out of it, is out of
the queues of the tree, with the nodes it leads still on its path.
-/

namespace Reeact.Sync

open Transition

variable {Thr Mtx Cnd : Type} [DecidableEq Thr] [Fintype Thr] [DecidableEq Mtx]
  [DecidableEq Cnd]

/-! ## The view of the tree -/

/-- In `fastsync_mutex_unlock`, before or after the mutex is released. -/
def unlockPhase (fresh : Cnd → Bool) (released : Bool) :
    Option (Cnd × BitVec 32) → LeaderTree.Phase Cnd
  | none => .free
  | some (c, _) => .window c released (fresh c)

/-- What a position means to the tree; `fresh` tells of which conditions `seq`
has not moved since the thread read it. -/
def phase (fresh : Cnd → Bool) : Pc Mtx Cnd → LeaderTree.Phase Cnd
  | .waitMutex c _ | .waitNull c _ | .waitCas c _ | .waitUseChild c _ => .climb c
  | .waitSetChild c _ _ => .mark c
  | .waitCurSeq c _ => .snap c
  | .unlockRead _ k | .unlockCas _ k | .unlockAnd _ k => unlockPhase fresh false k
  | .unlockPoll _ k _ | .unlockClear _ k | .unlockWake _ k => unlockPhase fresh true k
  | .waitFutex c _ _ => .window c true (fresh c)
  | .asleep (.cond c) _ => .asleep c
  | .waitSeqLoad c _ => .load c
  | .waitSeqStore c _ _ => .store c
  | .waitRequeue c _ => .requeue c
  | .waitClearChild c _ => .unmark c
  | _ => .free

def seen (fresh : Cnd → Bool) (th : Thread Mtx Cnd) : LeaderTree.Thread Cnd :=
  ⟨phase fresh th.pc, th.frames⟩

/-- `seq` of `c` has not moved since `t` read it. -/
def unmoved (t : Thr) (tr : List (Ev Thr Mtx Cnd)) (c : Cnd) : Bool := missed t c tr = 0

def treeView (tr : List (Ev Thr Mtx Cnd)) (s : State Thr Mtx Cnd) :
    LeaderTree.State Thr Cnd where
  flag c := (s.cond c).useChild = 1
  thr t := seen (unmoved t tr) (s.thr t)

section View

variable {tr es : List (Ev Thr Mtx Cnd)} {s s₁ : State Thr Mtx Cnd} {t : Thr}

section

omit [DecidableEq Mtx] [DecidableEq Cnd]

theorem seen_leave (fresh : Cnd → Bool) (th : Thread Mtx Cnd) (m : Mtx) (v : Int) :
    seen fresh (th.leave m v) = LeaderTree.finish th.frames := by
  rcases th with ⟨call, pc, frames, held⟩
  cases frames <;> rfl

theorem seen_unlocked (fresh : Cnd → Bool) (th : Thread Mtx Cnd) (m : Mtx)
    (k : Option (Cnd × BitVec 32)) :
    seen fresh (th.unlocked m k) = ⟨unlockPhase fresh true k, th.frames⟩ := by
  cases k <;> rfl

theorem phase_lockLoop (fresh : Cnd → Bool) (m : Mtx) (i : ℕ) :
    phase fresh (lockLoop m i : Pc Mtx Cnd) = .free := by
  rw [lockLoop]
  split <;> rfl

theorem phase_pollLoop (fresh : Cnd → Bool) (m : Mtx) (k : Option (Cnd × BitVec 32)) (i : ℕ) :
    phase fresh (pollLoop m k i) = unlockPhase fresh true k := by
  rw [pollLoop]
  split <;> rfl

end

section

omit [Fintype Thr] [DecidableEq Mtx]

theorem treeView_thr {pc : Pc Mtx Cnd} (hpc : (s.thr t).pc = pc) :
    (treeView tr s).thr t = ⟨phase (unmoved t tr) pc, (s.thr t).frames⟩ := by
  subst hpc
  rfl

theorem unmoved_noSeq (hes : ∀ e ∈ es, e.NoSeq) (u : Thr) :
    unmoved u (tr ++ es) = unmoved u tr := by
  funext c
  rw [unmoved, missed_noSeq hes]
  rfl

theorem treeView_setThr (hes : ∀ e ∈ es, e.NoSeq) (th : Thread Mtx Cnd) :
    treeView (tr ++ es) (s₁.setThr t th) =
      (treeView tr s₁).setThr t (seen (unmoved t tr) th) := by
  have hthr : (treeView (tr ++ es) (s₁.setThr t th)).thr =
      Function.update (treeView tr s₁).thr t (seen (unmoved t tr) th) := by
    funext u
    show seen (unmoved u (tr ++ es)) ((s₁.setThr t th).thr u) = _
    rw [unmoved_noSeq hes]
    by_cases hu : u = t
    · subst hu
      simp only [State.setThr, Function.update_self]
    · simp only [State.setThr, Function.update_of_ne hu]
      rfl
  calc treeView (tr ++ es) (s₁.setThr t th)
      = ⟨(treeView tr s₁).flag, (treeView (tr ++ es) (s₁.setThr t th)).thr⟩ := rfl
    _ = (treeView tr s₁).setThr t (seen (unmoved t tr) th) := by rw [hthr]; rfl

theorem treeView_goto (pc : Pc Mtx Cnd) :
    treeView tr (s₁.goto t pc) =
      (treeView tr s₁).setThr t ⟨phase (unmoved t tr) pc, (s₁.thr t).frames⟩ := by
  have h : treeView (tr ++ []) (s₁.setThr t ((s₁.thr t).goto pc)) =
      (treeView tr s₁).setThr t (seen (unmoved t tr) ((s₁.thr t).goto pc)) :=
    treeView_setThr (by simp) _
  rw [List.append_nil] at h
  exact h

/-- What a thread does to a condition's other fields is not seen. -/
theorem treeView_setCond {c : Cnd} {v : FastsyncCond Mtx Cnd}
    (hv : v.useChild = (s.cond c).useChild) : treeView tr (s.setCond c v) = treeView tr s := by
  have hflag : (treeView tr (s.setCond c v)).flag = (treeView tr s).flag := by
    funext d
    by_cases hd : d = c
    · subst hd
      simp only [treeView, State.setCond, Function.update_self, hv]
    · simp only [treeView, State.setCond, Function.update_of_ne hd]
  calc treeView tr (s.setCond c v)
      = ⟨(treeView tr (s.setCond c v)).flag, (treeView tr s).thr⟩ := rfl
    _ = treeView tr s := by rw [hflag]

theorem treeView_setChild (c : Cnd) (b : BitVec 32) :
    treeView tr (s.setCond c { s.cond c with useChild := b }) =
      (treeView tr s).setFlag c (b = 1) := by
  have hflag : (treeView tr (s.setCond c { s.cond c with useChild := b })).flag =
      Function.update (treeView tr s).flag c (decide (b = 1)) := by
    funext d
    by_cases hd : d = c
    · subst hd
      simp only [treeView, State.setCond, Function.update_self]
    · simp only [treeView, State.setCond, Function.update_of_ne hd]
  calc treeView tr (s.setCond c { s.cond c with useChild := b })
      = ⟨(treeView tr (s.setCond c { s.cond c with useChild := b })).flag, (treeView tr s).thr⟩ :=
        rfl
    _ = (treeView tr s).setFlag c (b = 1) := by rw [hflag]; rfl

end

theorem unlockPhase_staled (fresh fresh' : Cnd → Bool) (c : Cnd)
    (hf : ∀ d, fresh' d = if d = c then false else fresh d) (r : Bool)
    (k : Option (Cnd × BitVec 32)) (ds : List Cnd) :
    (⟨unlockPhase fresh' r k, ds⟩ : LeaderTree.Thread Cnd) =
      LeaderTree.Thread.staled c ⟨unlockPhase fresh r k, ds⟩ := by
  cases k with
  | none => rfl
  | some k =>
      show (⟨.window k.1 r (fresh' k.1), ds⟩ : LeaderTree.Thread Cnd) =
        LeaderTree.Thread.staled c ⟨.window k.1 r (fresh k.1), ds⟩
      rw [hf]
      simp only [LeaderTree.Thread.staled]
      split <;> rfl

omit [DecidableEq Mtx] in
theorem seen_staled (fresh fresh' : Cnd → Bool) (c : Cnd)
    (hf : ∀ d, fresh' d = if d = c then false else fresh d) (th : Thread Mtx Cnd) :
    seen fresh' th = (seen fresh th).staled c := by
  rcases th with ⟨call, pc, frames, held⟩
  cases pc with
  | unlockRead m k => exact unlockPhase_staled fresh fresh' c hf false k frames
  | unlockCas m k => exact unlockPhase_staled fresh fresh' c hf false k frames
  | unlockAnd m k => exact unlockPhase_staled fresh fresh' c hf false k frames
  | unlockPoll m k i => exact unlockPhase_staled fresh fresh' c hf true k frames
  | unlockClear m k => exact unlockPhase_staled fresh fresh' c hf true k frames
  | unlockWake m k => exact unlockPhase_staled fresh fresh' c hf true k frames
  | waitFutex d m cur => exact unlockPhase_staled fresh fresh' c hf true (some (d, cur)) frames
  | asleep q m => cases q <;> rfl
  | _ => rfl

omit [Fintype Thr] [DecidableEq Mtx] in
theorem treeView_bump (u : Thr) (c : Cnd) :
    treeView (tr ++ [.bump u c]) s = (treeView tr s).stale c := by
  have hthr : (treeView (tr ++ [.bump u c]) s).thr = ((treeView tr s).stale c).thr := by
    funext v
    apply seen_staled
    intro d
    simp only [unmoved, missed_bump]
    by_cases hd : c = d
    · simp [hd]
    · simp [hd, Ne.symm hd]
  calc treeView (tr ++ [.bump u c]) s
      = ⟨(treeView tr s).flag, (treeView (tr ++ [.bump u c]) s).thr⟩ := rfl
    _ = (treeView tr s).stale c := by rw [hthr]; rfl

omit [Fintype Thr] [DecidableEq Mtx] in
/-- The reader's snapshot is fresh, the others' are what they were. -/
theorem treeView_snap {c : Cnd} (pc : Pc Mtx Cnd) :
    treeView (tr ++ [.snap t c]) (s.goto t pc) = (treeView tr s).setThr t
      ⟨phase (unmoved t (tr ++ [.snap t c])) pc, (s.thr t).frames⟩ := by
  rw [treeView_goto]
  have hthr : (treeView (tr ++ [.snap t c]) s).setThr t
        ⟨phase (unmoved t (tr ++ [.snap t c])) pc, (s.thr t).frames⟩ =
      (treeView tr s).setThr t
        ⟨phase (unmoved t (tr ++ [.snap t c])) pc, (s.thr t).frames⟩ := by
    simp only [LeaderTree.State.setThr]
    congr 1
    funext u
    by_cases hu : u = t
    · subst hu
      simp only [Function.update_self]
    · simp only [Function.update_of_ne hu]
      show seen (unmoved u (tr ++ [.snap t c])) (s.thr u) = seen (unmoved u tr) (s.thr u)
      congr 1
      funext d
      simp only [unmoved, missed_snap]
      rw [if_neg (fun e => hu e.1.symm)]
  exact hthr

omit [DecidableEq Mtx] [DecidableEq Cnd] in
theorem phase_eq_asleep {fresh : Cnd → Bool} {pc : Pc Mtx Cnd} {c : Cnd}
    (h : phase fresh pc = .asleep c) : ∃ m, pc = .asleep (.cond c) m := by
  have hunlock : ∀ r k, unlockPhase fresh r k ≠ .asleep c := by
    intro r k e
    cases k <;> cases e
  cases pc with
  | asleep q m =>
      cases q with
      | mutex m' => cases h
      | cond d =>
          cases h
          exact ⟨m, rfl⟩
  | unlockRead m k | unlockCas m k | unlockAnd m k | unlockClear m k | unlockWake m k =>
      exact absurd h (hunlock _ k)
  | unlockPoll m k i => exact absurd h (hunlock _ k)
  | _ => cases h

omit [DecidableEq Thr] [Fintype Thr] in
theorem seen_moveAll (fresh : Cnd → Bool) (c : Cnd) (m : Mtx) (u : Thr) :
    seen fresh ((s.moveAll c m).thr u) = (seen fresh (s.thr u)).woken c := by
  by_cases hpc : ∃ m', (s.thr u).pc = .asleep (.cond c) m'
  · obtain ⟨m', hpc⟩ := hpc
    rw [moveAll_asleep hpc]
    simp only [seen, phase, hpc, Thread.goto, LeaderTree.Thread.woken, if_true]
  · rw [moveAll_other (fun m' e => hpc ⟨m', e⟩)]
    have hph : phase fresh (s.thr u).pc ≠ .asleep c := fun e => hpc (phase_eq_asleep e)
    simp only [LeaderTree.Thread.woken]
    split
    · rename_i d he
      rw [if_neg]
      intro e
      rw [e] at he
      exact hph he
    · rfl

omit [Fintype Thr] in
theorem treeView_moveAll (c : Cnd) (m : Mtx) :
    treeView tr (s.moveAll c m) = (treeView tr s).wakeAll c := by
  have hthr : (treeView tr (s.moveAll c m)).thr = ((treeView tr s).wakeAll c).thr := by
    funext u
    exact seen_moveAll (unmoved u tr) c m u
  calc treeView tr (s.moveAll c m)
      = ⟨(treeView tr s).flag, (treeView tr (s.moveAll c m)).thr⟩ := rfl
    _ = (treeView tr s).wakeAll c := by rw [hthr]; rfl

theorem treeView_requeue {c : Cnd} {m : Mtx} {pick : Option Thr}
    (h : s.requeue c m pick = some s₁) : treeView tr s₁ = (treeView tr s).wakeAll c := by
  rcases requeue_cases h with ⟨u, m', hu, rfl⟩ | ⟨-, rfl⟩
  · have hphase : ((treeView tr s).thr u).phase = .asleep c := by
      rw [treeView_thr hu]
      rfl
    rw [treeView_moveAll, treeView_goto]
    exact LeaderTree.State.wakeAll_setThr _ hphase
  · exact treeView_moveAll c m

/-- The mutex's own queue is not seen. -/
theorem treeView_wakeMutex {m : Mtx} {pick : Option Thr}
    (h : s.wakeOne (.mutex m) pick = some s₁) : treeView tr s₁ = treeView tr s := by
  rcases wakeOne_cases h with ⟨u, m', hu, rfl⟩ | ⟨-, rfl⟩
  · rw [treeView_goto]
    apply LeaderTree.State.setThr_eq_self
    rw [treeView_thr hu]
    rfl
  · rfl

end View

/-! ## One step -/

/-- A step of the tree of queues, or nothing. -/
def TreeSim (T : LeaderTree.Tree Cnd) (v v' : LeaderTree.State Thr Cnd) : Prop :=
  v' = v ∨ LeaderTree.Step T v v'

section Steps

variable {T : LeaderTree.Tree Cnd} {M : Mtx} {tr es : List (Ev Thr Mtx Cnd)}
  {s s' s₁ : State Thr Mtx Cnd} {t : Thr}

section

omit [Fintype Thr] [DecidableEq Mtx]

theorem TreeSim.own {th : Thread Mtx Cnd} (hes : ∀ e ∈ es, e.NoSeq)
    (h : TreeSim T (treeView tr s) ((treeView tr s₁).setThr t (seen (unmoved t tr) th))) :
    TreeSim T (treeView tr s) (treeView (tr ++ es) (s₁.setThr t th)) := by
  rw [treeView_setThr hes]
  exact h

/-- A step that means nothing to the tree. -/
theorem TreeSim.quiet {th : Thread Mtx Cnd} {pc : Pc Mtx Cnd} (hpc : (s.thr t).pc = pc)
    (hes : ∀ e ∈ es, e.NoSeq) (h₁ : treeView tr s₁ = treeView tr s)
    (hf : th.frames = (s.thr t).frames)
    (hphase : phase (unmoved t tr) th.pc = phase (unmoved t tr) pc) :
    TreeSim T (treeView tr s) (treeView (tr ++ es) (s₁.setThr t th)) := by
  apply TreeSim.own hes
  left
  rw [h₁]
  apply LeaderTree.State.setThr_eq_self
  rw [treeView_thr hpc, seen, hf, hphase]

/-- The same, of a thread outside the queues. -/
theorem TreeSim.free {th : Thread Mtx Cnd} {pc : Pc Mtx Cnd} (hpc : (s.thr t).pc = pc)
    (hes : ∀ e ∈ es, e.NoSeq) (h₁ : TreeSim T (treeView tr s) (treeView tr s₁))
    (hthr : s₁.thr t = s.thr t) (hf : th.frames = (s.thr t).frames)
    (hphase : phase (unmoved t tr) th.pc = phase (unmoved t tr) pc) :
    TreeSim T (treeView tr s) (treeView (tr ++ es) (s₁.setThr t th)) := by
  apply TreeSim.own hes
  have hself : (treeView tr s₁).setThr t (seen (unmoved t tr) th) = treeView tr s₁ := by
    apply LeaderTree.State.setThr_eq_self
    rw [treeView_thr (hthr ▸ hpc), seen, hf, hphase, hthr]
  rw [hself]
  exact h₁

/-- The mutex is released: by the user, or by a waiter. -/
theorem TreeSim.released {th : Thread Mtx Cnd} {pc : Pc Mtx Cnd}
    {k : Option (Cnd × BitVec 32)} (hpc : (s.thr t).pc = pc)
    (hphase : phase (unmoved t tr) pc = unlockPhase (unmoved t tr) false k)
    (hes : ∀ e ∈ es, e.NoSeq) (h₁ : treeView tr s₁ = treeView tr s)
    (hth : seen (unmoved t tr) th = ⟨unlockPhase (unmoved t tr) true k, (s.thr t).frames⟩) :
    TreeSim T (treeView tr s) (treeView (tr ++ es) (s₁.setThr t th)) := by
  apply TreeSim.own hes
  have hthr : (treeView tr s).thr t =
      ⟨unlockPhase (unmoved t tr) false k, (s.thr t).frames⟩ := by
    rw [treeView_thr hpc, hphase]
  rw [h₁, hth]
  cases k with
  | none => exact .inl (LeaderTree.State.setThr_eq_self _ hthr)
  | some k => exact .inr (.release t k.1 (unmoved t tr k.1) _ hthr)

end

/-- Signal's wake. -/
theorem TreeSim.wakeCond {c : Cnd} {pick : Option Thr}
    (h : s.wakeOne (.cond c) pick = some s₁) :
    TreeSim T (treeView tr s) (treeView tr s₁) := by
  rcases wakeOne_cases h with ⟨u, m', hu, rfl⟩ | ⟨-, rfl⟩
  · right
    rw [treeView_goto]
    exact .wake u c _ (treeView_thr hu)
  · exact .inl rfl

omit [Fintype Thr] [DecidableEq Mtx] in
/-- `seq` of `c` moves, by a thread outside the queues. -/
theorem treeView_add {c : Cnd} {pc pc' : Pc Mtx Cnd} (hpc : (s.thr t).pc = pc)
    (hfree : ∀ fresh, phase fresh pc = .free) (hfree' : ∀ fresh, phase fresh pc' = .free) :
    treeView (tr ++ [.bump t c])
      ((s.setCond c { s.cond c with seq := (s.cond c).seq + 1 }).goto t pc') =
      (treeView tr s).stale c := by
  have hself : (treeView (tr ++ [.bump t c]) s).setThr t
        ⟨phase (unmoved t (tr ++ [.bump t c])) pc', (s.thr t).frames⟩ =
      treeView (tr ++ [.bump t c]) s := by
    apply LeaderTree.State.setThr_eq_self
    rw [treeView_thr hpc, hfree, hfree']
  rw [treeView_goto, treeView_setCond (by rfl)]
  show (treeView (tr ++ [.bump t c]) s).setThr t
    ⟨phase (unmoved t (tr ++ [.bump t c])) pc', (s.thr t).frames⟩ = _
  rw [hself, treeView_bump]

omit [Fintype Thr] [DecidableEq Mtx] in
theorem TreeSim.add {c : Cnd} {pc pc' : Pc Mtx Cnd} (hpc : (s.thr t).pc = pc)
    (hfree : ∀ fresh, phase fresh pc = .free) (hfree' : ∀ fresh, phase fresh pc' = .free) :
    TreeSim T (treeView tr s) (treeView (tr ++ [.bump t c])
      ((s.setCond c { s.cond c with seq := (s.cond c).seq + 1 }).goto t pc')) := by
  rw [treeView_add hpc hfree hfree']
  exact .inr (.signal c)

theorem tree_run {pick : Option Thr} (hl : Local s) (hT : TreeOk T M s) (hq : SeqOk tr s)
    (hw : NoWrap (tr ++ es)) (hs : run s t pick = some (s', es)) :
    TreeSim T (treeView tr s) (treeView (tr ++ es) s') := by
  have hok := hl t
  rw [ThreadOk] at hok
  cases hpc : (s.thr t).pc with
  | idle => simp [run, hpc] at hs
  | asleep q m' => simp [run, hpc] at hs
  | lockFor m i =>
      simp only [run, hpc] at hs
      split at hs <;> cases hs
      · exact .quiet hpc (by simp [Ev.NoSeq]) rfl rfl rfl
      · exact .quiet hpc (by simp) rfl rfl (phase_lockLoop _ m (i + 1))
  | xchg m =>
      simp only [run, hpc] at hs
      split at hs <;> cases hs
      · apply TreeSim.own (by simp [Ev.NoSeq])
        right
        rw [seen_leave]
        exact .resume t _ (treeView_thr hpc)
      · exact .quiet hpc (by simp) rfl rfl rfl
  | mutexWait m =>
      simp only [run, hpc] at hs
      split at hs <;> cases hs <;> exact .quiet hpc (by simp) rfl rfl rfl
  | tryFor m =>
      simp only [run, hpc] at hs
      split at hs <;> cases hs <;> exact .quiet hpc (by simp [Ev.NoSeq]) rfl rfl rfl
  | unlockRead m k =>
      simp only [run, hpc] at hs
      split at hs <;> cases hs <;> exact .quiet hpc (by simp) rfl rfl rfl
  | unlockCas m k =>
      simp only [run, hpc] at hs
      split at hs <;> cases hs
      · exact .released hpc rfl (by simp [Ev.NoSeq]) rfl (seen_unlocked _ _ m k)
      · exact .quiet hpc (by simp) rfl rfl rfl
  | unlockAnd m k =>
      simp only [run, hpc] at hs
      cases hs
      apply TreeSim.released hpc rfl (by simp [Ev.NoSeq]) rfl
      show (⟨phase _ (pollLoop m k 0), (s.thr t).frames⟩ : LeaderTree.Thread Cnd) = _
      rw [phase_pollLoop]
  | unlockPoll m k i =>
      simp only [run, hpc] at hs
      split at hs <;> cases hs
      · exact .quiet hpc (by simp) rfl rfl (phase_pollLoop _ m k (i + 1))
      · apply TreeSim.quiet hpc (by simp) rfl
        · cases k <;> rfl
        · cases k <;> rfl
  | unlockClear m k =>
      simp only [run, hpc] at hs
      cases hs
      exact .quiet hpc (by simp) rfl rfl rfl
  | unlockWake m k =>
      simp only [run, hpc, Option.map_eq_some_iff] at hs
      obtain ⟨s₁, h₁, hs⟩ := hs
      cases hs
      apply TreeSim.quiet hpc (by simp) (treeView_wakeMutex h₁)
      · cases k <;> rfl
      · cases k <;> rfl
  | waitMutex c m =>
      simp only [run, hpc] at hs
      split at hs <;> cases hs <;> exact .quiet hpc (by simp) rfl rfl rfl
  | waitNull c m =>
      simp only [run, hpc] at hs
      split at hs
      · cases hs
        exact .quiet hpc (by simp) rfl rfl rfl
      · rename_i hne
        -- in a tree with one mutex no wait is refused
        exact absurd (hT.null t c m (.inl hpc)) hne
  | waitCas c m =>
      simp only [run, hpc] at hs
      split at hs
      · cases hs
        exact .quiet hpc (by simp) (treeView_setCond rfl) rfl rfl
      · rename_i hne
        exact absurd (hT.null t c m (.inr hpc)) hne
  | waitUseChild c m =>
      simp only [run, hpc] at hs
      split at hs
      · rename_i hzero
        split at hs
        · rename_i p hp
          cases hs
          apply TreeSim.own (by simp)
          -- the first to come: it will lead `c`
          have hflag : (treeView tr s).flag c = false := by
            simp [treeView, hzero]
          exact .inr (.first t c p _ (treeView_thr hpc) hflag ((hT.parent c).symm.trans hp))
        · rename_i hp
          cases hs
          apply TreeSim.own (by simp)
          exact .inr (.later t c _ (treeView_thr hpc) (.inr ((hT.parent c).symm.trans hp)))
      · rename_i hone
        cases hs
        apply TreeSim.own (by simp)
        -- `c` has a leader
        have hflag : (treeView tr s).flag c = true := by
          simp [treeView, (hT.useChild c).resolve_left hone]
        exact .inr (.later t c _ (treeView_thr hpc) (.inl hflag))
  | waitSetChild c m p =>
      rw [hpc] at hok
      simp only [run, hpc] at hs
      cases hs
      apply TreeSim.own (by simp)
      rw [treeView_setChild]
      have hp : T.parent c = some p := (hT.parent c).symm.trans hok.2.2.2
      exact .inr (.mark t c p _ (treeView_thr hpc) hp)
  | waitSeqLoad c m =>
      simp only [run, hpc] at hs
      cases hs
      apply TreeSim.own (by simp)
      exact .inr (.load t c _ (treeView_thr hpc))
  | waitSeqStore c m v =>
      simp only [run, hpc] at hs
      cases hs
      right
      rw [treeView_goto, treeView_setCond (by rfl), treeView_bump]
      exact .bump t c _ (treeView_thr hpc)
  | waitRequeue c m =>
      simp only [run, hpc, Option.map_eq_some_iff] at hs
      obtain ⟨s₁, h₁, hs⟩ := hs
      cases hs
      rw [List.append_nil, treeView_goto, treeView_requeue h₁,
        requeue_thr_self h₁ (by simp [hpc])]
      exact .inr (.requeue t c _ (treeView_thr hpc))
  | waitClearChild c m =>
      simp only [run, hpc] at hs
      cases hs
      apply TreeSim.own (by simp)
      rw [treeView_setChild, seen_leave]
      exact .inr (.unmark t c _ (treeView_thr hpc))
  | waitCurSeq c m =>
      simp only [run, hpc] at hs
      cases hs
      right
      rw [treeView_snap]
      -- the snapshot starts the count of the moves again
      have hfresh : unmoved t (tr ++ [.snap t c]) c = true := by simp [unmoved]
      show LeaderTree.Step T _ ((treeView tr s).setThr t
        ⟨.window c false (unmoved t (tr ++ [.snap t c]) c), (s.thr t).frames⟩)
      rw [hfresh]
      exact .snap t c _ (treeView_thr hpc)
  | waitFutex c m curSeq =>
      simp only [run, hpc] at hs
      split at hs
      · -- the comparison succeeds only if `seq` has not moved
        rename_i heq
        cases hs
        have hmiss : missed t c tr = 0 :=
          ((hq.word t c curSeq (by rw [hpc]; rfl)).eq_iff hw.last).mp heq
        have hfresh : unmoved t tr c = true := by simp [unmoved, hmiss]
        have hthr : (treeView tr s).thr t = _ := treeView_thr hpc
        simp only [phase, hfresh] at hthr
        apply TreeSim.own (by simp [Ev.NoSeq])
        exact .inr (.sleep t c _ hthr)
      · cases hs
        apply TreeSim.own (by simp [Ev.NoSeq])
        exact .inr (.pass t c _ _ (treeView_thr hpc))
  | signalAdd c =>
      simp only [run, hpc] at hs
      cases hs
      exact .add hpc (fun _ => rfl) (fun _ => rfl)
  | broadcastAdd c =>
      simp only [run, hpc] at hs
      cases hs
      exact .add hpc (fun _ => rfl) (fun _ => rfl)
  | signalWake c =>
      simp only [run, hpc, Option.map_eq_some_iff] at hs
      obtain ⟨s₁, h₁, hs⟩ := hs
      cases hs
      have hthr : s₁.thr t = s.thr t := wakeOne_thr_self h₁ (by simp [hpc])
      exact .free hpc (by simp) (.wakeCond h₁) hthr (by rw [hthr]; rfl) rfl
  | broadcastMutex c =>
      simp only [run, hpc] at hs
      split at hs <;> cases hs <;> exact .quiet hpc (by simp) rfl rfl rfl
  | broadcastRequeue c =>
      simp only [run, hpc] at hs
      split at hs
      · simp only [Option.map_eq_some_iff] at hs
        obtain ⟨s₁, h₁, hs⟩ := hs
        cases hs
        have hthr : s₁.thr t = s.thr t := requeue_thr_self h₁ (by simp [hpc])
        have hwake : TreeSim T (treeView tr s) (treeView tr s₁) := by
          right
          rw [treeView_requeue h₁]
          exact .wakeAll c
        exact .free hpc (by simp) hwake hthr (by rw [hthr]; rfl) rfl
      · cases hs
        exact .quiet hpc (by simp) rfl rfl rfl
  | counterLoad m =>
      simp only [run, hpc] at hs
      cases hs
      exact .quiet hpc (by simp) rfl rfl rfl
  | counterStore m v =>
      simp only [run, hpc] at hs
      cases hs
      exact .quiet hpc (by simp [Ev.NoSeq]) rfl rfl rfl
  | ret v =>
      simp only [run, hpc] at hs
      cases hs
      exact .quiet hpc (by simp [Ev.NoSeq]) rfl rfl rfl

omit [DecidableEq Mtx] [DecidableEq Cnd] in
theorem phase_entry (fresh : Cnd → Bool) (c : Call Mtx Cnd) :
    phase fresh c.entry = .free ∨ ∃ d, phase fresh c.entry = .climb d := by
  cases c with
  | lock m => cases m <;> first | exact .inl (phase_lockLoop fresh _ 0) | exact .inl rfl
  | trylock m => cases m <;> exact .inl rfl
  | unlock m => cases m <;> exact .inl rfl
  | wait c m => cases c <;> cases m <;> first | exact .inl rfl | exact .inr ⟨_, rfl⟩
  | signal c => cases c <;> exact .inl rfl
  | broadcast c => cases c <;> exact .inl rfl
  | increment m => exact .inl rfl

omit [Fintype Thr] [DecidableEq Mtx] in
theorem tree_call {c : Call Mtx Cnd} (hl : Local s) (hpc : (s.thr t).pc = .idle) :
    TreeSim T (treeView tr s) (treeView (tr ++ [.call t c])
      (s.setThr t { s.thr t with pc := c.entry, call := some c })) := by
  have hframes : (s.thr t).frames = [] := by
    have hok := hl t
    rw [ThreadOk, hpc] at hok
    exact hok
  have hthr : (treeView tr s).thr t = ⟨.free, []⟩ := by
    rw [treeView_thr hpc, hframes]
    rfl
  apply TreeSim.own (by simp [Ev.NoSeq])
  show TreeSim T (treeView tr s) ((treeView tr s).setThr t
    ⟨phase (unmoved t tr) c.entry, (s.thr t).frames⟩)
  rw [hframes]
  rcases phase_entry (unmoved t tr) c with hp | ⟨d, hp⟩
  · rw [hp]
    exact .inl (LeaderTree.State.setThr_eq_self _ hthr)
  · rw [hp]
    exact .inr (.enter t d hthr)

omit [Fintype Thr] [DecidableEq Mtx] in
theorem tree_spurious : TreeSim T (treeView tr s) (treeView tr (s.wake t)) := by
  simp only [State.wake]
  split
  · rename_i q m hpc
    rw [treeView_goto]
    cases q with
    | mutex m' =>
        left
        apply LeaderTree.State.setThr_eq_self
        rw [treeView_thr hpc]
        rfl
    | cond c => exact .inr (.wake t c _ (treeView_thr hpc))
  · exact .inl rfl

/-- **The code waits as in the tree of queues.** -/
theorem tree_step {a : Act Thr Mtx Cnd} (hl : Local s) (hT : TreeOk T M s) (hq : SeqOk tr s)
    (hw : NoWrap (tr ++ es)) (hs : step s a = some (s', es)) :
    TreeSim T (treeView tr s) (treeView (tr ++ es) s') := by
  cases a with
  | run t pick => exact tree_run hl hT hq hw hs
  | call t c =>
      obtain ⟨hidle, rfl, rfl⟩ := step_call hs
      exact tree_call hl hidle.1
  | spurious t =>
      obtain ⟨-, rfl, rfl⟩ := step_spurious hs
      rw [List.append_nil]
      exact tree_spurious

/-! ## Who needs the mutex -/

omit [DecidableEq Thr] [Fintype Thr] [DecidableEq Mtx] [DecidableEq Cnd] in
theorem holds_of_locked (hl : Local s) (hT : TreeOk T M s) (fresh : Cnd → Bool)
    (h : (seen fresh (s.thr t)).Locked) : (s.thr t).held M = true := by
  have hok := hl t
  rw [ThreadOk] at hok
  have key : ∀ {m : Mtx}, (s.thr t).held m = true → InWait s.cond (s.thr t) m →
      (s.thr t).held M = true := by
    intro m hm hwait
    rw [← hT.wait hwait]
    exact hm
  have hunlock : ∀ {m : Mtx} {k : Option (Cnd × BitVec 32)},
      (⟨unlockPhase fresh false k, (s.thr t).frames⟩ : LeaderTree.Thread Cnd).Locked →
      (s.thr t).held m = true → Unlocking s.cond (s.thr t) m k → (s.thr t).held M = true := by
    intro m k hk hm hu
    cases k with
    | none => exact hk.elim
    | some k => exact key hm hu.1
  have hno : ∀ k, ¬ (⟨unlockPhase fresh true k, (s.thr t).frames⟩ :
      LeaderTree.Thread Cnd).Locked := by
    intro k hk
    cases k <;> exact hk
  rw [seen] at h
  cases hpc : (s.thr t).pc with
  | unlockRead m k =>
      rw [hpc] at h hok
      exact hunlock h hok.1 hok.2
  | unlockCas m k =>
      rw [hpc] at h hok
      exact hunlock h hok.1 hok.2
  | unlockAnd m k =>
      rw [hpc] at h hok
      exact hunlock h hok.1 hok.2
  | unlockPoll m k i =>
      rw [hpc] at h
      exact absurd h (hno k)
  | unlockClear m k =>
      rw [hpc] at h
      exact absurd h (hno k)
  | unlockWake m k =>
      rw [hpc] at h
      exact absurd h (hno k)
  | waitMutex c m | waitNull c m | waitCas c m =>
      rw [hpc] at hok
      exact key hok.1 hok.2
  | waitUseChild c m | waitSeqLoad c m | waitRequeue c m | waitClearChild c m
  | waitCurSeq c m =>
      rw [hpc] at hok
      exact key hok.1 hok.2.1
  | waitSeqStore c m v =>
      rw [hpc] at hok
      exact key hok.1 hok.2.1
  | waitSetChild c m p =>
      rw [hpc] at hok
      exact key hok.1 hok.2.1
  | asleep q m =>
      rw [hpc] at h
      cases q <;> exact h.elim
  | _ =>
      rw [hpc] at h
      exact h.elim

omit [Fintype Thr] in
theorem treeView_excl (hl : Local s) (hx : FutexLock.Inv (view M s)) (hT : TreeOk T M s) :
    LeaderTree.Excl (treeView tr s) := by
  intro t u ht hu
  exact hx.unique t u (holds_of_locked hl hT _ ht) (holds_of_locked hl hT _ hu)

end Steps

end Reeact.Sync
