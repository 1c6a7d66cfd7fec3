import Reeact.Fastsync.CondLaws

/-!
# fastsync_cond — who is released by a signal or a broadcast on the root

From the increment of the root's `seq` on, everyone who waits is owed a
release by the threads asleep at the root, and stays so, step by step. A
broadcast takes all of these out of the queue; a signal takes one, or finds
that there is none left.
-/

namespace Reeact.Sync

open Transition

variable {Thr Mtx Cnd : Type} [DecidableEq Thr] [Fintype Thr] [DecidableEq Mtx]
  [DecidableEq Cnd]

/-! ## What is owed stays owed -/

section Owed

variable {T : LeaderTree.Tree Cnd} {M : Mtx} {mem : Mtx → FastsyncMutex}
  {tr tr' es : List (Ev Thr Mtx Cnd)} {s s' s₁ : State Thr Mtx Cnd} {t u : Thr}

/-- Outside the queues of the tree, or on the way down its own path. -/
def Pc.Outside (pc : Pc Mtx Cnd) : Prop := pc.blockedOn = none ∧ pc.entering = false

section

omit [DecidableEq Mtx] [DecidableEq Cnd]

theorem outside_leave (th : Thread Mtx Cnd) (m : Mtx) (v : Int) :
    (th.leave m v).pc.Outside := by
  rw [Thread.leave]
  split <;> exact ⟨rfl, rfl⟩

theorem outside_lockLoop (m : Mtx) (i : ℕ) : (lockLoop m i : Pc Mtx Cnd).Outside := by
  rw [lockLoop]
  split <;> exact ⟨rfl, rfl⟩

theorem outside_pollLoop (m : Mtx) (i : ℕ) : (pollLoop m none i : Pc Mtx Cnd).Outside := by
  rw [pollLoop]
  split <;> exact ⟨rfl, rfl⟩

end

/-- Only a call leads into a wait. -/
theorem outside_run {pick : Option Thr} (hs : run s t pick = some (s', es))
    (h : (s.thr t).pc.Outside) : (s'.thr t).pc.Outside := by
  have hself : ∀ (s₁ : State Thr Mtx Cnd) (th : Thread Mtx Cnd), th.pc.Outside →
      ((s₁.setThr t th).thr t).pc.Outside := by
    intro s₁ th hth
    simpa only [State.setThr, Function.update_self] using hth
  have hgoto : ∀ (s₁ : State Thr Mtx Cnd) (pc : Pc Mtx Cnd), pc.Outside →
      ((s₁.goto t pc).thr t).pc.Outside := fun s₁ pc hpc => hself s₁ _ hpc
  have hunlock : ∀ {k : Option (Cnd × BitVec 32)}, k.map Prod.fst = none → k = none := by
    intro k hk
    cases k with
    | none => rfl
    | some k => cases hk
  cases hpc : (s.thr t).pc with
  | idle => simp [run, hpc] at hs
  | asleep q m' => simp [run, hpc] at hs
  | lockFor m i =>
      simp only [run, hpc] at hs
      split at hs <;> cases hs
      · exact hself _ _ ⟨rfl, rfl⟩
      · exact hgoto _ _ (outside_lockLoop m (i + 1))
  | xchg m =>
      simp only [run, hpc] at hs
      split at hs <;> cases hs
      · exact hself _ _ (outside_leave _ m 0)
      · exact hgoto _ _ ⟨rfl, rfl⟩
  | unlockRead m k | unlockCas m k | unlockAnd m k =>
      rw [hpc] at h
      have hk : k = none := Option.isSome_eq_false_iff.mp h.2 |> Option.isNone_iff_eq_none.mp
      subst hk
      simp only [run, hpc] at hs
      first
        | (cases hs; exact hself _ _ (outside_pollLoop m 0))
        | (split at hs <;> cases hs <;> exact hself _ _ ⟨rfl, rfl⟩)
  | unlockPoll m k i =>
      rw [hpc] at h
      have hk := hunlock h.1
      subst hk
      simp only [run, hpc] at hs
      split at hs <;> cases hs
      · exact hgoto _ _ (outside_pollLoop m (i + 1))
      · exact hself _ _ ⟨rfl, rfl⟩
  | unlockClear m k =>
      rw [hpc] at h
      have hk := hunlock h.1
      subst hk
      simp only [run, hpc] at hs
      cases hs
      exact hgoto _ _ ⟨rfl, rfl⟩
  | unlockWake m k =>
      rw [hpc] at h
      have hk := hunlock h.1
      subst hk
      simp only [run, hpc, Option.map_eq_some_iff] at hs
      obtain ⟨s₁, -, hs⟩ := hs
      cases hs
      exact hself _ _ ⟨rfl, rfl⟩
  | waitMutex c m | waitNull c m | waitCas c m | waitUseChild c m | waitCurSeq c m =>
      rw [hpc] at h
      cases h.2
  | waitSetChild c m p =>
      rw [hpc] at h
      cases h.2
  | waitFutex c m curSeq =>
      rw [hpc] at h
      cases h.1
  | waitRequeue c m =>
      simp only [run, hpc, Option.map_eq_some_iff] at hs
      obtain ⟨s₁, -, hs⟩ := hs
      cases hs
      exact hgoto _ _ ⟨rfl, rfl⟩
  | waitClearChild c m =>
      simp only [run, hpc] at hs
      cases hs
      exact hself _ _ (outside_leave _ m 0)
  | signalWake c =>
      simp only [run, hpc, Option.map_eq_some_iff] at hs
      obtain ⟨s₁, -, hs⟩ := hs
      cases hs
      exact hgoto _ _ ⟨rfl, rfl⟩
  | broadcastRequeue c =>
      simp only [run, hpc] at hs
      split at hs
      · simp only [Option.map_eq_some_iff] at hs
        obtain ⟨s₁, -, hs⟩ := hs
        cases hs
        exact hgoto _ _ ⟨rfl, rfl⟩
      · cases hs
        exact hgoto _ _ ⟨rfl, rfl⟩
  | _ =>
      simp only [run, hpc] at hs
      first
        | (cases hs; exact hself _ _ ⟨rfl, rfl⟩)
        | (split at hs <;> cases hs <;> exact hself _ _ ⟨rfl, rfl⟩)

omit [Fintype Thr] [DecidableEq Mtx] in
theorem outside_iff (tr : List (Ev Thr Mtx Cnd)) {v : Thr} :
    (s.thr v).pc.Outside ↔ ((treeView tr s).thr v).Done :=
  (phase_done _ _ _).symm

omit [DecidableEq Mtx] [DecidableEq Cnd] in
theorem Moved.outside {cond : Cnd → FastsyncCond Mtx Cnd} {th th' : Thread Mtx Cnd}
    (h : Moved cond th th') (ho : th.pc.Outside) : th'.pc.Outside := by
  cases h with
  | same => exact ho
  | woken _ => exact ⟨rfl, rfl⟩
  | requeued _ _ => exact ⟨rfl, rfl⟩

/-- Whoever gets into a wait has called. -/
theorem called_of_not_outside {a : Act Thr Mtx Cnd} (hl : Local s)
    (hs : step s a = some (s', es)) (h : (s.thr u).pc.Outside)
    (h' : ¬ (s'.thr u).pc.Outside) : ∃ c, .call u c ∈ es := by
  cases a with
  | run t pick =>
      by_cases hu : u = t
      · subst hu
        exact absurd (outside_run hs h) h'
      · exact absurd ((run_moved hl hs hu).outside h) h'
  | spurious t =>
      obtain ⟨-, rfl, rfl⟩ := step_spurious hs
      exact absurd ((wake_thr s t u).outside h) h'
  | call t c =>
      obtain ⟨-, rfl, rfl⟩ := step_call hs
      by_cases hu : u = t
      · subst hu
        exact ⟨c, List.mem_cons_self⟩
      · simp only [State.setThr, Function.update_of_ne hu] at h'
        exact absurd h h'

/-- What is owed to a thread stays owed until it calls again. -/
theorem owed_later {P : LeaderTree.Thread Cnd → Prop}
    (hP : ∀ th th', LeaderTree.Evolves th th' → P th → P th' ∨ th'.Done)
    (h : TreeRuns T M mem tr s) (hr : Later M s tr' s') (hw : NoWrap (tr ++ tr'))
    (ho : LeaderTree.Owed P (treeView tr s) u) :
    (∃ c, .call u c ∈ tr') ∨ LeaderTree.Owed P (treeView (tr ++ tr') s') u := by
  induction hr with
  | nil =>
      right
      rw [List.append_nil]
      exact ho
  | @snoc tr₁ s₁ es s₂ hr hs ih =>
      rw [← List.append_assoc] at hw ⊢
      rcases ih hw.of_append with ⟨c, hc⟩ | ho₁
      · exact .inl ⟨c, List.mem_append_left es hc⟩
      · obtain ⟨a, ha⟩ := hs
        have hrun : TreeRuns T M mem (tr ++ tr₁) s₁ := Run.append h hr
        have hlocal := hrun.runs.local
        have hstep := (treeStep_step ha).2
        rcases tree_step (T := T) hlocal hrun.inv.ok hrun.inv.seq hw hstep with he | hst
        · rw [he]
          exact .inr ho₁
        · have hinv := hrun.inv.tree hw.of_append
          have hkeep : ∀ t, P ((treeView (tr ++ tr₁) s₁).thr t) →
              P ((treeView (tr ++ tr₁ ++ es) s₂).thr t) ∨
                ((treeView (tr ++ tr₁ ++ es) s₂).thr t).Done :=
            fun t => hP _ _ (hst.evolves t)
          rcases ho₁.step hinv hst hkeep with ho₂ | ⟨hfree, hclimb⟩
          · exact .inr ho₂
          · -- a thread that had left, and is back in the tree
            left
            have hout : (s₁.thr u).pc.Outside := by
              rw [outside_iff (tr ++ tr₁), hfree]
              exact trivial
            have hin : ¬ (s₂.thr u).pc.Outside := by
              rw [outside_iff (tr ++ tr₁ ++ es)]
              exact fun hd => LeaderTree.Thread.Climbing.not_done hclimb hd
            obtain ⟨c, hc⟩ := called_of_not_outside hlocal hstep hout hin
            exact ⟨c, List.mem_append_right tr₁ hc⟩

theorem bound_later {c : Cnd} (hr : Later M s tr' s') (hc : (s.cond c).mutex ≠ none) :
    (s'.cond c).mutex ≠ none := by
  induction hr with
  | nil => exact hc
  | snoc _ hs ih =>
      obtain ⟨a, ha⟩ := hs
      exact step_bound (treeStep_step ha).2 ih

/-- Whoever waits somewhere has bound the root, or found it bound. -/
theorem bound_of_blocked {c : Cnd} (h : TreeRuns T M mem tr s) (hw : NoWrap tr)
    (hb : Blocked s u c) : (s.cond T.root).mutex ≠ none := by
  have hwait := (blocked_iff tr).mp hb
  apply h.inv.bound hw
  exact ⟨u, hwait.settled⟩

/-- Once the root's `seq` has moved, everyone who waits is owed a release by
the threads asleep at the root. -/
theorem owed_add {pc pc' : Pc Mtx Cnd} {c : Cnd} (h : TreeRuns T M mem tr s) (hw : NoWrap tr)
    (hpc : (s.thr t).pc = pc) (hfree : ∀ fresh, phase fresh pc = .free)
    (hfree' : ∀ fresh, phase fresh pc' = .free) (hb : Blocked s u c) :
    LeaderTree.Owed (LeaderTree.AtRoot T) (treeView (tr ++ [.bump t T.root])
      ((s.setCond T.root { s.cond T.root with seq := (s.cond T.root).seq + 1 }).goto t pc')) u := by
  have hinv := h.inv.tree hw
  rw [treeView_add hpc hfree hfree']
  have hwait := ((blocked_iff tr).mp hb).staled T.root
  apply (hinv.stale T.root).owed _ hwait
  intro v hv
  exact LeaderTree.stale_fresh hv

/-- The requeue of a broadcast on `c`, once `c` is bound. -/
theorem run_broadcastRequeue (tr : List (Ev Thr Mtx Cnd)) {c : Cnd} {pick : Option Thr}
    (hpc : (s.thr t).pc = .broadcastRequeue c) (hc : (s.cond c).mutex ≠ none)
    (hs : run s t pick = some (s', es)) :
    es = [] ∧ treeView tr s' = (treeView tr s).wakeAll c := by
  simp only [run, hpc] at hs
  split at hs
  · simp only [Option.map_eq_some_iff] at hs
    obtain ⟨s₁, h₁, hs⟩ := hs
    cases hs
    have hthr : s₁.thr t = s.thr t := requeue_thr_self h₁ (by simp [hpc])
    refine ⟨rfl, ?_⟩
    rw [← treeView_requeue h₁, treeView_goto]
    apply LeaderTree.State.setThr_eq_self
    rw [treeView_thr (hthr ▸ hpc)]
    rfl
  · rename_i hnull
    exact absurd hnull hc

end Owed

/-! ## Broadcast -/

/-- **A broadcast on the root releases every waiter of the tree.** Let `b`
increment the root's `seq` in state `s₀`. Nobody who waits is overlooked: the
root stays bound to the mutex, so that the broadcast does requeue. After its
`FUTEX_REQUEUE` (or that of a later broadcast of `b`), at any time, whoever
was waiting in `s₀` has called again, or is released: out of the queues, or
led by a thread that is. -/
theorem broadcast_releases (T : LeaderTree.Tree Cnd) (M : Mtx) (mem : Mtx → FastsyncMutex)
    {tr₀ es₁ : List (Ev Thr Mtx Cnd)} {s₀ s₁ : State Thr Mtx Cnd} {b : Thr}
    {pick : Option Thr} (h : TreeRuns T M mem tr₀ s₀)
    (hb : (s₀.thr b).pc = .broadcastAdd T.root)
    (h₁ : treeStep M s₀ (.run b pick) = some (s₁, es₁)) :
    (∀ tr₂ s₂ w c, Later M s₁ tr₂ s₂ → NoWrap tr₀ → Blocked s₀ w c →
      (s₂.cond T.root).mutex ≠ none) ∧
    ∀ tr₂ s₂ pick' es₃ s₃ tr₄ s₄, Later M s₁ tr₂ s₂ →
      (s₂.thr b).pc = .broadcastRequeue T.root →
      treeStep M s₂ (.run b pick') = some (s₃, es₃) → Later M s₃ tr₄ s₄ →
      NoWrap (tr₀ ++ es₁ ++ tr₂ ++ es₃ ++ tr₄) → ∀ w c, Blocked s₀ w c →
        (∃ d, .call w d ∈ tr₂ ++ es₃ ++ tr₄) ∨
        (Released (tr₀ ++ es₁ ++ tr₂ ++ es₃ ++ tr₄) s₄ w ∧
          ∀ d m, (s₄.thr w).pc = .asleep (.cond d) m →
            ∃ t n, Leads s₄ t n ∧ Out (tr₀ ++ es₁ ++ tr₂ ++ es₃ ++ tr₄) s₄ t) := by
  have hrun₁ : TreeRuns T M mem (tr₀ ++ es₁) s₁ := .snoc h ⟨_, h₁⟩
  have hadd := (treeStep_step h₁).2
  have hbound : ∀ tr₂ s₂ w c, Later M s₁ tr₂ s₂ → NoWrap tr₀ → Blocked s₀ w c →
      (s₂.cond T.root).mutex ≠ none := by
    intro tr₂ s₂ w c h₂ hw hblk
    apply bound_later h₂
    exact step_bound hadd (bound_of_blocked h hw hblk)
  refine ⟨hbound, ?_⟩
  intro tr₂ s₂ pick' es₃ s₃ tr₄ s₄ h₂ hb₂ h₃ h₄ hw w c hblk
  have hw₃ : NoWrap (tr₀ ++ es₁ ++ tr₂ ++ es₃) := hw.of_append
  have hw₂ : NoWrap (tr₀ ++ es₁ ++ tr₂) := hw₃.of_append
  have hw₀ : NoWrap tr₀ := hw₂.of_append.of_append
  have hrun₂ : TreeRuns T M mem (tr₀ ++ es₁ ++ tr₂) s₂ := hrun₁.append h₂
  have hrun₃ : TreeRuns T M mem (tr₀ ++ es₁ ++ tr₂ ++ es₃) s₃ := .snoc hrun₂ ⟨_, h₃⟩
  -- from the increment on, `w` is owed a release by the sleepers at the root
  have howed₁ : LeaderTree.Owed (LeaderTree.AtRoot T) (treeView (tr₀ ++ es₁) s₁) w := by
    simp only [Sync.step, run, hb] at hadd
    cases hadd
    exact owed_add h hw₀ hb (fun _ => rfl) (fun _ => rfl) hblk
  have hatRoot : ∀ th th', LeaderTree.Evolves th th' → LeaderTree.AtRoot T th →
      LeaderTree.AtRoot T th' ∨ th'.Done := fun _ _ he hr => he.of_atRoot hr
  rcases owed_later hatRoot hrun₁ h₂ hw₂ howed₁ with ⟨d, hd⟩ | howed₂
  · exact .inl ⟨d, List.mem_append_left _ (List.mem_append_left _ hd)⟩
  -- the requeue takes all of these out of the queue
  have howed₃ : LeaderTree.Owed (fun _ => False)
      (treeView (tr₀ ++ es₁ ++ tr₂ ++ es₃) s₃) w := by
    obtain ⟨rfl, hview⟩ := run_broadcastRequeue (tr₀ ++ es₁ ++ tr₂) hb₂
      (hbound tr₂ s₂ w c h₂ hw₀ hblk) (treeStep_step h₃).2
    rw [List.append_nil, hview]
    exact (hrun₂.inv.tree hw₂).owed_wakeAll howed₂
  have hnever : ∀ th th' : LeaderTree.Thread Cnd, LeaderTree.Evolves th th' → False →
      False ∨ th'.Done := fun _ _ _ hf => hf.elim
  rcases owed_later hnever hrun₃ h₄ hw howed₃ with ⟨d, hd⟩ | howed₄
  · exact .inl ⟨d, List.mem_append_right _ hd⟩
  have hrel := released_iff.mpr howed₄
  refine .inr ⟨hrel, fun d m hpc => ?_⟩
  rcases hrel.leader with ho | ht
  · exact absurd ho (not_out_of_asleep hpc)
  · exact ht

/-- Thread 1 has called `fastsync_cond_broadcast` on the root. -/
def ledAndBroadcast : List (Act (Fin 3) Unit (Fin 2)) :=
  leaderAndLed ++ [.call 1 (.broadcast (some 0))]

/-- The leader is out, and thread 2 sleeps on at the node it leads. -/
theorem broadcast_releases_led : ∃ (tr : List (Ev (Fin 3) Unit (Fin 2)))
    (s : State (Fin 3) Unit (Fin 2)), (s.thr 2).pc = .asleep (.cond 1) () ∧
      Released tr s 2 ∧ ∃ t n, Leads s t n ∧ Out tr s t := by
  have hout : (exec (treeStep ()) (State.init oneMutex (treeCond twoNodes) :
      State (Fin 3) Unit (Fin 2)) ledAndBroadcast).map (fun p =>
        ((p.1.thr 2).pc, (p.1.thr 1).pc, (treeStep () p.1 (.run 1 none)).bind (fun p₁ =>
          (treeStep () p₁.1 (.run 1 none)).bind (fun p₂ =>
            (treeStep () p₂.1 (.run 1 (some 0))).map (fun p₃ => ((p₂.1.thr 1).pc,
              (p₃.1.thr 2).pc, p₂.2.length, p₃.2.length, p.2.length + p₁.2.length)))))) =
      some (.asleep (.cond 1) (), .broadcastAdd 0,
        some (.broadcastRequeue 0, .asleep (.cond 1) (), 0, 0, 16)) := rfl
  obtain ⟨s₀, tr₀, hr, hv⟩ := run_of_outcome _ _ hout
  simp only [Prod.mk.injEq, Option.bind_eq_some_iff, Option.map_eq_some_iff, Prod.exists,
    List.length_eq_zero_iff] at hv
  obtain ⟨hpc0, hpc1, s₁, es₁, h₁, s₂, es₂, h₂, s₃, es₃, h₃, hpc2, hpc3, rfl, rfl, hlen⟩ := hv
  have hw : NoWrap (tr₀ ++ es₁ ++ [] ++ [] ++ []) := by
    apply NoWrap.of_length
    simp [hlen]
  have hblk : Blocked s₀ 2 1 := by
    rw [Blocked, hpc0]
    rfl
  have hrel := (broadcast_releases twoNodes () oneMutex hr hpc1 h₁).2 [] s₂ _ [] s₃ [] s₃
    (Run.single ⟨_, h₂⟩) hpc2 h₃ .nil hw 2 1 hblk
  rcases hrel with ⟨d, hd⟩ | hrel
  · cases hd
  · exact ⟨_, s₃, hpc3, hrel.1, hrel.2 1 () hpc3⟩

/-- Thread 0 has released the mutex and is about to sleep, having read 0;
thread 1 is outside; `seq` is `v`. -/
structure Racing (v : BitVec 64) (s : State (Fin 2) Unit Unit) : Prop where
  seq : (s.cond ()).seq = v
  waiter : (s.thr 0).pc = .waitFutex () () 0
  waiterFrames : (s.thr 0).frames = []
  outside : (s.thr 1).pc = .idle
  outsideFrames : (s.thr 1).frames = []

/-- A signal that finds nobody asleep. -/
theorem Racing.signal {v : BitVec 64} {s : State (Fin 2) Unit Unit} (h : Racing v s) :
    ∃ tr s', Later () s tr s' ∧ Racing (v + 1) s' ∧ (∀ d, .call 0 d ∉ tr) ∧
      ∀ tr₀, missed 0 () (tr₀ ++ tr) = missed 0 () tr₀ + 1 := by
  let s₁ := s.setThr 1 { s.thr 1 with pc := .signalAdd (), call := some (.signal (some ())) }
  let s₂ := (s₁.setCond () { s₁.cond () with seq := (s₁.cond ()).seq + 1 }).goto 1
    (.signalWake ())
  let s₃ := s₂.goto 1 (.ret 0)
  let s₄ := s₃.setThr 1 { s₃.thr 1 with pc := .idle, call := none }
  have h₁ : treeStep () s (.call 1 (.signal (some ()))) =
      some (s₁, [.call 1 (.signal (some ()))]) := by
    simp [treeStep, Act.uses, step, h.outside, Call.permitted, Call.entry, s₁]
  have h₂ : treeStep () s₁ (.run 1 none) = some (s₂, [.bump 1 ()]) := by
    simp [treeStep, Act.uses, step, run, s₁, s₂, State.setThr]
  have hempty : ∀ u, s₂.sleepsOn (.cond ()) u = false := by
    rw [Fin.forall_fin_two]
    constructor
    · simp [State.sleepsOn, s₂, s₁, State.goto, State.setThr, State.setCond, h.waiter]
    · simp [State.sleepsOn, s₂, s₁, State.goto, State.setThr, State.setCond, Thread.goto]
  have h₃ : treeStep () s₂ (.run 1 none) = some (s₃, []) := by
    have hpc : (s₂.thr 1).pc = .signalWake () := by
      simp [s₂, State.goto, State.setThr, Thread.goto]
    simp [treeStep, Act.uses, step, run, hpc, State.wakeOne, hempty, s₃]
  have h₄ : treeStep () s₃ (.run 1 none) =
      some (s₄, [.ret 1 (some (.signal (some ()))) 0]) := by
    simp [treeStep, Act.uses, step, run, s₁, s₂, s₃, s₄, State.goto, State.setThr,
      State.setCond, Thread.goto]
  refine ⟨_, s₄, (((Run.nil.snoc ⟨_, h₁⟩).snoc ⟨_, h₂⟩).snoc ⟨_, h₃⟩).snoc ⟨_, h₄⟩, ?_, ?_, ?_⟩
  · constructor
    · simp [s₁, s₂, s₃, s₄, State.goto, State.setThr, State.setCond, h.seq]
    · simp [s₁, s₂, s₃, s₄, State.goto, State.setThr, State.setCond, h.waiter]
    · simp [s₁, s₂, s₃, s₄, State.goto, State.setThr, State.setCond, h.waiterFrames]
    · simp [s₁, s₂, s₃, s₄, State.goto, State.setThr, State.setCond]
    · simp [s₁, s₂, s₃, s₄, State.goto, State.setThr, State.setCond, Thread.goto,
        h.outsideFrames]
  · intro d hd
    simp at hd
  · intro tr₀
    simp [missed, missedStep]

theorem Racing.signals {v : BitVec 64} {s : State (Fin 2) Unit Unit} (h : Racing v s) (n : ℕ) :
    ∃ tr s', Later () s tr s' ∧ Racing (v + BitVec.ofNat 64 n) s' ∧ (∀ d, .call 0 d ∉ tr) ∧
      ∀ tr₀, missed 0 () (tr₀ ++ tr) = missed 0 () tr₀ + n := by
  induction n with
  | zero => exact ⟨[], s, .nil, by simpa using h, by simp, by simp⟩
  | succ n ih =>
      obtain ⟨tr, s', hr, hs', hno, hmiss⟩ := ih
      obtain ⟨tr', s'', hr', hs'', hno', hmiss'⟩ := hs'.signal
      have hv : v + BitVec.ofNat 64 (n + 1) = v + BitVec.ofNat 64 n + 1 := by
        rw [BitVec.add_assoc, BitVec.ofNat_add]
        rfl
      refine ⟨tr ++ tr', s'', hr.append hr', hv ▸ hs'', ?_, ?_⟩
      · intro d hd
        rcases List.mem_append.mp hd with hd | hd
        · exact hno d hd
        · exact hno' d hd
      · intro tr₀
        rw [← List.append_assoc, hmiss', hmiss, Nat.add_assoc]

/-- Thread 0 is about to sleep; thread 1 has called `fastsync_cond_broadcast`. -/
def racerAndBroadcast : List (Act (Fin 2) Unit Unit) :=
  goWait () 7 ++ [.call 1 (.broadcast (some ()))]

/-- If `seq` may come round, a waiter that the broadcast has passed by goes to
sleep, and nobody is left to wake it. -/
theorem broadcast_misses_after_wrap :
    ¬ ∀ (tr₀ es₁ tr₂ es₃ tr₄ : List (Ev (Fin 2) Unit Unit))
        (s₀ s₁ s₂ s₃ s₄ : State (Fin 2) Unit Unit) (b : Fin 2) (pick pick' : Option (Fin 2)),
      TreeRuns oneNode () oneMutex tr₀ s₀ → (s₀.thr b).pc = .broadcastAdd () →
      treeStep () s₀ (.run b pick) = some (s₁, es₁) → Later () s₁ tr₂ s₂ →
      (s₂.thr b).pc = .broadcastRequeue () →
      treeStep () s₂ (.run b pick') = some (s₃, es₃) → Later () s₃ tr₄ s₄ →
      ∀ w c, Blocked s₀ w c → (∃ d, .call w d ∈ tr₂ ++ es₃ ++ tr₄) ∨
        Released (tr₀ ++ es₁ ++ tr₂ ++ es₃ ++ tr₄) s₄ w := by
  intro hall
  have hout : (exec (treeStep ()) (State.init oneMutex (treeCond oneNode) :
      State (Fin 2) Unit Unit) racerAndBroadcast).map (fun p =>
        ((p.1.thr 0).pc, (p.1.thr 1).pc, (treeStep () p.1 (.run 1 none)).bind (fun p₁ =>
          (treeStep () p₁.1 (.run 1 none)).bind (fun p₂ =>
            (treeStep () p₂.1 (.run 1 none)).bind (fun p₃ =>
              (treeStep () p₃.1 (.run 1 none)).map (fun p₄ => ((p₂.1.thr 1).pc, p₂.2.length,
                p₃.2.length, p₄.2, (p₄.1.cond ()).seq, (p₄.1.thr 0).pc, (p₄.1.thr 0).frames,
                (p₄.1.thr 1).pc, (p₄.1.thr 1).frames))))))) =
      some (.waitFutex () () 0, .broadcastAdd (), some (.broadcastRequeue (), 0, 0,
        [.ret 1 (some (.broadcast (some ()))) 0], 1, .waitFutex () () 0, [], .idle, [])) := rfl
  obtain ⟨s₀, tr₀, hr, hv⟩ := run_of_outcome _ _ hout
  simp only [Prod.mk.injEq, Option.bind_eq_some_iff, Option.map_eq_some_iff, Prod.exists,
    List.length_eq_zero_iff] at hv
  obtain ⟨hpc0, hpc1, s₁, es₁, h₁, s₂, es₂, h₂, s₃, es₃, h₃, s₄, es₄, h₄, hpc2, rfl, rfl, rfl,
    hseq, hw, hwf, hi, hif⟩ := hv
  -- as many signals as it takes
  obtain ⟨tr, s₅, hr₅, hrace, hno, -⟩ := (Racing.mk hseq hw hwf hi hif).signals 4294967295
  have h₆ : treeStep () s₅ (.run 0 none) =
      some (s₅.goto 0 (.asleep (.cond ()) ()), [.futexWait 0 ()]) := by
    have hword : (s₅.cond ()).word = 0 := by
      rw [FastsyncCond.word, hrace.seq]
      decide
    simp [treeStep, Act.uses, step, run, hrace.waiter, hword]
  have hlater := ((Run.nil.snoc ⟨_, h₄⟩).append hr₅).snoc ⟨_, h₆⟩
  have hblk : Blocked s₀ 0 () := by
    rw [Blocked, hpc0]
    rfl
  have hasleep : ((s₅.goto 0 (.asleep (.cond ()) ())).thr 0).pc = .asleep (.cond ()) () := by
    simp [State.goto, State.setThr, Thread.goto]
  rcases hall tr₀ es₁ [] [] _ s₀ s₁ s₂ s₃ _ 1 _ _ hr hpc1 h₁ (Run.single ⟨_, h₂⟩) hpc2 h₃
    hlater 0 () hblk with ⟨d, hd⟩ | hrel
  · simp only [List.nil_append, List.append_assoc, List.mem_append, List.mem_singleton] at hd
    rcases hd with hd | hd | hd
    · cases hd
    · exact hno d hd
    · cases hd
  · -- the sleeper has no leader
    rcases hrel.leader with ho | ⟨t, n, hl, -⟩
    · exact not_out_of_asleep hasleep ho
    · have hno : ∀ t, ¬ Leads (s₅.goto 0 (.asleep (.cond ()) ())) t () := by
        rw [Fin.forall_fin_two]
        constructor
        · simp [Leads, State.goto, State.setThr, Thread.goto, hrace.waiterFrames, Pc.releasing]
        · simp [Leads, State.goto, State.setThr, hrace.outsideFrames, hrace.outside,
            Pc.releasing]
      exact hno t hl

/-! ## Signal -/

/-- **A signal on the root lets a waiter proceed**, if one is asleep at the
root, or has been waiting since before the signal moved `seq`; or it can
proceed as it is, its `seq` having moved or its leaders being out. -/
theorem signal_releases (T : LeaderTree.Tree Cnd) (M : Mtx) (mem : Mtx → FastsyncMutex)
    {tr₀ es₁ tr₂ es₃ : List (Ev Thr Mtx Cnd)} {s₀ s₁ s₂ s₃ : State Thr Mtx Cnd} {b : Thr}
    {pick pick' : Option Thr} (h : TreeRuns T M mem tr₀ s₀)
    (hb : (s₀.thr b).pc = .signalAdd T.root)
    (h₁ : treeStep M s₀ (.run b pick) = some (s₁, es₁)) (h₂ : Later M s₁ tr₂ s₂)
    (hb₂ : (s₂.thr b).pc = .signalWake T.root)
    (h₃ : treeStep M s₂ (.run b pick') = some (s₃, es₃))
    (hw : NoWrap (tr₀ ++ es₁ ++ tr₂ ++ es₃))
    (hwait : ∃ w c, Blocked s₂ w c ∧ ((∃ m, (s₂.thr w).pc = .asleep (.cond T.root) m) ∨
      Released (tr₀ ++ es₁ ++ tr₂) s₂ w ∨ (∃ c', Blocked s₀ w c') ∧ ∀ d, .call w d ∉ tr₂)) :
    ∃ w c, Blocked s₂ w c ∧ Released (tr₀ ++ es₁ ++ tr₂ ++ es₃) s₃ w := by
  have hw₂ : NoWrap (tr₀ ++ es₁ ++ tr₂) := hw.of_append
  have hw₀ : NoWrap tr₀ := hw₂.of_append.of_append
  have hrun₁ : TreeRuns T M mem (tr₀ ++ es₁) s₁ := .snoc h ⟨_, h₁⟩
  have hadd := (treeStep_step h₁).2
  have hwake := (treeStep_step h₃).2
  simp only [Sync.step, run, hb₂, Option.map_eq_some_iff] at hwake
  obtain ⟨s', hone, hwake⟩ := hwake
  cases hwake
  rw [List.append_nil]
  rcases wakeOne_cases hone with ⟨u, m, hu, rfl⟩ | ⟨hempty, he⟩
  · -- the one that is woken was blocked until now
    refine ⟨u, T.root, ?_, .out (.inl ?_)⟩
    · rw [Blocked, hu]
      rfl
    · have hub : u ≠ b := by
        intro e
        subst e
        rw [hu] at hb₂
        cases hb₂
      have hpc : (((s₂.goto u (.xchg m)).goto b (.ret 0)).thr u).pc = .xchg m := by
        simp only [State.goto, State.setThr, Function.update_of_ne hub, Function.update_self,
          Thread.goto]
      rw [hpc]
      exact ⟨rfl, rfl⟩
  · -- nobody sleeps at the root: a release is on its way already
    subst s'
    have hsame : treeView (tr₀ ++ es₁ ++ tr₂) (s₂.goto b (.ret 0)) =
        treeView (tr₀ ++ es₁ ++ tr₂) s₂ := by
      rw [treeView_goto]
      apply LeaderTree.State.setThr_eq_self
      rw [treeView_thr hb₂]
      rfl
    obtain ⟨w, c, hblk, ⟨m, hm⟩ | hrel | ⟨⟨c', hblk₀⟩, hcall⟩⟩ := hwait
    · exact absurd hm (hempty w m)
    · refine ⟨w, c, hblk, released_iff.mpr ?_⟩
      rw [hsame]
      exact released_iff.mp hrel
    refine ⟨w, c, hblk, ?_⟩
    have howed₁ : LeaderTree.Owed (LeaderTree.AtRoot T) (treeView (tr₀ ++ es₁) s₁) w := by
      simp only [Sync.step, run, hb] at hadd
      cases hadd
      exact owed_add h hw₀ hb (fun _ => rfl) (fun _ => rfl) hblk₀
    have hatRoot : ∀ th th', LeaderTree.Evolves th th' → LeaderTree.AtRoot T th →
        LeaderTree.AtRoot T th' ∨ th'.Done := fun _ _ he hr => he.of_atRoot hr
    rcases owed_later hatRoot hrun₁ h₂ hw₂ howed₁ with ⟨d, hd⟩ | howed₂
    · exact absurd hd (hcall d)
    have hnone : ∀ t, ¬ LeaderTree.AtRoot T ((treeView (tr₀ ++ es₁ ++ tr₂) s₂).thr t) := by
      intro t ht
      obtain ⟨m, hm⟩ := phase_eq_asleep ht
      exact hempty t m hm
    apply released_iff.mpr
    rw [hsame]
    exact howed₂.of_none hnone

/-- Thread 1 has woken the leader by a signal on the root, and has called
`fastsync_cond_signal` again. -/
def ledAndSignals : List (Act (Fin 3) Unit (Fin 2)) :=
  leaderAndLed ++ [.call 1 (.signal (some 0)), .run 1 none, .run 1 (some 0), .run 1 none,
    .call 1 (.signal (some 0))]

/-- The second signal finds nobody at the root: thread 2 is let go already. -/
theorem signal_releases_led : ∃ (tr : List (Ev (Fin 3) Unit (Fin 2)))
    (s s' : State (Fin 3) Unit (Fin 2)) (w : Fin 3) (c : Fin 2),
      (s.thr 0).pc = .xchg () ∧ (s.thr 2).pc = .asleep (.cond 1) () ∧ Leads s 0 1 ∧
        Blocked s w c ∧ Released tr s' w := by
  have hout : (exec (treeStep ()) (State.init oneMutex (treeCond twoNodes) :
      State (Fin 3) Unit (Fin 2)) ledAndSignals).map (fun p =>
        ((p.1.thr 1).pc, (treeStep () p.1 (.run 1 none)).bind (fun p₁ =>
          (treeStep () p₁.1 (.run 1 none)).map (fun p₂ => ((p₁.1.thr 1).pc, (p₁.1.thr 0).pc,
            (p₁.1.thr 0).frames, (p₁.1.thr 2).pc, p₂.2.length, p.2.length + p₁.2.length))))) =
      some (.signalAdd 0, some (.signalWake 0, .xchg (), [1], .asleep (.cond 1) (), 0, 19)) := rfl
  obtain ⟨s₀, tr₀, hr, hv⟩ := run_of_outcome _ _ hout
  simp only [Prod.mk.injEq, Option.bind_eq_some_iff, Option.map_eq_some_iff, Prod.exists,
    List.length_eq_zero_iff] at hv
  obtain ⟨hpc, s₁, es₁, h₁, s₂, es₂, h₂, hpc₁, hleader, hframes, hled, rfl, hlen⟩ := hv
  have hw : NoWrap (tr₀ ++ es₁ ++ [] ++ []) := by
    apply NoWrap.of_length
    simp [hlen]
  have hblk : Blocked s₁ 2 1 := by
    rw [Blocked, hled]
    rfl
  have hleads : Leads s₁ 0 1 := by
    left
    rw [hframes]
    exact List.mem_cons_self
  have hrel : Released (tr₀ ++ es₁ ++ []) s₁ 2 := by
    apply Released.led hblk hleads (.out (.inl _))
    rw [hleader]
    exact ⟨rfl, rfl⟩
  obtain ⟨w, c, hb, hrel'⟩ := signal_releases twoNodes () oneMutex hr hpc h₁ .nil hpc₁ h₂ hw
    ⟨2, 1, hblk, .inr (.inl hrel)⟩
  exact ⟨_, s₁, s₂, w, c, hleader, hled, hleads, hb, hrel'⟩

/-- A waiter that comes between the increment and the `FUTEX_WAKE` of a signal
reads the new `seq`, and sleeps although it was blocked at the wake. -/
theorem signal_misses_newcomer :
    ¬ ∀ (tr₀ es₁ tr₂ es₃ : List (Ev (Fin 2) Unit Unit))
        (s₀ s₁ s₂ s₃ : State (Fin 2) Unit Unit) (b : Fin 2) (pick pick' : Option (Fin 2)),
      TreeRuns oneNode () oneMutex tr₀ s₀ → (s₀.thr b).pc = .signalAdd () →
      treeStep () s₀ (.run b pick) = some (s₁, es₁) → Later () s₁ tr₂ s₂ →
      (s₂.thr b).pc = .signalWake () → treeStep () s₂ (.run b pick') = some (s₃, es₃) →
      NoWrap (tr₀ ++ es₁ ++ tr₂ ++ es₃) → (∃ w c, Blocked s₂ w c) →
      ∃ w c, Blocked s₂ w c ∧ Released (tr₀ ++ es₁ ++ tr₂ ++ es₃) s₃ w := by
  intro hall
  have hout : (exec (treeStep ()) (State.init oneMutex (treeCond oneNode) :
      State (Fin 2) Unit Unit) [.call 1 (.signal (some ()))]).map (fun p =>
        ((p.1.thr 1).pc, (treeStep () p.1 (.run 1 none)).bind (fun p₁ =>
          (exec (treeStep ()) p₁.1 (goWait () 7)).bind (fun p₂ =>
            (treeStep () p₂.1 (.run 1 none)).map (fun p₃ =>
              ((p₂.1.thr 1).pc, (p₂.1.thr 0).pc, (p₃.1.thr 0).pc, (p₃.1.thr 0).frames,
                (p₃.1.thr 1).frames, (p₃.1.thr 1).pc, p.2 ++ p₁.2 ++ p₂.2 ++ p₃.2)))))) =
      some (.signalAdd (), some (.signalWake (), .waitFutex () () 1, .waitFutex () () 1, [],
        [], .ret 0, [.call 1 (.signal (some ())), .bump 1 (), .call 0 (.lock (some ())),
          .acquire 0 (), .ret 0 (some (.lock (some ()))) 0,
          .call 0 (.wait (some ()) (some ())), .snap 0 (), .release 0 ()])) := rfl
  obtain ⟨s₀, tr₀, hr, hv⟩ := run_of_outcome _ _ hout
  simp only [Prod.mk.injEq, Option.bind_eq_some_iff, Option.map_eq_some_iff, Prod.exists] at hv
  obtain ⟨hpc, s₁, es₁, h₁, s₂, tr₂, h₂, s₃, es₃, h₃, hpc1, hpc0, hpc0', hf0, hf1, hpc1',
    htr⟩ := hv
  have hw : NoWrap (tr₀ ++ es₁ ++ tr₂ ++ es₃) := by
    rw [htr]
    exact .of_length (by decide)
  have hblk : Blocked s₂ 0 () := by
    rw [Blocked, hpc0]
    rfl
  obtain ⟨w, c, hb, hrel⟩ := hall _ _ _ _ _ _ _ _ 1 _ _ hr hpc h₁ (run_of_exec h₂) hpc1 h₃ hw
    ⟨0, (), hblk⟩
  have hw0 : w = 0 := by
    by_contra hne
    have hw1 : w = 1 := by omega
    rw [Blocked, hw1, hpc1] at hb
    cases hb
  subst hw0
  -- its snapshot is current, and nobody leads
  have hno : ∀ t, ¬ Leads s₃ t () := by
    rw [Fin.forall_fin_two]
    constructor
    · simp [Leads, hf0, hpc0', Pc.releasing]
    · simp [Leads, hf1, hpc1', Pc.releasing]
  rcases hrel.leader with (⟨hout, -⟩ | ⟨⟨⟩, cur, hwin, -, hmiss⟩) | ⟨t, n, hl, -⟩
  · rw [hpc0'] at hout
    cases hout
  · rw [htr] at hmiss
    exact absurd hmiss (by decide)
  · exact hno t hl

end Reeact.Sync
