import Reeact.Fastsync.CondBranch
import Reeact.Fastsync.MutexMark

/-!
# fastsync_cond_init — what is left of the memory

`fastsync_cond_init` sets `seq` and `mutex` and leaves `use_child` and
`parent` as the memory has them (`fastsync_barrier_init` does set
`parent_bar`). Two objects initialised over different memory behave the same
if in both the parent branch is closed (`mask_step`), and only then.
-/

namespace Reeact.Sync

open Transition

variable {Thr Mtx Cnd : Type} [DecidableEq Thr] [Fintype Thr] [DecidableEq Mtx]
  [DecidableEq Cnd]

/-! ## Two fields out of sight -/

/-- The fields that `fastsync_cond_init` does not set, cleared. -/
def FastsyncCond.blank (v : FastsyncCond Mtx Cnd) : FastsyncCond Mtx Cnd :=
  { v with useChild := 0, parent := none }

/-- The state, without what the memory of `c` held before the initialisation. -/
def State.mask (c : Cnd) (s : State Thr Mtx Cnd) : State Thr Mtx Cnd :=
  s.setCond c (s.cond c).blank

section Mask

variable {s : State Thr Mtx Cnd} {t : Thr} {c : Cnd}

section

omit [DecidableEq Thr] [Fintype Thr] [DecidableEq Mtx]

theorem mask_cond_self : (s.mask c).cond c = (s.cond c).blank := Function.update_self ..

theorem mask_cond_ne {d : Cnd} (h : d ≠ c) : (s.mask c).cond d = s.cond d :=
  Function.update_of_ne h ..

@[simp] theorem mask_cond_mutex (d : Cnd) : ((s.mask c).cond d).mutex = (s.cond d).mutex := by
  by_cases h : d = c
  · subst h
    rw [mask_cond_self]
    rfl
  · rw [mask_cond_ne h]

@[simp] theorem mask_cond_seq (d : Cnd) : ((s.mask c).cond d).seq = (s.cond d).seq := by
  by_cases h : d = c
  · subst h
    rw [mask_cond_self]
    rfl
  · rw [mask_cond_ne h]

@[simp] theorem mask_cond_word (d : Cnd) : ((s.mask c).cond d).word = (s.cond d).word := by
  rw [FastsyncCond.word, mask_cond_seq]
  rfl

@[simp] theorem mask_thr : (s.mask c).thr = s.thr := rfl

theorem mask_setCond_ne {d : Cnd} (h : d ≠ c) (v : FastsyncCond Mtx Cnd) :
    (s.mask c).setCond d v = (s.setCond d v).mask c := by
  have hcond : Function.update (Function.update s.cond c (s.cond c).blank) d v =
      Function.update (Function.update s.cond d v) c (Function.update s.cond d v c).blank := by
    rw [Function.update_comm h.symm, Function.update_of_ne h.symm]
  simp only [State.mask, State.setCond, hcond]

/-- A write that neither reads nor writes the two fields. -/
theorem mask_setCond (d : Cnd) {f : FastsyncCond Mtx Cnd → FastsyncCond Mtx Cnd}
    (hf : ∀ v, f v.blank = (f v).blank) :
    (s.mask c).setCond d (f ((s.mask c).cond d)) = (s.setCond d (f (s.cond d))).mask c := by
  by_cases h : d = c
  · subst h
    rw [mask_cond_self, hf]
    have hcond : Function.update (Function.update s.cond d (s.cond d).blank) d
          (f (s.cond d)).blank =
        Function.update (Function.update s.cond d (f (s.cond d))) d
          (Function.update s.cond d (f (s.cond d)) d).blank := by
      rw [Function.update_idem, Function.update_idem, Function.update_self]
    simp only [State.mask, State.setCond, hcond]
  · rw [mask_cond_ne h]
    exact mask_setCond_ne h _

end

omit [Fintype Thr] [DecidableEq Mtx] in
theorem mask_wake (u : Thr) : (s.mask c).wake u = (s.wake u).mask c := by
  simp only [State.wake, mask_thr]
  split <;> rfl

theorem mask_wakeOne (q : Key Mtx Cnd) (pick : Option Thr) :
    (s.mask c).wakeOne q pick = (s.wakeOne q pick).map (State.mask c) := by
  have hsleeps : ∀ u, (s.mask c).sleepsOn q u = s.sleepsOn q u := fun _ => rfl
  cases pick with
  | some u =>
      simp only [State.wakeOne, hsleeps, mask_wake]
      split <;> rfl
  | none =>
      simp only [State.wakeOne, hsleeps]
      split <;> rfl

theorem mask_requeue (d : Cnd) (m : Mtx) (pick : Option Thr) :
    (s.mask c).requeue d m pick = (s.requeue d m pick).map (State.mask c) := by
  simp only [State.requeue, mask_wakeOne, Option.map_map]
  rfl

/-! ## A step -/

/-- What has been seen of a step. -/
abbrev masked (c : Cnd) : Option (State Thr Mtx Cnd × List (Ev Thr Mtx Cnd)) →
    Option (State Thr Mtx Cnd × List (Ev Thr Mtx Cnd)) :=
  Option.map (Prod.map (State.mask c) id)

theorem mask_run (h : OffBranch c s) (pick : Option Thr) :
    run (s.mask c) t pick = masked c (run s t pick) := by
  have hne : ∀ {d : Cnd}, (s.thr t).pc.branch = some d → d ≠ c := by
    rintro d hd rfl
    exact h.outside t (.inr hd)
  cases hpc : (s.thr t).pc with
  | waitUseChild d m =>
      -- the only read of the two fields: both states stay with the condition
      by_cases hd : d = c
      · subst hd
        simp only [run, mask_thr, hpc, mask_cond_self, FastsyncCond.blank, if_true]
        rcases h.closed with huse | hnone
        · simp only [huse, if_false]
          rfl
        · simp only [hnone]
          split <;> rfl
      · simp only [run, mask_thr, hpc, mask_cond_ne hd]
        split
        · split <;> rfl
        · rfl
  | waitSetChild d m p =>
      -- nobody is in the branch of `c`, so `use_child` of another is written
      have hd : d ≠ c := hne (by rw [hpc]; rfl)
      simp only [run, mask_thr, hpc, mask_cond_ne hd, mask_setCond_ne hd]
      rfl
  | waitClearChild d m =>
      have hd : d ≠ c := hne (by rw [hpc]; rfl)
      simp only [run, mask_thr, hpc, mask_cond_ne hd, mask_setCond_ne hd]
      rfl
  | waitCas d m =>
      have hw := mask_setCond (s := s) (c := c) d (f := fun v => { v with mutex := some m })
        (fun _ => rfl)
      simp only [run, mask_thr, hpc, mask_cond_mutex, hw]
      split <;> rfl
  | waitSeqStore d m v =>
      have hw := mask_setCond (s := s) (c := c) d (f := fun w => { w with seq := v + 1 })
        (fun _ => rfl)
      simp only [run, mask_thr, hpc, hw]
      rfl
  | signalAdd d =>
      have hw := mask_setCond (s := s) (c := c) d (f := fun w => { w with seq := w.seq + 1 })
        (fun _ => rfl)
      simp only [run, mask_thr, hpc, hw]
      rfl
  | broadcastAdd d =>
      have hw := mask_setCond (s := s) (c := c) d (f := fun w => { w with seq := w.seq + 1 })
        (fun _ => rfl)
      simp only [run, mask_thr, hpc, hw]
      rfl
  | unlockWake m k =>
      simp only [run, mask_thr, hpc, mask_wakeOne, Option.map_map]
      rfl
  | signalWake d =>
      simp only [run, mask_thr, hpc, mask_wakeOne, Option.map_map]
      rfl
  | waitRequeue d m =>
      simp only [run, mask_thr, hpc, mask_requeue, Option.map_map]
      rfl
  | broadcastRequeue d =>
      simp only [run, mask_thr, hpc, mask_cond_mutex]
      split
      · simp only [mask_requeue, Option.map_map]
        rfl
      · rfl
  | _ =>
      simp only [run, mask_thr, hpc, mask_cond_mutex, mask_cond_seq, mask_cond_word,
        apply_ite (masked c)]
      first
        | rfl
        | (split <;> rfl)

/-- **While its parent branch is closed, nobody sees the two fields** of `c`. -/
theorem mask_step (h : OffBranch c s) (a : Act Thr Mtx Cnd) :
    step (s.mask c) a = masked c (step s a) := by
  cases a with
  | run t pick => exact mask_run h pick
  | call t call =>
      simp only [step, mask_thr, apply_ite (masked c)]
      rfl
  | spurious t =>
      simp only [step, mask_thr]
      split
      · rw [mask_wake]
        rfl
      · rfl

theorem mask_exec (hl : Local s) (h : OffBranch c s) (as : List (Act Thr Mtx Cnd)) :
    exec step (s.mask c) as = masked c (exec step s as) := by
  refine exec_map (I := fun s => Local s ∧ OffBranch c s) (fun s a hs => mask_step hs.2 a) ?_ as
    ⟨hl, h⟩
  intro s a s' es hs ha
  exact ⟨hs.1.step ha, hs.2.step hs.1 ha⟩

end Mask

/-! ## Two runs -/

/-- `c` initialised over the memory `v`, the other conditions as `cond` has
them. -/
def initOver (cond : Cnd → FastsyncCond Mtx Cnd) (c : Cnd) (v : FastsyncCond Mtx Cnd) :
    Cnd → FastsyncCond Mtx Cnd :=
  Function.update cond c (fastsyncCondInit v)

/-- What the memory must be for `fastsync_cond_wait` to stay with the
condition. -/
def Closed (v : FastsyncCond Mtx Cnd) : Prop := v.useChild ≠ 0 ∨ v.parent = none

variable (Thr) in
/-- `c` does not depend on which of `v₁` and `v₂` it is initialised over. -/
structure Independent (mem : Mtx → FastsyncMutex) (cond : Cnd → FastsyncCond Mtx Cnd) (c : Cnd)
    (v₁ v₂ : FastsyncCond Mtx Cnd) : Prop where
  /-- every schedule is possible over both or over neither, with the same
  events and results, and ends in the same state but for the two fields -/
  same : ∀ as : List (Act Thr Mtx Cnd),
    masked c (exec step (State.init mem (initOver cond c v₁)) as) =
      masked c (exec step (State.init mem (initOver cond c v₂)) as)
  /-- nobody takes the parent branch of `c` -/
  outside : ∀ v, v = v₁ ∨ v = v₂ → ∀ (tr : List (Ev Thr Mtx Cnd)) (s : State Thr Mtx Cnd),
    Runs mem (initOver cond c v) tr s → ∀ t, ¬ (s.thr t).InBranch c

/-- `t` locks `m` and waits on `c`, up to the read of `use_child` and beyond. -/
def firstWait (t : Thr) (c : Cnd) (m : Mtx) : List (Act Thr Mtx Cnd) :=
  [.call t (.lock (some m)), .run t none, .run t none, .call t (.wait (some c) (some m)),
    .run t none, .run t none, .run t none, .run t none]

section Init

variable {mem : Mtx → FastsyncMutex} {cond : Cnd → FastsyncCond Mtx Cnd} {c : Cnd}
  {v₁ v₂ : FastsyncCond Mtx Cnd}

theorem Closed.exec_init {v : FastsyncCond Mtx Cnd} (h : Closed v) (as : List (Act Thr Mtx Cnd)) :
    masked c (exec step (State.init mem (initOver cond c v)) as) =
      exec step ((State.init mem (initOver cond c v)).mask c) as := by
  refine (mask_exec (Runs.local .nil) (OffBranch.init ?_) as).symm
  rw [initOver, Function.update_self]
  exact h

omit [DecidableEq Thr] [Fintype Thr] [DecidableEq Mtx] in
theorem mask_initOver : (State.init mem (initOver cond c v₁) : State Thr Mtx Cnd).mask c =
    (State.init mem (initOver cond c v₂)).mask c := by
  have hcond : ∀ v, Function.update (initOver cond c v) c (initOver cond c v c).blank =
      Function.update cond c ⟨0, none, 0, none⟩ := by
    intro v
    rw [initOver, Function.update_idem, Function.update_self]
    rfl
  show State.setCond _ c (initOver cond c v₁ c).blank =
    State.setCond _ c (initOver cond c v₂ c).blank
  simp only [State.setCond, State.init, hcond]

/-- The wait of a holder on a condition that nobody is bound to, as far as the
call on the parent. -/
theorem wait_follows {s : State Thr Mtx Cnd} {p : Cnd} {t : Thr} {m : Mtx}
    (ht : (s.thr t).pc = .idle) (hheld : (s.thr t).held m = true)
    (hmutex : (s.cond c).mutex = none) (huse : (s.cond c).useChild = 0)
    (hp : (s.cond c).parent = some p) :
    ∃ s' tr, exec step s [.call t (.wait (some c) (some m)), .run t none, .run t none,
        .run t none, .run t none] = some (s', tr) ∧ (s'.thr t).pc = .waitSetChild c m p := by
  let s₁ := s.setThr t
    { s.thr t with pc := .waitMutex c m, call := some (.wait (some c) (some m)) }
  let s₂ := s₁.goto t (.waitNull c m)
  let s₃ := s₂.goto t (.waitCas c m)
  let s₄ := (s₃.setCond c { s.cond c with mutex := some m }).goto t (.waitUseChild c m)
  let s₅ := s₄.goto t (.waitSetChild c m p)
  have h₁ : step s (.call t (.wait (some c) (some m))) =
      some (s₁, [.call t (.wait (some c) (some m))]) := by
    simp [step, ht, hheld, Call.permitted, Call.entry, s₁]
  have h₂ : step s₁ (.run t none) = some (s₂, []) := by
    simp [step, run, s₁, s₂, State.setThr, hmutex]
  have h₃ : step s₂ (.run t none) = some (s₃, []) := by
    simp [step, run, s₁, s₂, s₃, State.setThr, State.goto, Thread.goto, hmutex]
  have h₄ : step s₃ (.run t none) = some (s₄, []) := by
    simp [step, run, s₁, s₂, s₃, s₄, State.setThr, State.goto, Thread.goto, hmutex]
  have h₅ : step s₄ (.run t none) = some (s₅, []) := by
    simp [step, run, s₄, s₅, State.setThr, State.setCond, State.goto, Thread.goto, huse, hp]
  have hpc : (s₅.thr t).pc = .waitSetChild c m p := by
    simp [s₅, State.goto, State.setThr, Thread.goto]
  refine ⟨s₅, [.call t (.wait (some c) (some m))], ?_, hpc⟩
  simp only [exec, h₁, h₂, h₃, h₄, h₅, Option.bind_eq_bind, Option.bind_some, Option.pure_def]
  rfl

variable (mem cond c) in
/-- The first waiter goes wherever the memory points. -/
theorem firstWait_follows {v : FastsyncCond Mtx Cnd} {p : Cnd} (huse : v.useChild = 0)
    (hp : v.parent = some p) (t : Thr) (m : Mtx) :
    ∃ s tr, exec step (State.init mem (initOver cond c v)) (firstWait t c m) = some (s, tr) ∧
      (s.thr t).pc = .waitSetChild c m p := by
  let s₀ : State Thr Mtx Cnd := State.init mem (initOver cond c v)
  let s₁ := (s₀.setMutex m 1).setThr t { (s₀.thr t).take m with pc := .idle, call := none }
  have hlock : exec step s₀ (lockCall t m) = some (s₁, _) := (lock_free rfl rfl).1
  have hcond : s₁.cond c = fastsyncCondInit v := Function.update_self ..
  have hthr : s₁.thr t = { (s₀.thr t).take m with pc := .idle, call := none } :=
    setThr_thr ..
  obtain ⟨s, tr, he, hpc⟩ := wait_follows (c := c) (p := p) (s := s₁) (t := t) (m := m)
    (by rw [hthr]) (by rw [hthr]; exact Function.update_self ..) (by rw [hcond]; rfl)
    (by rw [hcond]; exact huse) (by rw [hcond]; exact hp)
  exact ⟨s, _, exec_append hlock he, hpc⟩

theorem Closed.outside {v : FastsyncCond Mtx Cnd} (h : Closed v) {tr : List (Ev Thr Mtx Cnd)}
    {s : State Thr Mtx Cnd} (hr : Runs mem (initOver cond c v) tr s) (t : Thr) :
    ¬ (s.thr t).InBranch c := by
  apply (Runs.offBranch hr _).outside t
  rw [initOver, Function.update_self]
  exact h

/-- If some thread may ever wait, it takes the branch that the memory opens. -/
theorem closed_of_outside {v : FastsyncCond Mtx Cnd} (t : Thr) (m : Mtx)
    (h : ∀ (tr : List (Ev Thr Mtx Cnd)) (s : State Thr Mtx Cnd),
      Runs mem (initOver cond c v) tr s → ∀ t, ¬ (s.thr t).InBranch c) : Closed v := by
  by_contra hopen
  simp only [Closed, not_or, not_not] at hopen
  obtain ⟨p, hp⟩ := Option.ne_none_iff_exists'.mp hopen.2
  obtain ⟨s, tr, he, hpc⟩ := firstWait_follows mem cond c hopen.1 hp t m
  exact h tr s (run_of_exec he) t (.inr (by rw [hpc]; rfl))

end Init

/-- **`fastsync_cond_init` makes a condition independent of the memory exactly
where the memory closes the parent branch**: of two contents, both must have
a `use_child` that is not 0, or no parent. -/
theorem init_independent_iff (mem : Mtx → FastsyncMutex) (cond : Cnd → FastsyncCond Mtx Cnd)
    (c : Cnd) (v₁ v₂ : FastsyncCond Mtx Cnd) (t : Thr) (m : Mtx) :
    Independent Thr mem cond c v₁ v₂ ↔
      (v₁.useChild ≠ 0 ∨ v₁.parent = none) ∧ (v₂.useChild ≠ 0 ∨ v₂.parent = none) := by
  constructor
  · intro h
    exact ⟨closed_of_outside t m (h.outside v₁ (.inl rfl)),
      closed_of_outside t m (h.outside v₂ (.inr rfl))⟩
  · rintro ⟨h₁, h₂⟩
    constructor
    · intro as
      rw [Closed.exec_init h₁, Closed.exec_init h₂, mask_initOver]
    · rintro v (rfl | rfl) tr s hr t
      · exact Closed.outside h₁ hr t
      · exact Closed.outside h₂ hr t

/-- Zeroed memory, and memory that once held a pointer to the condition. -/
theorem init_keeps_parent : ¬ Independent (Fin 2) oneMutex oneCond ()
    ⟨0, none, 0, none⟩ ⟨0, some (), 5, some ()⟩ := by
  intro h
  have hsame := congrArg (Option.map (fun p => (p.1.thr 0).pc)) (h.same (firstWait 0 () ()))
  exact absurd hsame (by decide)

end Reeact.Sync
