import Reeact.Fastsync.Sync

/-!
# fastsync_mutex and fastsync_cond — what each thread knows

Facts about one thread that no other thread can take away: which mutex it
holds at which position, that a condition it waits on is bound to its mutex,
that its suspended calls all have that mutex. They rest on two properties of
every step: a condition once bound stays bound, and a thread is only moved by
others from one queue to the next, or out of it.
-/

namespace Reeact.Sync

variable {Thr Mtx Cnd : Type} [DecidableEq Thr] [Fintype Thr] [DecidableEq Mtx]
  [DecidableEq Cnd]

/-! ## Positions -/

/-- `cond` is used with `m` from now on. -/
def Bound (cond : Cnd → FastsyncCond Mtx Cnd) (c : Cnd) (m : Mtx) : Prop :=
  (cond c).mutex = some m

/-- Inside `fastsync_cond_wait` with mutex `m`, at whatever depth. -/
def InWait (cond : Cnd → FastsyncCond Mtx Cnd) (th : Thread Mtx Cnd) (m : Mtx) : Prop :=
  (∃ c, th.call = some (.wait c (some m))) ∧ ∀ d ∈ th.frames, Bound cond d m

/-- In the call `c`, no other suspended. -/
def Plain (th : Thread Mtx Cnd) (c : Call Mtx Cnd) : Prop :=
  th.frames = [] ∧ th.call = some c

/-- In the slow loop, of lock or of wait. -/
def Locking (cond : Cnd → FastsyncCond Mtx Cnd) (th : Thread Mtx Cnd) (m : Mtx) : Prop :=
  Plain th (.lock (some m)) ∨ InWait cond th m

/-- The mutex a caller holds once the call has returned `v`. -/
def Call.acquires (v : Int) : Call Mtx Cnd → Option Mtx
  | .wait _ m => m
  | .lock m | .trylock m => if v = 0 then m else none
  | _ => none

/-- In `fastsync_mutex_unlock`, for whoever called it. -/
def Unlocking (cond : Cnd → FastsyncCond Mtx Cnd) (th : Thread Mtx Cnd) (m : Mtx) :
    Option (Cnd × BitVec 32) → Prop
  | none => Plain th (.unlock (some m))
  | some (c, _) => InWait cond th m ∧ Bound cond c m

def PcOk (cond : Cnd → FastsyncCond Mtx Cnd) (th : Thread Mtx Cnd) : Pc Mtx Cnd → Prop
  | .idle => th.frames = []
  | .lockFor m _ => Plain th (.lock (some m))
  | .tryFor m => Plain th (.trylock (some m))
  | .signalAdd c | .signalWake c => Plain th (.signal (some c))
  | .broadcastAdd c | .broadcastMutex c | .broadcastRequeue c => Plain th (.broadcast (some c))
  | .xchg m | .mutexWait m => Locking cond th m
  | .asleep (.mutex m') m => m' = m ∧ Locking cond th m
  | .asleep (.cond c) m | .waitFutex c m _ => InWait cond th m ∧ Bound cond c m
  | .unlockRead m k | .unlockCas m k | .unlockAnd m k =>
      th.held m = true ∧ Unlocking cond th m k
  | .unlockPoll m k _ | .unlockClear m k | .unlockWake m k => Unlocking cond th m k
  | .waitMutex _ m | .waitNull _ m | .waitCas _ m => th.held m = true ∧ InWait cond th m
  | .waitUseChild c m | .waitSeqLoad c m | .waitSeqStore c m _ | .waitRequeue c m
  | .waitClearChild c m | .waitCurSeq c m =>
      th.held m = true ∧ InWait cond th m ∧ Bound cond c m
  | .waitSetChild c m p =>
      th.held m = true ∧ InWait cond th m ∧ Bound cond c m ∧ (cond c).parent = some p
  | .counterLoad m | .counterStore m _ => th.held m = true ∧ Plain th (.increment m)
  | .ret v => th.frames = [] ∧
      ∀ c m, th.call = some c → c.acquires v = some m → th.held m = true

def ThreadOk (cond : Cnd → FastsyncCond Mtx Cnd) (th : Thread Mtx Cnd) : Prop :=
  PcOk cond th th.pc

/-! ## Conditions stay bound -/

/-- What any code does to the fields other code relies on. -/
structure Extends (cond cond' : Cnd → FastsyncCond Mtx Cnd) : Prop where
  bound : ∀ c m, Bound cond c m → Bound cond' c m
  parent : ∀ c, (cond' c).parent = (cond c).parent

omit [DecidableEq Mtx] [DecidableEq Cnd] in
theorem Extends.refl (cond : Cnd → FastsyncCond Mtx Cnd) : Extends cond cond :=
  ⟨fun _ _ => id, fun _ => rfl⟩

omit [DecidableEq Mtx] in
theorem extends_update {cond : Cnd → FastsyncCond Mtx Cnd} {c : Cnd}
    {v : FastsyncCond Mtx Cnd} (hm : v.mutex = (cond c).mutex ∨ (cond c).mutex = none)
    (hp : v.parent = (cond c).parent) : Extends cond (Function.update cond c v) where
  bound d m hd := by
    by_cases hdc : d = c
    · subst hdc
      rw [Bound, Function.update_self]
      rcases hm with hm | hm
      · rw [hm]
        exact hd
      · rw [Bound, hm] at hd
        cases hd
    · rw [Bound, Function.update_of_ne hdc]
      exact hd
  parent d := by
    by_cases hdc : d = c
    · subst hdc
      rw [Function.update_self, hp]
    · rw [Function.update_of_ne hdc]

section Mono

variable {cond cond' : Cnd → FastsyncCond Mtx Cnd} {th : Thread Mtx Cnd} {m : Mtx}

omit [DecidableEq Mtx] [DecidableEq Cnd]

theorem InWait.mono (h : InWait cond th m) (hx : Extends cond cond') : InWait cond' th m :=
  ⟨h.1, fun d hd => hx.bound d m (h.2 d hd)⟩

theorem Unlocking.mono {k : Option (Cnd × BitVec 32)} (h : Unlocking cond th m k)
    (hx : Extends cond cond') : Unlocking cond' th m k := by
  cases k with
  | none => exact h
  | some k => exact ⟨h.1.mono hx, hx.bound _ m h.2⟩

theorem Locking.mono (h : Locking cond th m) (hx : Extends cond cond') : Locking cond' th m := by
  rcases h with h | h
  · exact .inl h
  · exact .inr (h.mono hx)

theorem PcOk.mono {pc : Pc Mtx Cnd} (h : PcOk cond th pc) (hx : Extends cond cond') :
    PcOk cond' th pc := by
  cases pc with
  | xchg m => exact Locking.mono h hx
  | mutexWait m => exact Locking.mono h hx
  | asleep q m =>
      cases q with
      | mutex m' => exact ⟨h.1, h.2.mono hx⟩
      | cond c => exact ⟨h.1.mono hx, hx.bound c m h.2⟩
  | waitFutex c m curSeq => exact ⟨h.1.mono hx, hx.bound c m h.2⟩
  | unlockRead m k => exact ⟨h.1, h.2.mono hx⟩
  | unlockCas m k => exact ⟨h.1, h.2.mono hx⟩
  | unlockAnd m k => exact ⟨h.1, h.2.mono hx⟩
  | unlockPoll m k i => exact Unlocking.mono h hx
  | unlockClear m k => exact Unlocking.mono h hx
  | unlockWake m k => exact Unlocking.mono h hx
  | waitMutex c m => exact ⟨h.1, h.2.mono hx⟩
  | waitNull c m => exact ⟨h.1, h.2.mono hx⟩
  | waitCas c m => exact ⟨h.1, h.2.mono hx⟩
  | waitUseChild c m => exact ⟨h.1, h.2.1.mono hx, hx.bound c m h.2.2⟩
  | waitSeqLoad c m => exact ⟨h.1, h.2.1.mono hx, hx.bound c m h.2.2⟩
  | waitSeqStore c m v => exact ⟨h.1, h.2.1.mono hx, hx.bound c m h.2.2⟩
  | waitRequeue c m => exact ⟨h.1, h.2.1.mono hx, hx.bound c m h.2.2⟩
  | waitClearChild c m => exact ⟨h.1, h.2.1.mono hx, hx.bound c m h.2.2⟩
  | waitCurSeq c m => exact ⟨h.1, h.2.1.mono hx, hx.bound c m h.2.2⟩
  | waitSetChild c m p =>
      exact ⟨h.1, h.2.1.mono hx, hx.bound c m h.2.2.1, (hx.parent c).trans h.2.2.2⟩
  | _ => exact h

end Mono

/-! ## Threads moved by others -/

/-- `u` is left alone, leaves its queue, or is moved to the queue of the mutex
its condition is bound to. -/
inductive Moved (cond : Cnd → FastsyncCond Mtx Cnd) (th : Thread Mtx Cnd) :
    Thread Mtx Cnd → Prop
  | same : Moved cond th th
  | woken {q : Key Mtx Cnd} {m : Mtx} : th.pc = .asleep q m → Moved cond th (th.goto (.xchg m))
  | requeued {c : Cnd} {m m' : Mtx} : th.pc = .asleep (.cond c) m' → Bound cond c m →
      Moved cond th (th.goto (.asleep (.mutex m) m'))

omit [DecidableEq Mtx] [DecidableEq Cnd] in
theorem Moved.ok {cond : Cnd → FastsyncCond Mtx Cnd} {th th' : Thread Mtx Cnd}
    (h : Moved cond th th') (hok : ThreadOk cond th) : ThreadOk cond th' := by
  cases h with
  | same => exact hok
  | @woken q m hpc =>
      rw [ThreadOk, hpc] at hok
      cases q with
      | mutex m' => exact hok.2
      | cond c => exact .inr hok.1
  | @requeued c m m' hpc hb =>
      rw [ThreadOk, hpc] at hok
      have hmm : m = m' := by
        have h1 : (cond c).mutex = some m := hb
        have h2 : (cond c).mutex = some m' := hok.2
        rw [h1] at h2
        exact Option.some.inj h2
      exact ⟨hmm, .inr hok.1⟩

section

omit [Fintype Thr] [DecidableEq Mtx] [DecidableEq Cnd]

theorem setThr_thr (s : State Thr Mtx Cnd) (t : Thr) (th : Thread Mtx Cnd) :
    (s.setThr t th).thr t = th := Function.update_self ..

theorem thr_of_setThr {s₁ : State Thr Mtx Cnd} {th : Thread Mtx Cnd} (e : s' = s₁.setThr t th) :
    s'.thr t = th := by
  rw [e]
  exact setThr_thr s₁ t th

theorem wake_cond (s : State Thr Mtx Cnd) (u : Thr) : (s.wake u).cond = s.cond := by
  simp only [State.wake]
  split <;> rfl

theorem wake_thr (s : State Thr Mtx Cnd) (u v : Thr) :
    Moved s.cond (s.thr v) ((s.wake u).thr v) := by
  simp only [State.wake]
  split
  · rename_i q m hpc
    by_cases hv : v = u
    · subst hv
      simp only [State.goto, State.setThr, Function.update_self]
      exact .woken hpc
    · simp only [State.goto, State.setThr, Function.update_of_ne hv]
      exact .same
  · exact .same

end

omit [DecidableEq Thr] [Fintype Thr] in
theorem sleepsOn_iff (s : State Thr Mtx Cnd) (q : Key Mtx Cnd) (u : Thr) :
    s.sleepsOn q u = true ↔ ∃ m, (s.thr u).pc = .asleep q m := by
  simp only [State.sleepsOn]
  cases (s.thr u).pc <;> simp

theorem wakeOne_cases {s s' : State Thr Mtx Cnd} {q : Key Mtx Cnd} {pick : Option Thr}
    (h : s.wakeOne q pick = some s') :
    (∃ u m, (s.thr u).pc = .asleep q m ∧ s' = s.goto u (.xchg m)) ∨
      ((∀ u m, (s.thr u).pc ≠ .asleep q m) ∧ s' = s) := by
  cases pick with
  | some u =>
      simp only [State.wakeOne] at h
      split at h
      · rename_i hq
        obtain ⟨m, hpc⟩ := (sleepsOn_iff s q u).mp hq
        simp only [State.wake, hpc, Option.some.injEq] at h
        exact .inl ⟨u, m, hpc, h.symm⟩
      · cases h
  | none =>
      simp only [State.wakeOne] at h
      split at h
      · rename_i hall
        refine .inr ⟨fun u m hpc => ?_, (Option.some.inj h).symm⟩
        have hsome := (sleepsOn_iff s q u).mpr ⟨m, hpc⟩
        rw [hall u] at hsome
        cases hsome
      · cases h

section

omit [DecidableEq Thr] [Fintype Thr]

theorem moveAll_asleep {s : State Thr Mtx Cnd} {c : Cnd} {m m' : Mtx} {u : Thr}
    (hpc : (s.thr u).pc = .asleep (.cond c) m') :
    (s.moveAll c m).thr u = (s.thr u).goto (.asleep (.mutex m) m') := by
  simp only [State.moveAll]
  split
  · rename_i q m'' hq
    rw [hpc] at hq
    cases hq
    rw [if_pos rfl]
  · rename_i hno
    exact absurd hpc (hno _ _)

theorem moveAll_other {s : State Thr Mtx Cnd} {c : Cnd} {m : Mtx} {u : Thr}
    (hpc : ∀ m', (s.thr u).pc ≠ .asleep (.cond c) m') : (s.moveAll c m).thr u = s.thr u := by
  simp only [State.moveAll]
  split
  · rename_i q m' hq
    rw [if_neg]
    intro e
    exact hpc m' (e ▸ hq)
  · rfl

/-- `FUTEX_REQUEUE` moves threads only, from the queue of `c`. -/
theorem moveAll_thr (s : State Thr Mtx Cnd) {c : Cnd} {m : Mtx} (hb : Bound s.cond c m) (u : Thr) :
    Moved s.cond (s.thr u) ((s.moveAll c m).thr u) := by
  by_cases hpc : ∃ m', (s.thr u).pc = .asleep (.cond c) m'
  · obtain ⟨m', hpc⟩ := hpc
    rw [moveAll_asleep hpc]
    exact .requeued hpc hb
  · rw [moveAll_other (fun m' e => hpc ⟨m', e⟩)]
    exact .same

end

theorem requeue_cases {s s' : State Thr Mtx Cnd} {c : Cnd} {m : Mtx} {pick : Option Thr}
    (h : s.requeue c m pick = some s') :
    (∃ u m', (s.thr u).pc = .asleep (.cond c) m' ∧ s' = (s.goto u (.xchg m')).moveAll c m) ∨
      ((∀ u m', (s.thr u).pc ≠ .asleep (.cond c) m') ∧ s' = s.moveAll c m) := by
  simp only [State.requeue, Option.map_eq_some_iff] at h
  obtain ⟨s₁, h₁, rfl⟩ := h
  rcases wakeOne_cases h₁ with ⟨u, m', hpc, rfl⟩ | ⟨hno, rfl⟩
  · exact .inl ⟨u, m', hpc, rfl⟩
  · exact .inr ⟨hno, rfl⟩

omit [DecidableEq Thr] [Fintype Thr] in
theorem moveAll_of_none {s : State Thr Mtx Cnd} {c : Cnd} {m : Mtx}
    (h : ∀ u m', (s.thr u).pc ≠ .asleep (.cond c) m') : s.moveAll c m = s := by
  have hthr : (s.moveAll c m).thr = s.thr := by
    funext u
    exact moveAll_other (h u)
  calc s.moveAll c m = { s with thr := (s.moveAll c m).thr } := rfl
    _ = s := by rw [hthr]

/-! ## One step -/

variable {s s' : State Thr Mtx Cnd} {t : Thr} {es : List (Ev Thr Mtx Cnd)}

/-- Every thread's facts hold. -/
def Local (s : State Thr Mtx Cnd) : Prop := ∀ t, ThreadOk s.cond (s.thr t)

omit [Fintype Thr] [DecidableEq Mtx] [DecidableEq Cnd] in
/-- One thread moves; conditions are at most bound. -/
theorem Local.own {cond : Cnd → FastsyncCond Mtx Cnd} (h : Local s) (th : Thread Mtx Cnd)
    (hx : Extends s.cond cond) (hth : ThreadOk cond th) (hc : s'.cond = cond)
    (hthr : s'.thr = Function.update s.thr t th) : Local s' := by
  intro u
  rw [hc, hthr]
  by_cases hu : u = t
  · subst hu
    rw [Function.update_self]
    exact hth
  · rw [Function.update_of_ne hu]
    exact PcOk.mono (h u) hx

section

omit [DecidableEq Mtx] [DecidableEq Cnd]

theorem plain_ret {cond : Cnd → FastsyncCond Mtx Cnd} {th : Thread Mtx Cnd} {c : Call Mtx Cnd}
    {v : Int} (h : Plain th c) (hv : ∀ m, c.acquires v = some m → th.held m = true) :
    PcOk cond th (.ret v) := by
  refine ⟨h.1, fun c' m hcall hm => ?_⟩
  rw [h.2] at hcall
  cases hcall
  exact hv m hm

/-- Return from the innermost call, the mutex held. -/
theorem ThreadOk.leave {cond : Cnd → FastsyncCond Mtx Cnd} {th : Thread Mtx Cnd} {m : Mtx}
    (hm : th.held m = true) (h : Locking cond th m) (v : Int) :
    ThreadOk cond (th.leave m v) := by
  rcases th with ⟨call, pc, fs, held⟩
  cases fs with
  | nil =>
      refine ⟨rfl, fun c m' hcall hacq => ?_⟩
      have hmm : m = m' := by
        rcases h with hp | ⟨⟨c', hc'⟩, -⟩
        · cases hp.2.symm.trans hcall
          simp only [Call.acquires] at hacq
          split at hacq
          · exact Option.some.inj hacq
          · cases hacq
        · cases hc'.symm.trans hcall
          exact Option.some.inj hacq
      exact hmm ▸ hm
  | cons c fs =>
      rcases h with hp | ⟨hcall, hfs⟩
      · cases hp.1
      · exact ⟨hm, ⟨hcall, fun d hd => hfs d (List.mem_cons_of_mem _ hd)⟩,
          hfs c List.mem_cons_self⟩

theorem ThreadOk.unlocked {cond : Cnd → FastsyncCond Mtx Cnd} {th : Thread Mtx Cnd} {m : Mtx}
    {k : Option (Cnd × BitVec 32)} (h : Unlocking cond th m k) :
    ThreadOk cond (th.unlocked m k) := by
  cases k with
  | none =>
      have h' : PcOk cond th (.ret 0) := plain_ret h (fun m' hm' => by cases hm')
      exact h'
  | some k => exact h

end

omit [DecidableEq Cnd] in
/-- The lock is taken at once. -/
theorem plain_take_ret {cond : Cnd → FastsyncCond Mtx Cnd} {th : Thread Mtx Cnd} {m : Mtx}
    {c : Call Mtx Cnd} (h : Plain th c) (hc : c.acquires 0 = some m) :
    ThreadOk cond ((th.take m).goto (.ret 0)) := by
  refine ⟨h.1, fun c' m' hcall hm' => ?_⟩
  cases h.2.symm.trans hcall
  rw [hc] at hm'
  cases hm'
  exact Function.update_self ..

section

omit [DecidableEq Mtx] [DecidableEq Cnd]

theorem lockLoop_ok {cond : Cnd → FastsyncCond Mtx Cnd} {th : Thread Mtx Cnd} {m : Mtx}
    (h : Plain th (.lock (some m))) (i : ℕ) : PcOk cond th (lockLoop m i) := by
  rw [lockLoop]
  split
  · exact h
  · exact .inl h

theorem pollLoop_ok {cond : Cnd → FastsyncCond Mtx Cnd} {th : Thread Mtx Cnd} {m : Mtx}
    {k : Option (Cnd × BitVec 32)} (h : Unlocking cond th m k) (i : ℕ) :
    PcOk cond th (pollLoop m k i) := by
  rw [pollLoop]
  split <;> exact h

theorem Call.entry_ok {cond : Cnd → FastsyncCond Mtx Cnd} {th : Thread Mtx Cnd}
    {c : Call Mtx Cnd} (hfs : th.frames = []) (hcall : th.call = some c)
    (hperm : c.permitted th.held = true) : PcOk cond th c.entry := by
  have hp : Plain th c := ⟨hfs, hcall⟩
  cases c with
  | lock m =>
      cases m with
      | none => exact plain_ret hp (fun m' hm' => by cases hm')
      | some m => exact lockLoop_ok hp 0
  | trylock m =>
      cases m with
      | none => exact plain_ret hp (fun m' hm' => by cases hm')
      | some m => exact hp
  | unlock m =>
      cases m with
      | none => exact plain_ret hp (fun m' hm' => by cases hm')
      | some m => exact ⟨hperm, hp⟩
  | wait d m =>
      cases d with
      | none =>
          refine plain_ret hp (fun m' hm' => ?_)
          cases hm'
          exact hperm
      | some d =>
          cases m with
          | none => exact plain_ret hp (fun m' hm' => by cases hm')
          | some m =>
              refine ⟨hperm, ⟨some d, hcall⟩, ?_⟩
              rw [hfs]
              intro d' hd'
              cases hd'
  | signal d =>
      cases d with
      | none => exact plain_ret hp (fun m' hm' => by cases hm')
      | some d => exact hp
  | broadcast d =>
      cases d with
      | none => exact plain_ret hp (fun m' hm' => by cases hm')
      | some d => exact hp
  | increment m => exact ⟨hperm, hp⟩

end

omit [Fintype Thr] [DecidableEq Mtx] [DecidableEq Cnd] in
/-- A thread changes its position only. -/
theorem Local.goto (h : Local s) {pc : Pc Mtx Cnd} (hpc : PcOk s.cond (s.thr t) pc) :
    Local (s.goto t pc) :=
  h.own ((s.thr t).goto pc) (Extends.refl _) (t := t) hpc rfl rfl

omit [Fintype Thr] [DecidableEq Mtx] in
/-- As `Local.goto`, while a condition's other fields change. -/
theorem Local.goto_cond (h : Local s) {pc : Pc Mtx Cnd} {c : Cnd} {v : FastsyncCond Mtx Cnd}
    (hm : v.mutex = (s.cond c).mutex) (hp : v.parent = (s.cond c).parent)
    (hpc : PcOk s.cond (s.thr t) pc) : Local ((s.setCond c v).goto t pc) := by
  have hx : Extends s.cond (Function.update s.cond c v) := extends_update (.inl hm) hp
  exact h.own ((s.thr t).goto pc) hx (t := t) (PcOk.mono hpc hx) rfl rfl

theorem wakeOne_cond {q : Key Mtx Cnd} {pick : Option Thr} (hw : s.wakeOne q pick = some s') :
    s'.cond = s.cond := by
  rcases wakeOne_cases hw with ⟨u, m, -, rfl⟩ | ⟨-, rfl⟩ <;> rfl

theorem Local.wakeOne (h : Local s) {q : Key Mtx Cnd} {pick : Option Thr}
    (hw : s.wakeOne q pick = some s') : Local s' := by
  rcases wakeOne_cases hw with ⟨u, m, hpc, rfl⟩ | ⟨-, rfl⟩
  · intro v
    by_cases hv : v = u
    · subst hv
      simp only [State.goto, State.setThr, Function.update_self]
      exact (Moved.woken hpc).ok (h v)
    · simp only [State.goto, State.setThr, Function.update_of_ne hv]
      exact h v
  · exact h

theorem Local.requeue (h : Local s) {c : Cnd} {m : Mtx} {pick : Option Thr}
    (hb : Bound s.cond c m) (hr : s.requeue c m pick = some s') : Local s' := by
  simp only [State.requeue, Option.map_eq_some_iff] at hr
  obtain ⟨s₁, h₁, rfl⟩ := hr
  have hl := h.wakeOne h₁
  have hc := wakeOne_cond h₁
  intro v
  have hv := moveAll_thr s₁ (c := c) (m := m) (by rw [hc]; exact hb) v
  exact hv.ok (hl v)

/-- The acting thread is not touched by the wake it makes. -/
theorem wakeOne_thr_self {q : Key Mtx Cnd} {pick : Option Thr}
    (hw : s.wakeOne q pick = some s') (ht : ∀ q' m, (s.thr t).pc ≠ .asleep q' m) :
    s'.thr t = s.thr t := by
  rcases wakeOne_cases hw with ⟨u, m, hpc, rfl⟩ | ⟨-, rfl⟩
  · have hut : t ≠ u := by
      intro e
      subst e
      exact ht q m hpc
    simp only [State.goto, State.setThr, Function.update_of_ne hut]
  · rfl

theorem wakeOne_counter {q : Key Mtx Cnd} {pick : Option Thr}
    (hw : s.wakeOne q pick = some s') : s'.counter = s.counter := by
  rcases wakeOne_cases hw with ⟨u, m, -, rfl⟩ | ⟨-, rfl⟩ <;> rfl

theorem requeue_thr_self {c : Cnd} {m : Mtx} {pick : Option Thr}
    (hr : s.requeue c m pick = some s') (ht : ∀ q' m, (s.thr t).pc ≠ .asleep q' m) :
    s'.thr t = s.thr t := by
  simp only [State.requeue, Option.map_eq_some_iff] at hr
  obtain ⟨s₁, h₁, rfl⟩ := hr
  have h1 := wakeOne_thr_self h₁ ht
  rw [moveAll_other (fun m' => by rw [h1]; exact ht _ m'), h1]

theorem requeue_cond {c : Cnd} {m : Mtx} {pick : Option Thr}
    (hr : s.requeue c m pick = some s') : s'.cond = s.cond := by
  simp only [State.requeue, Option.map_eq_some_iff] at hr
  obtain ⟨s₁, h₁, rfl⟩ := hr
  show s₁.cond = s.cond
  exact wakeOne_cond h₁

theorem requeue_counter {c : Cnd} {m : Mtx} {pick : Option Thr}
    (hr : s.requeue c m pick = some s') : s'.counter = s.counter := by
  simp only [State.requeue, Option.map_eq_some_iff] at hr
  obtain ⟨s₁, h₁, rfl⟩ := hr
  show s₁.counter = s.counter
  exact wakeOne_counter h₁

omit [Fintype Thr] [DecidableEq Mtx] [DecidableEq Cnd] in
/-- A step of a thread that has just woken sleepers. -/
theorem Local.goto_woken {s₁ : State Thr Mtx Cnd} (h : Local s₁) (hc : s₁.cond = s.cond)
    {th : Thread Mtx Cnd} (hth : ThreadOk s.cond th) : Local (s₁.setThr t th) :=
  h.own th (Extends.refl _) (t := t) (by rw [hc]; exact hth) rfl rfl

theorem Local.run {pick : Option Thr} (h : Local s) (hs : run s t pick = some (s', es)) :
    Local s' := by
  have hok := h t
  rw [ThreadOk] at hok
  cases hpc : (s.thr t).pc with
  | idle => simp [Sync.run, hpc] at hs
  | asleep q m => simp [Sync.run, hpc] at hs
  | lockFor m i =>
      rw [hpc] at hok
      simp only [Sync.run, hpc] at hs
      split at hs <;> cases hs
      · exact h.own (((s.thr t).take m).goto (.ret 0)) (Extends.refl _) (t := t)
          (plain_take_ret hok rfl) rfl rfl
      · exact h.own ((s.thr t).goto (lockLoop m (i + 1))) (Extends.refl _) (t := t)
          (lockLoop_ok hok (i + 1)) rfl rfl
  | xchg m =>
      rw [hpc] at hok
      simp only [Sync.run, hpc] at hs
      split at hs <;> cases hs
      · have hheld : ((s.thr t).take m).held m = true := Function.update_self ..
        have hin : Locking s.cond ((s.thr t).take m) m := hok
        exact h.own (((s.thr t).take m).leave m 0) (Extends.refl _) (t := t)
          (ThreadOk.leave hheld hin 0) rfl rfl
      · exact h.own ((s.thr t).goto (.mutexWait m)) (Extends.refl _) (t := t) hok rfl rfl
  | mutexWait m =>
      rw [hpc] at hok
      simp only [Sync.run, hpc] at hs
      split at hs <;> cases hs
      · exact h.goto ⟨rfl, hok⟩
      · exact h.goto hok
  | tryFor m =>
      rw [hpc] at hok
      simp only [Sync.run, hpc] at hs
      split at hs <;> cases hs
      · exact h.own (((s.thr t).take m).goto (.ret 0)) (Extends.refl _) (t := t)
          (plain_take_ret hok rfl) rfl rfl
      · exact h.own ((s.thr t).goto (.ret EBUSY)) (Extends.refl _) (t := t)
          (show PcOk s.cond (s.thr t) (.ret EBUSY) from
            plain_ret hok (fun m' hm' => by cases hm')) rfl rfl
  | unlockRead m k =>
      rw [hpc] at hok
      simp only [Sync.run, hpc] at hs
      split at hs <;> cases hs
      · exact h.goto hok
      · exact h.goto hok
  | unlockCas m k =>
      rw [hpc] at hok
      simp only [Sync.run, hpc] at hs
      split at hs <;> cases hs
      · refine h.own (((s.thr t).drop m).unlocked m k) (Extends.refl _) (t := t)
          (ThreadOk.unlocked ?_) rfl rfl
        cases k <;> exact hok.2
      · exact h.goto hok
  | unlockAnd m k =>
      rw [hpc] at hok
      simp only [Sync.run, hpc] at hs
      cases hs
      refine h.own (((s.thr t).drop m).goto (pollLoop m k 0)) (Extends.refl _) (t := t)
        (pollLoop_ok ?_ 0) rfl rfl
      cases k <;> exact hok.2
  | unlockPoll m k i =>
      rw [hpc] at hok
      simp only [Sync.run, hpc] at hs
      split at hs <;> cases hs
      · exact h.goto (pollLoop_ok hok (i + 1))
      · exact h.own _ (Extends.refl _) (t := t) (ThreadOk.unlocked hok) rfl rfl
  | unlockClear m k =>
      rw [hpc] at hok
      simp only [Sync.run, hpc] at hs
      cases hs
      exact h.own ((s.thr t).goto (.unlockWake m k)) (Extends.refl _) (t := t) hok rfl rfl
  | unlockWake m k =>
      rw [hpc] at hok
      simp only [Sync.run, hpc, Option.map_eq_some_iff] at hs
      obtain ⟨s₁, h₁, hs⟩ := hs
      cases hs
      exact (h.wakeOne h₁).goto_woken (wakeOne_cond h₁) (ThreadOk.unlocked hok)
  | waitMutex c m =>
      rw [hpc] at hok
      simp only [Sync.run, hpc] at hs
      split at hs <;> cases hs
      · rename_i hb
        exact h.goto ⟨hok.1, hok.2, hb⟩
      · exact h.goto hok
  | waitNull c m =>
      rw [hpc] at hok
      simp only [Sync.run, hpc] at hs
      split at hs <;> cases hs
      · exact h.goto hok
      · exact h.own _ (Extends.refl _) (t := t) (ThreadOk.leave hok.1 (.inr hok.2) 2) rfl rfl
  | waitCas c m =>
      rw [hpc] at hok
      simp only [Sync.run, hpc] at hs
      split at hs <;> cases hs
      · rename_i hnone
        have hx : Extends s.cond
            (Function.update s.cond c { s.cond c with mutex := some m }) :=
          extends_update (.inr hnone) rfl
        refine h.own ((s.thr t).goto (.waitUseChild c m)) hx (t := t)
          ⟨hok.1, hok.2.mono hx, ?_⟩ rfl rfl
        rw [Bound, Function.update_self]
      · exact h.own _ (Extends.refl _) (t := t) (ThreadOk.leave hok.1 (.inr hok.2) 2) rfl rfl
  | waitUseChild c m =>
      rw [hpc] at hok
      simp only [Sync.run, hpc] at hs
      split at hs
      · split at hs <;> cases hs
        · rename_i p hp
          exact h.goto ⟨hok.1, hok.2.1, hok.2.2, hp⟩
        · exact h.goto hok
      · cases hs
        exact h.goto hok
  | waitSetChild c m p =>
      rw [hpc] at hok
      simp only [Sync.run, hpc] at hs
      cases hs
      have hx : Extends s.cond (Function.update s.cond c { s.cond c with useChild := 1 }) :=
        extends_update (.inl rfl) rfl
      refine h.own _ hx (t := t) ?_ rfl rfl
      refine PcOk.mono ⟨hok.1, hok.2.1.1, ?_⟩ hx
      intro d hd
      rcases List.mem_cons.mp hd with rfl | hd
      · exact hok.2.2.1
      · exact hok.2.1.2 d hd
  | waitSeqLoad c m =>
      rw [hpc] at hok
      simp only [Sync.run, hpc] at hs
      cases hs
      exact h.goto hok
  | waitSeqStore c m v =>
      rw [hpc] at hok
      simp only [Sync.run, hpc] at hs
      cases hs
      exact h.goto_cond rfl rfl hok
  | waitRequeue c m =>
      rw [hpc] at hok
      simp only [Sync.run, hpc, Option.map_eq_some_iff] at hs
      obtain ⟨s₁, h₁, hs⟩ := hs
      cases hs
      have hself := requeue_thr_self (t := t) h₁ (by simp [hpc])
      rw [State.goto, hself]
      exact (h.requeue hok.2.2 h₁).goto_woken (requeue_cond h₁)
        (show ThreadOk s.cond ((s.thr t).goto (.waitClearChild c m)) from hok)
  | waitClearChild c m =>
      rw [hpc] at hok
      simp only [Sync.run, hpc] at hs
      cases hs
      have hx : Extends s.cond (Function.update s.cond c { s.cond c with useChild := 0 }) :=
        extends_update (.inl rfl) rfl
      exact h.own _ hx (t := t) (PcOk.mono (ThreadOk.leave hok.1 (.inr hok.2.1) 0) hx) rfl rfl
  | waitCurSeq c m =>
      rw [hpc] at hok
      simp only [Sync.run, hpc] at hs
      cases hs
      exact h.goto hok
  | waitFutex c m curSeq =>
      rw [hpc] at hok
      simp only [Sync.run, hpc] at hs
      split at hs <;> cases hs
      · exact h.goto hok
      · exact h.goto (.inr hok.1)
  | signalAdd c =>
      rw [hpc] at hok
      simp only [Sync.run, hpc] at hs
      cases hs
      exact h.goto_cond rfl rfl hok
  | signalWake c =>
      rw [hpc] at hok
      simp only [Sync.run, hpc, Option.map_eq_some_iff] at hs
      obtain ⟨s₁, h₁, hs⟩ := hs
      cases hs
      have hself := wakeOne_thr_self (t := t) h₁ (by simp [hpc])
      rw [State.goto, hself]
      exact (h.wakeOne h₁).goto_woken (wakeOne_cond h₁)
        (show PcOk s.cond (s.thr t) (.ret 0) from
          plain_ret hok (fun m' hm' => by cases hm'))
  | broadcastAdd c =>
      rw [hpc] at hok
      simp only [Sync.run, hpc] at hs
      cases hs
      exact h.goto_cond rfl rfl hok
  | broadcastMutex c =>
      rw [hpc] at hok
      simp only [Sync.run, hpc] at hs
      split at hs <;> cases hs
      · exact h.goto hok
      · exact h.goto (plain_ret hok (fun m' hm' => by cases hm'))
  | broadcastRequeue c =>
      rw [hpc] at hok
      simp only [Sync.run, hpc] at hs
      split at hs
      · rename_i m hm
        simp only [Option.map_eq_some_iff] at hs
        obtain ⟨s₁, h₁, hs⟩ := hs
        cases hs
        have hself := requeue_thr_self (t := t) h₁ (by simp [hpc])
        rw [State.goto, hself]
        exact (h.requeue hm h₁).goto_woken (requeue_cond h₁)
          (show PcOk s.cond (s.thr t) (.ret 0) from
          plain_ret hok (fun m' hm' => by cases hm'))
      · cases hs
        exact h.goto (plain_ret hok (fun m' hm' => by cases hm'))
  | counterLoad m =>
      rw [hpc] at hok
      simp only [Sync.run, hpc] at hs
      cases hs
      exact h.goto hok
  | counterStore m v =>
      rw [hpc] at hok
      simp only [Sync.run, hpc] at hs
      cases hs
      exact h.own ((s.thr t).goto (.ret 0)) (Extends.refl _) (t := t)
        (show PcOk s.cond (s.thr t) (.ret 0) from
          plain_ret hok.2 (fun m' hm' => by cases hm')) rfl rfl
  | ret v =>
      rw [hpc] at hok
      simp only [Sync.run, hpc] at hs
      cases hs
      exact h.own ({ s.thr t with pc := .idle, call := none }) (Extends.refl _) (t := t)
        hok.1 rfl rfl

/-! ## Calls, and waits that return by themselves -/

theorem step_call {c : Call Mtx Cnd} (hs : step s (.call t c) = some (s', es)) :
    ((s.thr t).pc = .idle ∧ c.permitted (s.thr t).held) ∧
      s' = s.setThr t { s.thr t with pc := c.entry, call := some c } ∧ es = [.call t c] := by
  simp only [step] at hs
  split at hs
  · rename_i hen
    cases hs
    exact ⟨hen, rfl, rfl⟩
  · cases hs

theorem step_spurious (hs : step s (.spurious t) = some (s', es)) :
    (∃ q m, (s.thr t).pc = .asleep q m) ∧ s' = s.wake t ∧ es = [] := by
  simp only [step] at hs
  split at hs
  · rename_i q m hpc
    cases hs
    exact ⟨⟨q, m, hpc⟩, rfl, rfl⟩
  · cases hs

/-- **Every step keeps the facts about each thread.** -/
theorem Local.step {a : Act Thr Mtx Cnd} (h : Local s) (hs : step s a = some (s', es)) :
    Local s' := by
  cases a with
  | call t c =>
      obtain ⟨hen, rfl, rfl⟩ := step_call hs
      have hok := h t
      rw [ThreadOk, hen.1] at hok
      exact h.own { s.thr t with pc := c.entry, call := some c } (Extends.refl _) (t := t)
        (Call.entry_ok hok rfl hen.2) rfl rfl
  | run t pick => exact h.run hs
  | spurious t =>
      obtain ⟨-, rfl, rfl⟩ := step_spurious hs
      intro v
      rw [wake_cond]
      exact (wake_thr s t v).ok (h v)

/-! ## What a step does to the other threads -/

section

omit [DecidableEq Mtx] [DecidableEq Cnd]

/-- A thread still in the queue of a condition has not been moved. -/
theorem Moved.eq_of_asleep {cond : Cnd → FastsyncCond Mtx Cnd} {th th' : Thread Mtx Cnd}
    (h : Moved cond th th') {c : Cnd} {m : Mtx} (hpc : th'.pc = .asleep (.cond c) m) :
    th' = th := by
  cases h with
  | same => rfl
  | woken _ => simp [Thread.goto] at hpc
  | requeued _ _ => simp [Thread.goto] at hpc

theorem Moved.held {cond : Cnd → FastsyncCond Mtx Cnd} {th th' : Thread Mtx Cnd}
    (h : Moved cond th th') : th'.held = th.held := by
  cases h <;> rfl

theorem Moved.call {cond : Cnd → FastsyncCond Mtx Cnd} {th th' : Thread Mtx Cnd}
    (h : Moved cond th th') : th'.call = th.call := by
  cases h <;> rfl

/-- A position no other thread puts a thread in. -/
def Pc.Own : Pc Mtx Cnd → Prop
  | .xchg _ | .asleep _ _ => False
  | _ => True

theorem Moved.eq_of_pc {cond : Cnd → FastsyncCond Mtx Cnd} {th th' : Thread Mtx Cnd}
    (h : Moved cond th th') {pc : Pc Mtx Cnd} (hpc : th'.pc = pc) (ho : pc.Own) : th' = th := by
  subst hpc
  cases h with
  | same => rfl
  | woken _ => exact ho.elim
  | requeued _ _ => exact ho.elim

end

theorem wakeOne_moved {q : Key Mtx Cnd} {pick : Option Thr} (hw : s.wakeOne q pick = some s')
    (u : Thr) : Moved s.cond (s.thr u) (s'.thr u) := by
  rcases wakeOne_cases hw with ⟨v, m, hpc, rfl⟩ | ⟨-, rfl⟩
  · by_cases hu : u = v
    · subst hu
      simp only [State.goto, State.setThr, Function.update_self]
      exact .woken hpc
    · simp only [State.goto, State.setThr, Function.update_of_ne hu]
      exact .same
  · exact .same

theorem requeue_moved {c : Cnd} {m : Mtx} {pick : Option Thr} (hb : Bound s.cond c m)
    (hr : s.requeue c m pick = some s') (u : Thr) : Moved s.cond (s.thr u) (s'.thr u) := by
  simp only [State.requeue, Option.map_eq_some_iff] at hr
  obtain ⟨s₁, h₁, rfl⟩ := hr
  have hcond := wakeOne_cond h₁
  have h1 := wakeOne_moved h₁ u
  by_cases hpc : ∃ m', (s₁.thr u).pc = .asleep (.cond c) m'
  · obtain ⟨m', hpc⟩ := hpc
    rw [moveAll_asleep hpc]
    have hsame := h1.eq_of_asleep hpc
    rw [hsame] at hpc ⊢
    exact .requeued hpc hb
  · rw [moveAll_other (fun m' e => hpc ⟨m', e⟩)]
    exact h1

omit [Fintype Thr] [DecidableEq Mtx] [DecidableEq Cnd] in
theorem setThr_moved {s₁ : State Thr Mtx Cnd} {u : Thr} (th : Thread Mtx Cnd) (hu : u ≠ t)
    (h : Moved s.cond (s.thr u) (s₁.thr u)) : Moved s.cond (s.thr u) ((s₁.setThr t th).thr u) := by
  show Moved s.cond (s.thr u) (Function.update s₁.thr t th u)
  rw [Function.update_of_ne hu]
  exact h

/-- **Other threads** are left alone, woken, or moved from one queue to the next. -/
theorem run_moved {pick : Option Thr} (h : Local s) (hs : run s t pick = some (s', es)) {u : Thr}
    (hu : u ≠ t) : Moved s.cond (s.thr u) (s'.thr u) := by
  have hok := h t
  rw [ThreadOk] at hok
  cases hpc : (s.thr t).pc with
  | idle => simp [Sync.run, hpc] at hs
  | asleep q m => simp [Sync.run, hpc] at hs
  | unlockWake m k =>
      simp only [Sync.run, hpc, Option.map_eq_some_iff] at hs
      obtain ⟨s₁, h₁, hs⟩ := hs
      cases hs
      exact setThr_moved _ hu (wakeOne_moved h₁ u)
  | signalWake c =>
      simp only [Sync.run, hpc, Option.map_eq_some_iff] at hs
      obtain ⟨s₁, h₁, hs⟩ := hs
      cases hs
      exact setThr_moved _ hu (wakeOne_moved h₁ u)
  | waitRequeue c m =>
      rw [hpc] at hok
      simp only [Sync.run, hpc, Option.map_eq_some_iff] at hs
      obtain ⟨s₁, h₁, hs⟩ := hs
      cases hs
      exact setThr_moved _ hu (requeue_moved hok.2.2 h₁ u)
  | broadcastRequeue c =>
      simp only [Sync.run, hpc] at hs
      split at hs
      · rename_i m hm
        simp only [Option.map_eq_some_iff] at hs
        obtain ⟨s₁, h₁, hs⟩ := hs
        cases hs
        exact setThr_moved _ hu (requeue_moved hm h₁ u)
      · cases hs
        exact setThr_moved _ hu .same
  | waitUseChild c m =>
      simp only [Sync.run, hpc] at hs
      split at hs
      · split at hs <;> cases hs <;> exact setThr_moved _ hu .same
      · cases hs
        exact setThr_moved _ hu .same
  | _ =>
      simp only [Sync.run, hpc] at hs
      first
        | (cases hs; exact setThr_moved _ hu .same)
        | (split at hs <;> cases hs <;> exact setThr_moved _ hu .same)

end Reeact.Sync
