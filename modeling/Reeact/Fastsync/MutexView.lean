import Reeact.Fastsync.SyncLocal
import Reeact.Lib.FutexLock

/-!
# fastsync_mutex — the lock with a futex queue

Seen from one mutex, every step of the code is a step of the lock with a
futex queue, or nothing (`simulates_step`). Waiters of conditions enter that lock
by the requeue, woken ones by the exchange.
-/

namespace Reeact.Sync

open Transition

variable {Thr Mtx Cnd : Type} [DecidableEq Thr] [Fintype Thr] [DecidableEq Mtx]
  [DecidableEq Cnd]

/-! ## The view of one mutex -/

/-- What a position means to the lock of `m`. -/
def role (m : Mtx) : Pc Mtx Cnd → FutexLock.Role
  | .xchg m' => if m' = m then .exchanging else .away
  | .asleep (.mutex m') _ => if m' = m then .parked else .away
  | .unlockPoll m' _ _ | .unlockClear m' _ => if m' = m then .releasing else .away
  | .unlockWake m' _ => if m' = m then .waking else .away
  | _ => .away

def view (m : Mtx) (s : State Thr Mtx Cnd) : FutexLock.State Thr where
  word := (s.mutex m).state
  held u := (s.thr u).held m
  role u := role m (s.thr u).pc

section View

variable {m : Mtx} {s : State Thr Mtx Cnd} {t : Thr}

section

omit [Fintype Thr] [DecidableEq Cnd]

theorem view_setThr {th : Thread Mtx Cnd} {b : Bool} {r : FutexLock.Role} (hb : th.held m = b)
    (hr : role m th.pc = r) : view m (s.setThr t th) = ((view m s).setHeld t b).setRole t r := by
  have hheld : (view m (s.setThr t th)).held = Function.update (view m s).held t b := by
    funext u
    by_cases hu : u = t
    · subst hu
      simp only [view, State.setThr, Function.update_self, hb]
    · simp only [view, State.setThr, Function.update_of_ne hu]
  have hrole : (view m (s.setThr t th)).role = Function.update (view m s).role t r := by
    funext u
    by_cases hu : u = t
    · subst hu
      simp only [view, State.setThr, Function.update_self, hr]
    · simp only [view, State.setThr, Function.update_of_ne hu]
  calc view m (s.setThr t th)
      = ⟨(view m s).word, (view m (s.setThr t th)).held, (view m (s.setThr t th)).role⟩ := rfl
    _ = ((view m s).setHeld t b).setRole t r := by rw [hheld, hrole]; rfl

theorem view_goto {pc : Pc Mtx Cnd} {r : FutexLock.Role} (hr : role m pc = r) :
    view m (s.goto t pc) = (view m s).setRole t r := by
  have hb : ((s.thr t).goto pc).held m = (s.thr t).held m := rfl
  have hr' : role m ((s.thr t).goto pc).pc = r := hr
  rw [State.goto, view_setThr hb hr']
  congr 1
  exact FutexLock.State.setHeld_eq_self _ rfl

/-- A step that is none of the lock's business. -/
theorem view_quiet {th : Thread Mtx Cnd} (hb : th.held m = (s.thr t).held m)
    (hr : role m th.pc = role m (s.thr t).pc) : view m (s.setThr t th) = view m s := by
  have hheld : (view m s).setHeld t ((s.thr t).held m) = view m s :=
    FutexLock.State.setHeld_eq_self _ rfl
  have hrole : (view m s).setRole t (role m (s.thr t).pc) = view m s :=
    FutexLock.State.setRole_eq_self _ rfl
  rw [view_setThr hb hr, hheld, hrole]

end

omit [DecidableEq Thr] [Fintype Thr] [DecidableEq Cnd] in
theorem view_setMutex (st : BitVec 32) :
    view m (s.setMutex m st) = (view m s).setWord st := by
  simp only [view, State.setMutex, Function.update_self, FutexLock.State.setWord]

omit [DecidableEq Thr] [Fintype Thr] [DecidableEq Cnd] in
theorem view_setMutex_ne {m' : Mtx} (hm : m' ≠ m) (st : BitVec 32) :
    view m (s.setMutex m' st) = view m s := by
  simp only [view, State.setMutex, Function.update_of_ne (Ne.symm hm)]

omit [DecidableEq Thr] [Fintype Thr] in
@[simp] theorem view_setCond (c : Cnd) (v : FastsyncCond Mtx Cnd) :
    view m (s.setCond c v) = view m s := rfl

omit [DecidableEq Thr] [Fintype Thr] [DecidableEq Cnd] in
@[simp] theorem view_setCounter (m' : Mtx) (v : ℕ) :
    view m (s.setCounter m' v) = view m s := rfl

section

omit [DecidableEq Cnd]

@[simp] theorem role_lockLoop (m' : Mtx) (i : ℕ) (hm : m' ≠ m) :
    role m (lockLoop m' i : Pc Mtx Cnd) = .away := by
  rw [lockLoop]
  split <;> simp [role, hm]

theorem role_lockLoop_self (i : ℕ) : role m (lockLoop m i : Pc Mtx Cnd) = .away ∨
    role m (lockLoop m i : Pc Mtx Cnd) = .exchanging := by
  rw [lockLoop]
  split <;> simp [role]

theorem role_pollLoop (m' : Mtx) (k : Option (Cnd × BitVec 32)) (i : ℕ) :
    role m (pollLoop m' k i) = if m' = m then .releasing else .away := by
  rw [pollLoop]
  split <;> rfl

theorem role_eq_parked {pc : Pc Mtx Cnd} :
    role m pc = .parked ↔ ∃ m', pc = .asleep (.mutex m) m' := by
  cases pc with
  | asleep q m' => cases q <;> simp [role]
  | _ => simp [role, ite_eq_iff]

theorem role_eq_exchanging {pc : Pc Mtx Cnd} : role m pc = .exchanging ↔ pc = .xchg m := by
  cases pc with
  | asleep q m' => cases q <;> simp [role, ite_eq_iff]
  | _ => simp [role, ite_eq_iff]

theorem role_eq_releasing {pc : Pc Mtx Cnd} :
    role m pc = .releasing ↔ ∃ k, (∃ i, pc = .unlockPoll m k i) ∨ pc = .unlockClear m k := by
  cases pc with
  | asleep q m' => cases q <;> simp [role, ite_eq_iff]
  | _ => simp [role, ite_eq_iff]

theorem role_eq_waking {pc : Pc Mtx Cnd} :
    role m pc = .waking ↔ ∃ k, pc = .unlockWake m k := by
  cases pc with
  | asleep q m' => cases q <;> simp [role, ite_eq_iff]
  | _ => simp [role, ite_eq_iff]

@[simp] theorem role_leave (th : Thread Mtx Cnd) (m' : Mtx) (v : Int) :
    role m (th.leave m' v).pc = .away := by
  rw [Thread.leave]
  split <;> rfl

@[simp] theorem role_unlocked (th : Thread Mtx Cnd) (m' : Mtx) (k : Option (Cnd × BitVec 32)) :
    role m (th.unlocked m' k).pc = .away := by
  cases k <;> rfl

end

omit [DecidableEq Mtx] [DecidableEq Cnd] in
@[simp] theorem held_leave (th : Thread Mtx Cnd) (m' : Mtx) (v : Int) :
    (th.leave m' v).held = th.held := by
  rw [Thread.leave]
  split <;> rfl

omit [DecidableEq Mtx] [DecidableEq Cnd] in
@[simp] theorem held_unlocked (th : Thread Mtx Cnd) (m' : Mtx) (k : Option (Cnd × BitVec 32)) :
    (th.unlocked m' k).held = th.held := by
  cases k <;> rfl

omit [DecidableEq Cnd] in
theorem held_take_ne (th : Thread Mtx Cnd) {m' : Mtx} (hm : m' ≠ m) :
    (th.take m').held m = th.held m := Function.update_of_ne (Ne.symm hm) ..

omit [DecidableEq Cnd] in
theorem held_drop_ne (th : Thread Mtx Cnd) {m' : Mtx} (hm : m' ≠ m) :
    (th.drop m').held m = th.held m := Function.update_of_ne (Ne.symm hm) ..

omit [Fintype Thr] [DecidableEq Cnd] in
/-- A sleeper woken in the queue of another word. -/
theorem view_wake_cond {u : Thr} {c : Cnd} {m' : Mtx} (hpc : (s.thr u).pc = .asleep (.cond c) m') :
    FutexLock.Step (view m s) (view m (s.goto u (.xchg m'))) ∨
      view m (s.goto u (.xchg m')) = view m s := by
  have haway : (view m s).role u = .away := by simp only [view, hpc, role]
  by_cases hm : m' = m
  · subst hm
    rw [view_goto (r := .exchanging) (by simp [role])]
    exact .inl (.arrive u haway)
  · exact .inr (view_quiet rfl (by simp [Thread.goto, hpc, role, hm]))

omit [DecidableEq Thr] [Fintype Thr] [DecidableEq Cnd] in
theorem view_ext (s s' : State Thr Mtx Cnd) (hw : (s'.mutex m).state = (s.mutex m).state)
    (hh : ∀ u, (s'.thr u).held m = (s.thr u).held m)
    {f : Thr → FutexLock.Role} (hr : ∀ u, role m (s'.thr u).pc = f u) :
    view m s' = { view m s with role := f } := by
  have hheld : (view m s').held = (view m s).held := funext hh
  have hrole : (view m s').role = f := funext hr
  calc view m s' = ⟨(view m s').word, (view m s').held, (view m s').role⟩ := rfl
    _ = { view m s with role := f } := by rw [hheld, hrole]; simp only [view, hw]

omit [DecidableEq Thr] [Fintype Thr] in
theorem held_moveAll (c : Cnd) (m' : Mtx) (u : Thr) :
    ((s.moveAll c m').thr u).held = (s.thr u).held := by
  by_cases hpc : ∃ m', (s.thr u).pc = .asleep (.cond c) m'
  · obtain ⟨m', hpc⟩ := hpc
    rw [moveAll_asleep hpc]
    rfl
  · rw [moveAll_other (fun m' e => hpc ⟨m', e⟩)]

omit [DecidableEq Thr] [Fintype Thr] in
theorem view_moveAll_ne {c : Cnd} {m' : Mtx} (hm : m' ≠ m) :
    view m (s.moveAll c m') = view m s := by
  have hh : ∀ u, ((s.moveAll c m').thr u).held m = (s.thr u).held m := by
    intro u
    rw [held_moveAll]
  have hr : ∀ u, role m ((s.moveAll c m').thr u).pc = (view m s).role u := by
    intro u
    by_cases hpc : ∃ m', (s.thr u).pc = .asleep (.cond c) m'
    · obtain ⟨m'', hpc⟩ := hpc
      rw [moveAll_asleep hpc]
      simp [view, Thread.goto, role, hpc, hm]
    · rw [moveAll_other (fun m' e => hpc ⟨m', e⟩)]
      rfl
  exact view_ext s (s.moveAll c m') rfl hh hr

omit [Fintype Thr] in
/-- The requeue to `m`: one waiter of `c` is woken, the rest come to sleep on
the mutex. -/
theorem view_moveAll {c : Cnd} {u : Thr} {m' : Mtx} (hpc : (s.thr u).pc = .asleep (.cond c) m') :
    view m ((s.goto u (.xchg m)).moveAll c m) =
      (view m s).requeue u (fun v => s.sleepsOn (.cond c) v) := by
  have hu : (s.goto u (.xchg m)).thr u = (s.thr u).goto (.xchg m) := Function.update_self ..
  have hne : ∀ v, v ≠ u → (s.goto u (.xchg m)).thr v = s.thr v :=
    fun v hv => Function.update_of_ne hv ..
  have hh : ∀ v, (((s.goto u (.xchg m)).moveAll c m).thr v).held m = (s.thr v).held m := by
    intro v
    rw [held_moveAll]
    by_cases hv : v = u
    · rw [hv, hu]
      rfl
    · rw [hne v hv]
  have hr : ∀ v, role m (((s.goto u (.xchg m)).moveAll c m).thr v).pc =
      ((view m s).requeue u (fun v => s.sleepsOn (.cond c) v)).role v := by
    intro v
    simp only [FutexLock.State.requeue]
    by_cases hv : v = u
    · subst hv
      rw [moveAll_other (by simp [hu, Thread.goto]), hu, if_pos rfl]
      simp [Thread.goto, role]
    · rw [if_neg hv]
      by_cases hpcv : ∃ m', (s.thr v).pc = .asleep (.cond c) m'
      · obtain ⟨m'', hpcv⟩ := hpcv
        rw [moveAll_asleep (by rw [hne v hv]; exact hpcv),
          if_pos ((sleepsOn_iff s _ v).mpr ⟨m'', hpcv⟩)]
        simp [Thread.goto, role]
      · rw [moveAll_other (fun m' e => hpcv ⟨m', by rw [← hne v hv]; exact e⟩), hne v hv,
          if_neg (fun e => hpcv ((sleepsOn_iff s _ v).mp e))]
        rfl
  exact view_ext s ((s.goto u (.xchg m)).moveAll c m) rfl hh hr

end View

/-! ## Every step is a step of the lock -/

section Simulation

variable {m : Mtx} {s s' : State Thr Mtx Cnd} {t : Thr} {es : List (Ev Thr Mtx Cnd)}

/-- A step of the lock, or nothing. -/
def Simulates (m : Mtx) (s s' : State Thr Mtx Cnd) : Prop :=
  FutexLock.Step (view m s) (view m s') ∨ view m s' = view m s

section

omit [Fintype Thr] [DecidableEq Cnd]

theorem Simulates.quiet {s₁ : State Thr Mtx Cnd} {th : Thread Mtx Cnd} (h : Simulates m s s₁)
    (hb : th.held m = (s₁.thr t).held m) (hr : role m th.pc = role m (s₁.thr t).pc) :
    Simulates m s (s₁.setThr t th) := by
  rw [Simulates, view_quiet hb hr]
  exact h

theorem simulates_goto {pc : Pc Mtx Cnd} (hr : role m pc = role m (s.thr t).pc) :
    Simulates m s (s.goto t pc) := .inr (view_quiet rfl hr)

/-- A thread away from the lock stays away; other memory may change. -/
theorem simulates_away {s₁ : State Thr Mtx Cnd} {th : Thread Mtx Cnd}
    (hv : view m s₁ = view m s) (ht : s₁.thr t = s.thr t) (hpc : role m (s.thr t).pc = .away)
    (hb : th.held m = (s.thr t).held m) (hr : role m th.pc = .away) :
    Simulates m s (s₁.setThr t th) :=
  Simulates.quiet (.inr hv) (by rw [ht]; exact hb) (by rw [ht, hpc]; exact hr)

/-- A step on another mutex. -/
theorem simulates_other {m' : Mtx} {st : BitVec 32} {th : Thread Mtx Cnd} (hm : m' ≠ m)
    (hb : th.held m = (s.thr t).held m) (hr : role m th.pc = role m (s.thr t).pc) :
    Simulates m s ((s.setMutex m' st).setThr t th) :=
  Simulates.quiet (.inr (view_setMutex_ne hm st)) hb hr

/-- The fetch-or of lock and of trylock finds the mutex free. -/
theorem simulates_take {m' : Mtx} (hpc : role m (s.thr t).pc = .away)
    (hfree : (s.mutex m').state &&& 1 = 0) (v : Int) :
    Simulates m s ((s.setMutex m' ((s.mutex m').state ||| 1)).setThr t
      (((s.thr t).take m').goto (.ret v))) := by
  by_cases hm : m' = m
  · subst hm
    have hheld : (((s.thr t).take m').goto (.ret v)).held m' = true := Function.update_self ..
    rw [Simulates, view_setThr hheld rfl, view_setMutex]
    rw [FutexLock.State.setRole_eq_self _ (by rw [FutexLock.State.setHeld_role]; exact hpc)]
    exact .inl (.take t hpc hfree)
  · exact simulates_other hm (held_take_ne _ hm) hpc.symm

/-- It finds the mutex taken. -/
theorem simulates_busy {m' : Mtx} {pc : Pc Mtx Cnd} (hpc : role m (s.thr t).pc = .away)
    (hbusy : (s.mutex m').state &&& 1 ≠ 0) (hne : m' ≠ m → role m pc = .away)
    (hr : role m pc = .away ∨ role m pc = .exchanging) :
    Simulates m s ((s.setMutex m' ((s.mutex m').state ||| 1)).goto t pc) := by
  by_cases hm : m' = m
  · subst hm
    rw [Simulates, view_goto rfl, view_setMutex]
    exact .inl (.busy t _ hpc hbusy hr)
  · exact simulates_other hm rfl ((hne hm).trans hpc.symm)

theorem simulates_xchg {m' : Mtx} (hpc : (s.thr t).pc = .xchg m')
    (hfree : (s.mutex m').state &&& 1 = 0) :
    Simulates m s ((s.setMutex m' 3).setThr t (((s.thr t).take m').leave m' 0)) := by
  by_cases hm : m' = m
  · subst hm
    have hex : (view m' s).role t = .exchanging := by simp [view, hpc, role]
    have hheld : (((s.thr t).take m').leave m' 0).held m' = true := by
      rw [held_leave]
      exact Function.update_self ..
    rw [Simulates, view_setThr hheld (role_leave _ _ _), view_setMutex]
    exact .inl (.exchange t hex hfree)
  · refine simulates_other hm ?_ ?_
    · rw [held_leave]
      exact held_take_ne _ hm
    · rw [role_leave, hpc]
      simp [role, hm]

theorem simulates_contend {m' : Mtx} (hpc : (s.thr t).pc = .xchg m')
    (hbusy : (s.mutex m').state &&& 1 ≠ 0) :
    Simulates m s ((s.setMutex m' 3).goto t (.mutexWait m')) := by
  by_cases hm : m' = m
  · subst hm
    have hex : (view m' s).role t = .exchanging := by simp [view, hpc, role]
    rw [Simulates, view_goto rfl, view_setMutex]
    exact .inl (.contend t hex hbusy)
  · exact simulates_other hm rfl (by simp [Thread.goto, hpc, role, hm])

theorem simulates_park {m' : Mtx} (hpc : (s.thr t).pc = .mutexWait m')
    (h3 : (s.mutex m').state = 3) : Simulates m s (s.goto t (.asleep (.mutex m') m')) := by
  have haway : (view m s).role t = .away := by simp [view, hpc, role]
  by_cases hm : m' = m
  · subst hm
    rw [Simulates, view_goto (r := .parked) (by simp [role])]
    exact .inl (.park t haway h3)
  · exact simulates_goto (by simp [hpc, role, hm])

/-- A thread goes to the exchange. -/
theorem simulates_arrive {m' : Mtx} (hpc : role m (s.thr t).pc = .away) :
    Simulates m s (s.goto t (.xchg m')) := by
  by_cases hm : m' = m
  · subst hm
    rw [Simulates, view_goto (r := .exchanging) (by simp [role])]
    exact .inl (.arrive t hpc)
  · refine simulates_goto ?_
    rw [hpc]
    simp [role, hm]

theorem simulates_cas {m' : Mtx} {k : Option (Cnd × BitVec 32)}
    (hpc : (s.thr t).pc = .unlockCas m' k) (hheld : (s.thr t).held m' = true)
    (h1 : (s.mutex m').state = 1) :
    Simulates m s ((s.setMutex m' 0).setThr t (((s.thr t).drop m').unlocked m' k)) := by
  have haway : (view m s).role t = .away := by simp [view, hpc, role]
  by_cases hm : m' = m
  · subst hm
    have hdrop : (((s.thr t).drop m').unlocked m' k).held m' = false := by
      rw [held_unlocked]
      exact Function.update_self ..
    rw [Simulates, view_setThr hdrop (role_unlocked _ _ _), view_setMutex,
      FutexLock.State.setRole_eq_self _ (by rw [FutexLock.State.setHeld_role]; exact haway)]
    exact .inl (.cas t hheld haway h1)
  · refine simulates_other hm ?_ ?_
    · rw [held_unlocked]
      exact held_drop_ne _ hm
    · rw [role_unlocked, hpc]
      rfl

theorem simulates_drop {m' : Mtx} {k : Option (Cnd × BitVec 32)}
    (hpc : (s.thr t).pc = .unlockAnd m' k) (hheld : (s.thr t).held m' = true) :
    Simulates m s ((s.setMutex m' ((s.mutex m').state &&& 0xFFFFFFFE)).setThr t
      (((s.thr t).drop m').goto (pollLoop m' k 0))) := by
  have haway : (view m s).role t = .away := by simp [view, hpc, role]
  by_cases hm : m' = m
  · subst hm
    have hdrop : (((s.thr t).drop m').goto (pollLoop m' k 0)).held m' = false :=
      Function.update_self ..
    have hrole : role m' (((s.thr t).drop m').goto (pollLoop m' k 0)).pc = .releasing := by
      rw [Thread.goto, role_pollLoop, if_pos rfl]
    rw [Simulates, view_setThr hdrop hrole, view_setMutex]
    exact .inl (.drop t hheld haway)
  · refine simulates_other hm (held_drop_ne _ hm) ?_
    rw [Thread.goto, role_pollLoop, if_neg hm, hpc]
    rfl

theorem simulates_handed {m' : Mtx} {k : Option (Cnd × BitVec 32)} {i : ℕ}
    (hpc : (s.thr t).pc = .unlockPoll m' k i) (hbusy : (s.mutex m').state &&& 1 ≠ 0) :
    Simulates m s (s.setThr t ((s.thr t).unlocked m' k)) := by
  by_cases hm : m' = m
  · subst hm
    have hrel : (view m' s).role t = .releasing := by simp [view, hpc, role]
    have hheld : ((s.thr t).unlocked m' k).held m' = (s.thr t).held m' := by
      rw [held_unlocked]
    rw [Simulates, view_setThr hheld (role_unlocked _ _ _)]
    have hsame : (view m' s).setHeld t ((s.thr t).held m') = view m' s :=
      FutexLock.State.setHeld_eq_self _ rfl
    rw [hsame]
    exact .inl (.handed t hrel hbusy)
  · refine .inr (view_quiet (by rw [held_unlocked]) ?_)
    rw [role_unlocked, hpc]
    simp [role, hm]

theorem simulates_clear {m' : Mtx} {k : Option (Cnd × BitVec 32)}
    (hpc : (s.thr t).pc = .unlockClear m' k) :
    Simulates m s ((s.setMutex m' ((s.mutex m').state &&& 0xFFFFFFFD)).goto t
      (.unlockWake m' k)) := by
  by_cases hm : m' = m
  · subst hm
    have hrel : (view m' s).role t = .releasing := by simp [view, hpc, role]
    rw [Simulates, view_goto (r := .waking) (by simp [role]), view_setMutex]
    exact .inl (.clear t hrel)
  · exact simulates_other hm rfl (by simp [Thread.goto, hpc, role, hm])

end

/-- The wake of unlock. -/
theorem simulates_unlockWake {s₁ : State Thr Mtx Cnd} {m' : Mtx} {k : Option (Cnd × BitVec 32)}
    {pick : Option Thr} (h : Local s) (hpc : (s.thr t).pc = .unlockWake m' k)
    (hw : s.wakeOne (.mutex m') pick = some s₁) :
    Simulates m s (s₁.setThr t ((s.thr t).unlocked m' k)) := by
  have hself := wakeOne_thr_self (t := t) hw (by simp [hpc])
  have hheld : ((s.thr t).unlocked m' k).held m = (s₁.thr t).held m := by
    rw [held_unlocked, hself]
  rcases wakeOne_cases hw with ⟨u, m'', hu, rfl⟩ | ⟨hnone, rfl⟩
  -- a sleeper in the queue of a mutex is there for that mutex
  · have hmm : m' = m'' := by
      have hok := h u
      rw [ThreadOk, hu] at hok
      exact hok.1
    subst hmm
    by_cases hm : m' = m
    · subst hm
      have hwake : (view m' s).role t = .waking := by simp [view, hpc, role]
      have hpark : (view m' s).role u = .parked := by simp [view, hu, role]
      rw [Simulates, view_setThr hheld (role_unlocked _ _ _),
        view_goto (r := .exchanging) (by simp [role])]
      have hsame : ((view m' s).setRole u .exchanging).setHeld t
          (((s.goto u (.xchg m')).thr t).held m') = (view m' s).setRole u .exchanging :=
        FutexLock.State.setHeld_eq_self _ (by rw [hself]; rfl)
      rw [hsame]
      exact .inl (.wake t u hwake hpark)
    · refine Simulates.quiet (.inr (view_quiet rfl ?_)) hheld ?_
      · simp [Thread.goto, hu, role, hm]
      · rw [role_unlocked, hself, hpc]
        simp [role, hm]
  · by_cases hm : m' = m
    · subst hm
      have hwake : (view m' s₁).role t = .waking := by simp [view, hpc, role]
      have hno : ∀ u, (view m' s₁).role u ≠ .parked := by
        intro u hu
        obtain ⟨m'', hpcu⟩ := role_eq_parked.mp hu
        exact hnone u m'' hpcu
      rw [Simulates, view_setThr hheld (role_unlocked _ _ _)]
      have hsame : (view m' s₁).setHeld t ((s₁.thr t).held m') = view m' s₁ :=
        FutexLock.State.setHeld_eq_self _ rfl
      rw [hsame]
      exact .inl (.wakeNone t hwake hno)
    · refine Simulates.quiet (.inr rfl) hheld ?_
      rw [role_unlocked, hpc]
      simp [role, hm]

/-- The wake of signal. -/
theorem simulates_wakeCond {s₁ : State Thr Mtx Cnd} {c : Cnd} {pick : Option Thr}
    (hw : s.wakeOne (.cond c) pick = some s₁) : Simulates m s s₁ := by
  rcases wakeOne_cases hw with ⟨u, m', hu, rfl⟩ | ⟨-, rfl⟩
  · exact view_wake_cond hu
  · exact .inr rfl

/-- The requeue of broadcast, and of a leader releasing its node. -/
theorem simulates_requeue {s₁ : State Thr Mtx Cnd} {c : Cnd} {m' : Mtx} {pick : Option Thr}
    (h : Local s) (hb : Bound s.cond c m') (hr : s.requeue c m' pick = some s₁) :
    Simulates m s s₁ := by
  -- whoever sleeps on `c` goes back to the mutex that `c` is bound to
  have hmtx : ∀ u m'', (s.thr u).pc = .asleep (.cond c) m'' → m'' = m' := by
    intro u m'' hu
    have hok := h u
    rw [ThreadOk, hu] at hok
    have h1 : (s.cond c).mutex = some m' := hb
    have h2 : (s.cond c).mutex = some m'' := hok.2
    rw [h1] at h2
    exact (Option.some.inj h2).symm
  rcases requeue_cases hr with ⟨u, m'', hu, rfl⟩ | ⟨hnone, rfl⟩
  · have hmm := hmtx u m'' hu
    subst hmm
    by_cases hm : m'' = m
    · subst hm
      rw [Simulates, view_moveAll hu]
      refine .inl (.requeue u _ (by simp [view, hu, role]) (fun v hv => ?_))
      obtain ⟨m', hpcv⟩ := (sleepsOn_iff s _ v).mp hv
      simp [view, hpcv, role]
    · rw [Simulates, view_moveAll_ne hm]
      exact view_wake_cond hu
  · rw [moveAll_of_none hnone]
    exact .inr rfl

theorem simulates_run {pick : Option Thr} (h : Local s)
    (hs : run s t pick = some (s', es)) : Simulates m s s' := by
  have hok := h t
  rw [ThreadOk] at hok
  cases hpc : (s.thr t).pc with
  | idle => simp [run, hpc] at hs
  | asleep q m' => simp [run, hpc] at hs
  | lockFor m' i =>
      have haway : role m (s.thr t).pc = .away := by rw [hpc]; rfl
      simp only [run, hpc] at hs
      split at hs
      · rename_i hfree
        cases hs
        exact simulates_take haway hfree 0
      · rename_i hbusy
        cases hs
        refine simulates_busy haway hbusy (role_lockLoop m' (i + 1)) ?_
        -- after the last of the loops `t` is bound for the exchange
        by_cases hm : m' = m
        · exact hm ▸ role_lockLoop_self (i + 1)
        · exact .inl (role_lockLoop m' (i + 1) hm)
  | xchg m' =>
      simp only [run, hpc] at hs
      split at hs
      · rename_i hfree
        cases hs
        exact simulates_xchg hpc hfree
      · rename_i hbusy
        cases hs
        exact simulates_contend hpc hbusy
  | mutexWait m' =>
      simp only [run, hpc] at hs
      split at hs
      · rename_i h3
        cases hs
        exact simulates_park hpc h3
      · cases hs
        exact simulates_arrive (by rw [hpc]; rfl)
  | tryFor m' =>
      have haway : role m (s.thr t).pc = .away := by rw [hpc]; rfl
      simp only [run, hpc] at hs
      split at hs
      · rename_i hfree
        cases hs
        exact simulates_take haway hfree 0
      · rename_i hbusy
        cases hs
        exact simulates_busy haway hbusy (fun _ => rfl) (.inl rfl)
  | unlockRead m' k =>
      simp only [run, hpc] at hs
      split at hs <;> cases hs <;> exact simulates_goto (by rw [hpc]; rfl)
  | unlockCas m' k =>
      rw [hpc] at hok
      simp only [run, hpc] at hs
      split at hs
      · rename_i h1
        cases hs
        exact simulates_cas hpc hok.1 h1
      · cases hs
        exact simulates_goto (by rw [hpc]; rfl)
  | unlockAnd m' k =>
      rw [hpc] at hok
      simp only [run, hpc] at hs
      cases hs
      exact simulates_drop hpc hok.1
  | unlockPoll m' k i =>
      simp only [run, hpc] at hs
      split at hs
      · cases hs
        exact simulates_goto (by rw [role_pollLoop, hpc]; rfl)
      · rename_i hbusy
        cases hs
        exact simulates_handed hpc hbusy
  | unlockClear m' k =>
      simp only [run, hpc] at hs
      cases hs
      exact simulates_clear hpc
  | unlockWake m' k =>
      simp only [run, hpc, Option.map_eq_some_iff] at hs
      obtain ⟨s₁, h₁, hs⟩ := hs
      cases hs
      exact simulates_unlockWake h hpc h₁
  | waitRequeue c m' =>
      rw [hpc] at hok
      simp only [run, hpc, Option.map_eq_some_iff] at hs
      obtain ⟨s₁, h₁, hs⟩ := hs
      cases hs
      have hself := requeue_thr_self (t := t) h₁ (by simp [hpc])
      exact (simulates_requeue h hok.2.2 h₁).quiet rfl (by rw [hself, hpc]; rfl)
  | signalWake c =>
      simp only [run, hpc, Option.map_eq_some_iff] at hs
      obtain ⟨s₁, h₁, hs⟩ := hs
      cases hs
      have hself := wakeOne_thr_self (t := t) h₁ (by simp [hpc])
      exact (simulates_wakeCond h₁).quiet rfl (by rw [hself, hpc]; rfl)
  | broadcastRequeue c =>
      simp only [run, hpc] at hs
      split at hs
      · rename_i m' hm'
        simp only [Option.map_eq_some_iff] at hs
        obtain ⟨s₁, h₁, hs⟩ := hs
        cases hs
        have hself := requeue_thr_self (t := t) h₁ (by simp [hpc])
        exact (simulates_requeue h hm' h₁).quiet rfl (by rw [hself, hpc]; rfl)
      · cases hs
        exact simulates_goto (by rw [hpc]; rfl)
  | waitMutex c m' =>
      simp only [run, hpc] at hs
      split at hs <;> cases hs <;> exact simulates_goto (by rw [hpc]; rfl)
  | waitNull c m' =>
      simp only [run, hpc] at hs
      split at hs <;> cases hs
      · exact simulates_goto (by rw [hpc]; rfl)
      · exact .inr (view_quiet (by rw [held_leave]) (by rw [role_leave, hpc]; rfl))
  | waitCas c m' =>
      simp only [run, hpc] at hs
      split at hs <;> cases hs
      · exact simulates_away rfl rfl (by rw [hpc]; rfl) rfl rfl
      · exact .inr (view_quiet (by rw [held_leave]) (by rw [role_leave, hpc]; rfl))
  | waitUseChild c m' =>
      simp only [run, hpc] at hs
      split at hs
      · split at hs <;> cases hs <;> exact simulates_goto (by rw [hpc]; rfl)
      · cases hs
        exact simulates_goto (by rw [hpc]; rfl)
  | waitFutex c m' curSeq =>
      simp only [run, hpc] at hs
      split at hs <;> cases hs
      · exact simulates_goto (by rw [hpc]; rfl)
      · exact simulates_arrive (by rw [hpc]; rfl)
  | waitClearChild c m' =>
      simp only [run, hpc] at hs
      cases hs
      exact simulates_away rfl rfl (by rw [hpc]; rfl) (by rw [held_leave]) (role_leave _ _ _)
  | broadcastMutex c =>
      simp only [run, hpc] at hs
      split at hs <;> cases hs <;> exact simulates_goto (by rw [hpc]; rfl)
  | _ =>
      simp only [run, hpc] at hs
      cases hs
      exact simulates_away rfl rfl (by rw [hpc]; rfl) rfl rfl

/-- **Every step of the code is a step of the lock, or none of its business.** -/
theorem simulates_step {a : Act Thr Mtx Cnd} (h : Local s) (hs : step s a = some (s', es)) :
    Simulates m s s' := by
  cases a with
  | call t c =>
      obtain ⟨hen, rfl, rfl⟩ := step_call hs
      have haway : role m (s.thr t).pc = .away := by rw [hen.1]; rfl
      -- only lock may enter the exchange at once, where there is no spinning
      by_cases hentry : role m (c.entry) = .away
      · exact .inr (view_quiet rfl (hentry.trans haway.symm))
      · have hex : role m (c.entry) = .exchanging := by
          cases c with
          | lock m' =>
              cases m' with
              | none => exact absurd rfl hentry
              | some m' =>
                  by_cases hm : m' = m
                  · subst hm
                    exact (role_lockLoop_self 0).resolve_left hentry
                  · exact absurd (role_lockLoop m' 0 hm) hentry
          | trylock m' => cases m' <;> exact absurd rfl hentry
          | unlock m' => cases m' <;> exact absurd rfl hentry
          | wait d m' => cases d <;> cases m' <;> exact absurd rfl hentry
          | signal d => cases d <;> exact absurd rfl hentry
          | broadcast d => cases d <;> exact absurd rfl hentry
          | increment m' => exact absurd rfl hentry
        have hsame : (view m s).setHeld t ((s.thr t).held m) = view m s :=
          FutexLock.State.setHeld_eq_self _ rfl
        rw [Simulates, view_setThr rfl hex, hsame]
        exact .inl (.arrive t haway)
  | run t pick => exact simulates_run h hs
  | spurious t =>
      obtain ⟨⟨q, m', hpc⟩, rfl, rfl⟩ := step_spurious hs
      simp only [State.wake, hpc]
      have hok := h t
      rw [ThreadOk, hpc] at hok
      cases q with
      | cond c => exact view_wake_cond hpc
      | mutex m'' =>
          have hmm : m'' = m' := hok.1
          subst hmm
          by_cases hm : m'' = m
          · subst hm
            have hpark : (view m'' s).role t = .parked := by simp [view, hpc, role]
            rw [Simulates, view_goto (r := .exchanging) (by simp [role])]
            exact .inl (.unpark t hpark)
          · exact simulates_goto (by simp [hpc, role, hm])

end Simulation

end Reeact.Sync
