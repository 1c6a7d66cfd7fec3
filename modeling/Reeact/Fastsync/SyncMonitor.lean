import Reeact.Fastsync.CondLaws
import Reeact.Fastsync.MutexLaws
import Reeact.Lib.Monitor

/-!
# fastsync_mutex and fastsync_cond — a monitor

Every run of the two files, seen from outside, is one of the monitor machine:
what their loops, futex queues and trees of conditions do between a call and
its return amounts to one effect on one mutex, two for a wait that is not
refused. The return codes are those of the header: 0, `EBUSY`, 1 for a `NULL`,
2 for a refused wait. A wait whose nested wait on the parent is refused returns
0 without having waited, so a run is watched with its refusals recorded
(`observe`).
-/

namespace Reeact.Sync

open Transition

variable {Thr Mtx Cnd : Type} [DecidableEq Thr] [Fintype Thr] [DecidableEq Mtx]
  [DecidableEq Cnd]

/-! ## Seen from outside -/

/-- What a call is about. -/
def Call.op : Call Mtx Cnd → Monitor.Op Mtx
  | .lock (some m) => .lock m
  | .trylock (some m) => .trylock m
  | .unlock (some m) => .unlock m
  | .wait (some _) (some m) => .wait m
  | .signal (some _) | .broadcast (some _) | .increment _ => .other
  | .lock none | .trylock none | .unlock none | .wait none _ | .wait (some _) none
  | .signal none | .broadcast none => .void

/-- The calls, with the codes of `fastsync.h`. -/
def interface : Monitor.Interface (Call Mtx Cnd) Mtx Int := ⟨Call.op, 0, EBUSY, 1, 2⟩

/-- What is recorded of a run, for the machine to read. -/
abbrev Seen (Thr Mtx Cnd : Type) : Type := Monitor.Ev Thr (Call Mtx Cnd) Mtx Int

/-- What the callers can tell of a run. -/
def Ev.view : Ev Thr Mtx Cnd → Option (Seen Thr Mtx Cnd)
  | .call t c => some (.call t c)
  | .acquire t m => some (.acquire t m)
  | .release t m => some (.release t m)
  | .busy t m => some (.busy t m)
  | .ret t (some c) v => some (.ret t c v)
  | _ => none

/-- A refusal, at the step that returns 2: the condition is bound, and not to
`m`. It is met above if a `fastsync_cond_wait` is suspended. -/
def Pc.refusals (cond : Cnd → FastsyncCond Mtx Cnd) (t : Thr) (frames : List Cnd) :
    Pc Mtx Cnd → List (Seen Thr Mtx Cnd)
  | .waitNull c m | .waitCas c m =>
      if (cond c).mutex = none then [] else [.refused t m (frames ≠ [])]
  | _ => []

def refusals (s : State Thr Mtx Cnd) : Act Thr Mtx Cnd → List (Seen Thr Mtx Cnd)
  | .run t _ => (s.thr t).pc.refusals s.cond t (s.thr t).frames
  | _ => []

/-- A step of the code, with what it refuses. -/
def observe (s : State Thr Mtx Cnd) (b : Act Thr Mtx Cnd) :
    Option (State Thr Mtx Cnd × List (Seen Thr Mtx Cnd)) :=
  (step s b).map (fun r => (r.1, refusals s b ++ r.2.filterMap Ev.view))

theorem observe_cases {s s' : State Thr Mtx Cnd} {b : Act Thr Mtx Cnd}
    {ob : List (Seen Thr Mtx Cnd)} (h : observe s b = some (s', ob)) :
    ∃ es, step s b = some (s', es) ∧ ob = refusals s b ++ es.filterMap Ev.view := by
  obtain ⟨⟨s₁, es⟩, hs, heq⟩ := Option.map_eq_some_iff.mp h
  obtain ⟨rfl, rfl⟩ := Prod.mk.inj heq
  exact ⟨es, hs, rfl⟩

/-- `ob` is recorded of a run that ends in `s`. -/
abbrev Observed (mem : Mtx → FastsyncMutex) (cond : Cnd → FastsyncCond Mtx Cnd) :
    List (Seen Thr Mtx Cnd) → State Thr Mtx Cnd → Prop :=
  Run (Does observe) (State.init mem cond)

/-- The thread is in a call about `op`, for which the machine is in phase `f`. -/
def At (th : Thread Mtx Cnd) (ph : Monitor.Phase (Call Mtx Cnd) Int) (op : Monitor.Op Mtx)
    (f : Call Mtx Cnd → Monitor.Phase (Call Mtx Cnd) Int) : Prop :=
  ∃ c, th.call = some c ∧ c.op = op ∧ ph = f c

/-- Whose `fastsync_mutex_unlock` it is, -/
def unlockOp (m : Mtx) : Option (Cnd × BitVec 32) → Monitor.Op Mtx
  | none => .unlock m
  | some _ => .wait m

/-- and how far the call has got when the mutex is released. -/
def afterUnlock (k : Option (Cnd × BitVec 32)) (c : Call Mtx Cnd) :
    Monitor.Phase (Call Mtx Cnd) Int :=
  match k with
  | none => .done c 0
  | some _ => .parked c

/-- How far a thread has got, by its position. Once `fastsync_cond_wait` on a
parent has returned, the call is over but for its return, whether the parent
has waited or refused: its code is ignored. -/
def Fits (th : Thread Mtx Cnd) (ph : Monitor.Phase (Call Mtx Cnd) Int) : Prop :=
  match th.pc with
  | .idle => ph = .idle
  | .lockFor m _ => At th ph (.lock m) .called
  | .tryFor m => At th ph (.trylock m) .called
  | .xchg m | .mutexWait m | .asleep (.mutex _) m =>
      At th ph (.lock m) .called ∨ At th ph (.wait m) .parked
  | .unlockRead m k | .unlockCas m k | .unlockAnd m k => At th ph (unlockOp m k) .called
  | .unlockPoll m k _ | .unlockClear m k | .unlockWake m k =>
      At th ph (unlockOp m k) (afterUnlock k)
  | .waitMutex _ m | .waitNull _ m | .waitCas _ m | .waitUseChild _ m | .waitSetChild _ m _
  | .waitCurSeq _ m => At th ph (.wait m) .called
  | .waitFutex _ m _ | .asleep (.cond _) m => At th ph (.wait m) .parked
  | .waitSeqLoad _ m | .waitSeqStore _ m _ | .waitRequeue _ m | .waitClearChild _ m =>
      At th ph (.wait m) (.done · 0)
  | .signalAdd _ | .signalWake _ | .broadcastAdd _ | .broadcastMutex _ | .broadcastRequeue _
  | .counterLoad _ | .counterStore _ _ => At th ph .other .called
  | .ret v => ∃ c, th.call = some c ∧ (ph = .done c v ∨ ph = .called c ∧ interface.AtOnce c v)

/-- The state of the machine that belongs to a state of the code. -/
structure Refines (s : State Thr Mtx Cnd) (a : Monitor.State Thr (Call Mtx Cnd) Mtx Int) :
    Prop where
  holder : ∀ m t, a.holder m = some t ↔ (s.thr t).held m = true
  phase : ∀ t, Fits (s.thr t) (a.phase t)

/-- The machine follows a step of which `ob` is recorded, to a state for `s'`. -/
def Followed (a : Monitor.State Thr (Call Mtx Cnd) Mtx Int) (ob : List (Seen Thr Mtx Cnd))
    (s' : State Thr Mtx Cnd) : Prop :=
  ∃ a', Run (Does (Monitor.next interface)) a ob a' ∧ Refines s' a'

/-! ## Positions -/

section Positions

variable {th : Thread Mtx Cnd} {ph : Monitor.Phase (Call Mtx Cnd) Int} {m : Mtx} {v : Int}
  {k : Option (Cnd × BitVec 32)}

section

omit [DecidableEq Mtx] [DecidableEq Cnd]

theorem At.locking (h : At th ph (.lock m) .called) (i : ℕ) :
    Fits (th.goto (lockLoop m i)) ph := by
  rw [lockLoop]
  split
  · exact h
  · exact .inl h

theorem At.polling (h : At th ph (unlockOp m k) (afterUnlock k)) (i : ℕ) :
    Fits (th.goto (pollLoop m k i)) ph := by
  rw [pollLoop]
  split <;> exact h

/-- The mutex is released, and unlock is over. -/
theorem At.unlocked (h : At th ph (unlockOp m k) (afterUnlock k)) :
    Fits (th.unlocked m k) ph := by
  cases k with
  | none =>
      obtain ⟨c, hc, -, rfl⟩ := h
      exact ⟨c, hc, .inl rfl⟩
  | some k => exact h

/-- The slow loop is left, or a wait on a parent that has waited. -/
theorem At.left {op : Monitor.Op Mtx} (h : At th ph op (.done · 0))
    (hop : th.frames ≠ [] → op = .wait m) : Fits (th.leave m 0) ph := by
  rw [Thread.leave]
  split
  · obtain ⟨c, hc, -, rfl⟩ := h
    exact ⟨c, hc, .inl rfl⟩
  · rename_i hfs
    rw [hop (by simp [hfs])] at h
    exact h

end

omit [DecidableEq Thr] [Fintype Thr] in
/-- A wait is refused. The one that has called it goes on to return 0. -/
theorem At.refused (h : At th ph (.wait m) .called) (t : Thr) :
    ∃ ph', ph.next interface (.refused t m (th.frames ≠ [])) = some ph' ∧
      Fits (th.leave m 2) ph' := by
  obtain ⟨c, hc, hop, rfl⟩ := h
  refine ⟨.done c (interface.refusal (th.frames ≠ [])), if_pos hop, ?_⟩
  rw [Thread.leave]
  split
  · rename_i hfs
    refine ⟨c, hc, .inl ?_⟩
    rw [hfs]
    rfl
  · rename_i hfs
    refine ⟨c, hc, hop, ?_⟩
    rw [hfs]
    rfl

omit [DecidableEq Mtx] [DecidableEq Cnd] in
theorem At.returning (h : At th ph .other .called) : Fits (th.goto (.ret 0)) ph := by
  obtain ⟨c, hc, hop, rfl⟩ := h
  refine ⟨c, hc, .inr ⟨rfl, ?_⟩⟩
  rw [Monitor.Interface.AtOnce, show interface.op c = .other from hop]
  rfl

omit [DecidableEq Thr] [Fintype Thr] in
/-- The mutex is taken: the call is over, but for its return. -/
theorem At.acquired {op : Monitor.Op Mtx} {f : Call Mtx Cnd → Monitor.Phase (Call Mtx Cnd) Int}
    (h : At th ph op f)
    (hf : f = .called ∧ (op = .lock m ∨ op = .trylock m) ∨ f = .parked ∧ op = .wait m) (t : Thr) :
    ∃ ph', ph.next interface (.acquire t m) = some ph' ∧ At th ph' op (.done · 0) := by
  obtain ⟨c, hc, hop, rfl⟩ := h
  refine ⟨.done c 0, ?_, c, hc, hop, rfl⟩
  rcases hf with ⟨rfl, hf⟩ | ⟨rfl, hf⟩
  · rw [← hop] at hf
    exact if_pos hf
  · rw [← hop] at hf
    exact if_pos hf

omit [DecidableEq Thr] [Fintype Thr] in
/-- The mutex is given up, for good or for the time of the wait. -/
theorem At.released (h : At th ph (unlockOp m k) .called) (t : Thr) :
    ∃ ph', ph.next interface (.release t m) = some ph' ∧
      At th ph' (unlockOp m k) (afterUnlock k) := by
  obtain ⟨c, hc, hop, rfl⟩ := h
  refine ⟨afterUnlock k c, ?_, c, hc, hop, rfl⟩
  cases k with
  | none => exact if_pos hop
  | some k =>
      have hne : c.op ≠ .unlock m := by
        rw [hop]
        simp [unlockOp]
      exact (if_neg hne).trans (if_pos hop)

omit [DecidableEq Mtx] [DecidableEq Cnd] in
/-- Being woken, or requeued, makes no difference. -/
theorem Moved.fits {cond : Cnd → FastsyncCond Mtx Cnd} {th th' : Thread Mtx Cnd}
    (h : Moved cond th th') (hf : Fits th ph) : Fits th' ph := by
  cases h with
  | same => exact hf
  | @woken q m hpc =>
      rw [Fits, hpc] at hf
      cases q with
      | mutex m' => exact hf
      | cond c => exact .inr hf
  | @requeued c m m' hpc _ =>
      rw [Fits, hpc] at hf
      exact .inr hf

end Positions

/-! ## One step -/

section Steps

variable {s s' s₁ : State Thr Mtx Cnd} {a : Monitor.State Thr (Call Mtx Cnd) Mtx Int} {t : Thr}
  {es : List (Ev Thr Mtx Cnd)} {ob : List (Seen Thr Mtx Cnd)} {th : Thread Mtx Cnd}
  {pc : Pc Mtx Cnd} {m : Mtx} {e : Seen Thr Mtx Cnd} {ph : Monitor.Phase (Call Mtx Cnd) Int}

section

omit [Fintype Thr]

/-- A step nobody outside can tell. -/
theorem Refines.silent (h : Refines s a)
    (hmoved : ∀ u, u ≠ t → Moved s.cond (s.thr u) ((s₁.setThr t th).thr u))
    (hheld : th.held = (s.thr t).held) (hf : Fits th (a.phase t))
    (hob : ob = []) : Followed a ob (s₁.setThr t th) := by
  refine ⟨a, hob ▸ .nil, fun m u => ?_, fun u => ?_⟩
  · by_cases hu : u = t
    · subst hu
      rw [setThr_thr, hheld]
      exact h.holder m u
    · rw [(hmoved u hu).held]
      exact h.holder m u
  · by_cases hu : u = t
    · subst hu
      rw [setThr_thr]
      exact hf
    · exact (hmoved u hu).fits (h.phase u)

theorem Refines.goto (h : Refines s a)
    (hmoved : ∀ u, u ≠ t → Moved s.cond (s.thr u) ((s₁.goto t pc).thr u))
    (hself : s₁.thr t = s.thr t) (hf : Fits ((s.thr t).goto pc) (a.phase t))
    (hob : ob = []) : Followed a ob (s₁.goto t pc) := by
  refine h.silent hmoved ?_ ?_ hob
  · rw [hself]
    rfl
  · rw [hself]
    exact hf

/-- A step the machine takes too. -/
theorem Refines.event (h : Refines s a) (het : e.thr = t)
    (hmoved : ∀ u, u ≠ t → Moved s.cond (s.thr u) ((s₁.setThr t th).thr u))
    (ha : e.Allowed interface a.holder) (hp : (a.phase t).next interface e = some ph)
    (hf : Fits th ph) (hown : ∀ m, e.holders a.holder m = some t ↔ th.held m = true)
    (hother : ∀ m u, u ≠ t → (e.holders a.holder m = some u ↔ a.holder m = some u))
    (hob : ob = [e]) : Followed a ob (s₁.setThr t th) := by
  subst het
  refine ⟨_, hob ▸ Run.single (Monitor.does_next ha hp), fun m u => ?_, fun u => ?_⟩
  · by_cases hu : u = e.thr
    · subst hu
      rw [setThr_thr]
      exact hown m
    · rw [(hmoved u hu).held]
      exact (hother m u hu).trans (h.holder m u)
  · by_cases hu : u = e.thr
    · subst hu
      rw [setThr_thr]
      show Fits th (Function.update a.phase e.thr ph e.thr)
      rw [Function.update_self]
      exact hf
    · show Fits _ (Function.update a.phase e.thr ph u)
      rw [Function.update_of_ne hu]
      exact (hmoved u hu).fits (h.phase u)

end

omit [DecidableEq Thr] [Fintype Thr] [DecidableEq Cnd] in
/-- A mutex whose word is free has no holder. -/
theorem Refines.free (h : Refines s a) (hx : FutexLock.Inv (view m s))
    (hw : (s.mutex m).state &&& 1 = 0) : a.holder m = none := by
  cases hm : a.holder m with
  | none => rfl
  | some u =>
      have hheld : (s.thr u).held m = true := (h.holder m u).mp hm
      have hnot : (s.thr u).held m = false := hx.not_held hw u
      rw [hheld] at hnot
      cases hnot

section

omit [Fintype Thr]

theorem Refines.acquire (h : Refines s a) (hx : FutexLock.Inv (view m s))
    (hw : (s.mutex m).state &&& 1 = 0)
    (hmoved : ∀ u, u ≠ t → Moved s.cond (s.thr u) ((s₁.setThr t th).thr u))
    (hth : th.held = ((s.thr t).take m).held)
    (hp : (a.phase t).next interface (.acquire t m) = some ph) (hf : Fits th ph) :
    Followed a [.acquire t m] (s₁.setThr t th) := by
  have hnone := h.free hx hw
  refine h.event (e := .acquire t m) rfl hmoved hnone hp hf (fun m' => ?_)
    (fun m' u hu => ?_) rfl
  · rw [hth]
    show Function.update a.holder m (some t) m' = some t ↔
      Function.update (s.thr t).held m true m' = true
    by_cases hm : m' = m
    · subst hm
      rw [Function.update_self, Function.update_self]
      simp only
    · rw [Function.update_of_ne hm, Function.update_of_ne hm]
      exact h.holder m' t
  · show Function.update a.holder m (some t) m' = some u ↔ a.holder m' = some u
    by_cases hm : m' = m
    · subst hm
      rw [Function.update_self, hnone]
      simp [Ne.symm hu]
    · rw [Function.update_of_ne hm]

theorem Refines.release (h : Refines s a) (hheld : (s.thr t).held m = true)
    (hmoved : ∀ u, u ≠ t → Moved s.cond (s.thr u) ((s₁.setThr t th).thr u))
    (hth : th.held = ((s.thr t).drop m).held)
    (hp : (a.phase t).next interface (.release t m) = some ph) (hf : Fits th ph) :
    Followed a [.release t m] (s₁.setThr t th) := by
  have hholder : a.holder m = some t := (h.holder m t).mpr hheld
  refine h.event (e := .release t m) rfl hmoved hholder hp hf (fun m' => ?_)
    (fun m' u hu => ?_) rfl
  · rw [hth]
    show Function.update a.holder m none m' = some t ↔
      Function.update (s.thr t).held m false m' = true
    by_cases hm : m' = m
    · subst hm
      rw [Function.update_self, Function.update_self]
      simp
    · rw [Function.update_of_ne hm, Function.update_of_ne hm]
      exact h.holder m' t
  · show Function.update a.holder m none m' = some u ↔ a.holder m' = some u
    by_cases hm : m' = m
    · subst hm
      rw [Function.update_self, hholder]
      simp [Ne.symm hu]
    · rw [Function.update_of_ne hm]

/-- A trylock meets the holder. -/
theorem Refines.busy (h : Refines s a) (hx : FutexLock.Inv (view m s))
    (hw : (s.mutex m).state &&& 1 ≠ 0)
    (hmoved : ∀ u, u ≠ t → Moved s.cond (s.thr u)
      ((s₁.setThr t ((s.thr t).goto (.ret EBUSY))).thr u))
    (hat : At (s.thr t) (a.phase t) (.trylock m) .called) :
    Followed a [.busy t m] (s₁.setThr t ((s.thr t).goto (.ret EBUSY))) := by
  obtain ⟨c, hc, hop, hph⟩ := hat
  obtain ⟨u, hu⟩ := hx.locked.mp hw
  have hholder : a.holder m ≠ none := by
    rw [(h.holder m u).mpr hu]
    exact Option.some_ne_none u
  have hp : (a.phase t).next interface (.busy t m) = some (.done c EBUSY) := by
    rw [hph]
    exact if_pos hop
  exact h.event (e := .busy t m) rfl hmoved hholder hp ⟨c, hc, .inl rfl⟩
    (fun m' => h.holder m' t) (fun _ _ _ => .rfl) rfl

/-- A wait is refused, and the mutex kept. -/
theorem Refines.refused (h : Refines s a) (hheld : (s.thr t).held m = true)
    (hmoved : ∀ u, u ≠ t → Moved s.cond (s.thr u)
      ((s₁.setThr t ((s.thr t).leave m 2)).thr u))
    (hat : At (s.thr t) (a.phase t) (.wait m) .called) :
    Followed a [.refused t m ((s.thr t).frames ≠ [])]
      (s₁.setThr t ((s.thr t).leave m 2)) := by
  obtain ⟨ph, hp, hf⟩ := hat.refused t
  have hholder : a.holder m = some t := (h.holder m t).mpr hheld
  refine h.event (e := .refused t m ((s.thr t).frames ≠ [])) rfl hmoved hholder hp hf
    (fun m' => ?_) (fun _ _ _ => .rfl) rfl
  rw [held_leave]
  exact h.holder m' t

/-- A call returns. -/
theorem Refines.returned (h : Refines s a) {v : Int}
    (hmoved : ∀ u, u ≠ t → Moved s.cond (s.thr u)
      ((s₁.setThr t { s.thr t with pc := .idle, call := none }).thr u))
    (hret : ∃ c, (s.thr t).call = some c ∧
      (a.phase t = .done c v ∨ a.phase t = .called c ∧ interface.AtOnce c v)) :
    Followed a ([.ret t (s.thr t).call v].filterMap Ev.view)
      (s₁.setThr t { s.thr t with pc := .idle, call := none }) := by
  obtain ⟨c, hc, hph⟩ := hret
  have hp : (a.phase t).next interface (.ret t c v) = some .idle := by
    rcases hph with hph | ⟨hph, hv⟩
    · rw [hph]
      exact if_pos ⟨rfl, rfl⟩
    · rw [hph]
      exact if_pos ⟨rfl, hv⟩
  refine h.event (e := .ret t c v) rfl hmoved trivial hp rfl (fun m' => h.holder m' t)
    (fun _ _ _ => .rfl) ?_
  rw [hc]
  rfl

end

omit [DecidableEq Mtx] [DecidableEq Cnd] in
/-- In the slow loop of lock no call is suspended. -/
theorem frames_of_lock {cond : Cnd → FastsyncCond Mtx Cnd} (h : At th ph (.lock m) .called)
    (hok : Locking cond th m) : th.frames = [] := by
  rcases hok with hok | ⟨⟨d, hd⟩, -⟩
  · exact hok.1
  · obtain ⟨c, hc, hop, -⟩ := h
    rw [hd] at hc
    cases hc
    cases d <;> cases hop

/-- **One step**, one event of the machine or none. -/
theorem run_followed {pick : Option Thr} (hl : Local s) (hx : ∀ m, FutexLock.Inv (view m s))
    (h : Refines s a) (hs : run s t pick = some (s', es)) :
    Followed a (refusals s (.run t pick) ++ es.filterMap Ev.view) s' := by
  have hmoved : ∀ u, u ≠ t → Moved s.cond (s.thr u) (s'.thr u) :=
    fun u hu => run_moved hl hs hu
  have hok := hl t
  have hf := h.phase t
  rw [ThreadOk] at hok
  rw [Fits] at hf
  rw [refusals]
  cases hpc : (s.thr t).pc with
  | idle => simp [run, hpc] at hs
  | asleep q m => simp [run, hpc] at hs
  | lockFor m i =>
      rw [hpc] at hf
      simp only [run, hpc] at hs
      split at hs <;> cases hs
      · rename_i hw
        obtain ⟨ph, hp, c, hc, -, rfl⟩ := hf.acquired (.inl ⟨rfl, .inl rfl⟩) t
        exact h.acquire (hx m) hw hmoved rfl hp ⟨c, hc, .inl rfl⟩
      · exact h.goto hmoved rfl (hf.locking (i + 1)) rfl
  | xchg m =>
      rw [hpc] at hf hok
      simp only [run, hpc] at hs
      split at hs <;> cases hs
      · rename_i hw
        rcases hf with hf | hf
        · have hfs := frames_of_lock hf hok
          obtain ⟨ph, hp, hat⟩ := hf.acquired (.inl ⟨rfl, .inl rfl⟩) t
          exact h.acquire (hx m) hw hmoved (held_leave _ m 0) hp
            (At.left hat (fun hne => absurd hfs hne))
        · obtain ⟨ph, hp, hat⟩ := hf.acquired (.inr ⟨rfl, rfl⟩) t
          exact h.acquire (hx m) hw hmoved (held_leave _ m 0) hp (At.left hat (fun _ => rfl))
      · exact h.goto hmoved rfl hf rfl
  | mutexWait m =>
      rw [hpc] at hf
      simp only [run, hpc] at hs
      split at hs <;> cases hs <;> exact h.goto hmoved rfl hf rfl
  | tryFor m =>
      rw [hpc] at hf
      simp only [run, hpc] at hs
      split at hs
      · rename_i hw
        cases hs
        obtain ⟨ph, hp, c, hc, -, rfl⟩ := hf.acquired (.inl ⟨rfl, .inr rfl⟩) t
        exact h.acquire (hx m) hw hmoved rfl hp ⟨c, hc, .inl rfl⟩
      · rename_i hw
        cases hs
        exact h.busy (hx m) hw hmoved hf
  | unlockCas m k =>
      rw [hpc] at hf hok
      simp only [run, hpc] at hs
      split at hs <;> cases hs
      · obtain ⟨ph, hp, hat⟩ := hf.released t
        exact h.release hok.1 hmoved (held_unlocked _ m k) hp (At.unlocked hat)
      · exact h.goto hmoved rfl hf rfl
  | unlockAnd m k =>
      rw [hpc] at hf hok
      simp only [run, hpc] at hs
      cases hs
      obtain ⟨ph, hp, hat⟩ := hf.released t
      exact h.release hok.1 hmoved rfl hp (hat.polling 0)
  | unlockPoll m k i =>
      rw [hpc] at hf
      simp only [run, hpc] at hs
      split at hs <;> cases hs
      · exact h.goto hmoved rfl (hf.polling (i + 1)) rfl
      · exact h.silent hmoved (held_unlocked _ m k) hf.unlocked rfl
  | unlockWake m k =>
      rw [hpc] at hf
      simp only [run, hpc, Option.map_eq_some_iff] at hs
      obtain ⟨s₁, h₁, hs⟩ := hs
      cases hs
      exact h.silent hmoved (held_unlocked _ m k) hf.unlocked rfl
  | waitFutex c m curSeq =>
      rw [hpc] at hf
      simp only [run, hpc] at hs
      split at hs <;> cases hs
      · exact h.goto hmoved rfl hf rfl
      · exact h.goto hmoved rfl (.inr hf) rfl
  | waitNull c m =>
      rw [hpc] at hf hok
      simp only [run, hpc] at hs
      rw [Pc.refusals]
      split at hs
      · rename_i hnone
        cases hs
        exact h.goto hmoved rfl hf (by rw [if_pos hnone]; rfl)
      · rename_i hsome
        cases hs
        rw [if_neg hsome]
        exact h.refused hok.1 hmoved hf
  | waitCas c m =>
      rw [hpc] at hf hok
      simp only [run, hpc] at hs
      rw [Pc.refusals]
      split at hs
      · rename_i hnone
        cases hs
        exact h.goto hmoved rfl hf (by rw [if_pos hnone]; rfl)
      · rename_i hsome
        cases hs
        rw [if_neg hsome]
        exact h.refused hok.1 hmoved hf
  | waitUseChild c m =>
      rw [hpc] at hf
      simp only [run, hpc] at hs
      split at hs
      · split at hs <;> cases hs <;> exact h.goto hmoved rfl hf rfl
      · cases hs
        exact h.goto hmoved rfl hf rfl
  | waitSetChild c m p =>
      rw [hpc] at hf
      simp only [run, hpc] at hs
      cases hs
      exact h.silent hmoved rfl hf rfl
  | waitRequeue c m =>
      rw [hpc] at hf
      simp only [run, hpc, Option.map_eq_some_iff] at hs
      obtain ⟨s₁, h₁, hs⟩ := hs
      cases hs
      exact h.goto hmoved (requeue_thr_self h₁ (by simp [hpc])) hf rfl
  | waitClearChild c m =>
      rw [hpc] at hf
      simp only [run, hpc] at hs
      cases hs
      exact h.silent hmoved (held_leave _ m 0) (hf.left (fun _ => rfl)) rfl
  | signalWake c =>
      rw [hpc] at hf
      simp only [run, hpc, Option.map_eq_some_iff] at hs
      obtain ⟨s₁, h₁, hs⟩ := hs
      cases hs
      exact h.goto hmoved (wakeOne_thr_self h₁ (by simp [hpc])) hf.returning rfl
  | broadcastMutex c =>
      rw [hpc] at hf
      simp only [run, hpc] at hs
      split at hs <;> cases hs
      · exact h.goto hmoved rfl hf rfl
      · exact h.goto hmoved rfl hf.returning rfl
  | broadcastRequeue c =>
      rw [hpc] at hf
      simp only [run, hpc] at hs
      split at hs
      · simp only [Option.map_eq_some_iff] at hs
        obtain ⟨s₁, h₁, hs⟩ := hs
        cases hs
        exact h.goto hmoved (requeue_thr_self h₁ (by simp [hpc])) hf.returning rfl
      · cases hs
        exact h.goto hmoved rfl hf.returning rfl
  | counterStore m v =>
      rw [hpc] at hf
      simp only [run, hpc] at hs
      cases hs
      exact h.goto hmoved rfl hf.returning rfl
  | ret v =>
      rw [hpc] at hf
      simp only [run, hpc] at hs
      cases hs
      exact h.returned hmoved hf
  | _ =>
      rw [hpc] at hf
      simp only [run, hpc] at hs
      first
        | (cases hs; exact h.goto hmoved rfl hf rfl)
        | (split at hs <;> cases hs <;> exact h.goto hmoved rfl hf rfl)

omit [DecidableEq Mtx] [DecidableEq Cnd] in
/-- A call begins, or returns at once for a `NULL`. -/
theorem entry_fits {c : Call Mtx Cnd} (hc : th.call = some c) :
    Fits (th.goto c.entry) (.called c) := by
  have hat : ∀ op, c.op = op → At (th.goto c.entry) (.called c) op .called :=
    fun op hop => ⟨c, hc, hop, rfl⟩
  have hvoid : c.op = .void → ∃ d, th.call = some d ∧
      ((.called c : Monitor.Phase (Call Mtx Cnd) Int) = .done d 1 ∨
        (.called c : Monitor.Phase (Call Mtx Cnd) Int) = .called d ∧ interface.AtOnce d 1) := by
    intro hop
    refine ⟨c, hc, .inr ⟨rfl, ?_⟩⟩
    rw [Monitor.Interface.AtOnce, show interface.op c = .void from hop]
    rfl
  cases c with
  | lock m =>
      cases m with
      | none => exact hvoid rfl
      | some m => exact (hat (.lock m) rfl).locking 0
  | trylock m =>
      cases m with
      | none => exact hvoid rfl
      | some m => exact hat (.trylock m) rfl
  | unlock m =>
      cases m with
      | none => exact hvoid rfl
      | some m => exact hat (.unlock m) rfl
  | wait d m =>
      cases d with
      | none => exact hvoid rfl
      | some d =>
          cases m with
          | none => exact hvoid rfl
          | some m => exact hat (.wait m) rfl
  | signal d =>
      cases d with
      | none => exact hvoid rfl
      | some d => exact hat .other rfl
  | broadcast d =>
      cases d with
      | none => exact hvoid rfl
      | some d => exact hat .other rfl
  | increment m => exact hat .other rfl

omit [DecidableEq Mtx] [DecidableEq Cnd] in
/-- Unlocking and waiting are for the holder. -/
theorem permitted_op {c : Call Mtx Cnd} {held : Mtx → Bool}
    (hop : c.op = .unlock m ∨ c.op = .wait m) (hperm : c.permitted held = true) :
    held m = true := by
  cases c with
  | unlock m' => cases m' <;> simp_all [Call.op, Call.permitted]
  | wait d m' => cases d <;> cases m' <;> simp_all [Call.op, Call.permitted]
  | lock m' => cases m' <;> simp [Call.op] at hop
  | trylock m' => cases m' <;> simp [Call.op] at hop
  | signal d => cases d <;> simp [Call.op] at hop
  | broadcast d => cases d <;> simp [Call.op] at hop
  | increment m' => simp [Call.op] at hop

omit [DecidableEq Thr] [Fintype Thr] [DecidableEq Mtx] [DecidableEq Cnd] in
theorem Refines.permitted (h : Refines s a) {c : Call Mtx Cnd}
    (hperm : c.permitted (s.thr t).held = true) :
    (.call t c : Monitor.Ev Thr (Call Mtx Cnd) Mtx Int).Allowed interface a.holder := by
  rw [Monitor.Ev.Allowed]
  split
  · rename_i m hop
    exact (h.holder m t).mpr (permitted_op (.inl hop) hperm)
  · rename_i m hop
    exact (h.holder m t).mpr (permitted_op (.inr hop) hperm)
  · exact trivial

theorem step_followed {b : Act Thr Mtx Cnd} (hl : Local s)
    (hx : ∀ m, FutexLock.Inv (view m s)) (h : Refines s a) (hs : step s b = some (s', es)) :
    Followed a (refusals s b ++ es.filterMap Ev.view) s' := by
  cases b with
  | call t c =>
      obtain ⟨⟨hpc, hperm⟩, rfl, rfl⟩ := step_call hs
      have hidle := h.phase t
      rw [Fits, hpc] at hidle
      have hp : (a.phase t).next interface (.call t c) = some (.called c) := by
        rw [hidle]
        rfl
      refine h.event (e := .call t c) rfl (fun u hu => setThr_moved _ hu .same)
        (h.permitted hperm) hp ?_ (fun m => h.holder m t) (fun _ _ _ => .rfl) rfl
      have hcall : ({ s.thr t with call := some c } : Thread Mtx Cnd).call = some c := rfl
      exact entry_fits hcall
  | run t pick => exact run_followed hl hx h hs
  | spurious t =>
      obtain ⟨-, rfl, rfl⟩ := step_spurious hs
      refine ⟨a, .nil, fun m u => ?_, fun u => (wake_thr s t u).fits (h.phase u)⟩
      rw [(wake_thr s t u).held]
      exact h.holder m u

end Steps

/-! ## Runs -/

section Runs

variable {mem : Mtx → FastsyncMutex} {cond : Cnd → FastsyncCond Mtx Cnd}
  {tr : List (Ev Thr Mtx Cnd)} {ob : List (Seen Thr Mtx Cnd)} {s s' : State Thr Mtx Cnd}

/-- All but the refusals. -/
def plain : Seen Thr Mtx Cnd → Bool
  | .refused _ _ _ => false
  | _ => true

omit [DecidableEq Thr] [Fintype Thr] [DecidableEq Mtx] [DecidableEq Cnd] in
theorem plain_refusals (s : State Thr Mtx Cnd) (b : Act Thr Mtx Cnd) :
    (refusals s b).filter plain = [] := by
  cases b with
  | run t pick =>
      rw [refusals]
      unfold Pc.refusals
      split
      · split <;> rfl
      · split <;> rfl
      · rfl
  | _ => rfl

omit [DecidableEq Thr] [Fintype Thr] [DecidableEq Mtx] [DecidableEq Cnd] in
theorem plain_view (tr : List (Ev Thr Mtx Cnd)) :
    (tr.filterMap Ev.view).filter plain = tr.filterMap Ev.view := by
  refine List.filter_eq_self.mpr fun e he => ?_
  obtain ⟨e', -, hv⟩ := List.mem_filterMap.mp he
  cases e' with
  | ret t c v =>
      cases c with
      | none => cases hv
      | some c =>
          cases hv
          rfl
  | _ => cases hv <;> rfl

/-- Watching changes nothing: every run is observed, -/
theorem Runs.observed (h : Runs mem cond tr s) :
    ∃ ob, Observed mem cond ob s ∧ ob.filter plain = tr.filterMap Ev.view := by
  induction h with
  | nil => exact ⟨[], .nil, rfl⟩
  | @snoc tr s es s' _ hs ih =>
      obtain ⟨ob, hob, hplain⟩ := ih
      obtain ⟨b, hb⟩ := hs
      have hstep : observe s b = some (s', refusals s b ++ es.filterMap Ev.view) := by
        rw [observe, hb]
        rfl
      refine ⟨_, hob.snoc ⟨b, hstep⟩, ?_⟩
      simp only [List.filter_append, List.filterMap_append, plain_refusals, plain_view, hplain,
        List.nil_append]

/-- and what is observed is a run. -/
theorem Observed.runs (h : Observed mem cond ob s) :
    ∃ tr, Runs mem cond tr s ∧ ob.filter plain = tr.filterMap Ev.view := by
  induction h with
  | nil => exact ⟨[], .nil, rfl⟩
  | @snoc ob s _ s' _ hs ih =>
      obtain ⟨tr, htr, hplain⟩ := ih
      obtain ⟨b, hob⟩ := hs
      obtain ⟨es, hb, rfl⟩ := observe_cases hob
      refine ⟨_, htr.snoc ⟨b, hb⟩, ?_⟩
      simp only [List.filter_append, List.filterMap_append, plain_refusals, plain_view, hplain,
        List.nil_append]

theorem Observed.refines (h : Observed mem cond ob s) :
    ∃ a, Monitor.Accepts interface ob a ∧ Refines s a := by
  induction h with
  | nil =>
      exact ⟨.init, .nil, fun m t => by simp [State.init, Monitor.State.init], fun t => rfl⟩
  | @snoc ob s ob' s' hr hs ih =>
      obtain ⟨a, ha, hR⟩ := ih
      obtain ⟨tr, htr, -⟩ := Observed.runs hr
      obtain ⟨b, hob⟩ := hs
      obtain ⟨es, hb, rfl⟩ := observe_cases hob
      obtain ⟨a', ha', hR'⟩ := step_followed (Runs.local htr) (Runs.lock htr) hR hb
      exact ⟨a', ha.append ha', hR'⟩

end Runs

/-- **Seen from outside, a monitor.** What is recorded of any run, its refusals
included, the monitor accepts, and its holders are the threads that know to
hold. -/
theorem refines_monitor (mem : Mtx → FastsyncMutex) (cond : Cnd → FastsyncCond Mtx Cnd)
    {ob : List (Seen Thr Mtx Cnd)} {s : State Thr Mtx Cnd} (h : Observed mem cond ob s) :
    ∃ a, Monitor.Accepts interface ob a ∧
      (∀ m t, a.holder m = some t ↔ (s.thr t).held m = true) ∧
      ∀ t, (s.thr t).pc = .idle → a.phase t = .idle := by
  obtain ⟨a, ha, hR⟩ := h.refines
  refine ⟨a, ha, hR.holder, fun t hpc => ?_⟩
  have hf := hR.phase t
  rw [Fits, hpc] at hf
  exact hf

/-- Thread 1 locks a mutex and sleeps with it at the root. Thread 0, with
another one, waits below the root, then at the root itself. -/
def rootBound : List (Act (Fin 2) Bool (Fin 2)) :=
  [.call 1 (.lock (some true)), .run 1 none, .run 1 none,
    .call 1 (.wait (some 0) (some true))] ++ List.replicate 8 (.run 1 none) ++
  [.call 0 (.lock (some false)), .run 0 none, .run 0 none,
    .call 0 (.wait (some 1) (some false))] ++ List.replicate 12 (.run 0 none) ++
  .call 0 (.wait (some 0) (some false)) :: List.replicate 3 (.run 0 none)

/-- What is recorded of it before the waits of thread 0. -/
def rootBoundBefore : List (Seen (Fin 2) Bool (Fin 2)) :=
  [.call 1 (.lock (some true)), .acquire 1 true, .ret 1 (.lock (some true)) 0,
    .call 1 (.wait (some 0) (some true)), .release 1 true,
    .call 0 (.lock (some false)), .acquire 0 false, .ret 0 (.lock (some false)) 0]

theorem rootBound_observed : ∃ s : State (Fin 2) Bool (Fin 2),
    Observed (fun _ => ⟨7⟩) (treeCond twoNodes) (rootBoundBefore ++
      .call 0 (.wait (some 1) (some false)) :: [.refused 0 false true] ++
        .ret 0 (.wait (some 1) (some false)) 0 ::
          [.call 0 (.wait (some 0) (some false)), .refused 0 false false,
            .ret 0 (.wait (some 0) (some false)) 2]) s :=
  run_of_trace rootBound (by decide)

theorem refines_monitor_two : ∃ (s : State (Fin 2) Bool (Fin 2))
    (ob : List (Seen (Fin 2) Bool (Fin 2)))
    (a : Monitor.State (Fin 2) (Call Bool (Fin 2)) Bool Int),
    ob ≠ [] ∧ Monitor.Accepts interface ob a ∧
      (∀ m t, a.holder m = some t ↔ (s.thr t).held m = true) ∧
      ∀ t, (s.thr t).pc = .idle → a.phase t = .idle := by
  obtain ⟨s, hr⟩ := rootBound_observed
  obtain ⟨a, ha⟩ := refines_monitor (fun _ => ⟨7⟩) (treeCond twoNodes) hr
  exact ⟨s, _, a, by simp, ha⟩

/-- **Each call does one thing.** Whatever the other threads do meanwhile,
between its start and its return a lock acquires its mutex, a trylock does or
meets a holder, an unlock releases, and a wait releases and acquires again, or
is refused and keeps its mutex. It returns 2 if refused at its own condition,
0 if further up. -/
theorem call_effects (mem : Mtx → FastsyncMutex) (cond : Cnd → FastsyncCond Mtx Cnd)
    {ob₁ ob₂ ob₃ : List (Seen Thr Mtx Cnd)} {s : State Thr Mtx Cnd} {t : Thr}
    {c c' : Call Mtx Cnd} {v : Int}
    (h : Observed mem cond (ob₁ ++ .call t c :: ob₂ ++ .ret t c' v :: ob₃) s)
    (hcall : ∀ d, .call t d ∉ ob₂) :
    c' = c ∧ Monitor.Effect interface t c v (Monitor.own t ob₂) := by
  obtain ⟨a, ha, -⟩ := h.refines
  exact Monitor.effect_of_accepts ha hcall

/-- Thread 0 locks the mutex and waits; its sleep ends by itself. -/
def soloWait : List (Act (Fin 2) Unit Unit) :=
  [.call 0 (.lock (some ())), .run 0 none, .run 0 none, .call 0 (.wait (some ()) (some ()))] ++
    List.replicate 8 (.run 0 none) ++ [.spurious 0, .run 0 none, .run 0 none]

theorem soloWait_observed : ∃ s : State (Fin 2) Unit Unit,
    Observed oneMutex oneCond ([.call 0 (.lock (some ())), .acquire 0 (),
      .ret 0 (.lock (some ())) 0] ++ .call 0 (.wait (some ()) (some ())) ::
        [.release 0 (), .acquire 0 ()] ++ .ret 0 (.wait (some ()) (some ())) 0 :: []) s :=
  run_of_trace soloWait (by decide)

/-- A wait that waits, and one that the root refuses. -/
theorem call_effects_two :
    Monitor.Effect interface 0 (.wait (some ()) (some ())) 0
      ([.release 0 (), .acquire 0 ()] : List (Seen (Fin 2) Unit Unit)) ∧
    Monitor.Effect interface 0 (.wait (some 1) (some false)) 0
      ([.refused 0 false true] : List (Seen (Fin 2) Bool (Fin 2))) := by
  obtain ⟨s, hr⟩ := soloWait_observed
  obtain ⟨s', hr'⟩ := rootBound_observed
  exact ⟨(call_effects oneMutex oneCond hr (by simp)).2,
    (call_effects (fun _ => ⟨7⟩) (treeCond twoNodes) hr' (by simp)).2⟩

end Reeact.Sync
