import Reeact.Fastsync.CondCall
import Reeact.Fastsync.CondLaws

/-!
# fastsync_cond_wait — a mutex that does not match

A call that finds its own condition bound to another mutex returns 2 and has
done nothing. Found further up, the same is not reported: the nested call
returns 2 to a caller that ignores it, releases its node and returns 0, the
mutex never having been released (`wait_refused_iff`).
-/

namespace Reeact.Sync

open Transition

variable {Thr Mtx Cnd : Type} [DecidableEq Thr] [Fintype Thr] [DecidableEq Mtx]
  [DecidableEq Cnd]

/-! ## What is claimed of a call -/

/-- The condition whose `mutex` is about to be compared, and with what. -/
def Pc.checking : Pc Mtx Cnd → Option (Cnd × Mtx)
  | .waitMutex d m | .waitNull d m | .waitCas d m => some (d, m)
  | _ => none

/-- `t` is about to read the `mutex` of a condition bound to another one. -/
def Mismatch (t : Thr) (s : State Thr Mtx Cnd) : Prop :=
  ∃ d m m', (s.thr t).pc.checking = some (d, m) ∧ (s.cond d).mutex = some m' ∧ m' ≠ m

/-- So it is, in the nested call on a parent. -/
def MismatchAbove (t : Thr) (s : State Thr Mtx Cnd) : Prop :=
  Mismatch t s ∧ (s.thr t).frames ≠ []

/-- A step that changes no condition, wakes nobody and keeps the mutex. -/
structure Untouched (t : Thr) (m : Mtx) (o : OwnStep Thr Mtx Cnd) : Prop where
  cond : o.after.cond = o.before.cond
  others : ∀ u, u ≠ t → o.after.thr u = o.before.thr u
  kept : .release t m ∉ o.events

/-- The events of the caller's steps. -/
def ownEvents (os : List (OwnStep Thr Mtx Cnd)) : List (Ev Thr Mtx Cnd) :=
  os.flatMap OwnStep.events

/-- A call of `fastsync_cond_wait` with `m`, at any moment: `os` is what `t` has
done in it so far. -/
structure CallOk (t : Thr) (m : Mtx) (os : List (OwnStep Thr Mtx Cnd))
    (s : State Thr Mtx Cnd) : Prop where
  /-- once it has met a mismatch, it has touched nothing; it has returned 2, or
  is able to go on and will have returned after three steps of its own -/
  refused : (∃ o ∈ os, Mismatch t o.before) → (∀ o ∈ os, Untouched t m o) ∧
    ((s.thr t).pc = .ret 2 ∨ os.length < 3 ∧ ∃ r, step s (.run t none) = some r)
  /-- if it returns 0, it has released the mutex and taken it again -/
  released : (s.thr t).pc = .ret 0 → [.release t m, .acquire t m].Sublist (ownEvents os)

/-! ## Where a call stands -/

def Found (t : Thr) (os : List (OwnStep Thr Mtx Cnd)) : Prop := ∃ o ∈ os, Mismatch t o.before

def FoundAbove (t : Thr) (os : List (OwnStep Thr Mtx Cnd)) : Prop :=
  ∃ o ∈ os, MismatchAbove t o.before

/-- At the `k`-th step of the outer call, or in a nested one. -/
def Entered (t : Thr) (m : Mtx) (os : List (OwnStep Thr Mtx Cnd)) (fs : List Cnd) (k : ℕ) : Prop :=
  (fs = [] → (∀ o ∈ os, Untouched t m o) ∧ os.length = k) ∧ (fs ≠ [] → 3 ≤ os.length)

/-- The innermost call is over: the mutex has been away, or was refused further up. -/
def Passed (t : Thr) (m : Mtx) (os : List (OwnStep Thr Mtx Cnd)) : Prop :=
  ¬ Found t os ∧ [.release t m, .acquire t m].Sublist (ownEvents os) ∨
    FoundAbove t os ∧ 3 ≤ os.length

/-- What the steps `os` of a call with `m` have been, by position. -/
def CallPhase (t : Thr) (m : Mtx) (os : List (OwnStep Thr Mtx Cnd))
    (cond : Cnd → FastsyncCond Mtx Cnd) (fs : List Cnd) : Pc Mtx Cnd → Prop
  | .waitMutex _ m' => m' = m ∧ ¬ Found t os ∧ Entered t m os fs 0
  | .waitNull d m' => m' = m ∧ Entered t m os fs 1 ∧
      (¬ Found t os ∨ (cond d).mutex ≠ none ∧ (FoundAbove t os ↔ fs ≠ []))
  | .waitCas _ m' => m' = m ∧ ¬ Found t os ∧ Entered t m os fs 2
  | .waitUseChild _ m' => m' = m ∧ ¬ Found t os ∧ 1 ≤ os.length
  | .waitSetChild _ m' _ => m' = m ∧ ¬ Found t os ∧ 2 ≤ os.length
  | .waitCurSeq _ m' | .unlockRead m' (some _) | .unlockCas m' (some _)
  | .unlockAnd m' (some _) => m' = m ∧ ¬ Found t os
  | .unlockPoll m' (some _) _ | .unlockClear m' (some _) | .unlockWake m' (some _)
  | .waitFutex _ m' _ | .asleep _ m' | .xchg m' | .mutexWait m' =>
      m' = m ∧ ¬ Found t os ∧ .release t m ∈ ownEvents os
  | .waitSeqLoad _ m' | .waitSeqStore _ m' _ | .waitRequeue _ m' | .waitClearChild _ m' =>
      m' = m ∧ Passed t m os
  | .ret v => v = 2 ∧ (∀ o ∈ os, Untouched t m o) ∧ ¬ FoundAbove t os ∨ v = 0 ∧ Passed t m os
  | _ => False

section Phase

variable {s s' : State Thr Mtx Cnd} {t : Thr} {m : Mtx} {os : List (OwnStep Thr Mtx Cnd)}
  {es : List (Ev Thr Mtx Cnd)} {o : OwnStep Thr Mtx Cnd} {c : Cnd}

section

omit [DecidableEq Thr] [Fintype Thr] [DecidableEq Mtx] [DecidableEq Cnd]

theorem FoundAbove.found (h : FoundAbove t os) : Found t os := by
  obtain ⟨o, ho, hm, -⟩ := h
  exact ⟨o, ho, hm⟩

theorem found_snoc : Found t (os ++ [o]) ↔ Found t os ∨ Mismatch t o.before := by
  simp [Found, or_and_right, exists_or]

theorem foundAbove_snoc :
    FoundAbove t (os ++ [o]) ↔ FoundAbove t os ∨ MismatchAbove t o.before := by
  simp [FoundAbove, or_and_right, exists_or]

theorem ownEvents_snoc : ownEvents (os ++ [o]) = ownEvents os ++ o.events := by
  simp [ownEvents]

theorem mismatch_iff {d : Cnd} (h : (s.thr t).pc.checking = some (d, m)) :
    Mismatch t s ↔ ∃ m', (s.cond d).mutex = some m' ∧ m' ≠ m := by
  constructor
  · rintro ⟨d', m₁, m', h', hb, hne⟩
    rw [h] at h'
    cases h'
    exact ⟨m', hb, hne⟩
  · rintro ⟨m', hb, hne⟩
    exact ⟨d, m, m', h, hb, hne⟩

theorem not_mismatch (h : (s.thr t).pc.checking = none) : ¬ Mismatch t s := by
  rintro ⟨d, m, m', h', -⟩
  rw [h] at h'
  cases h'

/-- A step that compares no mutex finds nothing. -/
theorem not_found_snoc (h : ¬ Found t os) (hn : ¬ Mismatch t s) :
    ¬ Found t (os ++ [⟨s, s', es⟩]) := by
  rw [found_snoc]
  exact not_or.mpr ⟨h, hn⟩

theorem Passed.snoc (h : Passed t m os) (hn : ¬ Mismatch t s) :
    Passed t m (os ++ [⟨s, s', es⟩]) := by
  rcases h with ⟨hf, hback⟩ | ⟨hf, hlen⟩
  · left
    refine ⟨not_found_snoc hf hn, ?_⟩
    rw [ownEvents_snoc]
    exact hback.trans (List.sublist_append_left _ _)
  · right
    refine ⟨foundAbove_snoc.mpr (.inl hf), ?_⟩
    rw [List.length_append]
    exact Nat.le_add_right_of_le hlen

theorem untouched_snoc (h : ∀ o ∈ os, Untouched t m o) (ho : Untouched t m o) :
    ∀ o' ∈ os ++ [o], Untouched t m o' := by
  intro o' ho'
  rcases List.mem_append.mp ho' with hm | hm
  · exact h o' hm
  · rw [List.mem_singleton.mp hm]
    exact ho

end

omit [Fintype Thr] [DecidableEq Mtx] [DecidableEq Cnd] in
theorem untouched_setThr (th : Thread Mtx Cnd) : Untouched t m ⟨s, s.setThr t th, []⟩ where
  cond := rfl
  others u hu := by
    show Function.update s.thr t th u = s.thr u
    rw [Function.update_of_ne hu]
  kept := List.not_mem_nil

omit [DecidableEq Thr] [Fintype Thr] [DecidableEq Mtx] [DecidableEq Cnd] in
/-- One more step at the entry of a call. -/
theorem Entered.snoc {fs : List Cnd} {k : ℕ} (h : Entered t m os fs k) (ho : Untouched t m o) :
    Entered t m (os ++ [o]) fs (k + 1) := by
  constructor
  · intro hfs
    obtain ⟨hall, hlen⟩ := h.1 hfs
    refine ⟨untouched_snoc hall ho, ?_⟩
    rw [List.length_append, hlen]
    rfl
  · intro hfs
    rw [List.length_append]
    exact Nat.le_add_right_of_le (h.2 hfs)

omit [DecidableEq Thr] [Fintype Thr] [DecidableEq Mtx] [DecidableEq Cnd] in
/-- Back to the user, or to the suspended call. -/
theorem callPhase_leave {cond : Cnd → FastsyncCond Mtx Cnd} {th : Thread Mtx Cnd} {v : Int}
    (hret : th.frames = [] → CallPhase t m os cond [] (.ret v))
    (hup : th.frames ≠ [] → Passed t m os) :
    CallPhase t m os cond (th.leave m v).frames (th.leave m v).pc := by
  rcases th with ⟨call, pc, fs, held⟩
  cases fs with
  | nil => exact hret rfl
  | cons d fs => exact ⟨rfl, hup (List.cons_ne_nil d fs)⟩

omit [Fintype Thr] [DecidableEq Mtx] [DecidableEq Cnd] in
theorem callPhase_setThr {cond : Cnd → FastsyncCond Mtx Cnd} {s₁ : State Thr Mtx Cnd}
    {th : Thread Mtx Cnd} (h : CallPhase t m os cond th.frames th.pc) :
    CallPhase t m os cond ((s₁.setThr t th).thr t).frames ((s₁.setThr t th).thr t).pc := by
  rw [setThr_thr]
  exact h

omit [Fintype Thr] [DecidableEq Mtx] [DecidableEq Cnd] in
/-- The mutex is refused: by the outer call, which returns 2, or by a nested
one, whose 2 is ignored. -/
theorem callPhase_refuse {cond : Cnd → FastsyncCond Mtx Cnd} {k : ℕ} (hm : Mismatch t s)
    (he : Entered t m os (s.thr t).frames k)
    (hf : (s.thr t).frames = [] → ¬ FoundAbove t os) :
    CallPhase t m (os ++ [⟨s, s.setThr t ((s.thr t).leave m 2), []⟩]) cond
      ((s.thr t).leave m 2).frames ((s.thr t).leave m 2).pc := by
  apply callPhase_leave
  -- the outer call: 2 goes to the user
  · intro hfs
    refine .inl ⟨rfl, untouched_snoc (he.1 hfs).1 (untouched_setThr _), ?_⟩
    rw [foundAbove_snoc]
    rintro (h | h)
    · exact hf hfs h
    · exact h.2 hfs
  -- a nested call: `leave` drops the 2 and goes on to the release
  · intro hfs
    refine .inr ⟨foundAbove_snoc.mpr (.inr ⟨hm, hfs⟩), ?_⟩
    rw [List.length_append]
    exact Nat.le_add_right_of_le (he.2 hfs)

section

omit [DecidableEq Thr] [Fintype Thr] [DecidableEq Mtx] [DecidableEq Cnd]

theorem callPhase_pollLoop {cond : Cnd → FastsyncCond Mtx Cnd} {fs : List Cnd} {d : Cnd}
    {cur : BitVec 32} (hf : ¬ Found t os) (hr : .release t m ∈ ownEvents os) (i : ℕ) :
    CallPhase t m os cond fs (pollLoop m (some (d, cur)) i) := by
  rw [pollLoop]
  split <;> exact ⟨rfl, hf, hr⟩

theorem not_mismatch_of_null {d : Cnd} (h : (s.thr t).pc.checking = some (d, m))
    (hnull : (s.cond d).mutex = none) : ¬ Mismatch t s := by
  rw [mismatch_iff h]
  rintro ⟨m', hb, -⟩
  rw [hnull] at hb
  cases hb

/-- Whoever may bind a condition, and finds it bound, has found another mutex. -/
theorem Unbound.mismatch {d : Cnd} (hu : Unbound s)
    (hpc : (s.thr t).pc = .waitNull d m ∨ (s.thr t).pc = .waitCas d m)
    (hb : (s.cond d).mutex ≠ none) : Mismatch t s := by
  have hchk : (s.thr t).pc.checking = some (d, m) := by
    rcases hpc with hpc | hpc <;> rw [hpc] <;> rfl
  obtain ⟨m', hm'⟩ := Option.ne_none_iff_exists'.mp hb
  refine (mismatch_iff hchk).mpr ⟨m', hm', ?_⟩
  rintro rfl
  exact hu t d m' hpc hm'

theorem length_snoc {k : ℕ} (hk : k ≤ os.length) : k + 1 ≤ (os ++ [o]).length := by
  rw [List.length_append]
  exact Nat.add_le_add_right hk 1

end

/-- `cond->mutex != mutex` -/
theorem CallPhase.own_waitMutex {pick : Option Thr} {d : Cnd} {m' : Mtx}
    (hpc : (s.thr t).pc = .waitMutex d m')
    (h : CallPhase t m os s.cond (s.thr t).frames (.waitMutex d m'))
    (hs : run s t pick = some (s', es)) :
    CallPhase t m (os ++ [⟨s, s', es⟩]) s'.cond (s'.thr t).frames (s'.thr t).pc := by
  obtain ⟨rfl, hf, he⟩ := h
  have hchk : (s.thr t).pc.checking = some (d, m') := by rw [hpc]; rfl
  simp only [run, hpc] at hs
  split at hs
  · rename_i hb
    cases hs
    have hn : ¬ Mismatch t s := by
      rw [mismatch_iff hchk]
      rintro ⟨m₁, hb₁, hne⟩
      rw [hb] at hb₁
      exact hne (Option.some.inj hb₁).symm
    exact callPhase_setThr ⟨rfl, not_found_snoc hf hn, length_snoc (Nat.zero_le _)⟩
  · cases hs
    refine callPhase_setThr ⟨rfl, he.snoc (untouched_setThr _), ?_⟩
    -- what is bound to another mutex now stays so, for the check for `NULL`
    by_cases hm : Mismatch t s
    · right
      obtain ⟨m₁, hb, -⟩ := (mismatch_iff hchk).mp hm
      have hne : (s.cond d).mutex ≠ none := by
        rw [hb]
        exact Option.some_ne_none m₁
      refine ⟨hne, ?_⟩
      rw [foundAbove_snoc]
      constructor
      · rintro (habove | habove)
        · exact absurd habove.found hf
        · exact habove.2
      · exact fun hfs => .inr ⟨hm, hfs⟩
    · exact .inl (not_found_snoc hf hm)

/-- `cond->mutex != NULL` -/
theorem CallPhase.own_waitNull {pick : Option Thr} {d : Cnd} {m' : Mtx} (hu : Unbound s)
    (hpc : (s.thr t).pc = .waitNull d m')
    (h : CallPhase t m os s.cond (s.thr t).frames (.waitNull d m'))
    (hs : run s t pick = some (s', es)) :
    CallPhase t m (os ++ [⟨s, s', es⟩]) s'.cond (s'.thr t).frames (s'.thr t).pc := by
  obtain ⟨rfl, he, hseen⟩ := h
  simp only [run, hpc] at hs
  split at hs
  · rename_i hnull
    cases hs
    -- unbound: what the first check saw was no mismatch
    have hf : ¬ Found t os := hseen.resolve_right (fun hb => hb.1 hnull)
    have hn : ¬ Mismatch t s := not_mismatch_of_null (m := m') (by rw [hpc]; rfl) hnull
    exact callPhase_setThr ⟨rfl, not_found_snoc hf hn, he.snoc (untouched_setThr _)⟩
  · rename_i hnull
    cases hs
    refine callPhase_setThr (callPhase_refuse (hu.mismatch (.inl hpc) hnull) he ?_)
    intro hfs habove
    rcases hseen with hf | ⟨-, hiff⟩
    · exact hf habove.found
    · exact hiff.mp habove hfs

/-- `atomic_cmpxchg(&(cond->mutex), NULL, mutex)` -/
theorem CallPhase.own_waitCas {pick : Option Thr} {d : Cnd} {m' : Mtx} (hu : Unbound s)
    (hpc : (s.thr t).pc = .waitCas d m')
    (h : CallPhase t m os s.cond (s.thr t).frames (.waitCas d m'))
    (hs : run s t pick = some (s', es)) :
    CallPhase t m (os ++ [⟨s, s', es⟩]) s'.cond (s'.thr t).frames (s'.thr t).pc := by
  obtain ⟨rfl, hf, he⟩ := h
  simp only [run, hpc] at hs
  split at hs
  · rename_i hnull
    cases hs
    have hn : ¬ Mismatch t s := not_mismatch_of_null (m := m') (by rw [hpc]; rfl) hnull
    exact callPhase_setThr ⟨rfl, not_found_snoc hf hn, length_snoc (Nat.zero_le _)⟩
  · rename_i hnull
    cases hs
    refine callPhase_setThr (callPhase_refuse (hu.mismatch (.inr hpc) hnull) he ?_)
    exact fun _ habove => hf habove.found

/-- **One step of the caller.** -/
theorem CallPhase.own {pick : Option Thr} (hu : Unbound s)
    (h : CallPhase t m os s.cond (s.thr t).frames (s.thr t).pc)
    (hret : (s.thr t).pc.returned = false) (hs : run s t pick = some (s', es)) :
    CallPhase t m (os ++ [⟨s, s', es⟩]) s'.cond (s'.thr t).frames (s'.thr t).pc := by
  have hrel : .release t m ∈ ownEvents os → .release t m ∈ ownEvents (os ++ [⟨s, s', es⟩]) := by
    intro hm
    rw [ownEvents_snoc]
    exact List.mem_append_left _ hm
  cases hpc : (s.thr t).pc with
  | waitMutex d m' =>
      rw [hpc] at h
      exact h.own_waitMutex hpc hs
  | waitNull d m' =>
      rw [hpc] at h
      exact h.own_waitNull hu hpc hs
  | waitCas d m' =>
      rw [hpc] at h
      exact h.own_waitCas hu hpc hs
  | waitUseChild d m' =>
      have hn : ¬ Mismatch t s := not_mismatch (by rw [hpc]; rfl)
      rw [hpc] at h
      obtain ⟨rfl, hf, hk⟩ := h
      simp only [run, hpc] at hs
      split at hs
      · split at hs <;> cases hs
        · exact callPhase_setThr ⟨rfl, not_found_snoc hf hn, length_snoc hk⟩
        · exact callPhase_setThr ⟨rfl, not_found_snoc hf hn⟩
      · cases hs
        exact callPhase_setThr ⟨rfl, not_found_snoc hf hn⟩
  | waitSetChild d m' p =>
      have hn : ¬ Mismatch t s := not_mismatch (by rw [hpc]; rfl)
      rw [hpc] at h
      obtain ⟨rfl, hf, hk⟩ := h
      simp only [run, hpc] at hs
      cases hs
      refine callPhase_setThr ⟨rfl, not_found_snoc hf hn, ?_, fun _ => length_snoc hk⟩
      intro hfs
      cases hfs
  | waitSeqLoad d m' =>
      have hn : ¬ Mismatch t s := not_mismatch (by rw [hpc]; rfl)
      rw [hpc] at h
      obtain ⟨rfl, hp⟩ := h
      simp only [run, hpc] at hs
      cases hs
      exact callPhase_setThr ⟨rfl, hp.snoc hn⟩
  | waitSeqStore d m' v =>
      have hn : ¬ Mismatch t s := not_mismatch (by rw [hpc]; rfl)
      rw [hpc] at h
      obtain ⟨rfl, hp⟩ := h
      simp only [run, hpc] at hs
      cases hs
      exact callPhase_setThr ⟨rfl, hp.snoc hn⟩
  | waitRequeue d m' =>
      have hn : ¬ Mismatch t s := not_mismatch (by rw [hpc]; rfl)
      rw [hpc] at h
      obtain ⟨rfl, hp⟩ := h
      simp only [run, hpc, Option.map_eq_some_iff] at hs
      obtain ⟨s₁, -, hs⟩ := hs
      cases hs
      exact callPhase_setThr ⟨rfl, hp.snoc hn⟩
  | waitClearChild d m' =>
      have hn : ¬ Mismatch t s := not_mismatch (by rw [hpc]; rfl)
      rw [hpc] at h
      obtain ⟨rfl, hp⟩ := h
      simp only [run, hpc] at hs
      cases hs
      exact callPhase_setThr
        (callPhase_leave (fun _ => .inr ⟨rfl, hp.snoc hn⟩) (fun _ => hp.snoc hn))
  | waitCurSeq d m' =>
      have hn : ¬ Mismatch t s := not_mismatch (by rw [hpc]; rfl)
      rw [hpc] at h
      obtain ⟨rfl, hf⟩ := h
      simp only [run, hpc] at hs
      cases hs
      exact callPhase_setThr ⟨rfl, not_found_snoc hf hn⟩
  | unlockRead m' k =>
      have hn : ¬ Mismatch t s := not_mismatch (by rw [hpc]; rfl)
      rw [hpc] at h
      cases k with
      | none => exact h.elim
      | some k =>
          obtain ⟨rfl, hf⟩ := h
          simp only [run, hpc] at hs
          split at hs <;> cases hs <;> exact callPhase_setThr ⟨rfl, not_found_snoc hf hn⟩
  | unlockCas m' k =>
      have hn : ¬ Mismatch t s := not_mismatch (by rw [hpc]; rfl)
      rw [hpc] at h
      cases k with
      | none => exact h.elim
      | some k =>
          obtain ⟨rfl, hf⟩ := h
          simp only [run, hpc] at hs
          split at hs <;> cases hs
          · refine callPhase_setThr ⟨rfl, not_found_snoc hf hn, ?_⟩
            rw [ownEvents_snoc]
            exact List.mem_append_right _ (List.mem_singleton_self _)
          · exact callPhase_setThr ⟨rfl, not_found_snoc hf hn⟩
  | unlockAnd m' k =>
      have hn : ¬ Mismatch t s := not_mismatch (by rw [hpc]; rfl)
      rw [hpc] at h
      cases k with
      | none => exact h.elim
      | some k =>
          obtain ⟨rfl, hf⟩ := h
          simp only [run, hpc] at hs
          cases hs
          refine callPhase_setThr (callPhase_pollLoop (not_found_snoc hf hn) ?_ 0)
          rw [ownEvents_snoc]
          exact List.mem_append_right _ (List.mem_singleton_self _)
  | unlockPoll m' k i =>
      have hn : ¬ Mismatch t s := not_mismatch (by rw [hpc]; rfl)
      rw [hpc] at h
      cases k with
      | none => exact h.elim
      | some k =>
          obtain ⟨rfl, hf, hr⟩ := h
          simp only [run, hpc] at hs
          split at hs <;> cases hs
          · exact callPhase_setThr (callPhase_pollLoop (not_found_snoc hf hn) (hrel hr) (i + 1))
          · exact callPhase_setThr ⟨rfl, not_found_snoc hf hn, hrel hr⟩
  | unlockClear m' k =>
      have hn : ¬ Mismatch t s := not_mismatch (by rw [hpc]; rfl)
      rw [hpc] at h
      cases k with
      | none => exact h.elim
      | some k =>
          obtain ⟨rfl, hf, hr⟩ := h
          simp only [run, hpc] at hs
          cases hs
          exact callPhase_setThr ⟨rfl, not_found_snoc hf hn, hrel hr⟩
  | unlockWake m' k =>
      have hn : ¬ Mismatch t s := not_mismatch (by rw [hpc]; rfl)
      rw [hpc] at h
      cases k with
      | none => exact h.elim
      | some k =>
          obtain ⟨rfl, hf, hr⟩ := h
          simp only [run, hpc, Option.map_eq_some_iff] at hs
          obtain ⟨s₁, -, hs⟩ := hs
          cases hs
          exact callPhase_setThr ⟨rfl, not_found_snoc hf hn, hrel hr⟩
  | waitFutex d m' cur =>
      have hn : ¬ Mismatch t s := not_mismatch (by rw [hpc]; rfl)
      rw [hpc] at h
      obtain ⟨rfl, hf, hr⟩ := h
      simp only [run, hpc] at hs
      split at hs <;> cases hs <;> exact callPhase_setThr ⟨rfl, not_found_snoc hf hn, hrel hr⟩
  | mutexWait m' =>
      have hn : ¬ Mismatch t s := not_mismatch (by rw [hpc]; rfl)
      rw [hpc] at h
      obtain ⟨rfl, hf, hr⟩ := h
      simp only [run, hpc] at hs
      split at hs <;> cases hs <;> exact callPhase_setThr ⟨rfl, not_found_snoc hf hn, hrel hr⟩
  -- the mutex is back: from here on the innermost call has `Passed`
  | xchg m' =>
      have hn : ¬ Mismatch t s := not_mismatch (by rw [hpc]; rfl)
      rw [hpc] at h
      obtain ⟨rfl, hf, hr⟩ := h
      simp only [run, hpc] at hs
      split at hs <;> cases hs
      · have hp : Passed t m' (os ++ [⟨s, (s.setMutex m' 3).setThr t
            (((s.thr t).take m').leave m' 0), [.acquire t m']⟩]) := by
          refine .inl ⟨not_found_snoc hf hn, ?_⟩
          rw [ownEvents_snoc]
          exact (List.singleton_sublist.mpr hr).append (List.Sublist.refl [Ev.acquire t m'])
        exact callPhase_setThr (callPhase_leave (fun _ => .inr ⟨rfl, hp⟩) (fun _ => hp))
      · exact callPhase_setThr ⟨rfl, not_found_snoc hf hn, hrel hr⟩
  | ret v =>
      rw [hpc] at hret
      cases hret
  -- a sleeper takes no step of its own
  | asleep q m' => simp [run, hpc] at hs
  | _ =>
      rw [hpc] at h
      exact h.elim

omit [DecidableEq Thr] [Fintype Thr] [DecidableEq Mtx] [DecidableEq Cnd] in
theorem CallPhase.mono {cond cond' : Cnd → FastsyncCond Mtx Cnd} {fs : List Cnd}
    {pc : Pc Mtx Cnd} (h : CallPhase t m os cond fs pc) (hx : Extends cond cond') :
    CallPhase t m os cond' fs pc := by
  cases pc with
  | waitNull d m' =>
      obtain ⟨hm, he, hseen⟩ := h
      refine ⟨hm, he, hseen.imp_right fun hb => ⟨?_, hb.2⟩⟩
      obtain ⟨m₁, hm₁⟩ := Option.ne_none_iff_exists'.mp hb.1
      rw [hx.bound d m₁ hm₁]
      exact Option.some_ne_none m₁
  | unlockRead m' k | unlockCas m' k | unlockAnd m' k => cases k <;> exact h
  | unlockPoll m' k i => cases k <;> exact h
  | unlockClear m' k | unlockWake m' k => cases k <;> exact h
  | _ => exact h

/-- **One step that is not the caller's.** -/
theorem CallPhase.other {a : Act Thr Mtx Cnd} (hl : Local s)
    (h : CallPhase t m os s.cond (s.thr t).frames (s.thr t).pc)
    (hs : step s a = some (s', es)) (ha : a.runs t = false) :
    CallPhase t m os s'.cond (s'.thr t).frames (s'.thr t).pc := by
  have hx := step_extends hs
  have hidle : (s.thr t).pc ≠ .idle := by
    intro hpc
    rw [hpc] at h
    exact h
  generalize hth : s'.thr t = th
  cases hth ▸ step_moved hl hs ha hidle with
  | same => exact h.mono hx
  | woken hpc =>
      rw [hpc] at h
      exact h
  | requeued hpc _ =>
      rw [hpc] at h
      exact h

/-! ## The path as it is when the call is made -/

/-- Before the release of the mutex, with a node ahead that refuses it. -/
def Facing (m : Mtx) (s : State Thr Mtx Cnd) : Pc Mtx Cnd → Prop
  | .waitMutex d _ | .waitNull d _ | .waitCas d _ | .waitUseChild d _ => Refuses m s d
  | .waitSetChild _ _ p => Refuses m s p
  | _ => False

omit [DecidableEq Thr] [Fintype Thr] [DecidableEq Mtx] [DecidableEq Cnd] in
theorem Facing.entering {pc : Pc Mtx Cnd} (h : Facing m s pc) : pc.entering = true := by
  cases pc <;> first | rfl | exact h.elim

omit [DecidableEq Thr] [Fintype Thr] [DecidableEq Mtx] [DecidableEq Cnd] in
theorem Refuses.of_cond {d : Cnd} (h : Refuses m s d) (hc : s'.cond = s.cond) :
    Refuses m s' d := by
  induction h with
  | here hb hne => exact .here (by rw [hc]; exact hb) hne
  | up huse hp _ ih => exact .up (by rw [hc]; exact huse) (by rw [hc]; exact hp) ih

omit [Fintype Thr] [DecidableEq Mtx] [DecidableEq Cnd] in
theorem facing_setThr {th : Thread Mtx Cnd} (h : Facing m (s.setThr t th) th.pc) :
    Facing m (s.setThr t th) ((s.setThr t th).thr t).pc := by
  rw [setThr_thr]
  exact h

/-- What the caller checks refuses it, or it goes on with the rest of the path. -/
theorem Facing.own {pick : Option Thr} (hl : Local s) (hu : Unbound s)
    (h : CallPhase t m os s.cond (s.thr t).frames (s.thr t).pc) (hf : Facing m s (s.thr t).pc)
    (hs : run s t pick = some (s', es)) :
    Found t (os ++ [⟨s, s', es⟩]) ∨ Facing m s' (s'.thr t).pc := by
  have hok := hl t
  rw [ThreadOk] at hok
  -- a check that does not let `t` through has met a mismatch
  have hfound : ∀ {d : Cnd}, (s.thr t).pc.checking = some (d, m) → (s.cond d).mutex ≠ none →
      (s.cond d).mutex ≠ some m → Found t (os ++ [⟨s, s', es⟩]) := by
    intro d hchk hnull hne
    obtain ⟨m₁, hb⟩ := Option.ne_none_iff_exists'.mp hnull
    refine found_snoc.mpr (.inr ((mismatch_iff hchk).mpr ⟨m₁, hb, ?_⟩))
    rintro rfl
    exact hne hb
  cases hpc : (s.thr t).pc with
  | waitMutex d m' =>
      rw [hpc] at h hf
      obtain ⟨rfl, -⟩ := h
      simp only [run, hpc] at hs
      right
      split at hs <;> cases hs
      · exact facing_setThr (hf.of_cond rfl)
      · exact facing_setThr (hf.of_cond rfl)
  | waitNull d m' =>
      rw [hpc] at h hf
      obtain ⟨rfl, -⟩ := h
      have hchk : (s.thr t).pc.checking = some (d, m') := by rw [hpc]; rfl
      simp only [run, hpc] at hs
      split at hs
      · cases hs
        exact .inr (facing_setThr (hf.of_cond rfl))
      · rename_i hnull
        exact .inl (hfound hchk hnull (hu t d m' (.inl hpc)))
  | waitCas d m' =>
      rw [hpc] at h hf
      obtain ⟨rfl, -⟩ := h
      have hchk : (s.thr t).pc.checking = some (d, m') := by rw [hpc]; rfl
      simp only [run, hpc] at hs
      split at hs
      · rename_i hnull
        cases hs
        exact .inr (facing_setThr (hf.bind hnull rfl))
      · rename_i hnull
        exact .inl (hfound hchk hnull (hu t d m' (.inr hpc)))
  | waitUseChild d m' =>
      rw [hpc] at h hf hok
      obtain ⟨rfl, -⟩ := h
      right
      -- `d` is bound to `m` by now, so the refusal lies further up
      cases hf with
      | here hb hne =>
          have hbd : (s.cond d).mutex = some m' := hok.2.2
          rw [hb] at hbd
          exact absurd (Option.some.inj hbd) hne
      | @up _ p huse hp hrest =>
          simp only [run, hpc, huse, hp, if_true] at hs
          cases hs
          exact facing_setThr (hrest.of_cond rfl)
  | waitSetChild d m' p =>
      rw [hpc] at h hf hok
      obtain ⟨rfl, -⟩ := h
      simp only [run, hpc] at hs
      cases hs
      right
      have hrest : Refuses m' s p := hf
      exact facing_setThr (hrest.mark hok.2.2.2 hok.2.2.1 rfl)
  | _ =>
      rw [hpc] at hf
      exact hf.elim

theorem Facing.other {a : Act Thr Mtx Cnd} (hl : Local s) (hx : FutexLock.Inv (view m s))
    (h : CallPhase t m os s.cond (s.thr t).frames (s.thr t).pc) (hf : Facing m s (s.thr t).pc)
    (hs : step s a = some (s', es)) (ha : a.runs t = false) : Facing m s' (s'.thr t).pc := by
  have hok := hl t
  rw [ThreadOk] at hok
  have hidle : (s.thr t).pc ≠ .idle := by
    intro hpc
    rw [hpc] at hf
    exact hf
  have hsame : s'.thr t = s.thr t := by
    generalize hth : s'.thr t = th
    cases hth ▸ step_moved hl hs ha hidle with
    | same => rfl
    | woken hpc =>
        rw [hpc] at hf
        exact hf.elim
    | requeued hpc _ =>
        rw [hpc] at hf
        exact hf.elim
  rw [hsame]
  cases hpc : (s.thr t).pc with
  | waitMutex d m' | waitNull d m' | waitCas d m' | waitUseChild d m' =>
      rw [hpc] at h hf hok
      obtain ⟨rfl, -⟩ := h
      exact Refuses.other hl hx hok.1 hs ha hf
  | waitSetChild d m' p =>
      rw [hpc] at h hf hok
      obtain ⟨rfl, -⟩ := h
      exact Refuses.other hl hx hok.1 hs ha hf
  | _ =>
      rw [hpc] at hf
      exact hf.elim

/-! ## Whole calls -/

/-- A call of `fastsync_cond_wait` on `c`, made in `s₁`. -/
structure InCall (t : Thr) (c : Cnd) (m : Mtx) (s₁ : State Thr Mtx Cnd)
    (os : List (OwnStep Thr Mtx Cnd)) (s : State Thr Mtx Cnd) : Prop where
  phase : CallPhase t m os s.cond (s.thr t).frames (s.thr t).pc
  path : Refuses m s₁ c → Found t os ∨ Facing m s (s.thr t).pc

theorem InCall.step {s₁ : State Thr Mtx Cnd} {os' : List (OwnStep Thr Mtx Cnd)} (hl : Local s)
    (hx : FutexLock.Inv (view m s)) (hu : Unbound s) (h : InCall t c m s₁ os s)
    (hs : Does (callStep t) s os' s') : InCall t c m s₁ (os ++ os') s' := by
  obtain ⟨a, ha⟩ := hs
  rcases callStep_cases ha with ⟨pick, es, hrun, hret, rfl⟩ | ⟨es, hother, hna, rfl⟩
  · refine ⟨h.phase.own hu hret hrun, fun href => ?_⟩
    rcases h.path href with hf | hf
    · exact .inl (found_snoc.mpr (.inl hf))
    · exact hf.own hl hu h.phase hrun
  · rw [List.append_nil]
    refine ⟨h.phase.other hl hother hna, fun href => ?_⟩
    exact (h.path href).imp_right fun hf => hf.other hl hx h.phase hother hna

theorem InCall.enter (hl : Local s)
    (h : Sync.step s (.call t (.wait (some c) (some m))) = some (s', es)) :
    InCall t c m s' [] s' := by
  obtain ⟨hen, rfl, rfl⟩ := step_call h
  have hok := hl t
  rw [ThreadOk, hen.1] at hok
  have hfs : (s.thr t).frames = [] := hok
  constructor
  · apply callPhase_setThr
    refine ⟨rfl, fun hf => ?_, fun _ => ⟨fun o ho => ?_, rfl⟩, fun hne => absurd hfs hne⟩
    · obtain ⟨o, ho, -⟩ := hf
      cases ho
    · cases ho
  · intro href
    exact .inr (facing_setThr href)

theorem Runs.inCall {mem : Mtx → FastsyncMutex} {cond : Cnd → FastsyncCond Mtx Cnd}
    {tr : List (Ev Thr Mtx Cnd)} {s₁ : State Thr Mtx Cnd} (h : Runs mem cond tr s)
    (hcall : step s (.call t (.wait (some c) (some m))) = some (s₁, es))
    (hr : Run (Does (callStep t)) s₁ os s') : InCall t c m s₁ os s' := by
  have hruns₁ : Runs mem cond (tr ++ es) s₁ := h.snoc ⟨_, hcall⟩
  refine Run.invariant (P := InCall t c m s₁) (InCall.enter h.local hcall) ?_ hr
  intro os s os' s' hr' hi hs
  obtain ⟨tr', hlater⟩ := steps_of_call hr'
  have hruns : Runs mem cond (tr ++ es ++ tr') s := hruns₁.append hlater
  exact hi.step hruns.local (hruns.lock m) hruns.unbound hs

omit [DecidableEq Thr] [Fintype Thr] [DecidableEq Mtx] [DecidableEq Cnd] in
/-- Where a call stands that has met a mismatch. -/
theorem CallPhase.of_found {cond : Cnd → FastsyncCond Mtx Cnd} {fs : List Cnd} {pc : Pc Mtx Cnd}
    (h : CallPhase t m os cond fs pc) (hf : Found t os) :
    (∃ d, pc = .waitNull d m ∧ Entered t m os fs 1 ∧ (FoundAbove t os ↔ fs ≠ [])) ∨
    (pc = .ret 2 ∧ (∀ o ∈ os, Untouched t m o) ∧ ¬ FoundAbove t os) ∨
    (pc ≠ .ret 2 ∧ FoundAbove t os ∧ 3 ≤ os.length) := by
  have hpassed : Passed t m os → FoundAbove t os ∧ 3 ≤ os.length :=
    fun hp => hp.resolve_left fun hn => hn.1 hf
  cases pc with
  | waitNull d m' =>
      obtain ⟨rfl, he, hseen⟩ := h
      exact .inl ⟨d, rfl, he, (hseen.resolve_left fun hn => hn hf).2⟩
  | ret v =>
      rcases h with ⟨rfl, hall, hno⟩ | ⟨rfl, hp⟩
      · exact .inr (.inl ⟨rfl, hall, hno⟩)
      · exact .inr (.inr ⟨by simp, hpassed hp⟩)
  | waitMutex d m' | waitCas d m' | waitUseChild d m' | waitSetChild d m' p =>
      exact absurd hf h.2.1
  | waitSeqLoad d m' | waitSeqStore d m' v | waitRequeue d m' | waitClearChild d m' =>
      exact .inr (.inr ⟨by simp, hpassed h.2⟩)
  | waitCurSeq d m' => exact absurd hf h.2
  | unlockRead m' k | unlockCas m' k | unlockAnd m' k =>
      cases k with
      | none => exact h.elim
      | some k => exact absurd hf h.2
  | unlockPoll m' k i =>
      cases k with
      | none => exact h.elim
      | some k => exact absurd hf h.2.1
  | unlockClear m' k | unlockWake m' k =>
      cases k with
      | none => exact h.elim
      | some k => exact absurd hf h.2.1
  | waitFutex d m' cur | asleep d m' | xchg m' | mutexWait m' => exact absurd hf h.2.1
  | _ => exact h.elim

/-- The call is as claimed as long as no nested call has met a mismatch. -/
theorem InCall.ok {s₁ : State Thr Mtx Cnd} (h : InCall t c m s₁ os s)
    (hno : ¬ FoundAbove t os) : CallOk t m os s where
  refused hf := by
    rcases h.phase.of_found hf with ⟨d, hpc, he, hiff⟩ | ⟨hpc, hall, -⟩ | ⟨-, habove, -⟩
    · have hfs : (s.thr t).frames = [] := by
        by_contra hne
        exact hno (hiff.mpr hne)
      obtain ⟨hall, hlen⟩ := he.1 hfs
      refine ⟨hall, .inr ⟨by omega, ?_⟩⟩
      simp only [Sync.step, run, hpc]
      split <;> exact ⟨_, rfl⟩
    · exact ⟨hall, .inl hpc⟩
    · exact absurd habove hno
  released hpc := by
    have hph := h.phase
    rw [hpc] at hph
    rcases hph with ⟨h02, -⟩ | ⟨-, ⟨-, hback⟩ | ⟨habove, -⟩⟩
    · cases h02
    · exact hback
    · exact absurd habove hno

/-- After three steps a call that is refused has returned 2; a nested one is
past that, and does not return 2 at all. -/
theorem InCall.not_ok {s₁ : State Thr Mtx Cnd} (h : InCall t c m s₁ os s)
    (habove : FoundAbove t os) : ¬ CallOk t m os s := by
  intro hok
  have hend := (hok.refused habove.found).2
  rcases h.phase.of_found habove.found with ⟨d, hpc, he, hiff⟩ | ⟨-, -, hno⟩ | ⟨hpc, -, hlen⟩
  -- between the two checks of a nested call: three steps, and no return yet
  · have hlen := he.2 (hiff.mp habove)
    rw [hpc] at hend
    rcases hend with hret | ⟨hlt, -⟩
    · cases hret
    · omega
  · exact hno habove
  · rcases hend with hret | ⟨hlt, -⟩
    · exact hpc hret
    · omega

end Phase

/-! ## The law -/

/-- **A call of `fastsync_cond_wait` is as claimed exactly if no nested call on
a parent meets a mismatch**: the one mutex that does not match and is reported
is that of the condition the user has passed. A node of the path that is bound
to another mutex when the call is made is met before the mutex is released. -/
theorem wait_refused_iff (mem : Mtx → FastsyncMutex) (cond : Cnd → FastsyncCond Mtx Cnd)
    {tr : List (Ev Thr Mtx Cnd)} {s₀ s₁ s : State Thr Mtx Cnd} {t : Thr} {c : Cnd} {m : Mtx}
    {es : List (Ev Thr Mtx Cnd)} {os : List (OwnStep Thr Mtx Cnd)} (h : Runs mem cond tr s₀)
    (hcall : step s₀ (.call t (.wait (some c) (some m))) = some (s₁, es))
    (hr : Run (Does (callStep t)) s₁ os s) :
    (CallOk t m os s ↔ ∀ o ∈ os, ¬ MismatchAbove t o.before) ∧
      (Refuses m s₁ c → (∃ o ∈ os, Mismatch t o.before) ∨ (s.thr t).pc.entering = true) := by
  have hin : InCall t c m s₁ os s := h.inCall hcall hr
  refine ⟨⟨fun hok o ho hm => ?_, fun hno => ?_⟩, fun href => ?_⟩
  · exact hin.not_ok ⟨o, ho, hm⟩ hok
  · apply hin.ok
    rintro ⟨o, ho, hm⟩
    exact hno o ho hm
  · exact (hin.path href).imp_right fun hf => hf.entering

/-- `u` locks `m`, for a call to follow. -/
def takes (u : Fin 2) (m : Bool) : List (Act (Fin 2) Bool (Fin 2)) :=
  [.call u (.lock (some m)), .run u none, .run u none]

/-- Thread 1 has bound the root to a mutex of its own; thread 0 holds the other. -/
def rootTaken : List (Act (Fin 2) Bool (Fin 2)) :=
  takes 1 true ++ [.call 1 (.wait (some 0) (some true)), .run 1 none, .run 1 none, .run 1 none] ++
    takes 0 false

def twoMutexes : Bool → FastsyncMutex := fun _ => ⟨7⟩

/-- Thread 0 waits on the root itself, and is refused. -/
theorem wait_refused_root : ∃ (os : List (OwnStep (Fin 2) Bool (Fin 2)))
    (s : State (Fin 2) Bool (Fin 2)), (s.thr 0).pc = .ret 2 ∧
      (∃ o ∈ os, Mismatch 0 o.before) ∧ CallOk 0 false os s := by
  have hout : (exec step (State.init twoMutexes (treeCond twoNodes) :
      State (Fin 2) Bool (Fin 2)) rootTaken).map (fun p =>
        (step p.1 (.call 0 (.wait (some 0) (some false)))).bind (fun p₁ =>
          (exec (callStep 0) p₁.1 [.run 0 none, .run 0 none]).map (fun p₂ =>
            ((p₁.1.cond 0).mutex, (p₂.1.thr 0).pc,
              p₂.2.map (fun o => (o.before.thr 0).frames))))) =
      some (some (some true, .ret 2, [[], []])) := rfl
  obtain ⟨s₀, tr, hr, hv⟩ := run_of_outcome _ _ hout
  simp only [Option.bind_eq_some_iff, Option.map_eq_some_iff, Prod.exists, Prod.mk.injEq] at hv
  obtain ⟨s₁, es, hcall, s, os, he, hb, hpc, hfs⟩ := hv
  have hlaw := wait_refused_iff twoMutexes (treeCond twoNodes) hr hcall (run_of_exec he)
  have hmet := hlaw.2 (.here hb (by decide))
  rw [hpc] at hmet
  refine ⟨os, s, hpc, hmet.resolve_right (by decide), hlaw.1.mpr ?_⟩
  intro o ho hm
  have hmem : (o.before.thr 0).frames ∈ os.map (fun o => (o.before.thr 0).frames) :=
    List.mem_map_of_mem ho
  rw [hfs] at hmem
  simp at hmem
  exact hm.2 hmem

/-- Thread 0 waits on the node below: the call returns 0, with nothing released. -/
theorem wait_ignores_mismatch_above :
    ¬ ∀ (tr es : List (Ev (Fin 2) Bool (Fin 2))) (s₀ s₁ s : State (Fin 2) Bool (Fin 2))
        (os : List (OwnStep (Fin 2) Bool (Fin 2))),
      Runs twoMutexes (treeCond twoNodes) tr s₀ →
      step s₀ (.call 0 (.wait (some 1) (some false))) = some (s₁, es) →
      Run (Does (callStep 0)) s₁ os s → CallOk 0 false os s := by
  intro hall
  have hout : (exec step (State.init twoMutexes (treeCond twoNodes) :
      State (Fin 2) Bool (Fin 2)) rootTaken).map (fun p =>
        (step p.1 (.call 0 (.wait (some 1) (some false)))).bind (fun p₁ =>
          (exec (callStep 0) p₁.1 (List.replicate 11 (.run 0 none))).map (fun p₂ =>
            ((p₂.1.thr 0).pc, ownEvents p₂.2)))) =
      some (some (.ret 0, [.bump 0 1])) := rfl
  obtain ⟨s₀, tr, hr, hv⟩ := run_of_outcome _ _ hout
  simp only [Option.bind_eq_some_iff, Option.map_eq_some_iff, Prod.exists, Prod.mk.injEq] at hv
  obtain ⟨s₁, es, hcall, s, os, he, hpc, hev⟩ := hv
  have hok := hall tr es s₀ s₁ s os hr hcall (run_of_exec he)
  have hsub := hok.released hpc
  rw [hev] at hsub
  exact absurd hsub.length_le (by decide)

end Reeact.Sync
