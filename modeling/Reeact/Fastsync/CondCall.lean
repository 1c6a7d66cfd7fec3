import Reeact.Fastsync.CondTree

/-!
# fastsync_cond_wait — one call, step by step

A call among the steps of all threads: `callStep` records the steps the
caller takes itself, with the states before and after. The path that the call
follows is that of the parents while `use_child` is 0; a node of it that is
bound to another mutex stays there until the call meets it.
-/

namespace Reeact.Sync

open Transition

variable {Thr Mtx Cnd : Type} [DecidableEq Thr] [Fintype Thr] [DecidableEq Mtx]
  [DecidableEq Cnd]

/-! ## The steps of a call -/

/-- A step the caller has taken. -/
structure OwnStep (Thr Mtx Cnd : Type) where
  before : State Thr Mtx Cnd
  after : State Thr Mtx Cnd
  events : List (Ev Thr Mtx Cnd)

def Act.runs (t : Thr) : Act Thr Mtx Cnd → Bool
  | .run u _ => u = t
  | _ => false

def Pc.returned : Pc Mtx Cnd → Bool
  | .ret _ => true
  | _ => false

/-- A step of any thread while the call of `t` lasts. -/
def callStep (t : Thr) (s : State Thr Mtx Cnd) (a : Act Thr Mtx Cnd) :
    Option (State Thr Mtx Cnd × List (OwnStep Thr Mtx Cnd)) :=
  if a.runs t && (s.thr t).pc.returned then none
  else (step s a).map (fun r => (r.1, if a.runs t then [⟨s, r.1, r.2⟩] else []))

section Step

variable {s s' : State Thr Mtx Cnd} {t : Thr} {a : Act Thr Mtx Cnd} {es : List (Ev Thr Mtx Cnd)}
  {os : List (OwnStep Thr Mtx Cnd)} {c : Cnd} {m : Mtx}

theorem callStep_cases (h : callStep t s a = some (s', os)) :
    (∃ pick es, run s t pick = some (s', es) ∧ (s.thr t).pc.returned = false ∧
      os = [⟨s, s', es⟩]) ∨
    ∃ es, step s a = some (s', es) ∧ a.runs t = false ∧ os = [] := by
  unfold callStep at h
  split at h
  · cases h
  · rename_i hret
    simp only [Option.map_eq_some_iff] at h
    obtain ⟨⟨s₁, es⟩, hs, h⟩ := h
    cases h
    cases hr : a.runs t with
    | false => exact .inr ⟨es, hs, rfl, rfl⟩
    | true =>
        cases a with
        | run u pick =>
            have hut : u = t := by simpa [Act.runs] using hr
            subst hut
            refine .inl ⟨pick, es, hs, ?_, rfl⟩
            simpa [hr] using hret
        | call u c => cases hr
        | spurious u => cases hr

theorem callStep_step (h : callStep t s a = some (s', os)) : ∃ es, step s a = some (s', es) := by
  unfold callStep at h
  split at h
  · cases h
  · simp only [Option.map_eq_some_iff] at h
    obtain ⟨⟨s₁, es⟩, hs, h⟩ := h
    cases h
    exact ⟨es, hs⟩

/-- What goes on during a call is part of a run. -/
theorem steps_of_call (h : Run (Does (callStep t)) s os s') : ∃ tr, Run (Does step) s tr s' := by
  induction h with
  | nil => exact ⟨[], .nil⟩
  | snoc _ hs ih =>
      obtain ⟨tr, hr⟩ := ih
      obtain ⟨a, ha⟩ := hs
      obtain ⟨es, he⟩ := callStep_step ha
      exact ⟨tr ++ es, hr.snoc ⟨a, he⟩⟩

/-! ## What other steps leave -/

omit [Fintype Thr] [DecidableEq Mtx] in
theorem CondEffect.extends (h : CondEffect s t s' es) : Extends s.cond s'.cond := by
  cases h with
  | quiet _ hc _ _ =>
      rw [hc]
      exact .refl _
  | @bind c m _ hnull hs =>
      subst hs
      exact extends_update (v := { s.cond c with mutex := some m }) (.inr hnull) rfl
  | @mark c p m _ hs =>
      subst hs
      exact extends_update (v := { s.cond c with useChild := 1 }) (.inl rfl) rfl
  | snap _ hs =>
      subst hs
      exact .refl _
  | load _ hs =>
      subst hs
      exact .refl _
  | @store c m v _ hs =>
      subst hs
      exact extends_update (v := { s.cond c with seq := v + 1 }) (.inl rfl) rfl
  | @clear c m _ hs =>
      subst hs
      exact extends_update (v := { s.cond c with useChild := 0 }) (.inl rfl) rfl
  | @add c pc _ hs =>
      subst hs
      exact extends_update (v := { s.cond c with seq := (s.cond c).seq + 1 }) (.inl rfl) rfl

/-- A step that is not a thread's own leaves the conditions alone. -/
theorem step_cond (h : step s a = some (s', es)) :
    (∃ u pick, a = .run u pick ∧ CondEffect s u s' es) ∨ s'.cond = s.cond := by
  cases a with
  | run u pick => exact .inl ⟨u, pick, rfl, run_cond h⟩
  | spurious u =>
      obtain ⟨-, rfl, rfl⟩ := step_spurious h
      exact .inr (wake_cond s u)
  | call u c =>
      obtain ⟨-, rfl, rfl⟩ := step_call h
      exact .inr rfl

theorem step_extends (h : step s a = some (s', es)) : Extends s.cond s'.cond := by
  rcases step_cond h with ⟨u, pick, -, he⟩ | hc
  · exact he.extends
  · rw [hc]
    exact .refl _

/-- The flag is set in one place. -/
theorem step_useChild (h : step s a = some (s', es)) (h0 : (s.cond c).useChild = 0)
    (h1 : (s'.cond c).useChild ≠ 0) :
    ∃ u pick m p, a = .run u pick ∧ (s.thr u).pc = .waitSetChild c m p := by
  have hat : ∀ {d : Cnd} (v : FastsyncCond Mtx Cnd), s'.cond = Function.update s.cond d v →
      (c = d → v.useChild = 0) → False := by
    intro d v hc hv
    rw [hc] at h1
    by_cases hcd : c = d
    · subst hcd
      rw [Function.update_self] at h1
      exact h1 (hv rfl)
    · rw [Function.update_of_ne hcd] at h1
      exact h1 h0
  rcases step_cond h with ⟨u, pick, rfl, he⟩ | hc
  · cases he with
    | quiet _ hc _ _ =>
        rw [hc] at h1
        exact absurd h0 h1
    | @bind d m _ _ hs =>
        subst hs
        exact (hat { s.cond d with mutex := some m } rfl (fun e => e ▸ h0)).elim
    | @mark d p m hpc hs =>
        by_cases hcd : c = d
        · subst hcd
          exact ⟨u, pick, m, p, rfl, hpc⟩
        · subst hs
          exact (hat { s.cond d with useChild := 1 } rfl (fun e => absurd e hcd)).elim
    | snap _ hs =>
        subst hs
        exact absurd h0 h1
    | load _ hs =>
        subst hs
        exact absurd h0 h1
    | @store d m v _ hs =>
        subst hs
        exact (hat { s.cond d with seq := v + 1 } rfl (fun e => e ▸ h0)).elim
    | @clear d m _ hs =>
        subst hs
        exact (hat { s.cond d with useChild := 0 } rfl (fun _ => rfl)).elim
    | @add d pc _ hs =>
        subst hs
        exact (hat { s.cond d with seq := (s.cond d).seq + 1 } rfl (fun e => e ▸ h0)).elim
  · rw [hc] at h1
    exact absurd h0 h1

/-- A thread inside a call, between its own steps. -/
theorem step_moved (hl : Local s) (h : step s a = some (s', es)) (ha : a.runs t = false)
    (ht : (s.thr t).pc ≠ .idle) : Moved s.cond (s.thr t) (s'.thr t) := by
  cases a with
  | run u pick =>
      have hut : t ≠ u := by
        rintro rfl
        simp [Act.runs] at ha
      exact run_moved hl h hut
  | spurious u =>
      obtain ⟨-, rfl, rfl⟩ := step_spurious h
      exact wake_thr s u t
  | call u c =>
      obtain ⟨hen, rfl, rfl⟩ := step_call h
      have hut : t ≠ u := by
        rintro rfl
        exact ht hen.1
      simp only [State.setThr, Function.update_of_ne hut]
      exact .same

/-! ## Whoever may bind -/

/-- Nobody about to bind a condition finds it bound to its own mutex. -/
def Unbound (s : State Thr Mtx Cnd) : Prop :=
  ∀ t d m, (s.thr t).pc.Binds d m → (s.cond d).mutex ≠ some m

omit [DecidableEq Thr] [Fintype Thr] [DecidableEq Mtx] [DecidableEq Cnd] in
theorem Local.binds (hl : Local s) {d : Cnd} (h : (s.thr t).pc.Binds d m) :
    (s.thr t).held m = true := by
  have hok := hl t
  rw [ThreadOk] at hok
  rcases h with h | h
  · rw [h] at hok
    exact hok.1
  · rw [h] at hok
    exact hok.1

omit [DecidableEq Mtx] [DecidableEq Cnd] in
theorem Moved.binds {cond : Cnd → FastsyncCond Mtx Cnd} {th th' : Thread Mtx Cnd}
    (h : Moved cond th th') {d : Cnd} (hb : th'.pc.Binds d m) : th.pc.Binds d m := by
  rcases hb with hb | hb
  · exact .inl (h.eq_of_pc hb trivial ▸ hb)
  · exact .inr (h.eq_of_pc hb trivial ▸ hb)

theorem Unbound.step (hl : Local s) (hx : ∀ m, FutexLock.Inv (view m s)) (h : Unbound s)
    (hs : step s a = some (s', es)) : Unbound s' := by
  intro t d m hb
  by_cases hrun : ∃ pick, a = .run t pick
  · obtain ⟨pick, rfl⟩ := hrun
    obtain ⟨hc, hne⟩ := (run_cond hs).fits hb
    rw [hc]
    exact hne
  · have hold : (s.thr t).pc.Binds d m := by
      cases a with
      | run u pick =>
          have hut : t ≠ u := by
            rintro rfl
            exact hrun ⟨pick, rfl⟩
          exact (run_moved hl hs hut).binds hb
      | spurious u =>
          obtain ⟨-, rfl, rfl⟩ := step_spurious hs
          exact (wake_thr s u t).binds hb
      | call u call =>
          obtain ⟨-, rfl, rfl⟩ := step_call hs
          by_cases hut : t = u
          · subst hut
            simp only [State.setThr, Function.update_self] at hb
            exact absurd hb ((plain_entry call).not_binds d m)
          · simp only [State.setThr, Function.update_of_ne hut] at hb
            exact hb
    intro hm
    rcases step_cond hs with ⟨u, pick, rfl, he⟩ | hc
    · rcases he.cond with hc | ⟨d', v, hc, -, -, hv⟩
      · rw [hc] at hm
        exact h t d m hold hm
      · rw [hc] at hm
        by_cases hdd : d = d'
        · subst hdd
          rw [Function.update_self] at hm
          rcases hv with hv | ⟨m', hpc, hv⟩
          · rw [hv] at hm
            exact h t d m hold hm
          · -- the other one binds `d` to a mutex it holds
            rw [hv] at hm
            cases hm
            have hut := (hx m).unique u t (hl.binds (.inr hpc)) (hl.binds hold)
            exact hrun ⟨pick, by rw [hut]⟩
        · rw [Function.update_of_ne hdd] at hm
          exact h t d m hold hm
    · rw [hc] at hm
      exact h t d m hold hm

theorem Runs.unbound {mem : Mtx → FastsyncMutex} {cond : Cnd → FastsyncCond Mtx Cnd}
    {tr : List (Ev Thr Mtx Cnd)} (h : Runs mem cond tr s) : Unbound s := by
  refine Run.invariant (P := fun _ s => Unbound s) ?_ ?_ h
  · rintro t d m (hb | hb) <;> cases hb
  · intro tr s es s' hr hu hs
    obtain ⟨a, ha⟩ := hs
    exact hu.step (Runs.local hr) (Runs.lock hr) ha

/-! ## The path of a call -/

/-- Some node on the path that `fastsync_cond_wait` follows from a condition,
with `m`, is bound to another mutex. -/
inductive Refuses (m : Mtx) (s : State Thr Mtx Cnd) : Cnd → Prop
  | here {c : Cnd} {m' : Mtx} : (s.cond c).mutex = some m' → m' ≠ m → Refuses m s c
  | up {c p : Cnd} : (s.cond c).useChild = 0 → (s.cond c).parent = some p → Refuses m s p →
      Refuses m s c

/-- Other threads bind more nodes, and take a node of the path only with
another mutex. -/
theorem Refuses.other (hl : Local s) (hx : FutexLock.Inv (view m s)) (hm : (s.thr t).held m = true)
    (hs : step s a = some (s', es)) (ha : a.runs t = false) (h : Refuses m s c) :
    Refuses m s' c := by
  have hext := step_extends hs
  induction h with
  | here hb hne => exact .here (hext.bound _ _ hb) hne
  | @up c p huse hp _ ih =>
      by_cases huse' : (s'.cond c).useChild = 0
      · exact .up huse' ((hext.parent c).trans hp) ih
      · obtain ⟨u, pick, m', p', rfl, hpc⟩ := step_useChild hs huse huse'
        have hok := hl u
        rw [ThreadOk, hpc] at hok
        refine .here (hext.bound c m' hok.2.2.1) ?_
        rintro rfl
        have hut := hx.unique u t hok.1 hm
        simp [Act.runs, hut] at ha

omit [DecidableEq Thr] [Fintype Thr] [DecidableEq Mtx] in
/-- The caller binds a node. -/
theorem Refuses.bind (hnull : (s.cond c).mutex = none) {d : Cnd} (h : Refuses m s d)
    (hc : s'.cond = Function.update s.cond c { s.cond c with mutex := some m }) :
    Refuses m s' d := by
  induction h with
  | @here d m' hb hne =>
      have hdc : d ≠ c := by
        rintro rfl
        rw [hnull] at hb
        cases hb
      refine .here ?_ hne
      rw [hc, Function.update_of_ne hdc]
      exact hb
  | @up d p huse hp _ ih =>
      have hsame : (s'.cond d).useChild = (s.cond d).useChild ∧
          (s'.cond d).parent = (s.cond d).parent := by
        rw [hc]
        by_cases hdc : d = c
        · subst hdc
          rw [Function.update_self]
          exact ⟨rfl, rfl⟩
        · rw [Function.update_of_ne hdc]
          exact ⟨rfl, rfl⟩
      exact .up (hsame.1.trans huse) (hsame.2.trans hp) ih

omit [DecidableEq Thr] [Fintype Thr] [DecidableEq Mtx] in
/-- The caller flags a node of its own and goes on to the parent: the rest of
the path does not come back to that node. -/
theorem Refuses.mark {p : Cnd} (hp : (s.cond c).parent = some p) (hb : (s.cond c).mutex = some m)
    (h : Refuses m s p)
    (hc : s'.cond = Function.update s.cond c { s.cond c with useChild := 1 }) :
    Refuses m s' p := by
  have hwalk : ∀ d, Refuses m s d → Refuses m s' d ∨ Refuses m s' p := by
    intro d hd
    induction hd with
    | @here d m' hbd hne =>
        have hdc : d ≠ c := by
          rintro rfl
          rw [hb] at hbd
          exact hne (Option.some.inj hbd).symm
        refine .inl (.here ?_ hne)
        rw [hc, Function.update_of_ne hdc]
        exact hbd
    | @up d q huse hq _ ih =>
        by_cases hdc : d = c
        · subst hdc
          rw [hp] at hq
          cases hq
          exact .inr (ih.elim id id)
        · rcases ih with ih | ih
          · have hsame : s'.cond d = s.cond d := by rw [hc, Function.update_of_ne hdc]
            exact .inl (.up (by rw [hsame]; exact huse) (by rw [hsame]; exact hq) ih)
          · exact .inr ih
  exact (hwalk p h).elim id id

end Step

end Reeact.Sync
