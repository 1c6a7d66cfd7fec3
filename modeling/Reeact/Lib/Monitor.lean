import Reeact.Lib.Run
import Mathlib.Logic.Function.Basic
import Mathlib.Tactic.Common

/-!
# A monitor

What mutexes and condition variables are for, as a machine that reads a
record of events: threads that call, acquire, release and return. A mutex has
one holder at most; a call takes effect once, except a wait, which gives its
mutex up and takes it again, unless it is refused. When a waiting thread goes
on is left open, as is which calls there are and which codes they return.

`Effect` is the table of what each call does from its call to its return.
-/

namespace Monitor

open Transition

/-- What a call is about. -/
inductive Op (Mtx : Type*) where
  | lock (m : Mtx)
  | trylock (m : Mtx)
  | unlock (m : Mtx)
  | wait (m : Mtx)
  /-- no mutex -/
  | other
  /-- nothing: the object is missing -/
  | void
deriving DecidableEq, Repr

/-- The calls `κ` of a library, and the codes its functions return. -/
structure Interface (κ Mtx ρ : Type*) where
  op : κ → Op Mtx
  ok : ρ
  busy : ρ
  void : ρ
  refused : ρ

/-- Codes of calls that return without having touched a mutex. No call on a
mutex does. -/
def Interface.AtOnce {κ Mtx ρ : Type*} (I : Interface κ Mtx ρ) (c : κ) (r : ρ) : Prop :=
  match I.op c with
  | .other => r = I.ok
  | .void => r = I.void
  | _ => False

/-- The code of a refused wait: a refusal met further up is not reported. -/
def Interface.refusal {κ Mtx ρ : Type*} (I : Interface κ Mtx ρ) (above : Bool) : ρ :=
  if above then I.ok else I.refused

instance {κ Mtx ρ : Type*} [DecidableEq ρ] (I : Interface κ Mtx ρ) (c : κ) (r : ρ) :
    Decidable (I.AtOnce c r) := by
  unfold Interface.AtOnce
  split <;> infer_instance

inductive Ev (Thr κ Mtx ρ : Type*) where
  | call (t : Thr) (c : κ)
  | acquire (t : Thr) (m : Mtx)
  | release (t : Thr) (m : Mtx)
  /-- the mutex has been found locked -/
  | busy (t : Thr) (m : Mtx)
  /-- the wait with `m` has met another mutex, at its own object or `above` -/
  | refused (t : Thr) (m : Mtx) (above : Bool)
  | ret (t : Thr) (c : κ) (r : ρ)
deriving DecidableEq, Repr

/-- How far a thread has got with its call. -/
inductive Phase (κ ρ : Type*) where
  | idle
  | called (c : κ)
  /-- waiting, the mutex given up -/
  | parked (c : κ)
  | done (c : κ) (r : ρ)
deriving DecidableEq, Repr

structure State (Thr κ Mtx ρ : Type*) where
  holder : Mtx → Option Thr
  phase : Thr → Phase κ ρ

variable {Thr κ Mtx ρ : Type*}

def State.init : State Thr κ Mtx ρ := ⟨fun _ => none, fun _ => .idle⟩

def Ev.thr : Ev Thr κ Mtx ρ → Thr
  | .call t _ | .acquire t _ | .release t _ | .busy t _ | .refused t _ _ | .ret t _ _ => t

section Machine

variable [DecidableEq Thr] [DecidableEq κ] [DecidableEq Mtx] [DecidableEq ρ]
  (I : Interface κ Mtx ρ)

/-- One event of a thread, by its own script. -/
def Phase.next : Phase κ ρ → Ev Thr κ Mtx ρ → Option (Phase κ ρ)
  | .idle, .call _ c => some (.called c)
  | .called c, .acquire _ m =>
      if I.op c = .lock m ∨ I.op c = .trylock m then some (.done c I.ok) else none
  | .called c, .busy _ m => if I.op c = .trylock m then some (.done c I.busy) else none
  | .called c, .release _ m =>
      if I.op c = .unlock m then some (.done c I.ok)
      else if I.op c = .wait m then some (.parked c) else none
  | .called c, .refused _ m above =>
      if I.op c = .wait m then some (.done c (I.refusal above)) else none
  | .called c, .ret _ c' r => if c' = c ∧ I.AtOnce c r then some .idle else none
  | .parked c, .acquire _ m => if I.op c = .wait m then some (.done c I.ok) else none
  | .done c r, .ret _ c' r' => if c' = c ∧ r' = r then some .idle else none
  | _, _ => none

/-- What the holders of the mutexes allow: unlocking and waiting are for the
holder. -/
def Ev.Allowed (holder : Mtx → Option Thr) : Ev Thr κ Mtx ρ → Prop
  | .call t c =>
      match I.op c with
      | .unlock m | .wait m => holder m = some t
      | _ => True
  | .acquire _ m => holder m = none
  | .release t m | .refused t m _ => holder m = some t
  | .busy _ m => holder m ≠ none
  | .ret _ _ _ => True

instance (holder : Mtx → Option Thr) (e : Ev Thr κ Mtx ρ) : Decidable (e.Allowed I holder) := by
  cases e with
  | call t c =>
      unfold Ev.Allowed
      simp only
      split <;> infer_instance
  | acquire t m => exact inferInstanceAs (Decidable (holder m = none))
  | release t m => exact inferInstanceAs (Decidable (holder m = some t))
  | busy t m => exact inferInstanceAs (Decidable (holder m ≠ none))
  | refused t m above => exact inferInstanceAs (Decidable (holder m = some t))
  | ret t c r => exact inferInstanceAs (Decidable True)

def Ev.holders (holder : Mtx → Option Thr) : Ev Thr κ Mtx ρ → Mtx → Option Thr
  | .acquire t m => Function.update holder m (some t)
  | .release _ m => Function.update holder m none
  | _ => holder

/-- The machine reads one event. -/
def next (s : State Thr κ Mtx ρ) (e : Ev Thr κ Mtx ρ) :
    Option (State Thr κ Mtx ρ × List (Ev Thr κ Mtx ρ)) :=
  if e.Allowed I s.holder then
    ((s.phase e.thr).next I e).map
      (fun ph => (⟨e.holders s.holder, Function.update s.phase e.thr ph⟩, [e]))
  else none

/-- The machine accepts the record, and is then in the state. -/
abbrev Accepts : List (Ev Thr κ Mtx ρ) → State Thr κ Mtx ρ → Prop :=
  Run (Does (next I)) .init

variable {I} {s s' : State Thr κ Mtx ρ} {e : Ev Thr κ Mtx ρ} {ph : Phase κ ρ}

theorem does_next (ha : e.Allowed I s.holder) (hp : (s.phase e.thr).next I e = some ph) :
    Does (next I) s [e] ⟨e.holders s.holder, Function.update s.phase e.thr ph⟩ := by
  refine ⟨e, ?_⟩
  rw [next, if_pos ha, hp]
  rfl

theorem next_cases {es : List (Ev Thr κ Mtx ρ)} (h : next I s e = some (s', es)) :
    es = [e] ∧ e.Allowed I s.holder ∧ ∃ ph, (s.phase e.thr).next I e = some ph ∧
      s' = ⟨e.holders s.holder, Function.update s.phase e.thr ph⟩ := by
  rw [next] at h
  split at h
  · rename_i ha
    obtain ⟨ph, hp, hs⟩ := Option.map_eq_some_iff.mp h
    cases hs
    exact ⟨rfl, ha, ph, hp, rfl⟩
  · cases h

/-! ## One thread's part -/

/-- What `t` has done. -/
def own (t : Thr) (tr : List (Ev Thr κ Mtx ρ)) : List (Ev Thr κ Mtx ρ) :=
  tr.filter (fun e => e.thr = t)

/-- Each thread follows its script. -/
theorem script {tr : List (Ev Thr κ Mtx ρ)} (h : Run (Does (next I)) s tr s') (t : Thr) :
    (own t tr).foldlM (Phase.next I) (s.phase t) = some (s'.phase t) := by
  induction h with
  | nil => rfl
  | @snoc tr s₁ es s₂ _ hs ih =>
      obtain ⟨e, he⟩ := hs
      obtain ⟨rfl, -, ph, hp, rfl⟩ := next_cases he
      rw [own, List.filter_append, List.foldlM_append]
      rw [own] at ih
      rw [ih]
      by_cases ht : e.thr = t
      · subst ht
        simp [hp]
      · simp [ht, Function.update_of_ne (Ne.symm ht)]

/-- What a call of `t` does to the mutexes between its start and its return. -/
inductive Effect (I : Interface κ Mtx ρ) (t : Thr) (c : κ) : ρ → List (Ev Thr κ Mtx ρ) → Prop
  | lock {m : Mtx} : I.op c = .lock m → Effect I t c I.ok [.acquire t m]
  | trylock {m : Mtx} : I.op c = .trylock m → Effect I t c I.ok [.acquire t m]
  | busy {m : Mtx} : I.op c = .trylock m → Effect I t c I.busy [.busy t m]
  | unlock {m : Mtx} : I.op c = .unlock m → Effect I t c I.ok [.release t m]
  | wait {m : Mtx} : I.op c = .wait m → Effect I t c I.ok [.release t m, .acquire t m]
  | refused {m : Mtx} {above : Bool} :
      I.op c = .wait m → Effect I t c (I.refusal above) [.refused t m above]
  | atOnce {r : ρ} : I.AtOnce c r → Effect I t c r []

section Effects

variable {t : Thr} {c c' : κ} {r r' : ρ} {es : List (Ev Thr κ Mtx ρ)} {ph' : Phase κ ρ}

section

omit [DecidableEq Thr]

/-- Outside a call there is nothing but a call. -/
theorem fold_idle (hf : es.foldlM (Phase.next I) .idle = some ph)
    (hcall : ∀ d u, .call u d ∉ es) : es = [] ∧ ph = .idle := by
  cases es with
  | nil =>
      cases hf
      exact ⟨rfl, rfl⟩
  | cons e es =>
      cases e with
      | call u d => exact absurd List.mem_cons_self (hcall d u)
      | _ => cases hf

/-- Once the call has taken effect it returns. -/
theorem fold_done (hf : es.foldlM (Phase.next I) (.done c r) = some ph)
    (hcall : ∀ d u, .call u d ∉ es) (hret : ph.next I (.ret t c' r' : Ev Thr κ Mtx ρ) = some ph') :
    es = [] ∧ c' = c ∧ r' = r := by
  cases es with
  | nil =>
      cases hf
      rw [Phase.next] at hret
      split at hret
      · rename_i h
        exact ⟨rfl, h⟩
      · cases hret
  | cons e es =>
      cases e with
      | ret u d v =>
          rw [List.foldlM_cons, Phase.next] at hf
          split at hf
          · obtain ⟨-, rfl⟩ := fold_idle hf
              (fun d u hm => hcall d u (List.mem_cons_of_mem _ hm))
            cases hret
          · cases hf
      | _ => cases hf

/-- A mutex given up has to be taken again. -/
theorem fold_parked (hf : es.foldlM (Phase.next I) (.parked c) = some ph)
    (hown : ∀ e ∈ es, e.thr = t) (hcall : ∀ d u, .call u d ∉ es)
    (hret : ph.next I (.ret t c' r : Ev Thr κ Mtx ρ) = some ph') :
    ∃ m, I.op c = .wait m ∧ es = [.acquire t m] ∧ c' = c ∧ r = I.ok := by
  cases es with
  | nil =>
      cases hf
      cases hret
  | cons e es =>
      have het := hown e List.mem_cons_self
      rw [List.foldlM_cons] at hf
      cases e with
      | acquire u m =>
          obtain rfl : u = t := het
          rw [Phase.next] at hf
          split at hf
          · rename_i hop
            obtain ⟨rfl, rfl, rfl⟩ := fold_done hf
              (fun d u hm => hcall d u (List.mem_cons_of_mem _ hm)) hret
            exact ⟨m, hop, rfl, rfl, rfl⟩
          · cases hf
      | _ => cases hf

/-- The table is complete. -/
theorem effect_of_fold (hf : es.foldlM (Phase.next I) (.called c) = some ph)
    (hown : ∀ e ∈ es, e.thr = t) (hcall : ∀ d u, .call u d ∉ es)
    (hret : ph.next I (.ret t c' r : Ev Thr κ Mtx ρ) = some ph') :
    c' = c ∧ Effect I t c r es := by
  cases es with
  | nil =>
      cases hf
      rw [Phase.next] at hret
      split at hret
      · rename_i h
        exact ⟨h.1, .atOnce h.2⟩
      · cases hret
  | cons e es =>
      have het := hown e List.mem_cons_self
      have htail : ∀ d u, .call u d ∉ es := fun d u hm => hcall d u (List.mem_cons_of_mem _ hm)
      rw [List.foldlM_cons] at hf
      cases e with
      | call u d => exact absurd List.mem_cons_self (hcall d u)
      | ret u d v =>
          rw [Phase.next] at hf
          split at hf
          · obtain ⟨-, rfl⟩ := fold_idle hf htail
            cases hret
          · cases hf
      | acquire u m =>
          obtain rfl : u = t := het
          rw [Phase.next] at hf
          split at hf
          · rename_i hop
            obtain ⟨rfl, rfl, rfl⟩ := fold_done hf htail hret
            rcases hop with hop | hop
            · exact ⟨rfl, .lock hop⟩
            · exact ⟨rfl, .trylock hop⟩
          · cases hf
      | busy u m =>
          obtain rfl : u = t := het
          rw [Phase.next] at hf
          split at hf
          · rename_i hop
            obtain ⟨rfl, rfl, rfl⟩ := fold_done hf htail hret
            exact ⟨rfl, .busy hop⟩
          · cases hf
      | refused u m above =>
          obtain rfl : u = t := het
          rw [Phase.next] at hf
          split at hf
          · rename_i hop
            obtain ⟨rfl, rfl, rfl⟩ := fold_done hf htail hret
            exact ⟨rfl, .refused hop⟩
          · cases hf
      | release u m =>
          obtain rfl : u = t := het
          rw [Phase.next] at hf
          split at hf
          · rename_i hop
            obtain ⟨rfl, rfl, rfl⟩ := fold_done hf htail hret
            exact ⟨rfl, .unlock hop⟩
          · split at hf
            · rename_i hop
              obtain ⟨m', hop', rfl, rfl, rfl⟩ := fold_parked hf
                (fun e he => hown e (List.mem_cons_of_mem _ he)) htail hret
              obtain rfl : m = m' := Op.wait.inj (hop.symm.trans hop')
              exact ⟨rfl, .wait hop⟩
            · cases hf

end

/-- **Every call does what the table says**, between its start and its return. -/
theorem effect_of_accepts {tr₁ tr₂ tr₃ : List (Ev Thr κ Mtx ρ)}
    (h : Accepts I (tr₁ ++ .call t c :: tr₂ ++ .ret t c' r :: tr₃) s)
    (hcall : ∀ d, .call t d ∉ tr₂) : c' = c ∧ Effect I t c r (own t tr₂) := by
  have hs := script h t
  simp only [own, List.filter_append, List.filter_cons, Ev.thr, decide_true, if_true,
    List.foldlM_append, List.foldlM_cons, Option.bind_eq_bind, Option.bind_eq_some_iff] at hs
  obtain ⟨ph₂, ⟨ph₁, -, ph, hph, htr₂⟩, ph₃, hret, -⟩ := hs
  have hphase : ph = .called c := by
    cases ph₁ <;> cases hph
    rfl
  rw [hphase] at htr₂
  refine effect_of_fold htr₂ (fun e he => ?_) (fun d u hm => ?_) hret
  · simpa using (List.mem_filter.mp he).2
  · obtain ⟨hm', ht⟩ := List.mem_filter.mp hm
    obtain rfl : u = t := of_decide_eq_true ht
    exact hcall d hm'

end Effects

end Machine

end Monitor
