import Mathlib.Data.BitVec
import Mathlib.Logic.Function.Basic
import Mathlib.Tactic.Common

/-!
# A lock word with a futex queue

One 32-bit word — bit 0 LOCKED, bit 1 CONTENDED — shared by any number of
threads. A thread takes the lock by setting bit 0, or by exchanging the word
for 3; it gives it up by a compare-and-swap from 1, or by clearing bit 0 and
then, unless the lock has been taken meanwhile, clearing bit 1 and waking one
sleeper. Sleepers may also be moved in from another queue, if one of them is
woken. Which code performs these steps, and what else it does, is left open:
a thread is described by its ROLE alone.

`Inv` gives mutual exclusion and, for every sleeper, somebody who keeps it
from being forgotten (`Inv.sleeper`).
-/

namespace FutexLock

/-- Where a thread is with respect to the lock. -/
inductive Role where
  /-- anywhere else: it may hold the lock, or be about to try it -/
  | away
  /-- about to exchange the word for 3 -/
  | exchanging
  /-- it has cleared bit 0, and not yet bit 1 -/
  | releasing
  /-- it has cleared bit 1, and is about to wake one sleeper -/
  | waking
  /-- asleep in the queue of the word -/
  | parked
deriving DecidableEq, Repr

structure State (Thr : Type*) where
  word : BitVec 32
  held : Thr → Bool
  role : Thr → Role

variable {Thr : Type*} [DecidableEq Thr]

namespace State

def setRole (s : State Thr) (t : Thr) (r : Role) : State Thr :=
  { s with role := Function.update s.role t r }

def setWord (s : State Thr) (w : BitVec 32) : State Thr := { s with word := w }

def setHeld (s : State Thr) (t : Thr) (b : Bool) : State Thr :=
  { s with held := Function.update s.held t b }

/-- `u` is woken in another queue and the threads of `S` are moved here. -/
def requeue (s : State Thr) (u : Thr) (S : Thr → Bool) : State Thr :=
  { s with role := fun v => if v = u then .exchanging else if S v then .parked else s.role v }

@[simp] theorem setRole_word (s : State Thr) (t : Thr) (r : Role) :
    (s.setRole t r).word = s.word := rfl

@[simp] theorem setRole_held (s : State Thr) (t : Thr) (r : Role) :
    (s.setRole t r).held = s.held := rfl

@[simp] theorem setRole_self (s : State Thr) (t : Thr) (r : Role) :
    (s.setRole t r).role t = r := Function.update_self ..

theorem setRole_ne (s : State Thr) {t u : Thr} (r : Role) (h : u ≠ t) :
    (s.setRole t r).role u = s.role u := Function.update_of_ne h ..

section

omit [DecidableEq Thr]

@[simp] theorem setWord_word (s : State Thr) (w : BitVec 32) : (s.setWord w).word = w := rfl

@[simp] theorem setWord_held (s : State Thr) (w : BitVec 32) : (s.setWord w).held = s.held := rfl

@[simp] theorem setWord_role (s : State Thr) (w : BitVec 32) : (s.setWord w).role = s.role := rfl

end

@[simp] theorem setHeld_word (s : State Thr) (t : Thr) (b : Bool) :
    (s.setHeld t b).word = s.word := rfl

@[simp] theorem setHeld_role (s : State Thr) (t : Thr) (b : Bool) :
    (s.setHeld t b).role = s.role := rfl

@[simp] theorem setHeld_self (s : State Thr) (t : Thr) (b : Bool) :
    (s.setHeld t b).held t = b := Function.update_self ..

theorem setHeld_ne (s : State Thr) {t u : Thr} (b : Bool) (h : u ≠ t) :
    (s.setHeld t b).held u = s.held u := Function.update_of_ne h ..

theorem setRole_eq_self (s : State Thr) {t : Thr} {r : Role} (h : s.role t = r) :
    s.setRole t r = s := by
  subst h
  simp only [setRole, Function.update_eq_self]

theorem setHeld_eq_self (s : State Thr) {t : Thr} {b : Bool} (h : s.held t = b) :
    s.setHeld t b = s := by
  subst h
  simp only [setHeld, Function.update_eq_self]

end State

inductive Step (s : State Thr) : State Thr → Prop
  /-- the fetch-or finds the lock free -/
  | take (t : Thr) : s.role t = .away → s.word &&& 1 = 0 →
      Step s ((s.setWord (s.word ||| 1)).setHeld t true)
  /-- the fetch-or finds it taken -/
  | busy (t : Thr) (r : Role) : s.role t = .away → s.word &&& 1 ≠ 0 →
      r = .away ∨ r = .exchanging → Step s ((s.setWord (s.word ||| 1)).setRole t r)
  | arrive (t : Thr) : s.role t = .away → Step s (s.setRole t .exchanging)
  /-- the exchange finds the lock free -/
  | exchange (t : Thr) : s.role t = .exchanging → s.word &&& 1 = 0 →
      Step s (((s.setWord 3).setHeld t true).setRole t .away)
  /-- the exchange finds it taken -/
  | contend (t : Thr) : s.role t = .exchanging → s.word &&& 1 ≠ 0 →
      Step s ((s.setWord 3).setRole t .away)
  | park (t : Thr) : s.role t = .away → s.word = 3 → Step s (s.setRole t .parked)
  | unpark (t : Thr) : s.role t = .parked → Step s (s.setRole t .exchanging)
  | cas (t : Thr) : s.held t = true → s.role t = .away → s.word = 1 →
      Step s ((s.setWord 0).setHeld t false)
  | drop (t : Thr) : s.held t = true → s.role t = .away →
      Step s (((s.setWord (s.word &&& 0xFFFFFFFE)).setHeld t false).setRole t .releasing)
  /-- the lock has been taken since: the new holder owes the wake -/
  | handed (t : Thr) : s.role t = .releasing → s.word &&& 1 ≠ 0 → Step s (s.setRole t .away)
  | clear (t : Thr) : s.role t = .releasing →
      Step s ((s.setWord (s.word &&& 0xFFFFFFFD)).setRole t .waking)
  | wake (t u : Thr) : s.role t = .waking → s.role u = .parked →
      Step s ((s.setRole u .exchanging).setRole t .away)
  | wakeNone (t : Thr) : s.role t = .waking → (∀ u, s.role u ≠ .parked) →
      Step s (s.setRole t .away)
  | requeue (u : Thr) (S : Thr → Bool) : s.role u = .away → (∀ v, S v = true → s.role v = .away) →
      Step s (s.requeue u S)

/-- Somebody who will exchange 3 into the word, or wake a sleeper. -/
def Owing (s : State Thr) : Prop := ∃ u, s.role u = .exchanging ∨ s.role u = .waking

structure Inv (s : State Thr) : Prop where
  word : s.word = 0 ∨ s.word = 1 ∨ s.word = 2 ∨ s.word = 3
  locked : s.word &&& 1 ≠ 0 ↔ ∃ t, s.held t = true
  unique : ∀ t u, s.held t = true → s.held u = true → t = u
  parked : ∀ t, s.role t = .parked → s.word = 2 ∨ s.word = 3 ∨ Owing s
  contended : s.word = 2 → ∃ u, s.role u = .releasing

omit [DecidableEq Thr] in
theorem Inv.init : Inv (⟨0, fun _ => false, fun _ => .away⟩ : State Thr) where
  word := .inl rfl
  locked := by simp
  unique := by simp
  parked := by simp
  contended := by simp

/-! ## One step -/

section Steps

variable {s s' : State Thr} {t : Thr}

section

omit [DecidableEq Thr]

theorem Inv.not_held (h : Inv s) (hw : s.word &&& 1 = 0) (u : Thr) : s.held u = false := by
  cases hu : s.held u with
  | false => rfl
  | true => exact absurd hw (h.locked.mpr ⟨u, hu⟩)

/-- The lock is free: the word is 0 or 2. -/
theorem Inv.word_free (h : Inv s) (hw : s.word &&& 1 = 0) : s.word = 0 ∨ s.word = 2 := by
  rcases h.word with hw' | hw' | hw' | hw'
  · exact .inl hw'
  · rw [hw'] at hw
    exact absurd hw (by decide)
  · exact .inr hw'
  · rw [hw'] at hw
    exact absurd hw (by decide)

theorem Inv.word_taken (h : Inv s) (hw : s.word &&& 1 ≠ 0) : s.word = 1 ∨ s.word = 3 := by
  rcases h.word with hw' | hw' | hw' | hw'
  · rw [hw'] at hw
    exact absurd (by decide) hw
  · exact .inl hw'
  · rw [hw'] at hw
    exact absurd (by decide) hw
  · exact .inr hw'

end

/-- Whoever holds the lock after a free word is the thread that took it. -/
theorem Inv.held_taken (h : Inv s) (hw : s.word &&& 1 = 0) (w : BitVec 32) {u : Thr}
    (hu : ((s.setWord w).setHeld t true).held u = true) : u = t := by
  by_contra hne
  rw [State.setHeld_ne _ _ hne, State.setWord_held, h.not_held hw u] at hu
  cases hu

theorem Inv.held_dropped (h : Inv s) (ht : s.held t = true) (w : BitVec 32) (u : Thr) :
    ((s.setWord w).setHeld t false).held u = false := by
  by_cases hu : u = t
  · subst hu
    exact State.setHeld_self ..
  · rw [State.setHeld_ne _ _ hu, State.setWord_held]
    cases hh : s.held u with
    | false => rfl
    | true => exact absurd (h.unique u t hh ht) hu

omit [DecidableEq Thr] in
/-- A thread that owed something and changes its role leaves the others as
they were. -/
theorem Owing.of_ne (hs : ∀ u, u ≠ t → s'.role u = s.role u)
    (ht : s.role t ≠ .exchanging ∧ s.role t ≠ .waking) (h : Owing s) : Owing s' := by
  obtain ⟨u, hu⟩ := h
  have hut : u ≠ t := by
    intro e
    subst e
    rcases hu with hu | hu
    · exact ht.1 hu
    · exact ht.2 hu
  exact ⟨u, by rw [hs u hut]; exact hu⟩

/-- One thread changes its role, the word stays. -/
theorem Inv.setRole (h : Inv s) {r : Role}
    (hrel : s.word = 2 → s.role t = .releasing → r = .releasing)
    (hpark : r = .parked → s.word = 3)
    (howe : s.role t = .exchanging ∨ s.role t = .waking → Owing (s.setRole t r) ∨
      s.word = 2 ∨ s.word = 3 ∨ ∀ u, s.role u ≠ .parked) : Inv (s.setRole t r) where
  word := h.word
  locked := h.locked
  unique := h.unique
  parked u hu := by
    by_cases hut : u = t
    · subst hut
      rw [State.setRole_self] at hu
      exact .inr (.inl (hpark hu))
    · rw [State.setRole_ne _ _ hut] at hu
      -- what `t` owed is still owed, or no longer needed
      by_cases ht : s.role t = .exchanging ∨ s.role t = .waking
      · rcases howe ht with ho | hw | hw | hnone
        · exact .inr (.inr ho)
        · exact .inl hw
        · exact .inr (.inl hw)
        · exact absurd hu (hnone u)
      · rcases h.parked u hu with hw | hw | ho
        · exact .inl hw
        · exact .inr (.inl hw)
        · exact .inr (.inr (ho.of_ne (fun v hv => State.setRole_ne s r hv) (not_or.mp ht)))
  contended hw := by
    obtain ⟨u, hu⟩ := h.contended hw
    by_cases hut : u = t
    · subst hut
      exact ⟨u, by rw [State.setRole_self]; exact hrel hw hu⟩
    · exact ⟨u, by rw [State.setRole_ne _ _ hut]; exact hu⟩

theorem Inv.take (h : Inv s) (hw : s.word &&& 1 = 0) :
    Inv ((s.setWord (s.word ||| 1)).setHeld t true) := by
  have hfree := h.word_free hw
  constructor
  · rcases hfree with hw' | hw' <;> simp [hw']
  · constructor
    · intro _
      exact ⟨t, State.setHeld_self ..⟩
    · intro _
      rcases hfree with hw' | hw' <;> simp [hw']
  · intro u v hu hv
    rw [h.held_taken hw _ hu, h.held_taken hw _ hv]
  · intro u hu
    rcases h.parked u hu with hw' | hw' | ho
    · exact .inr (.inl (by simp [hw']))
    · rw [hw'] at hw
      exact absurd hw (by decide)
    · exact .inr (.inr ho)
  · intro hw'
    rcases hfree with h0 | h0 <;> simp [h0] at hw'

theorem Inv.busy (h : Inv s) (hw : s.word &&& 1 ≠ 0) {r : Role} (ht : s.role t = .away)
    (hr : r = .away ∨ r = .exchanging) : Inv ((s.setWord (s.word ||| 1)).setRole t r) := by
  have hsame : s.word ||| 1 = s.word := by
    rcases h.word_taken hw with hw' | hw' <;> simp [hw']
  rw [hsame]
  refine h.setRole (s := s) ?_ ?_ ?_
  · simp [ht]
  · intro e
    rcases hr with hr | hr <;> rw [hr] at e <;> cases e
  · simp [ht]

/-- The exchange leaves the word contended whoever holds the lock. -/
theorem Inv.exchange (h : Inv s) (hw : s.word &&& 1 = 0) :
    Inv (((s.setWord 3).setHeld t true).setRole t .away) := by
  constructor
  · exact .inr (.inr (.inr rfl))
  · constructor
    · intro _
      exact ⟨t, State.setHeld_self ..⟩
    · intro _
      simp
  · intro u v hu hv
    rw [h.held_taken hw _ hu, h.held_taken hw _ hv]
  · intro u _
    exact .inr (.inl rfl)
  · intro hw'
    simp at hw'

theorem Inv.contend (h : Inv s) (hw : s.word &&& 1 ≠ 0) :
    Inv ((s.setWord 3).setRole t .away) := by
  constructor
  · exact .inr (.inr (.inr rfl))
  · constructor
    · intro _
      exact h.locked.mp hw
    · intro _
      simp
  · exact h.unique
  · intro u _
    exact .inr (.inl rfl)
  · intro hw'
    simp at hw'

theorem Inv.cas (h : Inv s) (ht : s.held t = true) (hw : s.word = 1) :
    Inv ((s.setWord 0).setHeld t false) := by
  constructor
  · exact .inl rfl
  · constructor
    · intro hne
      simp at hne
    · rintro ⟨u, hu⟩
      rw [h.held_dropped ht] at hu
      cases hu
  · intro u v hu
    rw [h.held_dropped ht] at hu
    cases hu
  · intro u hu
    -- the word was 1, so a sleeper has somebody else who owes it the wake
    rcases h.parked u hu with hw' | hw' | ho
    · simp [hw] at hw'
    · simp [hw] at hw'
    · exact .inr (.inr ho)
  · intro hw'
    simp at hw'

theorem Inv.drop (h : Inv s) (ht : s.held t = true) (haway : s.role t = .away) :
    Inv (((s.setWord (s.word &&& 0xFFFFFFFE)).setHeld t false).setRole t .releasing) := by
  have htaken := h.word_taken (h.locked.mpr ⟨t, ht⟩)
  constructor
  · rcases htaken with hw | hw <;> simp [hw]
  · constructor
    · intro hne
      rcases htaken with hw | hw <;> simp [hw] at hne
    · rintro ⟨u, hu⟩
      rw [State.setRole_held, h.held_dropped ht] at hu
      cases hu
  · intro u v hu
    rw [State.setRole_held, h.held_dropped ht] at hu
    cases hu
  · intro u hu
    -- 0xFFFFFFFE takes 3 to 2: the mark stays for the sleepers
    have hut : u ≠ t := by
      intro e
      subst e
      simp at hu
    rw [State.setRole_ne _ _ hut] at hu
    rcases h.parked u hu with hw | hw | ho
    · rcases htaken with hw' | hw' <;> simp [hw'] at hw
    · exact .inl (by simp [hw])
    · exact .inr (.inr (ho.of_ne (fun v hv => State.setRole_ne _ _ hv) (by simp [haway])))
  · intro _
    exact ⟨t, State.setRole_self ..⟩

/-- The contended bit is cleared, possibly under a later owner: from here on
the wake is owed. -/
theorem Inv.clear (h : Inv s) :
    Inv ((s.setWord (s.word &&& 0xFFFFFFFD)).setRole t .waking) := by
  constructor
  · rcases h.word with hw | hw | hw | hw <;> simp [hw]
  · rw [State.setRole_held, State.setWord_held, ← h.locked]
    rcases h.word with hw | hw | hw | hw <;> simp [hw]
  · exact h.unique
  · intro u _
    exact .inr (.inr ⟨t, .inr (State.setRole_self ..)⟩)
  · intro hw'
    rcases h.word with hw | hw | hw | hw <;> simp [hw] at hw'

theorem Inv.wake (h : Inv s) {u : Thr} (ht : s.role t = .waking) (hu : s.role u = .parked) :
    Inv ((s.setRole u .exchanging).setRole t .away) := by
  have hut : u ≠ t := by
    intro e
    subst e
    rw [ht] at hu
    cases hu
  have h1 : Inv (s.setRole u .exchanging) :=
    h.setRole (fun _ hr => by rw [hu] at hr; cases hr) (by simp) (by simp [hu])
  have ht1 : (s.setRole u .exchanging).role t = .waking := by
    rw [State.setRole_ne _ _ (Ne.symm hut)]
    exact ht
  -- the thread that was woken now owes an exchange
  refine h1.setRole (fun _ hr => by rw [ht1] at hr; cases hr) (by simp) (fun _ => .inl ?_)
  exact ⟨u, .inl (by rw [State.setRole_ne _ _ hut, State.setRole_self])⟩

theorem Inv.requeue (h : Inv s) {u : Thr} {S : Thr → Bool} (hu : s.role u = .away)
    (hS : ∀ v, S v = true → s.role v = .away) : Inv (s.requeue u S) where
  word := h.word
  locked := h.locked
  unique := h.unique
  parked _ _ := .inr (.inr ⟨u, .inl (by simp [State.requeue])⟩)
  contended hw := by
    obtain ⟨v, hv⟩ := h.contended hw
    refine ⟨v, ?_⟩
    have hvu : v ≠ u := by
      intro e
      subst e
      rw [hu] at hv
      cases hv
    have hvS : ¬ S v = true := by
      intro e
      rw [hS v e] at hv
      cases hv
    simp only [State.requeue, if_neg hvu, if_neg hvS]
    exact hv

/-- **Every step keeps the invariant.** -/
theorem Inv.step (h : Inv s) (hs : Step s s') : Inv s' := by
  cases hs with
  | take t _ hw => exact h.take hw
  | busy t r ht hw hr => exact h.busy hw ht hr
  | arrive t ht => exact h.setRole (by simp [ht]) (by simp) (by simp [ht])
  | exchange t _ hw => exact h.exchange hw
  | contend t _ hw => exact h.contend hw
  | park t ht hw => exact h.setRole (by simp [ht]) (fun _ => hw) (by simp [ht])
  | unpark t ht => exact h.setRole (by simp [ht]) (by simp) (by simp [ht])
  | cas t ht _ hw => exact h.cas ht hw
  | drop t ht haway => exact h.drop ht haway
  | handed t ht hw =>
      refine h.setRole (fun hw' => ?_) (by simp) (by simp [ht])
      rw [hw'] at hw
      exact absurd (by decide) hw
  | clear t _ => exact h.clear
  | wake t u ht hu => exact h.wake ht hu
  | wakeNone t ht hnone =>
      exact h.setRole (by simp [ht]) (by simp) (fun _ => .inr (.inr (.inr hnone)))
  | requeue u S hu hS => exact h.requeue hu hS

end Steps

/-! ## What the invariant says -/

omit [DecidableEq Thr] in
/-- **No sleeper is forgotten**: the word is 3 and somebody holds the lock, or
a thread is in the middle of giving it up, or of waking a sleeper, or is
about to exchange 3 into the word. -/
theorem Inv.sleeper {s : State Thr} (h : Inv s) {t : Thr} (ht : s.role t = .parked) :
    (s.word = 3 ∧ ∃ u, s.held u = true) ∨ (s.word = 2 ∧ ∃ u, s.role u = .releasing) ∨
      (∃ u, s.role u = .waking) ∨ ∃ u, s.role u = .exchanging := by
  rcases h.parked t ht with hw | hw | ⟨u, hu | hu⟩
  · exact .inr (.inl ⟨hw, h.contended hw⟩)
  · exact .inl ⟨hw, h.locked.mp (by simp [hw])⟩
  · exact .inr (.inr (.inr ⟨u, hu⟩))
  · exact .inr (.inr (.inl ⟨u, hu⟩))

end FutexLock
