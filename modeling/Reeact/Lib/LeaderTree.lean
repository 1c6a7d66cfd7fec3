import Mathlib.Data.List.Basic
import Mathlib.Logic.Function.Basic
import Mathlib.Logic.Relation
import Mathlib.Tactic.Common

/-!
# Waiting in a tree of queues, led by the first

Threads wait for an event at the nodes of a tree. The first thread at a node
flags it and goes on to the parent, with the node on its PATH; those that
find the flag set wait at the node itself. A thread that is released at some
node releases the nodes of its path one after the other, down to where it
came from. All decisions are taken under one lock (`Excl`: no two threads in
a LOCKED phase); a thread gives the lock up between its snapshot of the
node's sequence number and its sleep, and a sequence number that moves in
between makes the snapshot STALE: the thread will not sleep.

What the sequence numbers are, and how the lock works, is left open.
-/

namespace LeaderTree

structure Tree (Node : Type*) where
  parent : Node → Option Node
  root : Node
  depth : Node → ℕ
  parent_eq_none : ∀ c, parent c = none ↔ c = root
  depth_parent : ∀ c p, parent c = some p → depth p < depth c

inductive Phase (Node : Type*) where
  /-- not waiting: elsewhere, or out of the queues and not yet back in the
  lock to release its path -/
  | free
  /-- in a call on `c`, nothing decided -/
  | climb (c : Node)
  /-- found `c` without a flag and with a parent -/
  | mark (c : Node)
  /-- found `c` flagged, or the root -/
  | snap (c : Node)
  /-- between the snapshot at `c` and the sleep -/
  | window (c : Node) (released fresh : Bool)
  | asleep (c : Node)
  /-- releasing `c`: at the read of the sequence number, at its store, -/
  | load (c : Node)
  | store (c : Node)
  /-- at the wake of the sleepers, and at the clearing of the flag -/
  | requeue (c : Node)
  | unmark (c : Node)
deriving DecidableEq, Repr

structure Thread (Node : Type*) where
  phase : Phase Node
  path : List Node
deriving DecidableEq, Repr

structure State (Thr Node : Type*) where
  flag : Node → Bool
  thr : Thr → Thread Node

variable {Thr Node : Type*} [DecidableEq Thr]

/-- The next node of the path, if any, is released. -/
def finish : List Node → Thread Node
  | [] => ⟨.free, []⟩
  | d :: ds => ⟨.load d, ds⟩

namespace Thread

/-- The thread must hold the lock. -/
def Locked (th : Thread Node) : Prop :=
  match th.phase with
  | .climb _ | .mark _ | .snap _ | .window _ false _ | .load _ | .store _ | .requeue _
  | .unmark _ => True
  | _ => False

/-- In a call, and has not given up the lock. -/
def Climbing (th : Thread Node) : Prop :=
  match th.phase with
  | .climb _ | .mark _ | .snap _ | .window _ false _ => True
  | _ => False

/-- Waiting at `c`, the lock given up. -/
def WaitsAt (th : Thread Node) (c : Node) : Prop :=
  match th.phase with
  | .asleep c' | .window c' true _ => c' = c
  | _ => False

/-- Out of the queues for good, as far as one call goes. -/
def Done (th : Thread Node) : Prop :=
  match th.phase with
  | .free | .load _ | .store _ | .requeue _ | .unmark _ => True
  | _ => False

/-- About to go to sleep in vain: the sequence number has moved. -/
def Stale (th : Thread Node) : Prop :=
  match th.phase with
  | .window _ true false => True
  | _ => False

/-- Asleep at `c`, or bound to sleep there unless the sequence number moves. -/
def Fresh (th : Thread Node) (c : Node) : Prop :=
  match th.phase with
  | .asleep c' | .window c' _ true => c' = c
  | _ => False

/-- Between setting and clearing the flag of `n`. -/
def Branch (th : Thread Node) (n : Node) : Prop :=
  n ∈ th.path ∨ th.phase = .load n ∨ th.phase = .store n ∨ th.phase = .requeue n ∨
    th.phase = .unmark n

/-- Waiting on behalf of `n`, or released and yet to move its sequence number. -/
def Leads (th : Thread Node) (n : Node) : Prop :=
  (n ∈ th.path ∧ ¬ th.Climbing) ∨ th.phase = .load n ∨ th.phase = .store n

/-- Waiting, or on the way out of a wait: nothing is left to decide. -/
def Settled (th : Thread Node) : Prop :=
  match th.phase with
  | .climb _ | .mark _ | .snap _ => False
  | .free => th.path ≠ []
  | _ => True

/-- The sequence number of `c` has moved. -/
def staled [DecidableEq Node] (c : Node) (th : Thread Node) : Thread Node :=
  match th.phase with
  | .window c' r _ => if c' = c then { th with phase := .window c' r false } else th
  | _ => th

/-- The sleepers of `c` have been woken, or moved to the queue of the lock. -/
def woken [DecidableEq Node] (c : Node) (th : Thread Node) : Thread Node :=
  match th.phase with
  | .asleep c' => if c' = c then { th with phase := .free } else th
  | _ => th

theorem Leads.branch {th : Thread Node} {n : Node} (h : th.Leads n) : th.Branch n := by
  rcases h with h | h | h
  · exact .inl h.1
  · exact .inr (.inl h)
  · exact .inr (.inr (.inl h))

theorem Climbing.locked {th : Thread Node} (h : th.Climbing) : th.Locked := by
  rcases th with ⟨phase, path⟩
  cases phase with
  | window c r f =>
      cases r with
      | true => exact h.elim
      | false => exact trivial
  | climb c => exact trivial
  | mark c => exact trivial
  | snap c => exact trivial
  | _ => exact h.elim

theorem Climbing.not_done {th : Thread Node} (h : th.Climbing) : ¬ th.Done := by
  rcases th with ⟨phase, path⟩
  intro hd
  cases phase <;> first | exact h.elim | exact hd.elim

/-- A thread of the branch of `n` that does not hold the lock leads `n`. -/
theorem Branch.leads {th : Thread Node} {n : Node} (h : th.Branch n) (hl : ¬ th.Locked) :
    th.Leads n := by
  have hno : ∀ {p : Phase Node}, (⟨p, th.path⟩ : Thread Node).Locked → th.phase ≠ p := by
    intro p hp e
    exact hl (by rw [← e] at hp; exact hp)
  rcases h with h | h | h | h | h
  · exact .inl ⟨h, fun hc => hl hc.locked⟩
  · exact absurd h (hno trivial)
  · exact absurd h (hno trivial)
  · exact absurd h (hno trivial)
  · exact absurd h (hno trivial)

end Thread

@[simp] theorem finish_branch (ds : List Node) (n : Node) :
    (finish ds).Branch n ↔ n ∈ ds := by
  cases ds <;> simp [finish, Thread.Branch, or_comm, eq_comm]

theorem finish_leads (ds : List Node) (n : Node) : (finish ds).Leads n ↔ n ∈ ds := by
  cases ds <;> simp [finish, Thread.Leads, Thread.Climbing, or_comm, eq_comm]

theorem finish_done (ds : List Node) : (finish ds).Done := by
  cases ds <;> exact trivial

theorem finish_not_fresh (ds : List Node) (c : Node) : ¬ (finish ds).Fresh c := by
  cases ds <;> exact id

namespace State

def setThr (s : State Thr Node) (t : Thr) (th : Thread Node) : State Thr Node :=
  { s with thr := Function.update s.thr t th }

def setFlag [DecidableEq Node] (s : State Thr Node) (c : Node) (b : Bool) : State Thr Node :=
  { s with flag := Function.update s.flag c b }

def stale [DecidableEq Node] (s : State Thr Node) (c : Node) : State Thr Node :=
  { s with thr := fun u => (s.thr u).staled c }

def wakeAll [DecidableEq Node] (s : State Thr Node) (c : Node) : State Thr Node :=
  { s with thr := fun u => (s.thr u).woken c }

@[simp] theorem setThr_self (s : State Thr Node) (t : Thr) (th : Thread Node) :
    (s.setThr t th).thr t = th := Function.update_self ..

theorem setThr_ne (s : State Thr Node) {t u : Thr} (th : Thread Node) (h : u ≠ t) :
    (s.setThr t th).thr u = s.thr u := Function.update_of_ne h ..

theorem setThr_eq_self (s : State Thr Node) {t : Thr} {th : Thread Node} (h : s.thr t = th) :
    s.setThr t th = s := by
  subst h
  simp only [setThr, Function.update_eq_self]

@[simp] theorem setThr_flag (s : State Thr Node) (t : Thr) (th : Thread Node) :
    (s.setThr t th).flag = s.flag := rfl

/-- To wake one sleeper of `c` first makes no difference. -/
theorem wakeAll_setThr [DecidableEq Node] (s : State Thr Node) {u : Thr} {c : Node}
    (hu : (s.thr u).phase = .asleep c) :
    (s.setThr u ⟨.free, (s.thr u).path⟩).wakeAll c = s.wakeAll c := by
  have hthr : ((s.setThr u ⟨.free, (s.thr u).path⟩).wakeAll c).thr = (s.wakeAll c).thr := by
    funext v
    show ((s.setThr u ⟨.free, (s.thr u).path⟩).thr v).woken c = (s.thr v).woken c
    by_cases hv : v = u
    · subst hv
      rw [setThr_self]
      simp only [Thread.woken, hu, if_true]
    · rw [setThr_ne _ _ hv]
  calc (s.setThr u ⟨.free, (s.thr u).path⟩).wakeAll c
      = ⟨s.flag, ((s.setThr u ⟨.free, (s.thr u).path⟩).wakeAll c).thr⟩ := rfl
    _ = s.wakeAll c := by rw [hthr]; rfl

end State

variable (T : Tree Node)

inductive Step [DecidableEq Node] (s : State Thr Node) : State Thr Node → Prop
  | enter (t : Thr) (c : Node) : s.thr t = ⟨.free, []⟩ → Step s (s.setThr t ⟨.climb c, []⟩)
  | first (t : Thr) (c p : Node) (ds : List Node) : s.thr t = ⟨.climb c, ds⟩ →
      s.flag c = false → T.parent c = some p → Step s (s.setThr t ⟨.mark c, ds⟩)
  | later (t : Thr) (c : Node) (ds : List Node) : s.thr t = ⟨.climb c, ds⟩ →
      s.flag c = true ∨ T.parent c = none → Step s (s.setThr t ⟨.snap c, ds⟩)
  | mark (t : Thr) (c p : Node) (ds : List Node) : s.thr t = ⟨.mark c, ds⟩ →
      T.parent c = some p → Step s ((s.setFlag c true).setThr t ⟨.climb p, c :: ds⟩)
  | snap (t : Thr) (c : Node) (ds : List Node) : s.thr t = ⟨.snap c, ds⟩ →
      Step s (s.setThr t ⟨.window c false true, ds⟩)
  | release (t : Thr) (c : Node) (f : Bool) (ds : List Node) :
      s.thr t = ⟨.window c false f, ds⟩ → Step s (s.setThr t ⟨.window c true f, ds⟩)
  | sleep (t : Thr) (c : Node) (ds : List Node) : s.thr t = ⟨.window c true true, ds⟩ →
      Step s (s.setThr t ⟨.asleep c, ds⟩)
  /-- the sleep is refused -/
  | pass (t : Thr) (c : Node) (f : Bool) (ds : List Node) :
      s.thr t = ⟨.window c true f, ds⟩ → Step s (s.setThr t ⟨.free, ds⟩)
  | wake (t : Thr) (c : Node) (ds : List Node) : s.thr t = ⟨.asleep c, ds⟩ →
      Step s (s.setThr t ⟨.free, ds⟩)
  | wakeAll (c : Node) : Step s (s.wakeAll c)
  /-- somebody moves the sequence number of `c` -/
  | signal (c : Node) : Step s (s.stale c)
  /-- back in the lock -/
  | resume (t : Thr) (ds : List Node) : s.thr t = ⟨.free, ds⟩ → Step s (s.setThr t (finish ds))
  | load (t : Thr) (c : Node) (ds : List Node) : s.thr t = ⟨.load c, ds⟩ →
      Step s (s.setThr t ⟨.store c, ds⟩)
  | bump (t : Thr) (c : Node) (ds : List Node) : s.thr t = ⟨.store c, ds⟩ →
      Step s ((s.stale c).setThr t ⟨.requeue c, ds⟩)
  | requeue (t : Thr) (c : Node) (ds : List Node) : s.thr t = ⟨.requeue c, ds⟩ →
      Step s ((s.wakeAll c).setThr t ⟨.unmark c, ds⟩)
  | unmark (t : Thr) (c : Node) (ds : List Node) : s.thr t = ⟨.unmark c, ds⟩ →
      Step s ((s.setFlag c false).setThr t (finish ds))

variable {T}

/-! ## Paths -/

/-- The path leads up to `c`, node by node. -/
def Linked (T : Tree Node) : Node → List Node → Prop
  | _, [] => True
  | c, d :: ds => T.parent d = some c ∧ Linked T d ds

/-- The path starts somewhere below the root. -/
def Hangs (T : Tree Node) : List Node → Prop
  | [] => True
  | d :: ds => T.parent d ≠ none ∧ Linked T d ds

def PathOk (T : Tree Node) (th : Thread Node) : Prop :=
  match th.phase with
  | .free => Hangs T th.path
  | .climb c | .mark c | .snap c | .window c _ _ | .asleep c => Linked T c th.path
  | .load c | .store c | .requeue c | .unmark c => Hangs T (c :: th.path)

theorem Linked.depth_lt {c d : Node} {ds : List Node} (h : Linked T c ds) (hd : d ∈ ds) :
    T.depth c < T.depth d := by
  induction ds generalizing c with
  | nil => cases hd
  | cons d' ds ih =>
      have h1 := T.depth_parent d' c h.1
      rcases List.mem_cons.mp hd with rfl | hd
      · exact h1
      · exact Nat.lt_trans h1 (ih h.2 hd)

theorem Linked.not_mem {c : Node} {ds : List Node} (h : Linked T c ds) : c ∉ ds :=
  fun hc => Nat.lt_irrefl _ (h.depth_lt hc)

theorem Linked.parent_ne {c d : Node} {ds : List Node} (h : Linked T c ds) (hd : d ∈ ds) :
    T.parent d ≠ none := by
  induction ds generalizing c with
  | nil => cases hd
  | cons d' ds ih =>
      rcases List.mem_cons.mp hd with rfl | hd
      · rw [h.1]
        exact Option.some_ne_none c
      · exact ih h.2 hd

theorem Linked.hangs {c : Node} {ds : List Node} (h : Linked T c ds) : Hangs T ds := by
  cases ds with
  | nil => exact trivial
  | cons d ds => exact ⟨h.parent_ne List.mem_cons_self, h.2⟩

theorem Hangs.parent_ne {d : Node} {ds : List Node} (h : Hangs T ds) (hd : d ∈ ds) :
    T.parent d ≠ none := by
  cases ds with
  | nil => cases hd
  | cons d' ds =>
      rcases List.mem_cons.mp hd with rfl | hd
      · exact h.1
      · exact h.2.parent_ne hd

theorem pathOk_finish {ds : List Node} (h : Hangs T ds) : PathOk T (finish ds) := by
  cases ds with
  | nil => exact h
  | cons d ds => exact h

/-- The root has no leader. -/
theorem PathOk.parent_ne {th : Thread Node} {n : Node} (h : PathOk T th) (hb : th.Branch n) :
    T.parent n ≠ none := by
  rcases th with ⟨phase, ds⟩
  have hno : ∀ {p : Phase Node}, (⟨phase, ds⟩ : Thread Node).phase = p → PathOk T ⟨p, ds⟩ := by
    intro p e
    rw [← e]
    exact h
  rcases hb with hm | hp | hp | hp | hp
  · cases phase with
    | free => exact Hangs.parent_ne h hm
    | load c => exact h.2.parent_ne hm
    | store c => exact h.2.parent_ne hm
    | requeue c => exact h.2.parent_ne hm
    | unmark c => exact h.2.parent_ne hm
    | _ => exact Linked.parent_ne h hm
  · exact (hno hp).1
  · exact (hno hp).1
  · exact (hno hp).1
  · exact (hno hp).1

/-! ## The invariant -/

/-- No two threads are in a phase that needs the lock. -/
def Excl (s : State Thr Node) : Prop :=
  ∀ t u, (s.thr t).Locked → (s.thr u).Locked → t = u

/-- The decisions taken at a node still fit its flag. -/
def FlagOk (T : Tree Node) (flag : Node → Bool) (th : Thread Node) : Prop :=
  match th.phase with
  | .mark c => flag c = false
  | .snap c => flag c = true ∨ T.parent c = none
  | _ => True

/-- `t` keeps `u`, who is bound to `c`, from being forgotten. -/
def Covers (tht thu : Thread Node) (c : Node) : Prop :=
  tht.Leads c ∨ (thu.phase = .asleep c ∧ tht.phase = .requeue c)

structure Inv (T : Tree Node) (s : State Thr Node) : Prop where
  flag_iff : ∀ n, s.flag n = true ↔ ∃ t, (s.thr t).Branch n
  unique : ∀ n t u, (s.thr t).Branch n → (s.thr u).Branch n → t = u
  path : ∀ t, PathOk T (s.thr t)
  flagOk : ∀ t, FlagOk T s.flag (s.thr t)
  cover : ∀ u c, (s.thr u).Fresh c → T.parent c ≠ none →
    ∃ t, Covers (s.thr t) (s.thr u) c

omit [DecidableEq Thr] in
theorem Inv.init (T : Tree Node) :
    Inv T (⟨fun _ => false, fun _ => ⟨.free, []⟩⟩ : State Thr Node) where
  flag_iff n := by simp [Thread.Branch]
  unique n t u h := by simp [Thread.Branch] at h
  path t := trivial
  flagOk t := trivial
  cover u c h := h.elim

theorem Covers.branch {tht thu : Thread Node} {c : Node} (h : Covers tht thu c) :
    tht.Branch c := by
  rcases h with h | ⟨-, h⟩
  · exact h.branch
  · exact .inr (.inr (.inr (.inl h)))

section Update

variable {s : State Thr Node} {t : Thr} {th : Thread Node} {f : Node → Bool}

/-- One thread moves, and perhaps a flag with it. -/
theorem Inv.update (h : Inv T s)
    (hflag : ∀ n, f n = true ↔ th.Branch n ∨ ∃ u, u ≠ t ∧ (s.thr u).Branch n)
    (huniq : ∀ n u, u ≠ t → th.Branch n → ¬ (s.thr u).Branch n) (hpath : PathOk T th)
    (hothers : ∀ u, u ≠ t → FlagOk T f (s.thr u)) (hself : FlagOk T f th)
    (hcover : ∀ u c, u ≠ t → (s.thr u).Fresh c → T.parent c ≠ none →
      Covers (s.thr t) (s.thr u) c → Covers th (s.thr u) c)
    (hfresh : ∀ c, th.Fresh c → T.parent c ≠ none → ∃ u, u ≠ t ∧ Covers (s.thr u) th c) :
    Inv T ⟨f, Function.update s.thr t th⟩ where
  flag_iff n := by
    show f n = true ↔ ∃ u, (Function.update s.thr t th u).Branch n
    rw [hflag n]
    constructor
    · rintro (hb | ⟨u, hu, hb⟩)
      · exact ⟨t, by rw [Function.update_self]; exact hb⟩
      · exact ⟨u, by rw [Function.update_of_ne hu]; exact hb⟩
    · rintro ⟨u, hb⟩
      by_cases hu : u = t
      · subst hu
        rw [Function.update_self] at hb
        exact .inl hb
      · rw [Function.update_of_ne hu] at hb
        exact .inr ⟨u, hu, hb⟩
  unique n u v hu hv := by
    show u = v
    by_cases hut : u = t <;> by_cases hvt : v = t
    · rw [hut, hvt]
    · subst hut
      simp only [Function.update_self, Function.update_of_ne hvt] at hu hv
      exact absurd hv (huniq n v hvt hu)
    · subst hvt
      simp only [Function.update_self, Function.update_of_ne hut] at hu hv
      exact absurd hu (huniq n u hut hv)
    · simp only [Function.update_of_ne hut, Function.update_of_ne hvt] at hu hv
      exact h.unique n u v hu hv
  path u := by
    show PathOk T (Function.update s.thr t th u)
    by_cases hu : u = t
    · subst hu
      rw [Function.update_self]
      exact hpath
    · rw [Function.update_of_ne hu]
      exact h.path u
  flagOk u := by
    show FlagOk T f (Function.update s.thr t th u)
    by_cases hu : u = t
    · subst hu
      rw [Function.update_self]
      exact hself
    · rw [Function.update_of_ne hu]
      exact hothers u hu
  cover u c hu hc := by
    show ∃ v, Covers (Function.update s.thr t th v) (Function.update s.thr t th u) c
    by_cases hut : u = t
    · subst hut
      simp only [Function.update_self] at hu
      obtain ⟨v, hv, hcov⟩ := hfresh c hu hc
      exact ⟨v, by rw [Function.update_of_ne hv, Function.update_self]; exact hcov⟩
    · simp only [Function.update_of_ne hut] at hu
      rw [Function.update_of_ne hut]
      obtain ⟨v, hv⟩ := h.cover u c hu hc
      by_cases hvt : v = t
      · subst hvt
        exact ⟨v, by rw [Function.update_self]; exact hcover u c hut hu hc hv⟩
      · exact ⟨v, by rw [Function.update_of_ne hvt]; exact hv⟩

/-- A move that leaves the flags and the branches as they are. -/
theorem Inv.move (h : Inv T s) (hbranch : ∀ n, th.Branch n ↔ (s.thr t).Branch n)
    (hpath : PathOk T th) (hself : FlagOk T s.flag th)
    (hcover : ∀ u c, u ≠ t → (s.thr u).Fresh c → T.parent c ≠ none →
      Covers (s.thr t) (s.thr u) c → Covers th (s.thr u) c)
    (hfresh : ∀ c, th.Fresh c → T.parent c ≠ none → ∃ u, u ≠ t ∧ Covers (s.thr u) th c) :
    Inv T (s.setThr t th) := by
  refine h.update (f := s.flag) ?_ ?_ hpath (fun u _ => h.flagOk u) hself hcover hfresh
  · intro n
    rw [h.flag_iff n, hbranch n]
    constructor
    · rintro ⟨u, hu⟩
      by_cases hut : u = t
      · exact .inl (hut ▸ hu)
      · exact .inr ⟨u, hut, hu⟩
    · rintro (hb | ⟨u, -, hb⟩)
      · exact ⟨t, hb⟩
      · exact ⟨u, hb⟩
  · intro n u hu hb hb'
    exact hu (h.unique n u t hb' ((hbranch n).mp hb))

/-- A move that keeps leading what it led, into a phase where nothing is
awaited. -/
theorem Inv.move' (h : Inv T s) (hbranch : ∀ n, th.Branch n ↔ (s.thr t).Branch n)
    (hleads : ∀ n, (s.thr t).Leads n → th.Leads n)
    (hreq : ∀ n, (s.thr t).phase ≠ .requeue n) (hpath : PathOk T th)
    (hself : FlagOk T s.flag th) (hfresh : ∀ c, ¬ th.Fresh c) : Inv T (s.setThr t th) := by
  refine h.move hbranch hpath hself ?_ (fun c hc => absurd hc (hfresh c))
  intro u c _ _ _ hcov
  rcases hcov with hl | ⟨-, hr⟩
  · exact .inl (hleads c hl)
  · exact absurd hr (hreq c)

end Update

/-! ## Sleepers woken and snapshots gone stale -/

/-- What others may do to a thread: end its sleep, make its snapshot stale. -/
inductive Relaxed : Thread Node → Thread Node → Prop
  | same (th : Thread Node) : Relaxed th th
  | woken (c : Node) (ds : List Node) : Relaxed ⟨.asleep c, ds⟩ ⟨.free, ds⟩
  | staled (c : Node) (r f : Bool) (ds : List Node) :
      Relaxed ⟨.window c r f, ds⟩ ⟨.window c r false, ds⟩

section Relax

variable {s s' : State Thr Node} {th th' : Thread Node}

theorem relaxed_staled [DecidableEq Node] (c : Node) (th : Thread Node) :
    Relaxed th (th.staled c) := by
  rcases th with ⟨phase, ds⟩
  cases phase with
  | window c' r f =>
      simp only [Thread.staled]
      split
      · exact .staled c' r f ds
      · exact .same _
  | _ => exact .same _

theorem relaxed_woken [DecidableEq Node] (c : Node) (th : Thread Node) :
    Relaxed th (th.woken c) := by
  rcases th with ⟨phase, ds⟩
  cases phase with
  | asleep c' =>
      simp only [Thread.woken]
      split
      · exact .woken c' ds
      · exact .same _
  | _ => exact .same _

theorem Relaxed.branch (h : Relaxed th th') (n : Node) : th'.Branch n ↔ th.Branch n := by
  cases h <;> simp [Thread.Branch]

theorem Relaxed.leads (h : Relaxed th th') (n : Node) : th'.Leads n ↔ th.Leads n := by
  cases h with
  | same => exact Iff.rfl
  | woken c ds => simp [Thread.Leads, Thread.Climbing]
  | staled c r f ds => cases r <;> simp [Thread.Leads, Thread.Climbing]

theorem Relaxed.fresh (h : Relaxed th th') {c : Node} (hf : th'.Fresh c) :
    th.Fresh c ∧ (th.phase = .asleep c → th'.phase = .asleep c) := by
  cases h with
  | same => exact ⟨hf, id⟩
  | woken c' ds => exact hf.elim
  | staled c' r f ds => exact hf.elim

theorem Relaxed.requeue (h : Relaxed th th') {c : Node} (hr : th.phase = .requeue c) :
    th'.phase = .requeue c := by
  cases h with
  | same => exact hr
  | woken c' ds => cases hr
  | staled c' r f ds => cases hr

theorem Relaxed.locked (h : Relaxed th th') : th'.Locked ↔ th.Locked := by
  cases h with
  | same => exact Iff.rfl
  | woken c ds => exact Iff.rfl
  | staled c r f ds => cases r <;> exact Iff.rfl

section

omit [DecidableEq Thr]

theorem Inv.relax (h : Inv T s) (hflag : s'.flag = s.flag)
    (hr : ∀ u, Relaxed (s.thr u) (s'.thr u)) : Inv T s' where
  flag_iff n := by
    rw [hflag, h.flag_iff n]
    constructor
    · rintro ⟨t, ht⟩
      exact ⟨t, ((hr t).branch n).mpr ht⟩
    · rintro ⟨t, ht⟩
      exact ⟨t, ((hr t).branch n).mp ht⟩
  unique n t u ht hu := h.unique n t u (((hr t).branch n).mp ht) (((hr u).branch n).mp hu)
  path t := by
    have ht := hr t
    have hp := h.path t
    generalize s.thr t = th at ht hp
    generalize s'.thr t = th' at ht
    cases ht with
    | same => exact hp
    | woken c ds => exact Linked.hangs hp
    | staled c r f ds => exact hp
  flagOk t := by
    rw [hflag]
    have ht := hr t
    have hp := h.flagOk t
    generalize s.thr t = th at ht hp
    generalize s'.thr t = th' at ht
    cases ht with
    | same => exact hp
    | woken c ds => exact trivial
    | staled c r f ds => exact trivial
  cover u c hu hc := by
    obtain ⟨hf, hsleep⟩ := (hr u).fresh hu
    obtain ⟨t, ht⟩ := h.cover u c hf hc
    rcases ht with hl | ⟨hs, hq⟩
    · exact ⟨t, .inl (((hr t).leads c).mpr hl)⟩
    · exact ⟨t, .inr ⟨hsleep hs, (hr t).requeue hq⟩⟩

theorem Inv.stale [DecidableEq Node] (h : Inv T s) (c : Node) : Inv T (s.stale c) :=
  h.relax rfl (fun u => relaxed_staled c (s.thr u))

theorem Inv.wakeAll [DecidableEq Node] (h : Inv T s) (c : Node) : Inv T (s.wakeAll c) :=
  h.relax rfl (fun u => relaxed_woken c (s.thr u))

/-- After the sequence number of `c` has moved, only sleepers are bound to it. -/
theorem stale_fresh [DecidableEq Node] {c : Node} {u : Thr} (hf : ((s.stale c).thr u).Fresh c) :
    ((s.stale c).thr u).phase = .asleep c := by
  simp only [State.stale, Thread.staled] at hf ⊢
  split at hf
  · rename_i c' r f hp
    split at hf
    · exact hf.elim
    · rename_i hne
      simp only [Thread.Fresh, hp] at hf
      cases f with
      | true => exact absurd hf hne
      | false => exact hf.elim
  · rename_i hno
    simp only [Thread.Fresh] at hf
    split at hf
    · rename_i hp
      rw [hp]
      simpa using hf
    · rename_i c' r hp
      exact absurd hp (hno c' r true)
    · exact hf.elim

theorem wakeAll_not_asleep [DecidableEq Node] {c : Node} {u : Thr} :
    ((s.wakeAll c).thr u).phase ≠ .asleep c := by
  simp only [State.wakeAll, Thread.woken]
  split
  · rename_i c' hp
    split
    · simp
    · rename_i hne
      rw [hp]
      simpa using hne
  · rename_i hno
    exact fun e => hno c e

end

end Relax

/-! ## One step -/

section Steps

variable {s s' : State Thr Node} {t : Thr} {c : Node} {ds : List Node}

theorem climbing_not_leads {th : Thread Node} (hc : th.Climbing) (n : Node) : ¬ th.Leads n := by
  rcases th with ⟨phase, path⟩
  rintro (⟨-, h⟩ | h | h)
  · exact h hc
  · rw [show phase = .load n from h] at hc
    exact hc
  · rw [show phase = .store n from h] at hc
    exact hc

theorem climbing_not_covers {th th' : Thread Node} (hc : th.Climbing) (n : Node) :
    ¬ Covers th th' n := by
  rintro (h | ⟨-, h⟩)
  · exact climbing_not_leads hc n h
  · simp only [Thread.Climbing, h] at hc

theorem flagOk_of_not_locked {flag : Node → Bool} {th : Thread Node} (hl : ¬ th.Locked) :
    FlagOk T flag th := by
  rcases th with ⟨phase, path⟩
  cases phase with
  | mark c => exact absurd trivial hl
  | snap c => exact absurd trivial hl
  | _ => exact trivial

omit [DecidableEq Thr] in
/-- Whoever covers a thread that waits itself is another thread. -/
theorem covers_ne {u : Thr} (hp : PathOk T (s.thr u)) (hf : (s.thr u).Fresh c)
    {v : Thr} (hv : Covers (s.thr v) (s.thr u) c) : v ≠ u := by
  intro e
  subst e
  have hphase : ∀ {p : Phase Node}, ¬ (⟨p, []⟩ : Thread Node).Fresh c → (s.thr v).phase ≠ p := by
    intro p hp e
    simp only [Thread.Fresh, e] at hf hp
    exact hp hf
  rcases hv with (⟨hm, -⟩ | hl | hl) | ⟨-, hr⟩
  -- the branches that a waiting thread is in lie below its own node
  · have hlink : Linked T c (s.thr v).path := by
      generalize s.thr v = th at hp hf
      rcases th with ⟨phase, ds⟩
      cases phase with
      | asleep c' => exact (show c' = c from hf) ▸ hp
      | window c' r f =>
          cases f with
          | true => exact (show c' = c from hf) ▸ hp
          | false => exact hf.elim
      | _ => exact hf.elim
    exact hlink.not_mem hm
  · exact hphase id hl
  · exact hphase id hl
  · exact hphase id hr

theorem Inv.mark [DecidableEq Node] (h : Inv T s) (hx : Excl s) {p : Node}
    (ht : s.thr t = ⟨.mark c, ds⟩) (hp : T.parent c = some p) :
    Inv T ((s.setFlag c true).setThr t ⟨.climb p, c :: ds⟩) := by
  have hfree : s.flag c = false := by
    have := h.flagOk t
    rwa [ht] at this
  -- the flag was read as clear, under the same lock: nobody is in the branch
  have hnone : ∀ u, ¬ (s.thr u).Branch c := by
    intro u hu
    rw [(h.flag_iff c).mpr ⟨u, hu⟩] at hfree
    cases hfree
  have hlink : Linked T c ds := by
    have := h.path t
    rwa [ht] at this
  have hbranch : ∀ n,
      (⟨.climb p, c :: ds⟩ : Thread Node).Branch n ↔ n = c ∨ (s.thr t).Branch n := by
    intro n
    simp [ht, Thread.Branch]
  refine h.update ?_ ?_ ⟨hp, hlink⟩ ?_ trivial ?_ (fun c' hc' => hc'.elim)
  · intro n
    rw [hbranch n]
    by_cases hn : n = c
    · subst hn
      simp [State.setFlag]
    · simp only [State.setFlag, Function.update_of_ne hn]
      rw [h.flag_iff n]
      constructor
      · rintro ⟨u, hu⟩
        by_cases hut : u = t
        · exact .inl (.inr (hut ▸ hu))
        · exact .inr ⟨u, hut, hu⟩
      · rintro ((hn' | hb) | ⟨u, -, hb⟩)
        · exact absurd hn' hn
        · exact ⟨t, hb⟩
        · exact ⟨u, hb⟩
  · intro n u hu hb hb'
    rcases (hbranch n).mp hb with hn | hb
    · exact hnone u (hn ▸ hb')
    · exact hu (h.unique n u t hb' hb)
  · intro u hu
    -- a decision stands while the lock is held, and `t` holds it
    refine flagOk_of_not_locked (fun hl => hu ?_)
    exact hx u t hl (by rw [ht]; exact trivial)
  · intro u c' _ _ _ hcov
    exact absurd hcov (climbing_not_covers (by rw [ht]; exact trivial) c')

/-- The snapshot is taken under the lock, so the leader of the node has given
the lock up. -/
theorem Inv.snap (h : Inv T s) (hx : Excl s) (ht : s.thr t = ⟨.snap c, ds⟩) :
    Inv T (s.setThr t ⟨.window c false true, ds⟩) := by
  have hlocked : (s.thr t).Locked := by rw [ht]; exact trivial
  have hclimb : (s.thr t).Climbing := by rw [ht]; exact trivial
  have hlink : Linked T c ds := by
    have := h.path t
    rwa [ht] at this
  refine h.move ?_ hlink trivial ?_ ?_
  · intro n
    simp [ht, Thread.Branch]
  · intro u c' _ _ _ hcov
    exact absurd hcov (climbing_not_covers hclimb c')
  · intro c' hc' hpar
    have hcc : c = c' := hc'
    subst hcc
    have hflag := h.flagOk t
    rw [ht] at hflag
    -- whoever is in the branch has given the lock up, so it leads
    rcases hflag with hflag | hroot
    · obtain ⟨u, hu⟩ := (h.flag_iff c).mp hflag
      have hut : u ≠ t := by
        intro e
        subst e
        simp [ht, Thread.Branch, hlink.not_mem] at hu
      exact ⟨u, hut, .inl (hu.leads (fun hl => hut (hx u t hl hlocked)))⟩
    · exact absurd hroot hpar

theorem Inv.release (h : Inv T s) {f : Bool} (ht : s.thr t = ⟨.window c false f, ds⟩) :
    Inv T (s.setThr t ⟨.window c true f, ds⟩) := by
  have hlink : Linked T c ds := by
    have := h.path t
    rwa [ht] at this
  refine h.move ?_ hlink trivial ?_ ?_
  · intro n
    simp [ht, Thread.Branch]
  · intro u c' _ _ _ hcov
    exact absurd hcov (climbing_not_covers (by rw [ht]; exact trivial) c')
  · intro c' hc' hpar
    have hf : (s.thr t).Fresh c' := by
      rw [ht]
      cases f with
      | true => exact hc'
      | false => exact hc'.elim
    obtain ⟨u, hu⟩ := h.cover t c' hf hpar
    refine ⟨u, covers_ne (h.path t) hf hu, ?_⟩
    -- the requeue of `c` covers sleepers only
    rcases hu with hl | ⟨hs, -⟩
    · exact .inl hl
    · rw [ht] at hs
      cases hs

theorem Inv.sleep (h : Inv T s) (ht : s.thr t = ⟨.window c true true, ds⟩) :
    Inv T (s.setThr t ⟨.asleep c, ds⟩) := by
  have hlink : Linked T c ds := by
    have := h.path t
    rwa [ht] at this
  refine h.move ?_ hlink trivial ?_ ?_
  · intro n
    simp [ht, Thread.Branch]
  · intro u c' _ _ _ hcov
    simpa [ht, Covers, Thread.Leads, Thread.Climbing] using hcov
  · intro c' hc' hpar
    have hf : (s.thr t).Fresh c' := by rw [ht]; exact hc'
    obtain ⟨u, hu⟩ := h.cover t c' hf hpar
    refine ⟨u, covers_ne (h.path t) hf hu, ?_⟩
    rcases hu with hl | ⟨hs, -⟩
    · exact .inl hl
    · rw [ht] at hs
      cases hs

/-- The sequence number of `c` moves under its leader: every snapshot of `c`
is stale from here on. -/
theorem Inv.bump [DecidableEq Node] (h : Inv T s) (ht : s.thr t = ⟨.store c, ds⟩) :
    Inv T ((s.stale c).setThr t ⟨.requeue c, ds⟩) := by
  have ht' : (s.stale c).thr t = ⟨.store c, ds⟩ := by
    simp only [State.stale, Thread.staled, ht]
  have hhang : Hangs T (c :: ds) := by
    have := h.path t
    rwa [ht] at this
  refine (h.stale c).move ?_ hhang trivial ?_ (fun c' hc' => hc'.elim)
  · intro n
    simp [ht', Thread.Branch]
  · intro u c' _ hf _ hcov
    rw [ht'] at hcov
    rcases hcov with (⟨hm, -⟩ | hl | hl) | ⟨-, hr⟩
    · exact .inl (.inl ⟨hm, id⟩)
    · cases hl
    -- whom `t` leads sleeps, or will not sleep: the requeue is next
    · have hcc : c = c' := Phase.store.inj hl
      subst hcc
      exact .inr ⟨stale_fresh hf, rfl⟩
    · cases hr

theorem Inv.requeue [DecidableEq Node] (h : Inv T s) (ht : s.thr t = ⟨.requeue c, ds⟩) :
    Inv T ((s.wakeAll c).setThr t ⟨.unmark c, ds⟩) := by
  have ht' : (s.wakeAll c).thr t = ⟨.requeue c, ds⟩ := by
    simp only [State.wakeAll, Thread.woken, ht]
  have hhang : Hangs T (c :: ds) := by
    have := h.path t
    rwa [ht] at this
  refine (h.wakeAll c).move ?_ hhang trivial ?_ (fun c' hc' => hc'.elim)
  · intro n
    simp [ht', Thread.Branch]
  · intro u c' _ _ _ hcov
    rw [ht'] at hcov
    rcases hcov with (⟨hm, -⟩ | hl | hl) | ⟨hs, hr⟩
    · exact .inl (.inl ⟨hm, id⟩)
    · cases hl
    · cases hl
    -- the queue of `c` is empty now, there is nobody left to cover
    · have hcc : c = c' := Phase.requeue.inj hr
      subst hcc
      exact absurd hs wakeAll_not_asleep

theorem Inv.unmark [DecidableEq Node] (h : Inv T s) (hx : Excl s) (ht : s.thr t = ⟨.unmark c, ds⟩) :
    Inv T ((s.setFlag c false).setThr t (finish ds)) := by
  have hhang : Hangs T (c :: ds) := by
    have := h.path t
    rwa [ht] at this
  have hbranch : ∀ n, (s.thr t).Branch n ↔ n = c ∨ n ∈ ds := by
    intro n
    simp [ht, Thread.Branch, or_comm, eq_comm]
  refine h.update ?_ ?_ (pathOk_finish hhang.2.hangs) ?_ ?_ ?_
    (fun c' hc' => absurd hc' (finish_not_fresh ds c'))
  · intro n
    rw [finish_branch]
    by_cases hn : n = c
    · subst hn
      simp only [State.setFlag, Function.update_self]
      -- the flag was raised for `t` alone
      constructor
      · intro e
        cases e
      · rintro (hm | ⟨u, hu, hb⟩)
        · exact absurd hm hhang.2.not_mem
        · exact absurd (h.unique n u t hb ((hbranch n).mpr (.inl rfl))) hu
    · simp only [State.setFlag, Function.update_of_ne hn]
      rw [h.flag_iff n]
      constructor
      · rintro ⟨u, hu⟩
        by_cases hut : u = t
        · subst hut
          rcases (hbranch n).mp hu with hn' | hm
          · exact absurd hn' hn
          · exact .inl hm
        · exact .inr ⟨u, hut, hu⟩
      · rintro (hm | ⟨u, -, hb⟩)
        · exact ⟨t, (hbranch n).mpr (.inr hm)⟩
        · exact ⟨u, hb⟩
  · intro n u hu hb hb'
    rw [finish_branch] at hb
    exact hu (h.unique n u t hb' ((hbranch n).mpr (.inr hb)))
  · intro u hu
    refine flagOk_of_not_locked (fun hl => hu ?_)
    exact hx u t hl (by rw [ht]; exact trivial)
  · cases ds <;> exact trivial
  · intro u c' _ _ _ hcov
    rw [ht] at hcov
    rcases hcov with (⟨hm, -⟩ | hl | hl) | ⟨-, hr⟩
    · exact .inl ((finish_leads ds c').mpr hm)
    · cases hl
    · cases hl
    · cases hr

/-- **Every step under the lock keeps the invariant.** -/
theorem Inv.step [DecidableEq Node] (h : Inv T s) (hx : Excl s) (hs : Step T s s') : Inv T s' := by
  have hpath := fun t => h.path t
  cases hs with
  | enter t c ht =>
      exact h.move' (by simp [ht, Thread.Branch]) (by simp [ht, Thread.Leads])
        (by simp [ht]) trivial trivial (fun _ => id)
  | first t c p ds ht hflag _ =>
      have hp := hpath t
      rw [ht] at hp
      exact h.move' (by simp [ht, Thread.Branch])
        (fun n hn => absurd hn (climbing_not_leads (by rw [ht]; exact trivial) n))
        (by simp [ht]) hp hflag (fun _ => id)
  | later t c ds ht hflag =>
      have hp := hpath t
      rw [ht] at hp
      exact h.move' (by simp [ht, Thread.Branch])
        (fun n hn => absurd hn (climbing_not_leads (by rw [ht]; exact trivial) n))
        (by simp [ht]) hp hflag (fun _ => id)
  | mark t c p ds ht hp => exact h.mark hx ht hp
  | snap t c ds ht => exact h.snap hx ht
  | release t c f ds ht => exact h.release ht
  | sleep t c ds ht => exact h.sleep ht
  | pass t c f ds ht =>
      have hp := hpath t
      rw [ht] at hp
      exact h.move' (by simp [ht, Thread.Branch])
        (by simp [ht, Thread.Leads, Thread.Climbing]) (by simp [ht]) (Linked.hangs hp) trivial
        (fun _ => id)
  | wake t c ds ht =>
      have hp := hpath t
      rw [ht] at hp
      exact h.move' (by simp [ht, Thread.Branch])
        (by simp [ht, Thread.Leads, Thread.Climbing]) (by simp [ht]) (Linked.hangs hp) trivial
        (fun _ => id)
  | wakeAll c => exact h.wakeAll c
  | signal c => exact h.stale c
  | resume t ds ht =>
      have hp := hpath t
      rw [ht] at hp
      refine h.move' ?_ ?_ (by simp [ht]) (pathOk_finish hp) ?_ (finish_not_fresh ds)
      · intro n
        rw [finish_branch, ht]
        simp [Thread.Branch]
      · intro n
        rw [finish_leads, ht]
        simp [Thread.Leads, Thread.Climbing]
      · cases ds <;> exact trivial
  | load t c ds ht =>
      have hp := hpath t
      rw [ht] at hp
      exact h.move' (by simp [ht, Thread.Branch])
        (by simp [ht, Thread.Leads, Thread.Climbing]) (by simp [ht]) hp trivial (fun _ => id)
  | bump t c ds ht => exact h.bump ht
  | requeue t c ds ht => exact h.requeue ht
  | unmark t c ds ht => exact h.unmark hx ht

end Steps

/-! ## From a waiting thread to the root -/

section Chains

variable {s s' : State Thr Node} {th th' : Thread Node}

theorem Thread.WaitsAt.fresh_or_stale {c : Node} (h : th.WaitsAt c) : th.Fresh c ∨ th.Stale := by
  rcases th with ⟨phase, ds⟩
  cases phase with
  | window c' r f =>
      cases r with
      | false => exact h.elim
      | true =>
          cases f with
          | true => exact .inl h
          | false => exact .inr trivial
  | asleep c' => exact .inl h
  | _ => exact h.elim

theorem Thread.cases (th : Thread Node) :
    th.Climbing ∨ th.Done ∨ ∃ c, th.WaitsAt c := by
  rcases th with ⟨phase, ds⟩
  cases phase with
  | window c r f =>
      cases r with
      | false => exact .inl trivial
      | true => exact .inr (.inr ⟨c, rfl⟩)
  | asleep c => exact .inr (.inr ⟨c, rfl⟩)
  | climb c => exact .inl trivial
  | mark c => exact .inl trivial
  | snap c => exact .inl trivial
  | _ => exact .inr (.inl trivial)

/-- A stale snapshot does not end the wait. -/
theorem Thread.WaitsAt.staled [DecidableEq Node] {c : Node} (h : th.WaitsAt c) (d : Node) :
    (th.staled d).WaitsAt c := by
  rcases th with ⟨phase, ds⟩
  cases phase with
  | window c' r f =>
      simp only [Thread.staled]
      split
      · cases r with
        | true => exact h
        | false => exact h.elim
      · exact h
  | _ => exact h

theorem PathOk.linked {c : Node} (h : PathOk T th) (hw : th.WaitsAt c) : Linked T c th.path := by
  rcases th with ⟨phase, ds⟩
  cases phase with
  | window c' r f =>
      cases r with
      | false => exact hw.elim
      | true => exact (show c' = c from hw) ▸ h
  | asleep c' => exact (show c' = c from hw) ▸ h
  | _ => exact hw.elim

theorem Thread.WaitsAt.branch {c n : Node} (h : th.WaitsAt c) :
    th.Branch n ↔ n ∈ th.path := by
  rcases th with ⟨phase, ds⟩
  cases phase with
  | window c' r f => simp [Thread.Branch]
  | asleep c' => simp [Thread.Branch]
  | _ => exact h.elim

omit [DecidableEq Thr] in
/-- **The leader.** A thread that waits at an inner node has its node's leader
released already, bound not to sleep, or waiting nearer the root. -/
theorem Inv.leader (h : Inv T s) {u : Thr} {n : Node} (hf : (s.thr u).Fresh n)
    (hn : T.parent n ≠ none) :
    ∃ t, (s.thr t).Branch n ∧ ((s.thr t).Done ∨ (s.thr t).Stale ∨
      ∃ c, (s.thr t).WaitsAt c ∧ (s.thr t).Fresh c ∧ T.depth c < T.depth n) := by
  obtain ⟨t, ht⟩ := h.cover u n hf hn
  refine ⟨t, ht.branch, ?_⟩
  rcases (s.thr t).cases with hc | hd | ⟨c, hw⟩
  · exact absurd ht (climbing_not_covers hc n)
  · exact .inl hd
  · rcases hw.fresh_or_stale with hfr | hst
    · exact .inr (.inr ⟨c, hw, hfr, ((h.path t).linked hw).depth_lt (hw.branch.mp ht.branch)⟩)
    · exact .inr (.inl hst)

/-- Leader upon leader: up to the root, or to one that is no longer waiting. -/
inductive Chain (T : Tree Node) (s : State Thr Node) : Node → Prop
  | root : Chain T s T.root
  | released {t : Thr} {n : Node} : (s.thr t).Branch n → (s.thr t).Done ∨ (s.thr t).Stale →
      Chain T s n
  | up {t : Thr} {n c : Node} : (s.thr t).Branch n → (s.thr t).WaitsAt c →
      T.depth c < T.depth n → Chain T s c → Chain T s n

omit [DecidableEq Thr] in
theorem Inv.chain (h : Inv T s) {u : Thr} {n : Node} (hf : (s.thr u).Fresh n) :
    Chain T s n := by
  induction hd : T.depth n using Nat.strongRecOn generalizing u n with
  | _ d ih =>
    -- by the depth: a leader that waits does so nearer the root
    by_cases hn : T.parent n = none
    · rw [(T.parent_eq_none n).mp hn]
      exact .root
    · obtain ⟨t, hb, hdone | hst | ⟨c, hw, hfr, hlt⟩⟩ := h.leader hf hn
      · exact .released hb (.inl hdone)
      · exact .released hb (.inr hst)
      · exact .up hb hw hlt (ih _ (hd ▸ hlt) hfr rfl)

/-! ## What is owed to a waiting thread -/

/-- The thread has left the queues for good, or will not sleep, or waits at a
node whose leader is owed as much. Threads with property `P` count as
released besides. -/
inductive Owed (P : Thread Node → Prop) (s : State Thr Node) : Thr → Prop
  | base {t : Thr} : P (s.thr t) → Owed P s t
  | done {t : Thr} : (s.thr t).Done → Owed P s t
  | stale {t : Thr} : (s.thr t).Stale → Owed P s t
  | led {t u : Thr} {n : Node} : (s.thr u).WaitsAt n → (s.thr t).Branch n → Owed P s t →
      Owed P s u

omit [DecidableEq Thr] in
theorem Owed.mono {P Q : Thread Node → Prop} (hPQ : ∀ t, P (s.thr t) → Q (s.thr t)) {u : Thr}
    (h : Owed P s u) : Owed Q s u := by
  induction h with
  | base hP => exact .base (hPQ _ hP)
  | done hd => exact .done hd
  | stale hs => exact .stale hs
  | led hw hb _ ih => exact .led hw hb ih

/-- Asleep at the root. -/
def AtRoot (T : Tree Node) (th : Thread Node) : Prop := th.phase = .asleep T.root

omit [DecidableEq Thr] in
/-- Once the root's sequence number has moved, everyone who waits is owed a
release by the threads asleep at the root. -/
theorem Inv.owed (h : Inv T s) (hroot : ∀ u, (s.thr u).Fresh T.root → AtRoot T (s.thr u))
    {u : Thr} {n : Node} (hu : (s.thr u).WaitsAt n) : Owed (AtRoot T) s u := by
  have key : ∀ d u n, T.depth n = d → (s.thr u).WaitsAt n → (s.thr u).Fresh n →
      Owed (AtRoot T) s u := by
    intro d
    induction d using Nat.strongRecOn with
    | _ d ih =>
      intro u n hd hw hf
      -- by the depth again, from the leader of `n`
      by_cases hn : T.parent n = none
      · rw [(T.parent_eq_none n).mp hn] at hf
        exact .base (hroot u hf)
      · obtain ⟨t, hb, hdone | hst | ⟨c, hwc, hfc, hlt⟩⟩ := h.leader hf hn
        · exact .led hw hb (.done hdone)
        · exact .led hw hb (.stale hst)
        · exact .led hw hb (ih _ (hd ▸ hlt) t c rfl hwc hfc)
  rcases hu.fresh_or_stale with hf | hst
  · exact key _ u n rfl hu hf
  · exact .stale hst

/-! ## One thread, one step -/

/-- What can become of a thread in one step, its own or another's. -/
inductive Evolves (th th' : Thread Node) : Prop
  | same : th' = th → Evolves th th'
  | enter : th = ⟨.free, []⟩ → th'.Climbing → Evolves th th'
  | climb : th.Climbing → (∀ n, th.Branch n → th'.Branch n) → Evolves th th'
  | wait (c : Node) : th.WaitsAt c → th'.path = th.path →
      (th'.WaitsAt c ∧ (th.Stale → th'.Stale) ∧
        (th.phase = .asleep c → th'.phase = .asleep c)) ∨ th'.Done → Evolves th th'
  | done : th.Done → th'.Done → (∀ n, th.Branch n → th'.Branch n ∨ th.phase = .unmark n) →
      Evolves th th'

theorem Relaxed.evolves (h : Relaxed th th') : Evolves th th' := by
  cases h with
  | same => exact .same rfl
  | woken c ds => exact .wait c rfl rfl (.inr trivial)
  | staled c r f ds =>
      cases r with
      | false => exact .climb trivial (fun n hn => by simpa [Thread.Branch] using hn)
      | true => exact .wait c rfl rfl (.inl ⟨rfl, fun _ => trivial, fun e => by cases e⟩)

/-- The other threads, when one moves and the rest are at most relaxed. -/
theorem evolves_setThr {m : State Thr Node} {t u : Thr} (hr : Relaxed (s.thr u) (m.thr u))
    (ht : u = t → Evolves (s.thr t) th) : Evolves (s.thr u) ((m.setThr t th).thr u) := by
  by_cases hu : u = t
  · subst hu
    rw [State.setThr_self]
    exact ht rfl
  · rw [State.setThr_ne _ _ hu]
    exact hr.evolves

theorem Step.evolves [DecidableEq Node] (hs : Step T s s') (u : Thr) :
    Evolves (s.thr u) (s'.thr u) := by
  cases hs with
  | enter t c ht => exact evolves_setThr (.same _) (fun _ => .enter ht trivial)
  | first t c p ds ht _ _ =>
      refine evolves_setThr (.same _) (fun _ => .climb (by rw [ht]; exact trivial) ?_)
      intro n hn
      simpa [ht, Thread.Branch] using hn
  | later t c ds ht _ =>
      refine evolves_setThr (.same _) (fun _ => .climb (by rw [ht]; exact trivial) ?_)
      intro n hn
      simpa [ht, Thread.Branch] using hn
  | mark t c p ds ht _ =>
      refine evolves_setThr (m := s.setFlag c true) (.same _)
        (fun _ => .climb (by rw [ht]; exact trivial) ?_)
      intro n hn
      have hm : n ∈ ds := by simpa [ht, Thread.Branch] using hn
      exact .inl (List.mem_cons_of_mem c hm)
  | snap t c ds ht =>
      refine evolves_setThr (.same _) (fun _ => .climb (by rw [ht]; exact trivial) ?_)
      intro n hn
      simpa [ht, Thread.Branch] using hn
  | release t c f ds ht =>
      refine evolves_setThr (.same _) (fun _ => .climb (by rw [ht]; exact trivial) ?_)
      intro n hn
      simpa [ht, Thread.Branch] using hn
  | sleep t c ds ht =>
      refine evolves_setThr (.same _) (fun _ => .wait c ?_ ?_ (.inl ⟨rfl, ?_, fun _ => rfl⟩)) <;>
        rw [ht]
      · rfl
      · exact id
  | pass t c f ds ht =>
      refine evolves_setThr (.same _) (fun _ => .wait c ?_ ?_ (.inr trivial)) <;> rw [ht]
      rfl
  | wake t c ds ht =>
      refine evolves_setThr (.same _) (fun _ => .wait c ?_ ?_ (.inr trivial)) <;> rw [ht]
      rfl
  | wakeAll c => exact (relaxed_woken c _).evolves
  | signal c => exact (relaxed_staled c _).evolves
  | resume t ds ht =>
      refine evolves_setThr (.same _) (fun _ => .done (by rw [ht]; exact trivial)
        (finish_done ds) (fun n hn => .inl ?_))
      rw [finish_branch]
      simpa [ht, Thread.Branch] using hn
  | load t c ds ht =>
      refine evolves_setThr (.same _) (fun _ => .done (by rw [ht]; exact trivial) trivial
        (fun n hn => .inl ?_))
      simpa [ht, Thread.Branch] using hn
  | bump t c ds ht =>
      refine evolves_setThr (m := s.stale c) (relaxed_staled c _)
        (fun _ => .done (by rw [ht]; exact trivial) trivial (fun n hn => .inl ?_))
      simpa [ht, Thread.Branch] using hn
  | requeue t c ds ht =>
      refine evolves_setThr (m := s.wakeAll c) (relaxed_woken c _)
        (fun _ => .done (by rw [ht]; exact trivial) trivial (fun n hn => .inl ?_))
      simpa [ht, Thread.Branch] using hn
  | unmark t c ds ht =>
      refine evolves_setThr (m := s.setFlag c false) (.same _)
        (fun _ => .done (by rw [ht]; exact trivial) (finish_done ds) ?_)
      intro n hn
      rw [finish_branch, ht]
      simpa [ht, Thread.Branch] using hn

omit [DecidableEq Thr] in
/-- Nobody is bound to a node whose leader is about to clear the flag. -/
theorem Inv.stale_of_unmark (h : Inv T s) {t u : Thr} {n : Node} (hu : (s.thr u).WaitsAt n)
    (ht : (s.thr t).phase = .unmark n) : (s.thr u).Stale := by
  rcases hu.fresh_or_stale with hf | hst
  · have hb : (s.thr t).Branch n := .inr (.inr (.inr (.inr ht)))
    obtain ⟨v, hv⟩ := h.cover u n hf ((h.path t).parent_ne hb)
    have hvt : v = t := h.unique n v t hv.branch hb
    subst hvt
    rcases hv with (⟨hm, -⟩ | hl | hl) | ⟨-, hr⟩
    · have hp := h.path v
      simp only [PathOk, ht] at hp
      exact absurd hm hp.2.not_mem
    · rw [ht] at hl
      cases hl
    · rw [ht] at hl
      cases hl
    · rw [ht] at hr
      cases hr
  · exact hst

theorem Evolves.of_stale (h : Evolves th th') (hst : th.Stale) : th'.Stale ∨ th'.Done := by
  rcases th with ⟨phase, ds⟩
  cases phase with
  | window c r f =>
      cases h with
      | same e => exact .inl (e ▸ hst)
      | enter e _ => cases e
      | climb hc _ =>
          cases r with
          | true => exact hc.elim
          | false => exact hst.elim
      | wait c' _ _ hor =>
          rcases hor with ⟨-, hs, -⟩ | hd
          · exact .inl (hs hst)
          · exact .inr hd
      | done hd _ _ => exact hd.elim
  | _ => exact hst.elim

theorem Evolves.of_waitsAt (h : Evolves th th') {c : Node} (hw : th.WaitsAt c) :
    th'.WaitsAt c ∨ th'.Done := by
  rcases th with ⟨phase, ds⟩
  cases h with
  | same e => exact .inl (e ▸ hw)
  | enter e _ =>
      cases e
      exact hw.elim
  | climb hc _ =>
      cases phase with
      | window c' r f =>
          cases r with
          | true => exact hc.elim
          | false => exact hw.elim
      | asleep c' => exact hc.elim
      | _ => exact hw.elim
  | wait c' hw' _ hor =>
      have hcc : c' = c := by
        cases phase with
        | window c₀ r f =>
            cases r with
            | true => exact (show c₀ = c' from hw').symm.trans hw
            | false => exact hw.elim
        | asleep c₀ => exact (show c₀ = c' from hw').symm.trans hw
        | _ => exact hw.elim
      subst hcc
      rcases hor with ⟨hw', -⟩ | hd
      · exact .inl hw'
      · exact .inr hd
  | done hd _ _ =>
      cases phase with
      | window c' r f => exact hd.elim
      | asleep c' => exact hd.elim
      | _ => exact hw.elim

/-- A thread of a branch stays in it until it clears the flag. -/
theorem Evolves.of_branch (h : Evolves th th') {n : Node} (hb : th.Branch n) :
    th'.Branch n ∨ th.phase = .unmark n := by
  cases h with
  | same e => exact .inl (e ▸ hb)
  | enter e _ =>
      rw [e] at hb
      simp [Thread.Branch] at hb
  | climb _ hmono => exact .inl (hmono n hb)
  | wait c hw hp _ =>
      rw [hw.branch] at hb
      exact .inl (.inl (hp ▸ hb))
  | done _ _ hor => exact hor n hb

theorem Evolves.of_done (h : Evolves th th') (hd : th.Done) :
    th'.Done ∨ (th = ⟨.free, []⟩ ∧ th'.Climbing) := by
  rcases th with ⟨phase, ds⟩
  cases h with
  | same e => exact .inl (e ▸ hd)
  | enter e hc => exact .inr ⟨e, hc⟩
  | climb hc _ => cases phase <;> first | exact hc.elim | exact hd.elim
  | wait c hw _ _ => cases phase <;> first | exact hw.elim | exact hd.elim
  | done _ hd' _ => exact .inl hd'

theorem Evolves.of_atRoot (h : Evolves th th') (hr : AtRoot T th) : AtRoot T th' ∨ th'.Done := by
  have hr' : th.phase = .asleep T.root := hr
  cases h with
  | same e => exact .inl (e ▸ hr)
  | enter e _ =>
      rw [e] at hr'
      cases hr'
  | climb hc _ => simp only [Thread.Climbing, hr'] at hc
  | wait c hw _ hor =>
      have hc : T.root = c := by simpa only [Thread.WaitsAt, hr'] using hw
      subst hc
      rcases hor with ⟨-, -, hs⟩ | hd
      · exact .inl (hs hr')
      · exact .inr hd
  | done hd _ _ => simp only [Thread.Done, hr'] at hd

/-- A leader that leaves a branch leaves nobody behind. -/
theorem Step.led [DecidableEq Node] (h : Inv T s) (hs : Step T s s') {t u : Thr} {n : Node}
    (hw : (s.thr u).WaitsAt n) (hb : (s.thr t).Branch n) :
    ((s'.thr u).WaitsAt n ∧ (s'.thr t).Branch n) ∨ (s'.thr u).Stale ∨ (s'.thr u).Done := by
  rcases (hs.evolves u).of_waitsAt hw with hw' | hd
  · rcases (hs.evolves t).of_branch hb with hb' | hun
    · exact .inl ⟨hw', hb'⟩
    · exact .inr ((hs.evolves u).of_stale (h.stale_of_unmark hw hun))
  · exact .inr (.inr hd)

/-- **What is owed stays owed**, step by step, until the thread starts a new
call. -/
theorem Owed.step [DecidableEq Node] {P Q : Thread Node → Prop} (h : Inv T s) (hs : Step T s s')
    (hPQ : ∀ t, P (s.thr t) → Q (s'.thr t) ∨ (s'.thr t).Done) {u : Thr} (ho : Owed P s u) :
    Owed Q s' u ∨ (s.thr u = ⟨.free, []⟩ ∧ (s'.thr u).Climbing) := by
  induction ho with
  | @base t hP =>
      rcases hPQ t hP with hQ | hd
      · exact .inl (.base hQ)
      · exact .inl (.done hd)
  | @done t hd =>
      rcases (hs.evolves t).of_done hd with hd' | he
      · exact .inl (.done hd')
      · exact .inr he
  | @stale t hst =>
      rcases (hs.evolves t).of_stale hst with hst' | hd
      · exact .inl (.stale hst')
      · exact .inl (.done hd)
  | @led t u n hw hb _ ih =>
      rcases hs.led h hw hb with ⟨hw', hb'⟩ | hst | hd
      · rcases ih with ih | ⟨he, -⟩
        · exact .inl (.led hw' hb' ih)
        · -- a thread outside every call leads nothing
          rw [he] at hb
          simp [Thread.Branch] at hb
      · exact .inl (.stale hst)
      · exact .inl (.done hd)

/-- To wake the sleepers of the root is to release everyone they owe it to. -/
theorem Inv.owed_wakeAll [DecidableEq Node] (h : Inv T s) {u : Thr} (ho : Owed (AtRoot T) s u) :
    Owed (fun _ => False) (s.wakeAll T.root) u := by
  have hwoken : ∀ t, AtRoot T (s.thr t) →
      False ∨ ((s.wakeAll T.root).thr t).Done := by
    intro t hr
    have hr' : (s.thr t).phase = .asleep T.root := hr
    right
    show ((s.thr t).woken T.root).Done
    simp only [Thread.woken, hr', if_true]
    exact trivial
  rcases ho.step (Q := fun _ => False) h (.wakeAll T.root) hwoken with ho' | ⟨hfree, hclimb⟩
  · exact ho'
  · have hsame : (s.wakeAll T.root).thr u = ⟨.free, []⟩ := by
      show (s.thr u).woken T.root = _
      rw [hfree]
      rfl
    rw [hsame] at hclimb
    exact hclimb.elim

omit [DecidableEq Thr] in
/-- Nobody asleep at the root: what its sleepers owe is done. -/
theorem Owed.of_none {u : Thr} (ho : Owed (AtRoot T) s u) (hno : ∀ t, ¬ AtRoot T (s.thr t)) :
    Owed (fun _ => False) s u :=
  ho.mono (fun t ht => hno t ht)

/-! ## Who has got anywhere -/

theorem Relaxed.settled (h : Relaxed th th') (hs : th'.Settled) : th.Settled := by
  cases h with
  | same => exact hs
  | woken c ds => exact trivial
  | staled c r f ds => exact trivial

theorem settled_setThr {m : State Thr Node} {t u : Thr} (hr : Relaxed (s.thr u) (m.thr u))
    (ht : th.Settled → (s.thr t).Settled) (h : ((m.setThr t th).thr u).Settled) :
    (s.thr u).Settled := by
  by_cases hu : u = t
  · subst hu
    rw [State.setThr_self] at h
    exact ht h
  · rw [State.setThr_ne _ _ hu] at h
    exact hr.settled h

theorem Thread.WaitsAt.settled {c : Node} (h : th.WaitsAt c) : th.Settled := by
  rcases th with ⟨phase, ds⟩
  cases phase <;> first | exact h.elim | exact trivial

theorem finish_settled {ds : List Node} (h : (finish ds).Settled) : ds ≠ [] := by
  cases ds with
  | nil => exact h
  | cons d ds => exact List.cons_ne_nil d ds

/-- A thread settles by a snapshot only. -/
theorem Step.settled [DecidableEq Node] (hs : Step T s s') {u : Thr} (h : (s'.thr u).Settled) :
    (s.thr u).Settled ∨ ∃ c ds, s.thr u = ⟨.snap c, ds⟩ := by
  cases hs with
  | enter t c ht => exact .inl (settled_setThr (.same _) False.elim h)
  | first t c p ds ht _ _ => exact .inl (settled_setThr (.same _) False.elim h)
  | later t c ds ht _ => exact .inl (settled_setThr (.same _) False.elim h)
  | mark t c p ds ht _ =>
      exact .inl (settled_setThr (m := s.setFlag c true) (.same _) False.elim h)
  | snap t c ds ht =>
      by_cases hu : u = t
      · subst hu
        exact .inr ⟨c, ds, ht⟩
      · rw [State.setThr_ne _ _ hu] at h
        exact .inl h
  | release t c f ds ht =>
      exact .inl (settled_setThr (.same _) (fun _ => by rw [ht]; exact trivial) h)
  | sleep t c ds ht =>
      exact .inl (settled_setThr (.same _) (fun _ => by rw [ht]; exact trivial) h)
  | pass t c f ds ht =>
      exact .inl (settled_setThr (.same _) (fun _ => by rw [ht]; exact trivial) h)
  | wake t c ds ht =>
      exact .inl (settled_setThr (.same _) (fun _ => by rw [ht]; exact trivial) h)
  | wakeAll c => exact .inl ((relaxed_woken c _).settled h)
  | signal c => exact .inl ((relaxed_staled c _).settled h)
  | resume t ds ht =>
      exact .inl (settled_setThr (.same _) (fun hf => by rw [ht]; exact finish_settled hf) h)
  | load t c ds ht =>
      exact .inl (settled_setThr (.same _) (fun _ => by rw [ht]; exact trivial) h)
  | bump t c ds ht =>
      exact .inl (settled_setThr (m := s.stale c) (relaxed_staled c _)
        (fun _ => by rw [ht]; exact trivial) h)
  | requeue t c ds ht =>
      exact .inl (settled_setThr (m := s.wakeAll c) (relaxed_woken c _)
        (fun _ => by rw [ht]; exact trivial) h)
  | unmark t c ds ht =>
      exact .inl (settled_setThr (m := s.setFlag c false) (.same _)
        (fun _ => by rw [ht]; exact trivial) h)

/-- A thread of a branch, outside the lock, has settled. -/
theorem Thread.Branch.settled {n : Node} (hb : th.Branch n) (hl : ¬ th.Locked) : th.Settled := by
  rcases th with ⟨phase, ds⟩
  cases phase with
  | free =>
      have hm : n ∈ ds := by simpa [Thread.Branch] using hb
      exact List.ne_nil_of_mem hm
  | climb c => exact absurd trivial hl
  | mark c => exact absurd trivial hl
  | snap c => exact absurd trivial hl
  | _ => exact trivial

omit [DecidableEq Thr] in
/-- Whoever finds an inner node flagged is not the first to settle. -/
theorem Inv.settled_of_snap (h : Inv T s) (hx : Excl s) {t : Thr} {c : Node} {ds : List Node}
    (ht : s.thr t = ⟨.snap c, ds⟩) (hc : T.parent c ≠ none) : ∃ u, (s.thr u).Settled := by
  have hlocked : (s.thr t).Locked := by rw [ht]; exact trivial
  have hpath : PathOk T (s.thr t) := h.path t
  have hflag : s.flag c = true := by
    have hok := h.flagOk t
    rw [ht] at hok
    exact hok.resolve_right hc
  obtain ⟨u, hu⟩ := (h.flag_iff c).mp hflag
  have hut : u ≠ t := by
    intro e
    subst e
    rw [ht] at hu hpath
    have hm : c ∈ ds := by simpa [Thread.Branch] using hu
    exact Linked.not_mem hpath hm
  exact ⟨u, hu.settled (fun hl => hut (hx u t hl hlocked))⟩

end Chains

end LeaderTree
