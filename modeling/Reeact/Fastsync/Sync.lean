import Reeact.Lib.Run
import Mathlib.Data.BitVec
import Mathlib.Data.Fintype.Basic
import Mathlib.Logic.Function.Basic

/-!
# fastsync_mutex and fastsync_cond — the code

`fastsync_mutex.c` and `fastsync_cond.c`, one shared access a step: each
atomic operation, each plain load or store of a field that other threads
write, each futex call. `cond->seq++` is a load and a store. The field
`parent` is read along with `use_child`: no code writes it.

The two files are one model because a condition waiter sleeps, wakes and is
requeued inside the mutex. Threads call the operations in any order; the only
rule is the one the operations are written for, that a mutex is unlocked, and
waited with, by its holder. `held` is the caller's own knowledge, no code
reads it.

Not modelled: the log output, `fastsync_cond_signal_count` (which is
`fastsync_cond_signal` but for the number it reports),
`fastsync_cond_destroy`, the attributes, which nothing reads.
-/

namespace Reeact.Sync

/-- `EBUSY` of `errno.h`. -/
def EBUSY : Int := 16

/-- `FASTSYNC_MUTEX_SPIN_LOCK_LOOPS`. -/
def FASTSYNC_MUTEX_SPIN_LOCK_LOOPS : ℕ := 1

structure FastsyncMutex where
  state : BitVec 32
deriving DecidableEq, Repr

structure FastsyncCond (Mtx Cnd : Type) where
  useChild : BitVec 32
  mutex : Option Mtx
  seq : BitVec 64
  parent : Option Cnd
deriving DecidableEq, Repr

/-- `fastsync_mutex_init`, whatever the memory held before. -/
def fastsyncMutexInit (m : FastsyncMutex) : FastsyncMutex := { m with state := 0 }

/-- `fastsync_cond_init`, whatever the memory held before. -/
def fastsyncCondInit {Mtx Cnd : Type} (cond : FastsyncCond Mtx Cnd) : FastsyncCond Mtx Cnd :=
  { cond with seq := 0, mutex := none }

/-- The word a futex call on `&cond->seq` compares: the low half of `seq`. -/
def FastsyncCond.word {Mtx Cnd : Type} (cond : FastsyncCond Mtx Cnd) : BitVec 32 :=
  cond.seq.setWidth 32

/-! ## Threads -/

/-- A call, with its arguments; `none` is `NULL`. `increment m` is the
caller's own `critical_counter++` in a critical section of `m`. -/
inductive Call (Mtx Cnd : Type) where
  | lock (mutex : Option Mtx)
  | trylock (mutex : Option Mtx)
  | unlock (mutex : Option Mtx)
  | wait (cond : Option Cnd) (mutex : Option Mtx)
  | signal (cond : Option Cnd)
  | broadcast (cond : Option Cnd)
  | increment (m : Mtx)
deriving DecidableEq, Repr

/-- A futex queue: that of a mutex's `state`, or of a condition's `seq`. -/
inductive Key (Mtx Cnd : Type) where
  | mutex (m : Mtx)
  | cond (c : Cnd)
deriving DecidableEq, Repr

/-- Where a thread is. In `fastsync_mutex_unlock`, `k` tells whether the
caller is the user or `fastsync_cond_wait` on a condition, then with its
`cur_seq`. -/
inductive Pc (Mtx Cnd : Type) where
  /-- outside -/
  | idle
  /-- lock: at `atomic_for(&(mutex->state), 1)`, the `i`-th time -/
  | lockFor (m : Mtx) (i : ℕ)
  /-- lock or wait: at `atomic_xchg(&(mutex->state), 3)` -/
  | xchg (m : Mtx)
  /-- lock or wait: at `sys_futex(&(mutex->state), FUTEX_WAIT_PRIVATE, 3, ...)` -/
  | mutexWait (m : Mtx)
  /-- in a futex queue, to go on at the exchange of `m` -/
  | asleep (q : Key Mtx Cnd) (m : Mtx)
  /-- trylock: at `atomic_for(&(mutex->state), 1)` -/
  | tryFor (m : Mtx)
  /-- unlock: at the read in `mutex->state == 1` -/
  | unlockRead (m : Mtx) (k : Option (Cnd × BitVec 32))
  /-- unlock: at `atomic_cmpxchg(&(mutex->state), 1, 0)` -/
  | unlockCas (m : Mtx) (k : Option (Cnd × BitVec 32))
  /-- unlock: at `atomic_fand(&(mutex->state), 0xFFFFFFFE)` -/
  | unlockAnd (m : Mtx) (k : Option (Cnd × BitVec 32))
  /-- unlock: at the read in `mutex->state & 1`, the `i`-th time -/
  | unlockPoll (m : Mtx) (k : Option (Cnd × BitVec 32)) (i : ℕ)
  /-- unlock: at `atomic_fand(&(mutex->state), 0xFFFFFFFD)` -/
  | unlockClear (m : Mtx) (k : Option (Cnd × BitVec 32))
  /-- unlock: at `sys_futex(&(mutex->state), FUTEX_WAKE_PRIVATE, 1, ...)` -/
  | unlockWake (m : Mtx) (k : Option (Cnd × BitVec 32))
  /-- wait: at the read in `cond->mutex != mutex` -/
  | waitMutex (c : Cnd) (m : Mtx)
  /-- wait: at the read in `cond->mutex != NULL` -/
  | waitNull (c : Cnd) (m : Mtx)
  /-- wait: at `atomic_cmpxchg(&(cond->mutex), NULL, mutex)` -/
  | waitCas (c : Cnd) (m : Mtx)
  /-- wait: at the read in `!cond->use_child && cond->parent` -/
  | waitUseChild (c : Cnd) (m : Mtx)
  /-- wait: at `cond->use_child = 1`, before the call on the parent `p` -/
  | waitSetChild (c : Cnd) (m : Mtx) (p : Cnd)
  /-- wait: at the load of `cond->seq++` -/
  | waitSeqLoad (c : Cnd) (m : Mtx)
  /-- wait: at the store of `cond->seq++` -/
  | waitSeqStore (c : Cnd) (m : Mtx) (v : BitVec 64)
  /-- wait: at `sys_futex(&(cond->seq), FUTEX_REQUEUE_PRIVATE, 1, INT_MAX, mutex, 0)` -/
  | waitRequeue (c : Cnd) (m : Mtx)
  /-- wait: at `cond->use_child = 0` -/
  | waitClearChild (c : Cnd) (m : Mtx)
  /-- wait: at `cur_seq = cond->seq` -/
  | waitCurSeq (c : Cnd) (m : Mtx)
  /-- wait: at `sys_futex(&(cond->seq), FUTEX_WAIT_PRIVATE, cur_seq, ...)` -/
  | waitFutex (c : Cnd) (m : Mtx) (curSeq : BitVec 32)
  /-- signal: at `atomic_addf(&(cond->seq), 1)` -/
  | signalAdd (c : Cnd)
  /-- signal: at `sys_futex(&(cond->seq), FUTEX_WAKE_PRIVATE, 1, ...)` -/
  | signalWake (c : Cnd)
  /-- broadcast: at `atomic_addf(&(cond->seq), 1)` -/
  | broadcastAdd (c : Cnd)
  /-- broadcast: at the read in `if(cond->mutex)` -/
  | broadcastMutex (c : Cnd)
  /-- broadcast: at `sys_futex(&(cond->seq), FUTEX_REQUEUE_PRIVATE, 1, INT_MAX, cond->mutex, 0)` -/
  | broadcastRequeue (c : Cnd)
  /-- at the load of `critical_counter++` -/
  | counterLoad (m : Mtx)
  /-- at the store of `critical_counter++` -/
  | counterStore (m : Mtx) (v : ℕ)
  /-- about to return `v` to the user -/
  | ret (v : Int)
deriving DecidableEq, Repr

/-- A thread: its call, its position, the conditions whose
`fastsync_cond_wait` is suspended in the call on their parent (innermost
first), and the mutexes it knows to hold. -/
structure Thread (Mtx Cnd : Type) where
  call : Option (Call Mtx Cnd)
  pc : Pc Mtx Cnd
  frames : List Cnd
  held : Mtx → Bool

/-- What a step did, for the record of a run. -/
inductive Ev (Thr Mtx Cnd : Type) where
  | call (t : Thr) (c : Call Mtx Cnd)
  | acquire (t : Thr) (m : Mtx)
  | release (t : Thr) (m : Mtx)
  /-- the trylock of `m` found it locked -/
  | busy (t : Thr) (m : Mtx)
  | increment (t : Thr) (m : Mtx)
  /-- `t` has read `seq` of `c` in order to wait -/
  | snap (t : Thr) (c : Cnd)
  /-- `t` has moved `seq` of `c` -/
  | bump (t : Thr) (c : Cnd)
  /-- the `FUTEX_WAIT` on `c`, whether it sleeps or not -/
  | futexWait (t : Thr) (c : Cnd)
  | ret (t : Thr) (c : Option (Call Mtx Cnd)) (v : Int)
deriving DecidableEq, Repr

structure State (Thr Mtx Cnd : Type) where
  mutex : Mtx → FastsyncMutex
  cond : Cnd → FastsyncCond Mtx Cnd
  /-- `critical_counter`, an `unsigned long long`; here it does not wrap -/
  counter : Mtx → ℕ
  thr : Thr → Thread Mtx Cnd

/-- A thread makes a call, runs its next step, or its futex wait returns by
itself. Where a step wakes one sleeper, `pick` says which. -/
inductive Act (Thr Mtx Cnd : Type) where
  | call (t : Thr) (c : Call Mtx Cnd)
  | run (t : Thr) (pick : Option Thr)
  | spurious (t : Thr)
deriving DecidableEq, Repr

variable {Thr Mtx Cnd : Type} [DecidableEq Mtx] [DecidableEq Cnd]

namespace Thread

def goto (th : Thread Mtx Cnd) (pc : Pc Mtx Cnd) : Thread Mtx Cnd := { th with pc := pc }

def take (th : Thread Mtx Cnd) (m : Mtx) : Thread Mtx Cnd :=
  { th with held := Function.update th.held m true }

def drop (th : Thread Mtx Cnd) (m : Mtx) : Thread Mtx Cnd :=
  { th with held := Function.update th.held m false }

/-- Return `v` from the innermost call: to the user, or to the suspended
`fastsync_cond_wait`, which ignores it and goes on to release its node. -/
def leave (th : Thread Mtx Cnd) (m : Mtx) (v : Int) : Thread Mtx Cnd :=
  match th.frames with
  | [] => { th with pc := .ret v }
  | c :: fs => { th with pc := .waitSeqLoad c m, frames := fs }

/-- Return from `fastsync_mutex_unlock`. -/
def unlocked (th : Thread Mtx Cnd) (m : Mtx) (k : Option (Cnd × BitVec 32)) : Thread Mtx Cnd :=
  match k with
  | none => th.goto (.ret 0)
  | some (c, curSeq) => th.goto (.waitFutex c m curSeq)

end Thread

/-- The spin loop of lock, after `i` iterations. -/
def lockLoop (m : Mtx) (i : ℕ) : Pc Mtx Cnd :=
  if i < FASTSYNC_MUTEX_SPIN_LOCK_LOOPS then .lockFor m i else .xchg m

/-- The polling loop of unlock, after `i` iterations. -/
def pollLoop (m : Mtx) (k : Option (Cnd × BitVec 32)) (i : ℕ) : Pc Mtx Cnd :=
  if i < FASTSYNC_MUTEX_SPIN_LOCK_LOOPS then .unlockPoll m k i else .unlockClear m k

/-- The first step of a call, after the checks for `NULL`. -/
def Call.entry : Call Mtx Cnd → Pc Mtx Cnd
  | .lock none | .trylock none | .unlock none => .ret 1
  | .lock (some m) => lockLoop m 0
  | .trylock (some m) => .tryFor m
  | .unlock (some m) => .unlockRead m none
  | .wait none _ | .wait (some _) none => .ret 1
  | .wait (some c) (some m) => .waitMutex c m
  | .signal none | .broadcast none => .ret 1
  | .signal (some c) => .signalAdd c
  | .broadcast (some c) => .broadcastAdd c
  | .increment m => .counterLoad m

/-- Unlocking, waiting and counting are for the holder. -/
def Call.permitted (held : Mtx → Bool) : Call Mtx Cnd → Bool
  | .unlock (some m) | .wait _ (some m) | .increment m => held m
  | _ => true

namespace State

variable [DecidableEq Thr]

def setThr (s : State Thr Mtx Cnd) (t : Thr) (th : Thread Mtx Cnd) : State Thr Mtx Cnd :=
  { s with thr := Function.update s.thr t th }

def goto (s : State Thr Mtx Cnd) (t : Thr) (pc : Pc Mtx Cnd) : State Thr Mtx Cnd :=
  s.setThr t ((s.thr t).goto pc)

/-- `mutex->state = st` -/
def setMutex (s : State Thr Mtx Cnd) (m : Mtx) (st : BitVec 32) : State Thr Mtx Cnd :=
  { s with mutex := Function.update s.mutex m ⟨st⟩ }

def setCond (s : State Thr Mtx Cnd) (c : Cnd) (cond : FastsyncCond Mtx Cnd) :
    State Thr Mtx Cnd :=
  { s with cond := Function.update s.cond c cond }

def setCounter (s : State Thr Mtx Cnd) (m : Mtx) (v : ℕ) : State Thr Mtx Cnd :=
  { s with counter := Function.update s.counter m v }

/-- `u` is in the queue `q`. -/
def sleepsOn (s : State Thr Mtx Cnd) (q : Key Mtx Cnd) (u : Thr) : Bool :=
  match (s.thr u).pc with
  | .asleep q' _ => q' = q
  | _ => false

/-- `u`'s futex wait returns. -/
def wake (s : State Thr Mtx Cnd) (u : Thr) : State Thr Mtx Cnd :=
  match (s.thr u).pc with
  | .asleep _ m => s.goto u (.xchg m)
  | _ => s

/-- `FUTEX_WAKE` with 1: one sleeper leaves the queue, unless it is empty. -/
def wakeOne [Fintype Thr] (s : State Thr Mtx Cnd) (q : Key Mtx Cnd) :
    Option Thr → Option (State Thr Mtx Cnd)
  | some u => if s.sleepsOn q u then some (s.wake u) else none
  | none => if ∀ u, s.sleepsOn q u = false then some s else none

/-- The rest of the queue of `c` moves to the queue of `m`. -/
def moveAll (s : State Thr Mtx Cnd) (c : Cnd) (m : Mtx) : State Thr Mtx Cnd :=
  { s with thr := fun u =>
      match (s.thr u).pc with
      | .asleep q m' =>
          if q = .cond c then (s.thr u).goto (.asleep (.mutex m) m') else s.thr u
      | _ => s.thr u }

/-- `FUTEX_REQUEUE` with 1 and `INT_MAX`, from `&cond->seq` to the mutex. -/
def requeue [Fintype Thr] (s : State Thr Mtx Cnd) (c : Cnd) (m : Mtx) (pick : Option Thr) :
    Option (State Thr Mtx Cnd) :=
  (s.wakeOne (.cond c) pick).map (fun s' => s'.moveAll c m)

end State

variable [DecidableEq Thr] [Fintype Thr]

/-- The next step of a thread inside a call. -/
def run (s : State Thr Mtx Cnd) (t : Thr) (pick : Option Thr) :
    Option (State Thr Mtx Cnd × List (Ev Thr Mtx Cnd)) :=
  let th := s.thr t
  match th.pc with
  | .idle => none
  | .lockFor m i =>
      let st := (s.mutex m).state
      let s := s.setMutex m (st ||| 1)
      if st &&& 1 = 0 then some (s.setThr t ((th.take m).goto (.ret 0)), [.acquire t m])
      else some (s.goto t (lockLoop m (i + 1)), [])
  | .xchg m =>
      let st := (s.mutex m).state
      let s := s.setMutex m 3
      if st &&& 1 = 0 then some (s.setThr t ((th.take m).leave m 0), [.acquire t m])
      else some (s.goto t (.mutexWait m), [])
  | .mutexWait m =>
      if (s.mutex m).state = 3 then some (s.goto t (.asleep (.mutex m) m), [])
      else some (s.goto t (.xchg m), [])
  | .asleep _ _ => none
  | .tryFor m =>
      let st := (s.mutex m).state
      let s := s.setMutex m (st ||| 1)
      if st &&& 1 = 0 then some (s.setThr t ((th.take m).goto (.ret 0)), [.acquire t m])
      else some (s.goto t (.ret EBUSY), [.busy t m])
  | .unlockRead m k =>
      if (s.mutex m).state = 1 then some (s.goto t (.unlockCas m k), [])
      else some (s.goto t (.unlockAnd m k), [])
  | .unlockCas m k =>
      if (s.mutex m).state = 1 then
        some ((s.setMutex m 0).setThr t ((th.drop m).unlocked m k), [.release t m])
      else some (s.goto t (.unlockAnd m k), [])
  | .unlockAnd m k =>
      some ((s.setMutex m ((s.mutex m).state &&& 0xFFFFFFFE)).setThr t
        ((th.drop m).goto (pollLoop m k 0)), [.release t m])
  | .unlockPoll m k i =>
      if (s.mutex m).state &&& 1 = 0 then some (s.goto t (pollLoop m k (i + 1)), [])
      else some (s.setThr t (th.unlocked m k), [])
  | .unlockClear m k =>
      some ((s.setMutex m ((s.mutex m).state &&& 0xFFFFFFFD)).goto t (.unlockWake m k), [])
  | .unlockWake m k =>
      (s.wakeOne (.mutex m) pick).map (fun s => (s.setThr t (th.unlocked m k), []))
  | .waitMutex c m =>
      if (s.cond c).mutex = some m then some (s.goto t (.waitUseChild c m), [])
      else some (s.goto t (.waitNull c m), [])
  | .waitNull c m =>
      if (s.cond c).mutex = none then some (s.goto t (.waitCas c m), [])
      else some (s.setThr t (th.leave m 2), [])
  | .waitCas c m =>
      if (s.cond c).mutex = none then
        some ((s.setCond c { s.cond c with mutex := some m }).goto t (.waitUseChild c m), [])
      else some (s.setThr t (th.leave m 2), [])
  | .waitUseChild c m =>
      if (s.cond c).useChild = 0 then
        match (s.cond c).parent with
        | some p => some (s.goto t (.waitSetChild c m p), [])
        | none => some (s.goto t (.waitCurSeq c m), [])
      else some (s.goto t (.waitCurSeq c m), [])
  | .waitSetChild c m p =>
      some ((s.setCond c { s.cond c with useChild := 1 }).setThr t
        { th with pc := .waitMutex p m, frames := c :: th.frames }, [])
  | .waitSeqLoad c m => some (s.goto t (.waitSeqStore c m (s.cond c).seq), [])
  | .waitSeqStore c m v =>
      some ((s.setCond c { s.cond c with seq := v + 1 }).goto t (.waitRequeue c m), [.bump t c])
  | .waitRequeue c m =>
      (s.requeue c m pick).map (fun s => (s.goto t (.waitClearChild c m), []))
  | .waitClearChild c m =>
      some ((s.setCond c { s.cond c with useChild := 0 }).setThr t (th.leave m 0), [])
  | .waitCurSeq c m =>
      some (s.goto t (.unlockRead m (some (c, (s.cond c).word))), [.snap t c])
  | .waitFutex c m curSeq =>
      if (s.cond c).word = curSeq then
        some (s.goto t (.asleep (.cond c) m), [.futexWait t c])
      else some (s.goto t (.xchg m), [.futexWait t c])
  | .signalAdd c =>
      some ((s.setCond c { s.cond c with seq := (s.cond c).seq + 1 }).goto t (.signalWake c),
        [.bump t c])
  | .signalWake c => (s.wakeOne (.cond c) pick).map (fun s => (s.goto t (.ret 0), []))
  | .broadcastAdd c =>
      some ((s.setCond c { s.cond c with seq := (s.cond c).seq + 1 }).goto t
        (.broadcastMutex c), [.bump t c])
  | .broadcastMutex c =>
      match (s.cond c).mutex with
      | some _ => some (s.goto t (.broadcastRequeue c), [])
      | none => some (s.goto t (.ret 0), [])
  | .broadcastRequeue c =>
      match (s.cond c).mutex with
      | some m => (s.requeue c m pick).map (fun s => (s.goto t (.ret 0), []))
      | none => some (s.goto t (.ret 0), [])
  | .counterLoad m => some (s.goto t (.counterStore m (s.counter m)), [])
  | .counterStore m v => some ((s.setCounter m (v + 1)).goto t (.ret 0), [.increment t m])
  | .ret v => some (s.setThr t { th with pc := .idle, call := none }, [.ret t th.call v])

def step (s : State Thr Mtx Cnd) :
    Act Thr Mtx Cnd → Option (State Thr Mtx Cnd × List (Ev Thr Mtx Cnd))
  | .call t c =>
      if (s.thr t).pc = .idle ∧ c.permitted (s.thr t).held then
        some (s.setThr t { s.thr t with pc := c.entry, call := some c }, [.call t c])
      else none
  | .run t pick => run s t pick
  | .spurious t =>
      match (s.thr t).pc with
      | .asleep _ _ => some (s.wake t, [])
      | _ => none

end Reeact.Sync
