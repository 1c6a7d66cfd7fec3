import Reeact.Lib.Packed
import Reeact.Lib.Run
import Mathlib.Logic.Function.Basic

/-!
# fastsync_barrier — the code

`fastsync_barrier.c`, one shared access a step: each atomic add, each read
of `seq`, each 64-bit store to `reset` and each futex call. Local work
(comparisons, calls, returns between the two wait functions) rides along
with the shared access before it. The build is the Makefile's:
`_FUTEX_BARRIER_` is defined.

Not modelled: the NULL check of `fastsync_barrier_init` (every barrier here
exists), `padding`, the debug output, `fastsync_barrier_destroy`.
-/

namespace Reeact.Barrier

open Transition

/-- `PTHREAD_BARRIER_SERIAL_THREAD` of `pthread.h`. -/
def PTHREAD_BARRIER_SERIAL_THREAD : Int := -1

/-- `struct _fastsync_barrier`. The union member `reset` is the stored word;
`seq` and `waiting` are its halves. -/
structure FastsyncBarrier (Node : Type) where
  reset : BitVec 64
  totalCount : BitVec 32
  parentBar : Option Node
deriving DecidableEq, Repr

namespace FastsyncBarrier

variable {Node : Type}

def seq (bar : FastsyncBarrier Node) : BitVec 32 := Packed.lo bar.reset

def waiting (bar : FastsyncBarrier Node) : BitVec 32 := Packed.hi bar.reset

/-- The memory effect of `atomic_addf(&(barrier->waiting), inc)`. -/
def addWaiting (bar : FastsyncBarrier Node) (inc : BitVec 32) : FastsyncBarrier Node :=
  { bar with reset := Packed.withHi bar.reset (bar.waiting + inc) }

/-- `barrier->reset = v`. -/
def storeReset (bar : FastsyncBarrier Node) (v : BitVec 64) : FastsyncBarrier Node :=
  { bar with reset := v }

@[simp] theorem addWaiting_seq (bar : FastsyncBarrier Node) (inc : BitVec 32) :
    (bar.addWaiting inc).seq = bar.seq := Packed.lo_withHi _ _

@[simp] theorem addWaiting_waiting (bar : FastsyncBarrier Node) (inc : BitVec 32) :
    (bar.addWaiting inc).waiting = bar.waiting + inc := Packed.hi_withHi _ _

@[simp] theorem addWaiting_totalCount (bar : FastsyncBarrier Node) (inc : BitVec 32) :
    (bar.addWaiting inc).totalCount = bar.totalCount := rfl

@[simp] theorem addWaiting_parentBar (bar : FastsyncBarrier Node) (inc : BitVec 32) :
    (bar.addWaiting inc).parentBar = bar.parentBar := rfl

@[simp] theorem storeReset_seq (bar : FastsyncBarrier Node) (v : BitVec 32) :
    (bar.storeReset (v.setWidth 64)).seq = v := Packed.lo_setWidth v

@[simp] theorem storeReset_waiting (bar : FastsyncBarrier Node) (v : BitVec 32) :
    (bar.storeReset (v.setWidth 64)).waiting = 0 := Packed.hi_setWidth v

@[simp] theorem storeReset_totalCount (bar : FastsyncBarrier Node) (v : BitVec 64) :
    (bar.storeReset v).totalCount = bar.totalCount := rfl

@[simp] theorem storeReset_parentBar (bar : FastsyncBarrier Node) (v : BitVec 64) :
    (bar.storeReset v).parentBar = bar.parentBar := rfl

end FastsyncBarrier

/-- `fastsync_barrier_init`, whatever the memory held before. -/
def fastsyncBarrierInit {Node : Type} (barrier : FastsyncBarrier Node)
    (count : BitVec 32) : FastsyncBarrier Node :=
  { barrier with totalCount := count, reset := 0, parentBar := none }

/-! ## Threads -/

/-- Where a thread is; `b` is the barrier of its innermost call. -/
inductive Pc (Node : Type) where
  /-- outside `fastsync_barrier_wait` -/
  | out
  /-- at `int cur_seq = atomic_read(barrier->seq)` -/
  | readSeq (b : Node) (inc : BitVec 32)
  /-- at `int count = atomic_addf(&(barrier->waiting), inc)` -/
  | addWaiting (b : Node) (inc curSeq : BitVec 32)
  /-- at `while (cur_seq == atomic_read(barrier->seq))` -/
  | spin (b : Node) (curSeq : BitVec 32)
  /-- at `sys_futex(&barrier->seq, FUTEX_WAIT_PRIVATE, cur_seq, ...)` -/
  | futexWait (b : Node) (curSeq : BitVec 32)
  /-- in the futex queue of `&barrier->seq` -/
  | asleep (b : Node) (curSeq : BitVec 32)
  /-- at the read in `barrier->reset = barrier->seq + 1` -/
  | loadSeq (b : Node)
  /-- at the store in `barrier->reset = barrier->seq + 1` -/
  | storeReset (b : Node) (v : BitVec 64)
  /-- at `sys_futex(&barrier->seq, FUTEX_WAKE_PRIVATE, INT_MAX, ...)` -/
  | futexWake (b : Node)
  /-- about to return `v` from `fastsync_barrier_wait` -/
  | ret (v : Int)
deriving DecidableEq, Repr

/-- A thread: its position, and the barriers whose call is suspended in
`fastsynt_barrier_wait_interproc` on the parent, innermost first. The
innermost call is `fastsync_barrier_wait` exactly when none is suspended. -/
structure Thread (Node : Type) where
  pc : Pc Node
  frames : List Node
deriving DecidableEq, Repr

/-- What a step did, for the record of a run. `via` names the barrier whose
call made an arrival on its parent. -/
inductive Ev (Node Thr : Type) where
  | call (t : Thr)
  | arrive (t : Thr) (b : Node) (via : Option Node) (inc : BitVec 32)
  | fallThrough (t : Thr) (b : Node)
  | reset (t : Thr) (b : Node)
  | wake (t : Thr) (b : Node)
  | ret (t : Thr) (v : Int)
deriving DecidableEq, Repr

structure State (Node Thr : Type) where
  bar : Node → FastsyncBarrier Node
  thr : Thr → Thread Node

/-- A thread runs its next step, or its futex wait returns by itself. -/
inductive Act (Thr : Type) where
  | run (t : Thr)
  | spurious (t : Thr)
deriving DecidableEq, Repr

variable {Node Thr : Type} [DecidableEq Node] [DecidableEq Thr]

namespace State

def setThr (s : State Node Thr) (t : Thr) (th : Thread Node) : State Node Thr :=
  { s with thr := Function.update s.thr t th }

def setBar (s : State Node Thr) (b : Node) (bar : FastsyncBarrier Node) :
    State Node Thr :=
  { s with bar := Function.update s.bar b bar }

/-- `FUTEX_WAKE` with `INT_MAX`: every thread in the queue of `b` leaves it
and rechecks its loop condition. -/
def wakeAll (s : State Node Thr) (b : Node) : State Node Thr :=
  { s with thr := fun u =>
      match (s.thr u).pc with
      | .asleep b' curSeq =>
          if b' = b then ⟨.spin b curSeq, (s.thr u).frames⟩ else s.thr u
      | _ => s.thr u }

end State

/-- Return from the innermost call: `fastsync_barrier_wait` gives `v` to its
caller; `fastsynt_barrier_wait_interproc` gives 0, which is ignored, and the
suspended call goes on to its reset. -/
def leave (frames : List Node) (v : Int) : Thread Node :=
  match frames with
  | [] => ⟨.ret v, []⟩
  | c :: fs => ⟨.loadSeq c, fs⟩

/-- The last arrival waits for the parent barrier, or resets at once. -/
def climb (bar : FastsyncBarrier Node) (b : Node) (count : BitVec 32)
    (frames : List Node) : Thread Node :=
  match bar.parentBar with
  | some p => ⟨.readSeq p count, b :: frames⟩
  | none => ⟨.loadSeq b, frames⟩

/-- What follows the atomic add, by the new `count`. -/
def afterAdd (bar : FastsyncBarrier Node) (b : Node) (count curSeq : BitVec 32)
    (frames : List Node) : Thread Node :=
  if count = bar.totalCount then climb bar b count frames
  else if count < bar.totalCount then ⟨.spin b curSeq, frames⟩
  else leave frames 1

/-- One iteration of the wait loop. Only the base level blocks: the
inter-processor version spins. -/
def spinStep (bar : FastsyncBarrier Node) (b : Node) (curSeq : BitVec 32)
    (frames : List Node) : Thread Node :=
  if curSeq = bar.seq then
    match frames with
    | [] => ⟨.futexWait b curSeq, []⟩
    | c :: fs => ⟨.spin b curSeq, c :: fs⟩
  else leave frames 0

/-- What follows the reset. Only the base level wakes, and only if other
threads use the barrier. -/
def afterReset (bar : FastsyncBarrier Node) (b : Node) (frames : List Node) :
    Thread Node :=
  match frames with
  | [] => if 1 < bar.totalCount then ⟨.futexWake b, []⟩
          else ⟨.ret PTHREAD_BARRIER_SERIAL_THREAD, []⟩
  | c :: fs => leave (c :: fs) 0

/-- One step of `fastsync_barrier_wait` and of the
`fastsynt_barrier_wait_interproc` calls inside it; `home t` is the barrier
thread `t` waits at. -/
def step (home : Thr → Node) (s : State Node Thr) :
    Act Thr → Option (State Node Thr × List (Ev Node Thr))
  | .spurious t =>
      match (s.thr t).pc with
      | .asleep b curSeq => some (s.setThr t ⟨.spin b curSeq, (s.thr t).frames⟩, [])
      | _ => none
  | .run t =>
      let frames := (s.thr t).frames
      match (s.thr t).pc with
      | .out => some (s.setThr t ⟨.readSeq (home t) 1, []⟩, [.call t])
      | .readSeq b inc =>
          some (s.setThr t ⟨.addWaiting b inc (s.bar b).seq, frames⟩, [])
      | .addWaiting b inc curSeq =>
          let bar := (s.bar b).addWaiting inc
          some ((s.setBar b bar).setThr t (afterAdd bar b bar.waiting curSeq frames),
            .arrive t b frames.head? inc ::
              if bar.waiting ≤ bar.totalCount then [] else [.fallThrough t b])
      | .spin b curSeq =>
          some (s.setThr t (spinStep (s.bar b) b curSeq frames), [])
      | .futexWait b curSeq =>
          if (s.bar b).seq = curSeq then some (s.setThr t ⟨.asleep b curSeq, frames⟩, [])
          else some (s.setThr t ⟨.spin b curSeq, frames⟩, [])
      | .asleep _ _ => none
      | .loadSeq b =>
          some (s.setThr t ⟨.storeReset b (((s.bar b).seq + 1).setWidth 64), frames⟩, [])
      | .storeReset b v =>
          some ((s.setBar b ((s.bar b).storeReset v)).setThr t
            (afterReset (s.bar b) b frames), [.reset t b])
      | .futexWake b =>
          some ((s.wakeAll b).setThr t ⟨.ret PTHREAD_BARRIER_SERIAL_THREAD, []⟩,
            [.wake t b])
      | .ret v => some (s.setThr t ⟨.out, []⟩, [.ret t v])

end Reeact.Barrier
