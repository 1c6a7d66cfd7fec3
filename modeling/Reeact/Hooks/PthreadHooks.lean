import Reeact.Lib.Exits

/-!
# pthread_hooks — the code

`pthread_hooks.c`, the hooks `pthread_create`, `pthread_barrier_*`,
`pthread_mutex_*` and `pthread_cond_*`, and the default policy of
`reeact_policy.c`. Each hook passes its arguments on to the policy, and the
default policy to the original function, through a pointer that is `NULL`
until `reeact_pthread_hooks_init` has run; the hooks of lock and unlock look
their function up themselves when they find it `NULL`. A call through `NULL`
leaves by `nullCall`.

The dynamic linker and what the original functions do are parameters. Not
modelled: the log output, the casts, and a policy other than the default.
-/

namespace Reeact.Hooks

open Exits

/-- The originals, one pointer `real_pthread_*` each. -/
inductive Fn where
  | create
  | barrierInit
  | barrierWait
  | barrierDestroy
  | mutexInit
  | mutexLock
  | mutexTrylock
  | mutexTimedlock
  | mutexUnlock
  | mutexConsistent
  | mutexDestroy
  | condInit
  | condDestroy
  | condSignal
  | condBroadcast
  | condWait
  | condTimedwait
deriving DecidableEq, Repr

/-- The dynamic linker: the definition of a name that comes after this
library's own, what `dlerror` says of a name without one, and whether it still
does after a `dlsym` that succeeds (that of glibc does not); and what a call
does to the rest of the process. -/
structure Linker (Ptr Arg World : Type) where
  next : String → Option Ptr
  message : String → String
  keepsError : Bool
  call : Ptr → List Arg → World → Int × World

/-- The pointers, the error `dlerror` would report, the rest of the process. -/
structure State (Ptr World : Type) where
  real : Fn → Option Ptr
  error : Option String
  world : World

inductive Exit where
  | nullCall
deriving DecidableEq, Repr

abbrev Prog (Ptr World : Type) := EStateM Exit (State Ptr World)

variable {Ptr Arg World : Type} (L : Linker Ptr Arg World)

/-- The error after a `dlsym` of the name, if it was `error` before. -/
def Linker.errorAfter (name : String) (error : Option String) : Option String :=
  match L.next name with
  | some _ => if L.keepsError then error else none
  | none => some (L.message name)

/-- `dlsym(RTLD_NEXT, name)` -/
def dlsym (name : String) : Prog Ptr World (Option Ptr) := do
  modify fun s => { s with error := L.errorAfter name s.error }
  pure (L.next name)

/-- The most recent error, once. -/
def dlerror : Prog Ptr World (Option String) := do
  let s ← get
  set { s with error := none }
  pure s.error

def State.setReal (s : State Ptr World) (f : Fn) (p : Option Ptr) : State Ptr World :=
  { s with real := Function.update s.real f p }

/-- `real_f = dlsym(RTLD_NEXT, name)` -/
def lookUp (f : Fn) (name : String) : Prog Ptr World Unit := do
  let p ← dlsym L name
  modify fun s => s.setReal f p

/-- The lookups of `reeact_pthread_hooks_init`, in order. -/
def lookups : List (Fn × String) :=
  [(.create, "pthread_create"),
    (.barrierInit, "pthread_barrier_init"),
    (.barrierWait, "pthread_barrier_wait"),
    (.barrierDestroy, "pthread_barrier_destroy"),
    (.mutexInit, "pthread_mutex_init"),
    (.mutexLock, "pthread_mutex_lock"),
    (.mutexTrylock, "pthread_mutex_trylock"),
    (.mutexUnlock, "pthread_mutex_unlock"),
    (.mutexConsistent, "pthread_mutex_consistent"),
    (.mutexDestroy, "pthread_mutex_destroy"),
    (.mutexTimedlock, "pthread_mutex_timedlock"),
    (.condInit, "pthread_cond_init"),
    (.condDestroy, "pthread_cond_destroy"),
    (.condSignal, "pthread_cond_signal"),
    (.condBroadcast, "pthread_cond_broadcast"),
    (.condWait, "pthread_cond_wait"),
    (.condTimedwait, "pthread_cond_timedwait")]

/-- `REEACT_PTHREAD_HOOKS_ERR_LOAD_ORIGINAL_FUNCTION` -/
def REEACT_PTHREAD_HOOKS_ERR_LOAD_ORIGINAL_FUNCTION : Int := 1

def reeactPthreadHooksInit : Prog Ptr World Int := do
  let _ ← dlerror
  lookups.forM fun l => lookUp L l.1 l.2
  match ← dlerror with
  | some _ => pure REEACT_PTHREAD_HOOKS_ERR_LOAD_ORIGINAL_FUNCTION
  | none => pure 0

def reeactPthreadHooksCleanup : Prog Ptr World Int := pure 0

/-! ## The default policy -/

/-- `return real_f(args)` -/
def callReal (f : Fn) (args : List Arg) : Prog Ptr World Int := do
  let s ← get
  match s.real f with
  | none => throw .nullCall
  | some p =>
      let r := L.call p args s.world
      set { s with world := r.2 }
      pure r.1

/-- The same, after `if(real_f == NULL) real_f = dlsym(RTLD_NEXT, name)`. -/
def callRealLate (f : Fn) (name : String) (args : List Arg) : Prog Ptr World Int := do
  if (← get).real f |>.isNone then
    lookUp L f name
  callReal L f args

def reeactPolicyPthreadCreate (thread attr startRoutine arg : Arg) : Prog Ptr World Int :=
  callReal L .create [thread, attr, startRoutine, arg]

def reeactPolicyPthreadBarrierInit (barrier attr count : Arg) : Prog Ptr World Int :=
  callReal L .barrierInit [barrier, attr, count]

def reeactPolicyPthreadBarrierWait (barrier : Arg) : Prog Ptr World Int :=
  callReal L .barrierWait [barrier]

def reeactPolicyPthreadBarrierDestroy (barrier : Arg) : Prog Ptr World Int :=
  callReal L .barrierDestroy [barrier]

def reeactPolicyPthreadMutexInit (mutex attr : Arg) : Prog Ptr World Int :=
  callReal L .mutexInit [mutex, attr]

def reeactPolicyPthreadMutexLock (mutex : Arg) : Prog Ptr World Int :=
  callRealLate L .mutexLock "pthread_mutex_lock" [mutex]

def reeactPolicyPthreadMutexTrylock (mutex : Arg) : Prog Ptr World Int :=
  callReal L .mutexTrylock [mutex]

def reeactPolicyPthreadMutexTimedlock (mutex absTimeout : Arg) : Prog Ptr World Int :=
  callReal L .mutexTimedlock [mutex, absTimeout]

def reeactPolicyPthreadMutexUnlock (mutex : Arg) : Prog Ptr World Int :=
  callRealLate L .mutexUnlock "pthread_mutex_unlock" [mutex]

def reeactPolicyPthreadMutexConsistent (mutex : Arg) : Prog Ptr World Int :=
  callReal L .mutexConsistent [mutex]

def reeactPolicyPthreadMutexDestroy (mutex : Arg) : Prog Ptr World Int :=
  callReal L .mutexDestroy [mutex]

def reeactPolicyPthreadCondInit (cond attr : Arg) : Prog Ptr World Int :=
  callReal L .condInit [cond, attr]

def reeactPolicyPthreadCondSignal (cond : Arg) : Prog Ptr World Int :=
  callReal L .condSignal [cond]

def reeactPolicyPthreadCondBroadcast (cond : Arg) : Prog Ptr World Int :=
  callReal L .condBroadcast [cond]

def reeactPolicyPthreadCondDestroy (cond : Arg) : Prog Ptr World Int :=
  callReal L .condDestroy [cond]

def reeactPolicyPthreadCondWait (cond mutex : Arg) : Prog Ptr World Int :=
  callReal L .condWait [cond, mutex]

def reeactPolicyPthreadCondTimedwait (cond mutex abstime : Arg) : Prog Ptr World Int :=
  callReal L .condTimedwait [cond, mutex, abstime]

/-! ## The hooks -/

/-- A call of a hooked function, with its arguments. -/
inductive HookCall (Arg : Type) where
  | create (thread attr startRoutine arg : Arg)
  | barrierInit (barrier attr count : Arg)
  | barrierWait (barrier : Arg)
  | barrierDestroy (barrier : Arg)
  | mutexInit (mutex attr : Arg)
  | mutexLock (mutex : Arg)
  | mutexTrylock (mutex : Arg)
  | mutexTimedlock (mutex absTimeout : Arg)
  | mutexUnlock (mutex : Arg)
  | mutexConsistent (mutex : Arg)
  | mutexDestroy (mutex : Arg)
  | condInit (cond condAttr : Arg)
  | condDestroy (cond : Arg)
  | condSignal (cond : Arg)
  | condBroadcast (cond : Arg)
  | condWait (cond mutex : Arg)
  | condTimedwait (cond mutex abstime : Arg)
deriving DecidableEq, Repr

/-- The hook's body. -/
def HookCall.hook : HookCall Arg → Prog Ptr World Int
  | .create thread attr startRoutine arg => reeactPolicyPthreadCreate L thread attr startRoutine arg
  | .barrierInit barrier attr count => reeactPolicyPthreadBarrierInit L barrier attr count
  | .barrierWait barrier => reeactPolicyPthreadBarrierWait L barrier
  | .barrierDestroy barrier => reeactPolicyPthreadBarrierDestroy L barrier
  | .mutexInit mutex attr => reeactPolicyPthreadMutexInit L mutex attr
  | .mutexLock mutex => reeactPolicyPthreadMutexLock L mutex
  | .mutexTrylock mutex => reeactPolicyPthreadMutexTrylock L mutex
  | .mutexTimedlock mutex absTimeout => reeactPolicyPthreadMutexTimedlock L mutex absTimeout
  | .mutexUnlock mutex => reeactPolicyPthreadMutexUnlock L mutex
  | .mutexConsistent mutex => reeactPolicyPthreadMutexConsistent L mutex
  | .mutexDestroy mutex => reeactPolicyPthreadMutexDestroy L mutex
  | .condInit cond condAttr => reeactPolicyPthreadCondInit L cond condAttr
  | .condDestroy cond => reeactPolicyPthreadCondDestroy L cond
  | .condSignal cond => reeactPolicyPthreadCondSignal L cond
  | .condBroadcast cond => reeactPolicyPthreadCondBroadcast L cond
  | .condWait cond mutex => reeactPolicyPthreadCondWait L cond mutex
  | .condTimedwait cond mutex abstime => reeactPolicyPthreadCondTimedwait L cond mutex abstime

/-- What the process does: the library's constructor runs, or a hooked
function is called, from the constructors of other libraries on. -/
inductive Act (Arg : Type) where
  | init
  | call (c : HookCall Arg)
deriving DecidableEq, Repr

/-- The process with the library: the values its calls return. -/
def hooked : List (Act Arg) → Prog Ptr World (List Int)
  | [] => pure []
  | .init :: as => do
      let _ ← reeactPthreadHooksInit L
      hooked as
  | .call c :: as => do
      let v ← c.hook L
      let vs ← hooked as
      pure (v :: vs)

/-! ## The process without the library -/

/-- What the program has called: the name and the arguments. -/
def HookCall.original : HookCall Arg → String × List Arg
  | .create thread attr startRoutine arg => ("pthread_create", [thread, attr, startRoutine, arg])
  | .barrierInit barrier attr count => ("pthread_barrier_init", [barrier, attr, count])
  | .barrierWait barrier => ("pthread_barrier_wait", [barrier])
  | .barrierDestroy barrier => ("pthread_barrier_destroy", [barrier])
  | .mutexInit mutex attr => ("pthread_mutex_init", [mutex, attr])
  | .mutexLock mutex => ("pthread_mutex_lock", [mutex])
  | .mutexTrylock mutex => ("pthread_mutex_trylock", [mutex])
  | .mutexTimedlock mutex absTimeout => ("pthread_mutex_timedlock", [mutex, absTimeout])
  | .mutexUnlock mutex => ("pthread_mutex_unlock", [mutex])
  | .mutexConsistent mutex => ("pthread_mutex_consistent", [mutex])
  | .mutexDestroy mutex => ("pthread_mutex_destroy", [mutex])
  | .condInit cond condAttr => ("pthread_cond_init", [cond, condAttr])
  | .condDestroy cond => ("pthread_cond_destroy", [cond])
  | .condSignal cond => ("pthread_cond_signal", [cond])
  | .condBroadcast cond => ("pthread_cond_broadcast", [cond])
  | .condWait cond mutex => ("pthread_cond_wait", [cond, mutex])
  | .condTimedwait cond mutex abstime => ("pthread_cond_timedwait", [cond, mutex, abstime])

/-- The same program, linked to the originals: `none` if one of them is
missing. -/
def unhooked : List (Act Arg) → World → Option (List Int × World)
  | [], w => some ([], w)
  | .init :: as, w => unhooked as w
  | .call c :: as, w => do
      let p ← L.next c.original.1
      let r := L.call p c.original.2 w
      let rest ← unhooked as r.2
      pure (r.1 :: rest.1, rest.2)

end Reeact.Hooks
