import Reeact.Hooks.PthreadHooksLaws
import Reeact.Lib.Run

/-!
# pthread_hooks — many threads

The hooks and `reeact_pthread_hooks_init` in a process whose threads run while
the pointers are set: one access to a pointer a step, and no lock protects
them. Two threads may look the same function up, and the constructor may still
be at it. What an original does and when it returns is left open, so that it
may block. The error `dlerror` reports is the thread's own.

Seen from outside it makes no difference (`threads_transparent`): the
pointers are only ever set to what the linker has for their names.
-/

namespace Reeact.Hooks.Threads

open Exits Transition

/-- Where a thread is. -/
inductive Pc (Ptr Arg : Type) where
  /-- outside -/
  | idle
  /-- lock or unlock: at the read in `real_f == NULL` -/
  | check (c : HookCall Arg)
  /-- lock or unlock: at `real_f = dlsym(RTLD_NEXT, name)` -/
  | assign (c : HookCall Arg)
  /-- at the read in `return real_f(args)` -/
  | fetch (c : HookCall Arg)
  /-- has called `NULL` -/
  | crashed (c : HookCall Arg)
  /-- in the original -/
  | inside (c : HookCall Arg) (p : Ptr)
  /-- about to return `v` -/
  | exited (c : HookCall Arg) (v : Int)
  /-- `reeact_pthread_hooks_init`: these lookups are left -/
  | init (ls : List (Fn × String))
deriving DecidableEq, Repr

structure Thread (Ptr Arg : Type) where
  pc : Pc Ptr Arg
  error : Option String
deriving DecidableEq, Repr

structure State (Thr Ptr Arg : Type) where
  real : Fn → Option Ptr
  thr : Thr → Thread Ptr Arg

inductive Ev (Thr Ptr Arg : Type) where
  | call (t : Thr) (c : HookCall Arg)
  | enter (t : Thr) (p : Ptr) (args : List Arg)
  | exit (t : Thr) (v : Int)
  | ret (t : Thr) (c : HookCall Arg) (v : Int)
  /-- a call through `NULL` -/
  | null (t : Thr) (c : HookCall Arg)
  /-- `reeact_pthread_hooks_init` has returned `v` -/
  | ready (t : Thr) (v : Int)
deriving DecidableEq, Repr

/-- A thread calls a hooked function, or runs the constructor; it runs its
next step; the original it is in returns `v`. -/
inductive Act (Thr Arg : Type) where
  | call (t : Thr) (c : HookCall Arg)
  | init (t : Thr)
  | run (t : Thr)
  | exit (t : Thr) (v : Int)
deriving DecidableEq, Repr

variable {Thr Ptr Arg World : Type} [DecidableEq Thr]

namespace State

def setThr (s : State Thr Ptr Arg) (t : Thr) (th : Thread Ptr Arg) : State Thr Ptr Arg :=
  { s with thr := Function.update s.thr t th }

def goto (s : State Thr Ptr Arg) (t : Thr) (pc : Pc Ptr Arg) : State Thr Ptr Arg :=
  s.setThr t { s.thr t with pc := pc }

/-- `t` does `real_f = dlsym(RTLD_NEXT, name)` and goes on at `pc`. -/
def lookUp (L : Linker Ptr Arg World) (s : State Thr Ptr Arg) (t : Thr) (f : Fn) (name : String)
    (pc : Pc Ptr Arg) : State Thr Ptr Arg where
  real := Function.update s.real f (L.next name)
  thr := Function.update s.thr t ⟨pc, L.errorAfter name (s.thr t).error⟩

end State

/-- The hook's first access. -/
def entry (c : HookCall Arg) : Pc Ptr Arg := if c.fn.late then .check c else .fetch c

variable (L : Linker Ptr Arg World)

def run (s : State Thr Ptr Arg) (t : Thr) : Option (State Thr Ptr Arg × List (Ev Thr Ptr Arg)) :=
  match (s.thr t).pc with
  | .check c => some (s.goto t (if (s.real c.fn).isNone then .assign c else .fetch c), [])
  | .assign c => some (s.lookUp L t c.fn c.fn.symbol (.fetch c), [])
  | .fetch c =>
      match s.real c.fn with
      | none => some (s.goto t (.crashed c), [.null t c])
      | some p => some (s.goto t (.inside c p), [.enter t p c.original.2])
  | .exited c v => some (s.goto t .idle, [.ret t c v])
  | .init (l :: ls) => some (s.lookUp L t l.1 l.2 (.init ls), [])
  | .init [] =>
      some (s.setThr t ⟨.idle, none⟩, [.ready t
        (if (s.thr t).error.isSome then REEACT_PTHREAD_HOOKS_ERR_LOAD_ORIGINAL_FUNCTION else 0)])
  | _ => none

def step (s : State Thr Ptr Arg) :
    Act Thr Arg → Option (State Thr Ptr Arg × List (Ev Thr Ptr Arg))
  | .call t c =>
      match (s.thr t).pc with
      | .idle => some (s.goto t (entry c), [.call t c])
      | _ => none
  | .init t =>
      match (s.thr t).pc with
      | .idle => some (s.setThr t ⟨.init lookups, none⟩, [])
      | _ => none
  | .run t => run L s t
  | .exit t v =>
      match (s.thr t).pc with
      | .inside c _ => some (s.goto t (.exited c v), [.exit t v])
      | _ => none

/-- A process that starts. -/
def State.start : State Thr Ptr Arg := ⟨fun _ => none, fun _ => ⟨.idle, none⟩⟩

abbrev Runs : List (Ev Thr Ptr Arg) → State Thr Ptr Arg → Prop :=
  Run (Does (step L)) State.start

variable {L}

/-! ## The pointers -/

/-- Once it is the linker's, a pointer stays so. -/
def Grows (L : Linker Ptr Arg World) (real real' : Fn → Option Ptr) : Prop :=
  ∀ f, real f = L.next f.symbol → real' f = L.next f.symbol

/-- What a thread can rely on at its position. -/
def ThreadOk (L : Linker Ptr Arg World) (real : Fn → Option Ptr) (th : Thread Ptr Arg) : Prop :=
  match th.pc with
  | .check c | .assign c => c.fn.late = true
  | .fetch c => c.fn.late = true → real c.fn = L.next c.fn.symbol
  | .init ls => ∃ pre, lookups = pre ++ ls ∧ (∀ l ∈ pre, real l.1 = L.next l.1.symbol) ∧
      (th.error = none ↔ L.Silent pre)
  | _ => True

theorem ThreadOk.mono {real real' : Fn → Option Ptr} {th : Thread Ptr Arg}
    (h : ThreadOk L real th) (hg : Grows L real real') : ThreadOk L real' th := by
  rcases th with ⟨pc, error⟩
  cases pc with
  | fetch c => exact fun hlate => hg c.fn (h hlate)
  | init ls =>
      obtain ⟨pre, hpre, hreal, herror⟩ := h
      exact ⟨pre, hpre, fun l hl => hg l.1 (hreal l hl), herror⟩
  | _ => exact h

/-- What `reeact_pthread_hooks_init` leaves behind when it has returned `v`. -/
structure Ready (L : Linker Ptr Arg World) (real : Fn → Option Ptr) (v : Int) : Prop where
  real : ∀ f, real f = L.next f.symbol
  code : v = 0 ∨ v = REEACT_PTHREAD_HOOKS_ERR_LOAD_ORIGINAL_FUNCTION
  zero : v = 0 ↔ L.Silent lookups

structure Inv (L : Linker Ptr Arg World) (tr : List (Ev Thr Ptr Arg)) (s : State Thr Ptr Arg) :
    Prop where
  own : ∀ f, s.real f = none ∨ s.real f = L.next f.symbol
  thr : ∀ t, ThreadOk L s.real (s.thr t)
  ready : ∀ t v, .ready t v ∈ tr → Ready L s.real v

section Steps

variable {tr es : List (Ev Thr Ptr Arg)} {s s' : State Thr Ptr Arg} {t : Thr}
  {th : Thread Ptr Arg} {a : Act Thr Arg}

/-- A thread moves, the pointers grow. -/
theorem Inv.own_thread (h : Inv L tr s) {real : Fn → Option Ptr} (hg : Grows L s.real real)
    (hown : ∀ f, real f = none ∨ real f = L.next f.symbol) (hth : ThreadOk L real th)
    (hready : ∀ u v, .ready u v ∈ es → Ready L real v) :
    Inv L (tr ++ es) ⟨real, Function.update s.thr t th⟩ where
  own := hown
  thr u := by
    by_cases hu : u = t
    · subst hu
      simp only [Function.update_self]
      exact hth
    · simp only [Function.update_of_ne hu]
      exact (h.thr u).mono hg
  ready u v he := by
    rcases List.mem_append.mp he with he | he
    · have hr := h.ready u v he
      exact ⟨fun f => hg f (hr.real f), hr.code, hr.zero⟩
    · exact hready u v he

theorem Inv.move (h : Inv L tr s) (hth : ThreadOk L s.real th)
    (hes : ∀ u v, .ready u v ∉ es) : Inv L (tr ++ es) (s.setThr t th) :=
  h.own_thread (fun _ => id) h.own hth (fun u v he => absurd he (hes u v))

theorem grows_lookUp (real : Fn → Option Ptr) (f : Fn) :
    Grows L real (Function.update real f (L.next f.symbol)) := by
  intro g hg
  by_cases hgf : g = f
  · subst hgf
    exact Function.update_self ..
  · rw [Function.update_of_ne hgf]
    exact hg

theorem Inv.lookUp (h : Inv L tr s) {f : Fn} {pc : Pc Ptr Arg}
    (hth : ThreadOk L (s.lookUp L t f f.symbol pc).real ((s.lookUp L t f f.symbol pc).thr t)) :
    Inv L (tr ++ []) (s.lookUp L t f f.symbol pc) := by
  refine h.own_thread (grows_lookUp s.real f) (fun g => ?_) ?_
    (fun u v he => absurd he List.not_mem_nil)
  · by_cases hgf : g = f
    · subst hgf
      exact .inr (Function.update_self ..)
    · rw [Function.update_of_ne hgf]
      exact h.own g
  · simp only [State.lookUp, Function.update_self] at hth
    exact hth

/-- One lookup of the constructor. -/
theorem ThreadOk.lookUp {l : Fn × String} {ls : List (Fn × String)}
    (h : ThreadOk L s.real ⟨.init (l :: ls), (s.thr t).error⟩) :
    ThreadOk L (s.lookUp L t l.1 l.1.symbol (.init ls)).real
      ((s.lookUp L t l.1 l.1.symbol (.init ls)).thr t) := by
  obtain ⟨pre, hpre, hreal, herror⟩ := h
  simp only [State.lookUp, Function.update_self]
  have hname : l.2 = l.1.symbol :=
    lookups_symbol (hpre ▸ List.mem_append_right _ List.mem_cons_self)
  refine ⟨pre ++ [l], by simp [hpre], fun l' hl' => ?_, hname ▸ silent_append herror⟩
  · rcases List.mem_append.mp hl' with hl' | hl'
    · exact grows_lookUp s.real l.1 l'.1 (hreal l' hl')
    · rw [List.mem_singleton.mp hl']
      exact Function.update_self ..

omit [DecidableEq Thr] in
/-- The constructor has all pointers, and counts its own failures only. -/
theorem ThreadOk.ready {error : Option String} (h : ThreadOk L s.real ⟨.init [], error⟩) :
    Ready L s.real (if error.isSome then REEACT_PTHREAD_HOOKS_ERR_LOAD_ORIGINAL_FUNCTION
      else 0) := by
  obtain ⟨pre, hpre, hreal, herror⟩ := h
  rw [List.append_nil] at hpre
  subst hpre
  refine ⟨fun f => hreal _ (mem_lookups f), ?_, ?_⟩
  · cases error with
    | none => exact .inl rfl
    | some e => exact .inr rfl
  · rw [← herror]
    cases error with
    | none => simp
    | some e => simp [REEACT_PTHREAD_HOOKS_ERR_LOAD_ORIGINAL_FUNCTION]

theorem Inv.run (h : Inv L tr s) (hs : run L s t = some (s', es)) : Inv L (tr ++ es) s' := by
  have hok := h.thr t
  rw [ThreadOk] at hok
  cases hpc : (s.thr t).pc with
  | check c =>
      rw [hpc] at hok
      simp only [Threads.run, hpc] at hs
      cases hs
      refine h.move ?_ (fun _ _ => List.not_mem_nil)
      cases hreal : s.real c.fn with
      | none => exact hok
      | some p =>
          intro _
          exact (h.own c.fn).resolve_left (by simp [hreal])
  | assign c =>
      simp only [Threads.run, hpc] at hs
      cases hs
      refine h.lookUp ?_
      simp only [State.lookUp, Function.update_self]
      exact fun _ => Function.update_self ..
  | fetch c =>
      simp only [Threads.run, hpc] at hs
      split at hs <;> cases hs
      · exact h.move trivial (by simp)
      · exact h.move trivial (by simp)
  | exited c v =>
      simp only [Threads.run, hpc] at hs
      cases hs
      exact h.move trivial (by simp)
  | init ls =>
      rw [hpc] at hok
      cases ls with
      | nil =>
          simp only [Threads.run, hpc] at hs
          cases hs
          refine h.own_thread (fun _ => id) h.own trivial (fun u v he => ?_)
          cases List.mem_singleton.mp he
          exact ThreadOk.ready hok
      | cons l ls =>
          have hname : l.2 = l.1.symbol := by
            obtain ⟨pre, hpre, -⟩ := hok
            exact lookups_symbol (hpre ▸ List.mem_append_right _ List.mem_cons_self)
          simp only [Threads.run, hpc, hname] at hs
          cases hs
          exact h.lookUp (ThreadOk.lookUp hok)
  | _ => simp [Threads.run, hpc] at hs

theorem Inv.step (h : Inv L tr s) (hs : step L s a = some (s', es)) : Inv L (tr ++ es) s' := by
  cases a with
  | call t c =>
      simp only [Threads.step] at hs
      split at hs
      · cases hs
        refine h.move ?_ (by simp)
        rw [entry]
        cases hlate : c.fn.late with
        | false =>
            intro hl
            rw [hlate] at hl
            cases hl
        | true => exact hlate
      · cases hs
  | init t =>
      simp only [Threads.step] at hs
      split at hs
      · cases hs
        exact h.move ⟨[], rfl, by simp, iff_of_true rfl (silent_nil L)⟩
          (fun _ _ => List.not_mem_nil)
      · cases hs
  | run t => exact h.run hs
  | exit t v =>
      simp only [Threads.step] at hs
      split at hs
      · cases hs
        exact h.move trivial (by simp)
      · cases hs

theorem Runs.inv (h : Runs L tr s) : Inv L tr s := by
  have h0 : Inv L [] (State.start : State Thr Ptr Arg) :=
    ⟨fun _ => .inl rfl, fun _ => trivial, by simp⟩
  refine Run.invariant h0 ?_ h
  intro tr s es s' _ hi hs
  obtain ⟨a, ha⟩ := hs
  exact hi.step ha

end Steps

/-! ## The process without the library -/

/-- A thread of the same program, linked to the originals. -/
inductive Phase (Arg : Type) where
  | idle
  | called (c : HookCall Arg)
  | inside (c : HookCall Arg)
  | exited (c : HookCall Arg) (v : Int)

/-- A thread calls a function by its name, and is in the definition the
linker has for it; it returns what that returns. -/
inductive Direct (L : Linker Ptr Arg World) (ph : Thr → Phase Arg) :
    List (Ev Thr Ptr Arg) → (Thr → Phase Arg) → Prop
  | call {t : Thr} {c : HookCall Arg} : ph t = .idle →
      Direct L ph [.call t c] (Function.update ph t (.called c))
  | enter {t : Thr} {c : HookCall Arg} {p : Ptr} : ph t = .called c →
      L.next c.original.1 = some p →
      Direct L ph [.enter t p c.original.2] (Function.update ph t (.inside c))
  | exit {t : Thr} {c : HookCall Arg} {v : Int} : ph t = .inside c →
      Direct L ph [.exit t v] (Function.update ph t (.exited c v))
  | ret {t : Thr} {c : HookCall Arg} {v : Int} : ph t = .exited c v →
      Direct L ph [.ret t c v] (Function.update ph t .idle)

/-- What the program does and is told, the constructor left out. -/
def Ev.view : Ev Thr Ptr Arg → Option (Ev Thr Ptr Arg)
  | .null _ _ | .ready _ _ => none
  | e => some e

def Pc.phase : Pc Ptr Arg → Phase Arg
  | .idle | .init _ => .idle
  | .check c | .assign c | .fetch c | .crashed c => .called c
  | .inside c _ => .inside c
  | .exited c v => .exited c v

/-- How far each thread is without the library. -/
def State.phases (s : State Thr Ptr Arg) (t : Thr) : Phase Arg := (s.thr t).pc.phase

section Refinement

variable {tr es : List (Ev Thr Ptr Arg)} {s s' : State Thr Ptr Arg} {t : Thr} {a : Act Thr Arg}
  {real : Fn → Option Ptr} {th : Thread Ptr Arg}

theorem phases_update :
    (⟨real, Function.update s.thr t th⟩ : State Thr Ptr Arg).phases =
      Function.update s.phases t th.pc.phase := by
  funext u
  by_cases hu : u = t
  · subst hu
    simp [State.phases]
  · simp [State.phases, Function.update_of_ne hu]

/-- A step the program cannot tell. -/
theorem direct_silent (hpc : th.pc.phase = (s.thr t).pc.phase) (hes : es.filterMap Ev.view = []) :
    Run (Direct L) s.phases (es.filterMap Ev.view)
      (⟨real, Function.update s.thr t th⟩ : State Thr Ptr Arg).phases := by
  have hsame : s.phases t = (s.thr t).pc.phase := rfl
  rw [phases_update, hpc, ← hsame, Function.update_eq_self, hes]
  exact .nil

theorem direct_step {e : Ev Thr Ptr Arg}
    (hd : Direct L s.phases [e] (Function.update s.phases t th.pc.phase))
    (hes : es.filterMap Ev.view = [e]) :
    Run (Direct L) s.phases (es.filterMap Ev.view)
      (⟨real, Function.update s.thr t th⟩ : State Thr Ptr Arg).phases := by
  rw [phases_update, hes]
  exact .single hd

omit [DecidableEq Thr] in
theorem phases_of_pc {pc : Pc Ptr Arg} (hpc : (s.thr t).pc = pc) : s.phases t = pc.phase := by
  rw [State.phases, hpc]

theorem entry_phase (c : HookCall Arg) : (entry c : Pc Ptr Arg).phase = .called c := by
  rw [entry]
  split <;> rfl

theorem run_direct (hi : Inv L tr s) (hs : run L s t = some (s', es)) :
    Run (Direct L) s.phases (es.filterMap Ev.view) s'.phases := by
  cases hpc : (s.thr t).pc with
  | check c =>
      simp only [run, hpc] at hs
      cases hs
      refine direct_silent ?_ rfl
      rw [hpc]
      show Pc.phase (if _ then _ else _) = _
      split <;> rfl
  | assign c =>
      simp only [run, hpc] at hs
      cases hs
      exact direct_silent (by rw [hpc]; rfl) rfl
  | fetch c =>
      simp only [run, hpc] at hs
      split at hs <;> cases hs
      · exact direct_silent (by rw [hpc]; rfl) rfl
      · rename_i p hp
        -- the pointer is the linker's
        have hnext : L.next c.original.1 = some p := by
          rw [original_name, ← (hi.own c.fn).resolve_left (by simp [hp]), hp]
        exact direct_step (.enter (phases_of_pc hpc) hnext) rfl
  | exited c v =>
      simp only [run, hpc] at hs
      cases hs
      exact direct_step (.ret (phases_of_pc hpc)) rfl
  | init ls =>
      cases ls <;> simp only [run, hpc] at hs <;> cases hs <;>
        exact direct_silent (by rw [hpc]; rfl) rfl
  | _ => simp [run, hpc] at hs

/-- **One step** of a thread is one without the library, or none. -/
theorem step_direct (hi : Inv L tr s) (hs : step L s a = some (s', es)) :
    Run (Direct L) s.phases (es.filterMap Ev.view) s'.phases := by
  cases a with
  | call t c =>
      simp only [step] at hs
      split at hs
      · rename_i hpc
        cases hs
        refine direct_step (e := .call t c) ?_ rfl
        rw [entry_phase]
        exact .call (phases_of_pc hpc)
      · cases hs
  | init t =>
      simp only [step] at hs
      split at hs
      · rename_i hpc
        cases hs
        exact direct_silent (by rw [hpc]; rfl) rfl
      · cases hs
  | run t => exact run_direct hi hs
  | exit t v =>
      simp only [step] at hs
      split at hs
      · rename_i c p hpc
        cases hs
        exact direct_step (.exit (phases_of_pc hpc)) rfl
      · cases hs

end Refinement

theorem Runs.direct {tr : List (Ev Thr Ptr Arg)} {s : State Thr Ptr Arg} (h : Runs L tr s) :
    Run (Direct L) (fun _ => .idle) (tr.filterMap Ev.view) s.phases := by
  have hrefine := Run.refinement (Direct L) Ev.view (fun s ph => s.phases = ph) ?_ rfl h
  · obtain ⟨ph, hr, rfl⟩ := hrefine
    exact hr
  · rintro tr s es s' _ hr rfl ⟨a, ha⟩
    exact ⟨_, step_direct (Runs.inv hr) ha, rfl⟩

/-! ## The process with the library keeps up -/

/-- The position of a thread that has yet to take a step the program can tell. -/
def Prompt (pc : Pc Ptr Arg) : Phase Arg → Prop
  | .idle => pc = .idle
  | .called c => pc = entry c
  | .inside c => ∃ p, pc = .inside c p
  | .exited c v => pc = .exited c v

/-- The constructor has run, and each thread is where it is without the library. -/
structure Abreast (L : Linker Ptr Arg World) (s : State Thr Ptr Arg) (ph : Thr → Phase Arg) :
    Prop where
  real : ∀ f, s.real f = L.next f.symbol
  pc : ∀ t, Prompt (s.thr t).pc (ph t)

section Abreast

variable {tr es : List (Ev Thr Ptr Arg)} {s : State Thr Ptr Arg} {t : Thr} {c : HookCall Arg}
  {p : Ptr} {v : Int} {ph ph' : Thr → Phase Arg}

/-- The constructor comes to its end. -/
theorem init_ends {ls : List (Fn × String)} (hpc : (s.thr t).pc = .init ls)
    (hidle : ∀ u, u ≠ t → (s.thr u).pc = .idle) :
    ∃ v s', Run (Does (step L)) s [.ready t v] s' ∧ ∀ u, (s'.thr u).pc = .idle := by
  induction ls generalizing s with
  | nil =>
      have hstep : ∃ v, Does (step L) s [.ready t v] (s.setThr t ⟨.idle, none⟩) :=
        ⟨_, .run t, by rw [step, run, hpc]⟩
      obtain ⟨v, hstep⟩ := hstep
      refine ⟨v, _, .single hstep, fun u => ?_⟩
      by_cases hu : u = t
      · subst hu
        simp [State.setThr]
      · simpa [State.setThr, Function.update_of_ne hu] using hidle u hu
  | cons l ls ih =>
      have hstep : Does (step L) s [] (s.lookUp L t l.1 l.2 (.init ls)) :=
        ⟨.run t, by rw [step, run, hpc]⟩
      have hpc' : ((s.lookUp L t l.1 l.2 (.init ls)).thr t).pc = .init ls := by
        simp [State.lookUp]
      have hidle' : ∀ u, u ≠ t → ((s.lookUp L t l.1 l.2 (.init ls)).thr u).pc = .idle := by
        intro u hu
        simpa [State.lookUp, hu] using hidle u hu
      obtain ⟨v, s', hr, hall⟩ := ih hpc' hidle'
      exact ⟨v, s', (Run.single hstep).append hr, hall⟩

/-- One thread runs the constructor before anything else. -/
theorem init_first (L : Linker Ptr Arg World) (t : Thr) :
    ∃ (v : Int) (s : State Thr Ptr Arg), Runs L [.ready t v] s ∧ Abreast L s (fun _ => .idle) := by
  have hstep : Does (step L) (State.start : State Thr Ptr Arg) []
      (State.start.setThr t ⟨.init lookups, none⟩) := ⟨.init t, rfl⟩
  have hpc : ((State.start.setThr t ⟨.init lookups, none⟩ : State Thr Ptr Arg).thr t).pc =
      .init lookups := by simp [State.setThr]
  have hidle : ∀ u, u ≠ t →
      ((State.start.setThr t ⟨.init lookups, none⟩ : State Thr Ptr Arg).thr u).pc = .idle := by
    intro u hu
    simp [State.setThr, State.start, Function.update_of_ne hu]
  obtain ⟨v, s, hr, hall⟩ := init_ends (L := L) hpc hidle
  have hruns : Runs L [.ready t v] s := (Run.single hstep).append hr
  exact ⟨v, s, hruns, (hruns.inv.ready t v (by simp)).real, hall⟩

theorem Abreast.goto (h : Abreast L s ph) {pc : Pc Ptr Arg} {x : Phase Arg} (hpc : Prompt pc x) :
    Abreast L (s.goto t pc) (Function.update ph t x) where
  real := h.real
  pc u := by
    by_cases hu : u = t
    · subst hu
      simpa [State.goto, State.setThr] using hpc
    · simpa [State.goto, State.setThr, Function.update_of_ne hu] using h.pc u

theorem goto_goto (s : State Thr Ptr Arg) (t : Thr) (pc pc' : Pc Ptr Arg) :
    (s.goto t pc).goto t pc' = s.goto t pc' := by
  simp [State.goto, State.setThr]

/-- A hook whose pointer is set reaches the original. -/
theorem enters (hpc : (s.thr t).pc = entry c) (hreal : s.real c.fn = some p) :
    Run (Does (step L)) s [.enter t p c.original.2] (s.goto t (.inside c p)) := by
  have hfetch : ∀ {s : State Thr Ptr Arg}, (s.thr t).pc = .fetch c → s.real c.fn = some p →
      Does (step L) s [.enter t p c.original.2] (s.goto t (.inside c p)) := by
    intro s hpc hreal
    exact ⟨.run t, by simp only [step, run, hpc, hreal]⟩
  rw [entry] at hpc
  split at hpc
  · have hcheck : Does (step L) s [] (s.goto t (.fetch c)) :=
      ⟨.run t, by simp only [step, run, hpc, hreal]; rfl⟩
    have hpc' : ((s.goto t (.fetch c)).thr t).pc = .fetch c := by
      simp [State.goto, State.setThr]
    rw [← goto_goto s t (.fetch c)]
    exact (Run.single hcheck).append (.single (hfetch hpc' hreal))
  · exact .single (hfetch hpc hreal)

theorem Abreast.step (h : Abreast L s ph) (hd : Direct L ph es ph') :
    ∃ s', Run (Does (step L)) s es s' ∧ Abreast L s' ph' := by
  cases hd with
  | @call t c hph =>
      have hpc : (s.thr t).pc = .idle := by
        have hp := h.pc t
        rwa [hph] at hp
      exact ⟨_, .single ⟨.call t c, by simp only [Threads.step, hpc]⟩, h.goto rfl⟩
  | @enter t c p hph hnext =>
      have hpc : (s.thr t).pc = entry c := by
        have hp := h.pc t
        rwa [hph] at hp
      have hreal : s.real c.fn = some p := by
        rw [h.real, ← original_name, hnext]
      exact ⟨_, enters hpc hreal, h.goto ⟨p, rfl⟩⟩
  | @exit t c v hph =>
      have hpc : ∃ p, (s.thr t).pc = .inside c p := by
        have hp := h.pc t
        rwa [hph] at hp
      obtain ⟨p, hpc⟩ := hpc
      exact ⟨_, .single ⟨.exit t v, by simp only [Threads.step, hpc]⟩, h.goto rfl⟩
  | @ret t c v hph =>
      have hpc : (s.thr t).pc = .exited c v := by
        have hp := h.pc t
        rwa [hph] at hp
      exact ⟨_, .single ⟨.run t, by simp only [Threads.step, run, hpc]⟩, h.goto rfl⟩

theorem Direct.view (hd : Direct L ph es ph') : es.filterMap Ev.view = es := by
  cases hd <;> rfl

/-- Whatever happens without the library can happen with it. -/
theorem direct_hooked (t : Thr) (h : Run (Direct L) (fun _ => .idle) tr ph) :
    ∃ tr' s, Runs L tr' s ∧ tr'.filterMap Ev.view = tr ∧ Abreast L s ph := by
  induction h with
  | nil =>
      obtain ⟨v, s, hr, ha⟩ := init_first L t
      exact ⟨_, s, hr, rfl, ha⟩
  | snoc _ hd ih =>
      obtain ⟨tr', s, hr, hview, ha⟩ := ih
      obtain ⟨s', hr', ha'⟩ := ha.step hd
      exact ⟨_, s', hr.append hr', by rw [List.filterMap_append, hview, hd.view], ha'⟩

end Abreast

/-- **Threads cannot tell the library.** However the threads interleave, with
each other and with the constructor: what they call, which originals with
which arguments, and what is returned to them can happen exactly if it can in
a process without the library. -/
theorem threads_transparent (L : Linker Ptr Arg World) (tr : List (Ev Thr Ptr Arg)) :
    (∃ tr' s, Runs L tr' s ∧ tr'.filterMap Ev.view = tr) ↔
      ∃ ph, Run (Direct L) (fun _ => .idle) tr ph := by
  constructor
  · rintro ⟨tr', s, hr, rfl⟩
    exact ⟨s.phases, hr.direct⟩
  · rintro ⟨ph, hr⟩
    cases hr with
    | nil => exact ⟨[], State.start, .nil, rfl⟩
    | snoc hr hd =>
        have ht : Nonempty Thr := by
          cases hd with
          | @call t | @enter t | @exit t | @ret t => exact ⟨t⟩
        obtain ⟨t⟩ := ht
        obtain ⟨tr', s, hr', hview, -⟩ := direct_hooked t (hr.snoc hd)
        exact ⟨tr', s, hr', hview⟩

/-! ## Calls through `NULL` -/

/-- Only the call of the original can go through `NULL`. -/
theorem null_cases {es : List (Ev Thr Ptr Arg)} {s s' : State Thr Ptr Arg} {t : Thr}
    {c : HookCall Arg} {a : Act Thr Arg} (hs : step L s a = some (s', es))
    (hnull : .null t c ∈ es) : (s.thr t).pc = .fetch c ∧ s.real c.fn = none := by
  cases a with
  | run u =>
      cases hpc : (s.thr u).pc with
      | fetch c' =>
          simp only [step, run, hpc] at hs
          split at hs <;> cases hs
          · rename_i hreal
            cases List.mem_singleton.mp hnull
            exact ⟨hpc, hreal⟩
          · simp at hnull
      | check c' | assign c' | exited c' v =>
          simp only [step, run, hpc] at hs
          cases hs
          simp at hnull
      | init ls =>
          cases ls <;> simp only [step, run, hpc] at hs <;> cases hs <;> simp at hnull
      | _ => simp [step, run, hpc] at hs
  | _ =>
      simp only [step] at hs
      split at hs <;> cases hs
      simp at hnull

/-- **Nobody calls `NULL` but too early.** However the threads interleave: a
call through `NULL` is of a function the linker does not have, or it is not of
lock or unlock and the constructor has not returned yet. -/
theorem null_call_cause (L : Linker Ptr Arg World) {tr es : List (Ev Thr Ptr Arg)}
    {s s' : State Thr Ptr Arg} {t : Thr} {c : HookCall Arg} {a : Act Thr Arg} (h : Runs L tr s)
    (hs : step L s a = some (s', es)) (hnull : .null t c ∈ es) :
    L.next c.fn.symbol = none ∨ c.fn.late = false ∧ ∀ u v, .ready u v ∉ tr := by
  obtain ⟨hpc, hreal⟩ := null_cases hs hnull
  have hok := h.inv.thr t
  rw [ThreadOk, hpc] at hok
  cases hlate : c.fn.late with
  | true => exact .inl (by rw [← hok hlate, hreal])
  | false =>
      by_cases hready : ∃ u v, .ready u v ∈ tr
      · obtain ⟨u, v, hready⟩ := hready
        exact .inl (by rw [← (h.inv.ready u v hready).real, hreal])
      · exact .inr ⟨rfl, fun u v hm => hready ⟨u, v, hm⟩⟩

/-- Thread 1 waits at a barrier while thread 0 is in the constructor and has
looked up two functions. -/
theorem null_call_cause_early :
    ∃ (s s' : State (Fin 2) String Unit) (tr : List (Ev (Fin 2) String Unit)),
      (s.thr 0).pc = .init (lookups.drop 2) ∧
        step (countingLinker "") s (.run 1) = some (s', [.null 1 (.barrierWait ())]) ∧
        ((countingLinker "").next (HookCall.barrierWait ()).fn.symbol = none ∨
          (HookCall.barrierWait ()).fn.late = false ∧ ∀ u v, .ready u v ∉ tr) := by
  have hout : (exec (step (countingLinker "")) (State.start : State (Fin 2) String Unit)
      [.init 0, .run 0, .run 0, .call 1 (.barrierWait ())]).map (fun p =>
        ((p.1.thr 0).pc, (step (countingLinker "") p.1 (.run 1)).map Prod.snd)) =
      some (.init (lookups.drop 2), some [.null 1 (.barrierWait ())]) := rfl
  obtain ⟨s, tr, hr, hv⟩ := run_of_outcome _ _ hout
  obtain ⟨hpc, hnull⟩ := Prod.mk.inj hv
  obtain ⟨⟨s', es⟩, hstep, rfl⟩ := Option.map_eq_some_iff.mp hnull
  exact ⟨s, s', tr, hpc, hstep, null_call_cause (countingLinker "") hr hstep
    (List.mem_singleton.mpr rfl)⟩

/-! ## One thread alone -/

section Alone

variable {s : State Thr Ptr Arg} {t : Thr} {c : HookCall Arg} {w : World}

/-- `t`, by itself, comes to `pc` by the step `e`, and leaves the pointers and
its error as in `s'`. -/
def Ends (L : Linker Ptr Arg World) (s : State Thr Ptr Arg) (t : Thr) (pc : Pc Ptr Arg)
    (e : Ev Thr Ptr Arg) (s' : Hooks.State Ptr World) : Prop :=
  ∃ tr, Run (Does (step L)) s tr ⟨s'.real, Function.update s.thr t ⟨pc, s'.error⟩⟩ ∧ e ∈ tr

/-- Steps of `t` before. -/
theorem Ends.after {s₁ : State Thr Ptr Arg} {tr : List (Ev Thr Ptr Arg)} {th : Thread Ptr Arg}
    {pc : Pc Ptr Arg} {e : Ev Thr Ptr Arg} {s' : Hooks.State Ptr World}
    (h : Ends L s₁ t pc e s') (hr : Run (Does (step L)) s tr s₁)
    (hs : s₁.thr = Function.update s.thr t th) : Ends L s t pc e s' := by
  obtain ⟨tr', hr', he⟩ := h
  rw [hs, Function.update_idem] at hr'
  exact ⟨tr ++ tr', hr.append hr', List.mem_append_right _ he⟩

/-- From the call of the original on. -/
theorem callReal_alone (hpc : (s.thr t).pc = .fetch c) :
    wp (callReal L c.fn c.original.2) (fun v => Ends L s t .idle (.ret t c v))
      (fun _ => Ends L s t (.crashed c) (.null t c)) ⟨s.real, (s.thr t).error, w⟩ := by
  apply wp_callReal
  · intro p hp
    have hreal : s.real c.fn = some p := hp
    have henter : Does (step L) s [.enter t p c.original.2] (s.goto t (.inside c p)) :=
      ⟨.run t, by simp only [step, run, hpc, hreal]⟩
    have hexit : ∀ v, Does (step L) (s.goto t (.inside c p)) [.exit t v] (s.goto t (.exited c v)) :=
      fun v => ⟨.exit t v, by simp [step, State.goto, State.setThr]⟩
    have hret : ∀ v, Does (step L) (s.goto t (.exited c v)) [.ret t c v] (s.goto t .idle) :=
      fun v => ⟨.run t, by simp [step, run, State.goto, State.setThr]⟩
    exact ⟨_, ((Run.single henter).snoc (hexit (L.call p c.original.2 w).1)).snoc (hret _),
      by simp⟩
  · intro hnone
    have hreal : s.real c.fn = none := hnone
    have hnull : Does (step L) s [.null t c] (s.goto t (.crashed c)) :=
      ⟨.run t, by simp only [step, run, hpc, hreal]⟩
    exact ⟨_, .single hnull, by simp⟩

/-- **A thread alone** does what the hook's body does in one piece. -/
theorem hook_alone (hpc : (s.thr t).pc = .idle) :
    wp (c.hook L) (fun v => Ends L s t .idle (.ret t c v))
      (fun _ => Ends L s t (.crashed c) (.null t c)) ⟨s.real, (s.thr t).error, w⟩ := by
  have hcall : Does (step L) s [.call t c] (s.goto t (entry c)) :=
    ⟨.call t c, by simp only [step, hpc]⟩
  have hpc' : ∀ pc, ((s.goto t pc).thr t).pc = pc := fun pc => by simp [State.goto, State.setThr]
  -- from a state in which only `t` has moved, up to the call of the original
  have hrest : ∀ {s₁ : State Thr Ptr Arg} {tr : List (Ev Thr Ptr Arg)} (th : Thread Ptr Arg),
      Run (Does (step L)) s tr s₁ → s₁.thr = Function.update s.thr t th → th.pc = .fetch c →
      wp (callReal L c.fn c.original.2) (fun v => Ends L s t .idle (.ret t c v))
        (fun _ => Ends L s t (.crashed c) (.null t c)) ⟨s₁.real, th.error, w⟩ := by
    intro s₁ tr th hr hthr hth
    have hself : s₁.thr t = th := by rw [hthr, Function.update_self]
    have halone := callReal_alone (L := L) (s := s₁) (t := t) (c := c) (w := w) (by rw [hself, hth])
    rw [hself] at halone
    exact wp_mono halone (fun _ _ h => h.after hr hthr) (fun _ _ h => h.after hr hthr)
  rw [hook_eq]
  cases hlate : c.fn.late with
  | false =>
      rw [entry, hlate, if_neg Bool.false_ne_true] at hcall
      rw [if_neg Bool.false_ne_true]
      have hr : Run (Does (step L)) s [.call t c] (s.goto t (.fetch c)) := .single hcall
      have hcalled := hrest ⟨.fetch c, (s.thr t).error⟩ hr rfl rfl
      exact hcalled
  | true =>
      rw [entry, hlate, if_pos rfl] at hcall
      rw [if_pos rfl, callRealLate, wp_bind, wp_get]
      have hcheck : Does (step L) (s.goto t (.check c)) []
          (s.goto t (if (s.real c.fn).isNone then .assign c else .fetch c)) := by
        refine ⟨.run t, ?_⟩
        simp only [step, run, hpc', goto_goto]
        rfl
      have hread := (Run.single hcall).append (.single hcheck)
      split
      · rename_i hnone
        rw [if_pos hnone] at hread
        have hassign : Does (step L) (s.goto t (.assign c)) []
            ((s.goto t (.assign c)).lookUp L t c.fn c.fn.symbol (.fetch c)) :=
          ⟨.run t, by simp only [step, run, hpc']⟩
        have hthr : ((s.goto t (.assign c)).lookUp L t c.fn c.fn.symbol (.fetch c)).thr =
            Function.update s.thr t ⟨.fetch c, L.errorAfter c.fn.symbol (s.thr t).error⟩ := by
          simp [State.lookUp, State.goto, State.setThr]
        rw [wp_bind]
        apply wp_lookUp
        exact hrest _ (hread.snoc hassign) hthr rfl
      · rename_i hsome
        have hr : Run (Does (step L)) s [.call t c] (s.goto t (.fetch c)) := by
          simpa only [if_neg hsome, List.append_nil] using hread
        have hcalled := hrest ⟨.fetch c, (s.thr t).error⟩ hr rfl rfl
        exact hcalled

end Alone

end Reeact.Hooks.Threads
