import Reeact.Hooks.PthreadHooksLaws
import Reeact.Utils.TopologyLog
import Reeact.Utils.TopologySources

/-!
# reeact.c — the library in a process

The constructor `reeact_init`: it allocates the handle, reads the topology
(and prints it, in a debug build), and initialises the hooks and the policy.
No error code stops it. On a homogeneous machine it ends with the topology of
the machine in the handle, and from then on the process runs as without the
library.

Not modelled: the log output other than the topology's, `reeact_cleanup`,
which frees the handle, and `reeact_gomp_hooks_init`, which returns 0.
-/

namespace Reeact

open Exits Topo Hooks

/-- `struct reeact_data` -/
structure ReeactData (Data : Type) where
  pid : Int
  procNameShort : Option String
  procNameLong : Option String
  policyData : Option Data
  topology : ProcessorTopo

/-- What `calloc` returns. -/
def ReeactData.zero {Data : Type} : ReeactData Data := ⟨0, none, none, none, .cleared⟩

/-- The build, and what the process is started with. -/
structure Env (Ptr Arg World : Type) where
  /-- `_REEACT_DEBUG_` -/
  debug : Bool
  /-- `_REEACT_DEFAULT_POLICY`, which is not the macro the Makefile defines -/
  defaultPolicy : Bool
  /-- `calloc` succeeds -/
  memory : Bool
  sys : System
  /-- `REEACT_TOPO_CONFIG` is set -/
  named : Bool
  linker : Linker Ptr Arg World
  pid : Int
  programInvocationShortName : String
  programInvocationName : String

/-- `reeact_handle`, the files that have been opened and not closed, the hooks'
pointers, and the topology log. -/
structure Process (Ptr World Data : Type) where
  handle : Option (ReeactData Data)
  opened : ℕ
  hooks : Hooks.State Ptr World
  log : List LogItem

inductive Fault where
  | topo (e : Topo.Exit)
  | hooks (e : Hooks.Exit)
  /-- a field of the handle while it is `NULL` -/
  | nullHandle
deriving DecidableEq, Repr

abbrev Init (Ptr World Data : Type) := EStateM Fault (Process Ptr World Data)

variable {Ptr Arg World Data : Type}

/-- The process after a use of the topology of the handle `d`. -/
def Process.keep (p : Process Ptr World Data) (d : ReeactData Data) (t : Topo.State) :
    Process Ptr World Data :=
  { p with
    handle := some { d with topology := t.toProcessorTopo }
    opened := t.opened }

/-- On `&(reeact_handle->topology)`. -/
def onTopology {α : Type} (x : Topo.Prog α) : Init Ptr World Data α := fun p =>
  match p.handle with
  | none => .error .nullHandle p
  | some d =>
      match x ⟨d.topology, p.opened⟩ with
      | .ok a t => .ok a (p.keep d t)
      | .error e t => .error (.topo e) (p.keep d t)

def onHooks {α : Type} (x : Hooks.Prog Ptr World α) : Init Ptr World Data α := fun p =>
  match x p.hooks with
  | .ok a s => .ok a { p with hooks := s }
  | .error e s => .error (.hooks e) { p with hooks := s }

def modifyHandle (f : ReeactData Data → ReeactData Data) : Init Ptr World Data Unit := do
  let p ← get
  match p.handle with
  | none => throw .nullHandle
  | some d => set { p with handle := some (f d) }

/-- `reeact_per_proc_init` -/
def reeactPerProcInit (env : Env Ptr Arg World) : Init Ptr World Data Int := do
  let p ← get
  match p.handle with
  | none => pure 1
  | some d =>
      set { p with handle := some { d with
        pid := env.pid
        procNameShort := some env.programInvocationShortName
        procNameLong := some env.programInvocationName } }
      pure 0

/-- `reeact_policy_init` -/
def reeactPolicyInit (env : Env Ptr Arg World) : Init Ptr World Data Int := do
  if env.defaultPolicy then
    modifyHandle fun d => { d with policyData := none }
  pure 0

/-- `reeact_log_topology`, which is empty in a release build. -/
def logTopology (env : Env Ptr Arg World) : Init Ptr World Data Unit := do
  if env.debug then
    let items ← onTopology printTopology
    modify fun p => { p with log := p.log ++ items }

/-- `reeact_init` -/
def reeactInit (env : Env Ptr Arg World) : Init Ptr World Data Unit := do
  if !env.memory then
    modify fun p => { p with handle := none }
  else
    modify fun p => { p with handle := some .zero }
    let _ ← reeactPerProcInit env
    let _ ← onTopology (retVal (reeactGetTopology env.sys env.named true))
    logTopology env
    let _ ← onHooks (reeactPthreadHooksInit env.linker)
    let _ ← reeactPolicyInit env

/-- A process that starts: the handle and the pointers are `NULL`. -/
def Process.start (opened : ℕ) (error : Option String) (w : World) : Process Ptr World Data :=
  ⟨none, opened, ⟨fun _ => none, error, w⟩, []⟩

/-! ## Parts of the process -/

section Parts

variable {α : Type} {p : Process Ptr World Data} {d : ReeactData Data}
  {Q : α → Process Ptr World Data → Prop} {E : Fault → Process Ptr World Data → Prop}

theorem wp_onTopology {x : Topo.Prog α} (hd : p.handle = some d)
    (h : wp x (fun a t => Q a (p.keep d t)) (fun e t => E (.topo e) (p.keep d t))
      ⟨d.topology, p.opened⟩) : wp (onTopology x) Q E p := by
  unfold wp at h ⊢
  simp only [onTopology, hd]
  cases hx : x ⟨d.topology, p.opened⟩ <;> simpa only [hx] using h

theorem wp_onHooks {x : Hooks.Prog Ptr World α}
    (h : wp x (fun a s => Q a { p with hooks := s }) (fun e s => E (.hooks e) { p with hooks := s })
      p.hooks) : wp (onHooks x) Q E p := by
  unfold wp at h ⊢
  simp only [onHooks]
  cases hx : x p.hooks <;> simpa only [hx] using h

theorem wp_reeactPerProcInit {env : Env Ptr Arg World} {Q : Int → Process Ptr World Data → Prop}
    (hd : p.handle = some d)
    (h : Q 0 { p with handle := some { d with
      pid := env.pid
      procNameShort := some env.programInvocationShortName
      procNameLong := some env.programInvocationName } }) : wp (reeactPerProcInit env) Q E p := by
  unfold reeactPerProcInit
  rw [wp_bind, wp_get, hd]
  exact h

theorem wp_logTopology {env : Env Ptr Arg World} {Q : Unit → Process Ptr World Data → Prop}
    (hd : p.handle = some d)
    (h : wp (if env.debug then printTopology else pure [])
      (fun items t => Q () { p.keep d t with log := p.log ++ items })
      (fun e t => E (.topo e) (p.keep d t)) ⟨d.topology, p.opened⟩) :
    wp (logTopology env) Q E p := by
  unfold logTopology
  cases hdebug : env.debug with
  | false =>
      rw [hdebug, if_neg Bool.false_ne_true, wp_pure, List.append_nil] at h
      rw [if_neg Bool.false_ne_true]
      show Q () ⟨p.handle, p.opened, p.hooks, p.log⟩
      rw [hd]
      exact h
  | true =>
      rw [hdebug, if_pos rfl] at h
      rw [if_pos rfl, wp_bind]
      exact wp_onTopology hd h

/-- The misspelt macro makes no difference: `calloc` has cleared the field. -/
theorem wp_reeactPolicyInit {env : Env Ptr Arg World} {Q : Int → Process Ptr World Data → Prop}
    (hd : p.handle = some d) (hnull : d.policyData = none) (h : Q 0 p) :
    wp (reeactPolicyInit env) Q E p := by
  have hsame : { p with handle := some { d with policyData := none } } = p := by
    rw [← hnull, ← hd]
  unfold reeactPolicyInit modifyHandle
  cases env.defaultPolicy with
  | false => exact h
  | true =>
      rw [if_pos rfl, wp_bind, wp_bind, wp_get, hd]
      show Q 0 { p with handle := some { d with policyData := none } }
      rw [hsame]
      exact h

end Parts

/-! ## The constructor -/

/-- What the constructor does with the topology: it reads it, and prints it in
a debug build, whatever code the reading returns. -/
def detect (env : Env Ptr Arg World) : Topo.Prog (List LogItem) := do
  let _ ← retVal (reeactGetTopology env.sys env.named true)
  if env.debug then printTopology else pure []

section Constructor

variable {env : Env Ptr Arg World} {p : Process Ptr World Data}
  {E : Fault → Process Ptr World Data → Prop}

/-- **Only the topology can stop the constructor**, and only by a fault. -/
theorem wp_reeactInit {Q : Unit → Process Ptr World Data → Prop} (hmem : env.memory = true)
    (h : wp (detect env)
      (fun items t => ∀ s : Hooks.State Ptr World, s.world = p.hooks.world →
        (∀ f, s.real f = env.linker.next f.symbol) →
        Q () ⟨some ⟨env.pid, some env.programInvocationShortName, some env.programInvocationName,
          none, t.toProcessorTopo⟩, t.opened, s, p.log ++ items⟩)
      (fun e _ => ∀ p', E (.topo e) p') ⟨.cleared, p.opened⟩) : wp (reeactInit env) Q E p := by
  unfold reeactInit
  rw [hmem, Bool.not_true, if_neg Bool.false_ne_true, wp_bind, wp_modify, wp_bind]
  apply wp_reeactPerProcInit rfl
  rw [wp_bind]
  apply wp_onTopology rfl
  unfold detect at h
  rw [wp_bind] at h
  apply wp_mono h
  · intro _ t hprint
    rw [wp_bind]
    apply wp_logTopology rfl
    apply wp_mono hprint
    · intro items t' hQ
      rw [wp_bind]
      apply wp_onHooks
      apply wp_mono wp_reeactPthreadHooksInit
      · rintro _ s ⟨hreal, hworld, -⟩
        rw [wp_bind]
        exact wp_reeactPolicyInit rfl rfl (hQ s hworld hreal)
      · exact fun _ _ hf => hf.elim
    · exact fun _ _ hE => hE _
  · exact fun _ _ hE => hE _

/-- The file is not accepted, and sysfs shows the machine. -/
theorem detect_machine {m : Machine} (h : Shows env.sys m)
    (hnot : ¬ (env.named ∧ env.sys.Accepted)) {opened : ℕ}
    (hroom : env.sys.Affords (opened + env.sys.leaked env.named) m.opens) :
    detect env ⟨.cleared, opened⟩ = .ok (if env.debug then m.log else [])
      ⟨env.sys.result, opened + env.sys.leaked env.named + m.opens - 1⟩ := by
  have hget : retVal (reeactGetTopology env.sys env.named true) ⟨.cleared, opened⟩ =
      .ok 0 ⟨env.sys.result, opened + env.sys.leaked env.named + m.opens - 1⟩ := by
    obtain ⟨t₁, hleft, hsame⟩ := get_of_not_accepted hnot ⟨.cleared, opened⟩
    rw [← hleft.opened] at hroom ⊢
    have hrun := hsame.trans (h.run hroom)
    simp only [retVal, tryCatch, tryCatchThe, MonadExceptOf.tryCatch, EStateM.tryCatch, bind,
      EStateM.bind, hrun]
    rfl
  simp only [detect, bind, EStateM.bind, hget]
  cases env.debug with
  | false => rfl
  | true => exact Reconstructs.printed (t := ⟨_, _⟩) h.reconstructs

end Constructor

/-- **The constructor on a homogeneous machine.** In either build, whether or
not a configuration file is named, unless one is accepted, with memory for the
handle and both arrays and all the files open: `reeact_init` ends, the handle
holds the topology of the machine, the log of a debug build has each node and
each core of the machine once, and every pointer is the linker's. -/
theorem init_on_machine (env : Env Ptr Arg World) (hmem : env.memory = true) (m : Machine)
    (h : Shows env.sys m) (hnot : ¬ (env.named ∧ env.sys.Accepted)) (opened : ℕ)
    (hroom : env.sys.Affords (opened + env.sys.leaked env.named) m.opens)
    (error : Option String) (w : World) :
    ∃ (p : Process Ptr World Data) (t : ProcessorTopo),
      reeactInit env (Process.start opened error w) = .ok () p ∧
        p.handle = some ⟨env.pid, some env.programInvocationShortName,
          some env.programInvocationName, none, t⟩ ∧ Reconstructs m t ∧
        (env.debug = true → LogsOnce m p.log) ∧ p.hooks.world = w ∧
        ∀ f, p.hooks.real f = env.linker.next f.symbol := by
  have hinit : wp (reeactInit env) (fun _ (p : Process Ptr World Data) =>
      p.handle = some ⟨env.pid, some env.programInvocationShortName,
          some env.programInvocationName, none, env.sys.result⟩ ∧
        p.log = (if env.debug then m.log else []) ∧ p.hooks.world = w ∧
        ∀ f, p.hooks.real f = env.linker.next f.symbol) (fun _ _ => False)
      (Process.start opened error w) := by
    apply wp_reeactInit hmem
    show wp (detect env) _ _ ⟨.cleared, opened⟩
    rw [wp, detect_machine h hnot hroom]
    exact fun s hworld hreal => ⟨rfl, List.nil_append _, hworld, hreal⟩
  obtain ⟨_, p, hrun, hhandle, hlog, hworld, hreal⟩ := ok_of_wp hinit
  refine ⟨p, env.sys.result, hrun, hhandle, h.reconstructs, fun hdebug => ?_, hworld, hreal⟩
  rw [hlog, hdebug, if_pos rfl]
  exact logsOnce_log m

/-- The four cpus on two nodes, a debug build, and every function there is. -/
def crossedEnv (memory : Bool) : Env String Unit (List String) where
  debug := true
  defaultPolicy := false
  memory := memory
  sys := crossedSysfs
  named := true
  linker := countingLinker ""
  pid := 4711
  programInvocationShortName := "sync"
  programInvocationName := "./sync"

theorem crossedEnv_not_accepted (memory : Bool) :
    ¬ ((crossedEnv memory).named ∧ (crossedEnv memory).sys.Accepted) := by
  rintro ⟨-, content, hconf, -⟩
  cases hconf

theorem init_on_crossed : ∃ (p : Process String (List String) Unit) (t : ProcessorTopo),
    reeactInit (crossedEnv true) (Process.start 0 none []) = .ok () p ∧
      p.handle = some ⟨4711, some "sync", some "./sync", none, t⟩ ∧ Reconstructs crossed t ∧
      (true = true → LogsOnce crossed p.log) ∧ p.hooks.world = [] ∧
      ∀ f, p.hooks.real f = (countingLinker "").next f.symbol :=
  init_on_machine (crossedEnv true) rfl crossed crossed_shows (crossedEnv_not_accepted true) 0
    crossed_affords none []

/-! ## From then on -/

/-- Where there was no memory for the handle, the pointers are still `NULL`. -/
theorem init_sound {env : Env Ptr Arg World} {opened : ℕ} {error : Option String} {w : World}
    {p : Process Ptr World Data}
    (hrun : reeactInit env (Process.start opened error w) = .ok () p) :
    Sound env.linker env.memory p.hooks ∧ p.hooks.world = w := by
  cases hmem : env.memory with
  | false =>
      simp only [reeactInit, hmem] at hrun
      cases hrun
      exact ⟨sound_null env.linker error w, rfl⟩
  | true =>
      have hinit : wp (reeactInit env) (fun _ (p : Process Ptr World Data) =>
          Sound env.linker true p.hooks ∧ p.hooks.world = w) (fun _ _ => True)
          (Process.start opened error w) := by
        apply wp_reeactInit hmem
        unfold wp
        split
        · intro s hworld hreal
          exact ⟨⟨fun _ => hreal, (fun h => nomatch h), fun f => .inr (hreal f)⟩, hworld⟩
        · exact fun _ => trivial
      rw [wp, hrun] at hinit
      exact hinit

/-- **Once the constructor has ended, the process runs as without the
library**, however the reading of the topology went: hooked calls return, and
do to the rest of the process, what they do without it. Where there was no
memory for the handle, the hooks have not been initialised, and a call other
than of lock or unlock goes through `NULL`. -/
theorem calls_after_init (env : Env Ptr Arg World) (opened : ℕ) (error : Option String)
    (w : World) {p : Process Ptr World Data}
    (hrun : reeactInit env (Process.start opened error w) = .ok () p) (cs : List (HookCall Arg)) :
    (∀ vs s', hooked env.linker (cs.map Act.call) p.hooks = .ok vs s' →
      unhooked env.linker (cs.map Act.call) w = some (vs, s'.world)) ∧
    ((∃ vs s', hooked env.linker (cs.map Act.call) p.hooks = .ok vs s') ↔
      (unhooked env.linker (cs.map Act.call) w).isSome ∧
        (env.memory = true ∨ ∀ c ∈ cs, c.fn.late = true)) := by
  obtain ⟨hsound, hworld⟩ := init_sound hrun
  have hcalls := hsound.transparent (cs.map Act.call)
  rw [hworld, timely_calls] at hcalls
  exact hcalls

/-- A process where no file can be opened: the reading of the topology fails. -/
def blindEnv (memory : Bool) : Env String Unit (List String) :=
  { crossedEnv memory with sys := { crossedSysfs with fds := 0, fds_le := by decide } }

/-- A barrier after the constructor, with memory for the handle and without. -/
theorem calls_after_init_blind :
    (∃ p : Process String (List String) Unit,
      reeactInit (blindEnv true) (Process.start 0 none []) = .ok () p ∧
        ∃ vs s', hooked (countingLinker "") [.call (.barrierWait ())] p.hooks = .ok vs s') ∧
    ∃ p : Process String (List String) Unit,
      reeactInit (blindEnv false) (Process.start 0 none []) = .ok () p ∧
        ¬ ∃ vs s', hooked (countingLinker "") [.call (.barrierWait ())] p.hooks = .ok vs s' := by
  constructor
  · have hend : ∃ p : Process String (List String) Unit,
        reeactInit (blindEnv true) (Process.start 0 none []) = .ok () p := ⟨_, rfl⟩
    obtain ⟨p, hrun⟩ := hend
    have hwait := (calls_after_init (blindEnv true) 0 none [] hrun [.barrierWait ()]).2
    exact ⟨p, hrun, hwait.mpr ⟨rfl, .inl rfl⟩⟩
  · have hrun : reeactInit (blindEnv false) (Process.start 0 none []) =
        .ok () (Process.start 0 none [] : Process String (List String) Unit) := rfl
    have hwait := (calls_after_init (blindEnv false) 0 none [] hrun [.barrierWait ()]).2
    exact ⟨_, hrun, fun hcall =>
      absurd (hwait.mp hcall).2 (by simp [blindEnv, crossedEnv, HookCall.fn, Fn.late])⟩

end Reeact
