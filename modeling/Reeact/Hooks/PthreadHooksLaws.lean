import Reeact.Hooks.PthreadHooks

/-!
# pthread_hooks — the default policy is transparent

With the default policy a process does what it would do without the library:
each hook reaches the next definition of its own name, with the arguments it
was given (`hooks_transparent`). The exceptions are calls that come too early,
before the library's constructor; those of lock and unlock do not.
-/

namespace Reeact.Hooks

open Exits

variable {Ptr Arg World : Type} {L : Linker Ptr Arg World}

/-- The name of a function. -/
def Fn.symbol : Fn → String
  | .create => "pthread_create"
  | .barrierInit => "pthread_barrier_init"
  | .barrierWait => "pthread_barrier_wait"
  | .barrierDestroy => "pthread_barrier_destroy"
  | .mutexInit => "pthread_mutex_init"
  | .mutexLock => "pthread_mutex_lock"
  | .mutexTrylock => "pthread_mutex_trylock"
  | .mutexTimedlock => "pthread_mutex_timedlock"
  | .mutexUnlock => "pthread_mutex_unlock"
  | .mutexConsistent => "pthread_mutex_consistent"
  | .mutexDestroy => "pthread_mutex_destroy"
  | .condInit => "pthread_cond_init"
  | .condDestroy => "pthread_cond_destroy"
  | .condSignal => "pthread_cond_signal"
  | .condBroadcast => "pthread_cond_broadcast"
  | .condWait => "pthread_cond_wait"
  | .condTimedwait => "pthread_cond_timedwait"

/-- Every pointer gets the function of its own name, -/
theorem lookups_symbol {l : Fn × String} (h : l ∈ lookups) : l.2 = l.1.symbol := by
  simp only [lookups, List.mem_cons, List.not_mem_nil, or_false] at h
  rcases h with rfl | rfl | rfl | rfl | rfl | rfl | rfl | rfl | rfl | rfl | rfl | rfl | rfl | rfl |
    rfl | rfl | rfl <;> rfl

/-- and none is left out. -/
theorem mem_lookups (f : Fn) : (f, f.symbol) ∈ lookups := by
  cases f <;> simp [lookups, Fn.symbol]

/-! ## Initialisation -/

/-- The lookups whose failure the error tells: all of them, or the last. -/
def Linker.told (L : Linker Ptr Arg World) (ls : List (Fn × String)) : List (Fn × String) :=
  if L.keepsError then ls else ls.getLast?.toList

/-- None of these has failed. -/
def Linker.Silent (L : Linker Ptr Arg World) (ls : List (Fn × String)) : Prop :=
  ∀ l ∈ L.told ls, L.next l.2 ≠ none

theorem silent_nil (L : Linker Ptr Arg World) : L.Silent [] := by
  intro l hl
  rw [Linker.told] at hl
  split at hl <;> cases hl

/-- One lookup more. -/
theorem silent_append {ls : List (Fn × String)} {l : Fn × String} {error : Option String}
    (h : error = none ↔ L.Silent ls) :
    L.errorAfter l.2 error = none ↔ L.Silent (ls ++ [l]) := by
  cases hkeeps : L.keepsError with
  | true =>
      simp only [Linker.Silent, Linker.told, hkeeps, if_true] at h ⊢
      simp only [List.mem_append, List.mem_singleton, or_imp, forall_and, forall_eq, ← h]
      cases hnext : L.next l.2 <;> simp [Linker.errorAfter, hnext, hkeeps]
  | false =>
      cases hnext : L.next l.2 <;>
        simp [Linker.Silent, Linker.told, Linker.errorAfter, hnext, hkeeps]

theorem silent_keeps (hkeeps : L.keepsError = true) :
    L.Silent lookups ↔ ∀ f : Fn, L.next f.symbol ≠ none := by
  rw [Linker.Silent, Linker.told, if_pos hkeeps]
  constructor
  · exact fun h f => h _ (mem_lookups f)
  · intro h l hl
    rw [lookups_symbol hl]
    exact h l.1

/-- The last lookup is that of `pthread_cond_timedwait`. -/
theorem silent_drops (hkeeps : L.keepsError = false) :
    L.Silent lookups ↔ L.next Fn.condTimedwait.symbol ≠ none := by
  rw [Linker.Silent, Linker.told, hkeeps]
  exact ⟨fun h => h (.condTimedwait, Fn.condTimedwait.symbol) (List.mem_singleton.mpr rfl),
    fun h l hl => List.mem_singleton.mp hl ▸ h⟩

section Init

variable {E : Exit → State Ptr World → Prop} {s : State Ptr World}

theorem wp_lookUp {Q : Unit → State Ptr World → Prop} {f : Fn} {name : String}
    (h : Q () ⟨Function.update s.real f (L.next name), L.errorAfter name s.error, s.world⟩) :
    wp (lookUp L f name) Q E s := h

theorem wp_dlerror {Q : Option String → State Ptr World → Prop}
    (h : Q s.error { s with error := none }) : wp dlerror Q E s := h

/-- **After `reeact_pthread_hooks_init`** every pointer is what the linker has
for its name, and the code tells whether a failure was still to be seen. What
the linker could not find before does not count. -/
theorem wp_reeactPthreadHooksInit :
    wp (reeactPthreadHooksInit L)
      (fun v s' => (∀ f, s'.real f = L.next f.symbol) ∧ s'.world = s.world ∧
        (v = 0 ∨ v = REEACT_PTHREAD_HOOKS_ERR_LOAD_ORIGINAL_FUNCTION) ∧
        (v = 0 ↔ L.Silent lookups)) (fun _ _ => False) s := by
  unfold reeactPthreadHooksInit
  rw [wp_bind]
  apply wp_dlerror
  rw [wp_bind]
  have hloop : wp (lookups.forM fun l => lookUp L l.1 l.2)
      (fun _ s' => (∀ l ∈ lookups, s'.real l.1 = L.next l.2) ∧ s'.world = s.world ∧
        (s'.error = none ↔ L.Silent lookups)) (fun _ _ => False)
      { s with error := none } := by
    apply wp_forM (fun (pre : List (Fn × String)) (s' : State Ptr World) =>
      (∀ l ∈ pre, s'.real l.1 = L.next l.2) ∧ s'.world = s.world ∧
        (s'.error = none ↔ L.Silent pre))
    · rintro pre l post s₁ hl ⟨hreal, hworld, herror⟩
      have hmem : ∀ l' ∈ pre ++ [l], l' ∈ lookups := by
        intro l' hl'
        rw [hl]
        exact List.mem_append.mpr ((List.mem_append.mp hl').imp id
          (fun h => List.mem_cons.mpr (.inl (List.mem_singleton.mp h))))
      apply wp_lookUp
      refine ⟨?_, hworld, silent_append herror⟩
      · intro l' hl'
        show Function.update s₁.real l.1 (L.next l.2) l'.1 = L.next l'.2
        by_cases hf : l'.1 = l.1
        · rw [hf, Function.update_self, lookups_symbol (hmem l' hl'),
            lookups_symbol (hmem l (List.mem_append_right _ (List.mem_singleton.mpr rfl))), hf]
        · rw [Function.update_of_ne hf]
          rcases List.mem_append.mp hl' with h | h
          · exact hreal l' h
          · rw [List.mem_singleton.mp h] at hf
            exact absurd rfl hf
    · exact ⟨fun _ h => absurd h List.not_mem_nil, rfl, iff_of_true rfl (silent_nil L)⟩
  apply wp_mono_ok hloop
  rintro _ s₁ ⟨hreal, hworld, herror⟩
  have hreal' : ∀ f, s₁.real f = L.next f.symbol := fun f => hreal _ (mem_lookups f)
  rw [wp_bind]
  apply wp_dlerror
  cases he : s₁.error with
  | none => exact ⟨hreal', hworld, .inl rfl, iff_of_true rfl (herror.mp he)⟩
  | some e =>
      refine ⟨hreal', hworld, .inr rfl, iff_of_false (by decide) fun h => ?_⟩
      rw [herror.mpr h] at he
      cases he

end Init

/-! ## One call -/

/-- The original a call reaches. -/
def HookCall.fn : HookCall Arg → Fn
  | .create .. => .create
  | .barrierInit .. => .barrierInit
  | .barrierWait .. => .barrierWait
  | .barrierDestroy .. => .barrierDestroy
  | .mutexInit .. => .mutexInit
  | .mutexLock .. => .mutexLock
  | .mutexTrylock .. => .mutexTrylock
  | .mutexTimedlock .. => .mutexTimedlock
  | .mutexUnlock .. => .mutexUnlock
  | .mutexConsistent .. => .mutexConsistent
  | .mutexDestroy .. => .mutexDestroy
  | .condInit .. => .condInit
  | .condDestroy .. => .condDestroy
  | .condSignal .. => .condSignal
  | .condBroadcast .. => .condBroadcast
  | .condWait .. => .condWait
  | .condTimedwait .. => .condTimedwait

/-- Lock and unlock look their function up late. -/
def Fn.late : Fn → Bool
  | .mutexLock | .mutexUnlock => true
  | _ => false

theorem original_name (c : HookCall Arg) : c.original.1 = c.fn.symbol := by
  cases c <;> rfl

theorem hook_eq (c : HookCall Arg) : c.hook L =
    if c.fn.late then callRealLate L c.fn c.fn.symbol c.original.2
    else callReal L c.fn c.original.2 := by
  cases c <;> rfl

/-- What the pointers are, before the constructor has run and after. -/
structure Sound (L : Linker Ptr Arg World) (ready : Bool) (s : State Ptr World) : Prop where
  after : ready = true → ∀ f, s.real f = L.next f.symbol
  before : ready = false → ∀ f, f.late = false → s.real f = none
  own : ∀ f, s.real f = none ∨ s.real f = L.next f.symbol

theorem sound_null (L : Linker Ptr Arg World) (error : Option String) (w : World) :
    Sound L false (⟨fun _ => none, error, w⟩ : State Ptr World) :=
  ⟨(fun h => nomatch h), fun _ _ _ => rfl, fun _ => .inl rfl⟩

section Call

variable {ready : Bool} {s : State Ptr World} {f : Fn}

theorem wp_callReal {Q : Int → State Ptr World → Prop} {E : Exit → State Ptr World → Prop}
    {args : List Arg} (hsome : ∀ p, s.real f = some p →
      Q (L.call p args s.world).1 { s with world := (L.call p args s.world).2 })
    (hnone : s.real f = none → E .nullCall s) : wp (callReal L f args) Q E s := by
  unfold callReal
  rw [wp_bind, wp_get]
  cases hreal : s.real f with
  | none => exact hnone hreal
  | some p => exact hsome p hreal

theorem Sound.setReal (h : Sound L ready s) (hlate : f.late = true) (error : Option String) :
    Sound L ready ⟨Function.update s.real f (L.next f.symbol), error, s.world⟩ := by
  have hother : ∀ g, g ≠ f → Function.update s.real f (L.next f.symbol) g = s.real g :=
    fun g hg => Function.update_of_ne hg ..
  refine ⟨fun hr g => ?_, fun hr g hg => ?_, fun g => ?_⟩
  · by_cases hgf : g = f
    · subst hgf
      exact Function.update_self ..
    · exact (hother g hgf).trans (h.after hr g)
  · have hgf : g ≠ f := by
      rintro rfl
      rw [hlate] at hg
      cases hg
    exact (hother g hgf).trans (h.before hr g hg)
  · by_cases hgf : g = f
    · subst hgf
      exact .inr (Function.update_self ..)
    · show Function.update s.real f (L.next f.symbol) g = none ∨
        Function.update s.real f (L.next f.symbol) g = L.next g.symbol
      rw [hother g hgf]
      exact h.own g

/-- **A call reaches the next definition of its name**, or `NULL`: where there
is none, or the call is not a late one and comes too early. -/
theorem Sound.hook (h : Sound L ready s) (c : HookCall Arg) :
    wp (c.hook L)
      (fun v s' => Sound L ready s' ∧ (ready || c.fn.late) = true ∧
        ∃ p, L.next c.original.1 = some p ∧ L.call p c.original.2 s.world = (v, s'.world))
      (fun _ _ => L.next c.original.1 = none ∨ (ready || c.fn.late) = false) s := by
  rw [hook_eq, original_name]
  have hworld : ∀ {s₁ : State Ptr World}, Sound L ready s₁ → ∀ w,
      Sound L ready { s₁ with world := w } := fun h _ => ⟨h.after, h.before, h.own⟩
  cases hlate : c.fn.late with
  | false =>
      rw [if_neg Bool.false_ne_true, Bool.or_false]
      apply wp_callReal
      · intro p hp
        refine ⟨hworld h _, ?_, p, ?_, rfl⟩
        · by_contra hr
          rw [h.before (by simpa using hr) _ hlate] at hp
          cases hp
        · rcases h.own c.fn with hn | hn
          · rw [hn] at hp
            cases hp
          · rw [← hn, hp]
      · intro hn
        cases hr : ready with
        | false => exact .inr rfl
        | true =>
            rw [← h.after hr]
            exact .inl hn
  | true =>
      rw [if_pos rfl, Bool.or_true]
      -- whether it has been looked up before or not
      have hcall : ∀ {s₁ : State Ptr World}, Sound L ready s₁ → s₁.world = s.world →
          s₁.real c.fn = L.next c.fn.symbol →
          wp (callReal L c.fn c.original.2)
            (fun v s' => Sound L ready s' ∧ true = true ∧ ∃ p, L.next c.fn.symbol = some p ∧
              L.call p c.original.2 s.world = (v, s'.world))
            (fun _ _ => L.next c.fn.symbol = none ∨ true = false) s₁ := by
        intro s₁ h₁ hw hreal
        apply wp_callReal
        · intro p hp
          rw [hw]
          exact ⟨hworld h₁ _, rfl, p, by rw [← hreal, hp], rfl⟩
        · intro hn
          rw [← hreal]
          exact .inl hn
      unfold callRealLate
      rw [wp_bind, wp_get]
      split
      · rw [wp_bind]
        apply wp_lookUp
        exact hcall (h.setReal hlate _) rfl (Function.update_self ..)
      · rename_i hsome
        refine hcall h rfl ((h.own c.fn).resolve_left fun hn => hsome ?_)
        rw [hn]
        rfl

end Call

/-! ## Whole runs -/

/-- Every call but those of lock and unlock comes after the constructor. -/
def timely : Bool → List (Act Arg) → Bool
  | _, [] => true
  | _, .init :: as => timely true as
  | ready, .call c :: as => (ready || c.fn.late) && timely ready as

theorem Sound.run {ready : Bool} {s : State Ptr World} (h : Sound L ready s)
    (as : List (Act Arg)) :
    wp (hooked L as)
      (fun vs s' => unhooked L as s.world = some (vs, s'.world) ∧ timely ready as = true)
      (fun _ _ => unhooked L as s.world = none ∨ timely ready as = false) s := by
  induction as generalizing ready s with
  | nil => exact ⟨rfl, rfl⟩
  | cons a as ih =>
      cases a with
      | init =>
          unfold hooked
          rw [wp_bind]
          apply wp_mono wp_reeactPthreadHooksInit
          · rintro _ s₁ ⟨hreal, hworld, -⟩
            have h₁ : Sound L true s₁ :=
              ⟨fun _ => hreal, (fun h => nomatch h), fun f => .inr (hreal f)⟩
            have htail := ih h₁
            rw [hworld] at htail
            exact htail
          · exact fun _ _ hf => hf.elim
      | call c =>
          unfold hooked
          rw [wp_bind]
          apply wp_mono (h.hook c)
          · rintro v s₁ ⟨h₁, hintime, p, hp, hcall⟩
            rw [wp_bind]
            apply wp_mono (ih h₁)
            · rintro vs s' ⟨hun, htimely⟩
              refine ⟨?_, by rw [timely, hintime, htimely]; rfl⟩
              simp [unhooked, hp, hcall, hun]
            · rintro _ _ (hun | htimely)
              · refine .inl ?_
                simp [unhooked, hp, hcall, hun]
              · refine .inr ?_
                rw [timely, htimely, Bool.and_false]
          · rintro _ _ (hnone | hearly)
            · refine .inl ?_
              simp [unhooked, hnone]
            · refine .inr ?_
              rw [timely, hearly, Bool.false_and]

/-- From sound pointers on, the process runs as without the library. -/
theorem Sound.transparent {ready : Bool} {s : State Ptr World} (h : Sound L ready s)
    (as : List (Act Arg)) :
    (∀ vs s', hooked L as s = .ok vs s' → unhooked L as s.world = some (vs, s'.world)) ∧
    ((∃ vs s', hooked L as s = .ok vs s') ↔
      (unhooked L as s.world).isSome ∧ timely ready as = true) := by
  have hspec := h.run as
  unfold wp at hspec
  split at hspec
  · rename_i vs s' hrun
    constructor
    · intro vs' s'' hrun'
      rw [hrun] at hrun'
      cases hrun'
      exact hspec.1
    · refine iff_of_true ⟨vs, s', hrun⟩ ⟨?_, hspec.2⟩
      rw [hspec.1]
      rfl
  · rename_i e s' hrun
    constructor
    · intro vs s'' hrun'
      rw [hrun] at hrun'
      cases hrun'
    · refine iff_of_false ?_ ?_
      · rintro ⟨vs, s'', hrun'⟩
        rw [hrun] at hrun'
        cases hrun'
      · rintro ⟨hsome, htimely⟩
        rcases hspec with hnone | hearly
        · rw [hnone] at hsome
          cases hsome
        · rw [htimely] at hearly
          cases hearly

/-- **The default policy is transparent.** Whatever hooked functions a process
calls, in whatever order: if no call goes through `NULL`, the calls return,
and do to the rest of the process, what they do without the library. And none
goes through `NULL` exactly if the linker has all the functions called, and
none but lock and unlock is called before `reeact_pthread_hooks_init`. -/
theorem hooks_transparent (L : Linker Ptr Arg World) (as : List (Act Arg)) (error : Option String)
    (w : World) :
    (∀ vs s', hooked L as ⟨fun _ => none, error, w⟩ = .ok vs s' →
      unhooked L as w = some (vs, s'.world)) ∧
    ((∃ vs s', hooked L as ⟨fun _ => none, error, w⟩ = .ok vs s') ↔
      (unhooked L as w).isSome ∧ timely false as = true) :=
  (sound_null L error w).transparent as

theorem timely_calls {ready : Bool} {cs : List (HookCall Arg)} :
    timely ready (cs.map Act.call) = true ↔ ready = true ∨ ∀ c ∈ cs, c.fn.late = true := by
  induction cs with
  | nil => simp [timely]
  | cons c cs ih =>
      rw [List.map_cons, timely, Bool.and_eq_true, Bool.or_eq_true, ih]
      simp only [List.mem_cons, forall_eq_or_imp]
      tauto

theorem unhooked_calls (cs : List (HookCall Arg)) (w : World) :
    (unhooked L (cs.map Act.call) w).isSome ↔ ∀ c ∈ cs, L.next c.fn.symbol ≠ none := by
  induction cs generalizing w with
  | nil => simp [unhooked]
  | cons c cs ih =>
      rw [List.forall_mem_cons]
      cases hnext : L.next c.fn.symbol with
      | none => simp [unhooked, original_name, hnext]
      | some p =>
          rw [← ih (L.call p c.original.2 w).2]
          cases hrest : unhooked L (cs.map Act.call) (L.call p c.original.2 w).2 <;>
            simp [unhooked, original_name, hnext, hrest]

/-- After the constructor calls return but those of missing functions. -/
theorem Sound.calls_return {s : State Ptr World} (h : Sound L true s)
    (cs : List (HookCall Arg)) :
    (∃ vs s', hooked L (cs.map Act.call) s = .ok vs s') ↔
      ∀ c ∈ cs, L.next c.fn.symbol ≠ none := by
  have htimely : timely true (cs.map Act.call) = true := timely_calls.mpr (.inl rfl)
  rw [(h.transparent (cs.map Act.call)).2, unhooked_calls, and_iff_left htimely]

/-- There is a call of every function. -/
theorem exists_call [hne : Nonempty Arg] (f : Fn) : ∃ c : HookCall Arg, c.fn = f := by
  obtain ⟨x⟩ := hne
  cases f with
  | create => exact ⟨.create x x x x, rfl⟩
  | barrierInit => exact ⟨.barrierInit x x x, rfl⟩
  | barrierWait => exact ⟨.barrierWait x, rfl⟩
  | barrierDestroy => exact ⟨.barrierDestroy x, rfl⟩
  | mutexInit => exact ⟨.mutexInit x x, rfl⟩
  | mutexLock => exact ⟨.mutexLock x, rfl⟩
  | mutexTrylock => exact ⟨.mutexTrylock x, rfl⟩
  | mutexTimedlock => exact ⟨.mutexTimedlock x x, rfl⟩
  | mutexUnlock => exact ⟨.mutexUnlock x, rfl⟩
  | mutexConsistent => exact ⟨.mutexConsistent x, rfl⟩
  | mutexDestroy => exact ⟨.mutexDestroy x, rfl⟩
  | condInit => exact ⟨.condInit x x, rfl⟩
  | condDestroy => exact ⟨.condDestroy x, rfl⟩
  | condSignal => exact ⟨.condSignal x, rfl⟩
  | condBroadcast => exact ⟨.condBroadcast x, rfl⟩
  | condWait => exact ⟨.condWait x x, rfl⟩
  | condTimedwait => exact ⟨.condTimedwait x x x, rfl⟩

/-- **What the code of `reeact_pthread_hooks_init` tells**, whatever was looked
up, or not found, before it. If the linker keeps its error until it is asked,
0 means that no call afterwards can go through `NULL`. If a lookup that
succeeds drops it, as with glibc, only the last one counts: 0 means that no
call of `pthread_cond_timedwait` can. -/
theorem hooks_init_zero_iff [Nonempty Arg] (L : Linker Ptr Arg World) (s : State Ptr World) :
    ∃ v s', reeactPthreadHooksInit L s = .ok v s' ∧ (v = 0 ∨ v = 1) ∧
      (L.keepsError = true → (v = 0 ↔ ∀ cs : List (HookCall Arg),
        ∃ vs s'', hooked L (cs.map Act.call) s' = .ok vs s'')) ∧
      (L.keepsError = false → (v = 0 ↔ ∀ cs : List (HookCall Arg),
        (∀ c ∈ cs, c.fn = .condTimedwait) →
          ∃ vs s'', hooked L (cs.map Act.call) s' = .ok vs s'')) := by
  obtain ⟨v, s', hrun, hreal, -, hv, hzero⟩ :=
    ok_of_wp (wp_reeactPthreadHooksInit (L := L) (s := s))
  have hsound : Sound L true s' :=
    ⟨fun _ => hreal, (fun h => nomatch h), fun f => .inr (hreal f)⟩
  -- a single call of a function tells whether it is there
  have hone : ∀ {c : HookCall Arg},
      (∃ vs s'', hooked L ([c].map Act.call) s' = .ok vs s'') → L.next c.fn.symbol ≠ none :=
    fun h => (hsound.calls_return _).mp h _ (List.mem_singleton.mpr rfl)
  refine ⟨v, s', hrun, hv, fun hkeeps => ?_, fun hdrops => ?_⟩
  · rw [hzero, silent_keeps hkeeps]
    constructor
    · exact fun hall cs => (hsound.calls_return cs).mpr (fun c _ => hall c.fn)
    · intro hcalls f
      obtain ⟨c, rfl⟩ : ∃ c : HookCall Arg, c.fn = f := exists_call f
      exact hone (hcalls [c])
  · rw [hzero, silent_drops hdrops]
    constructor
    · intro hlast cs hcs
      exact (hsound.calls_return cs).mpr (fun c hc => hcs c hc ▸ hlast)
    · intro hcalls
      obtain ⟨c, hc⟩ : ∃ c : HookCall Arg, c.fn = .condTimedwait := exists_call .condTimedwait
      rw [← hc]
      exact hone (hcalls [c] (by simpa using hc))

/-- A linker like that of glibc that lacks one of the functions, and calls that
tell which function has been called how often. -/
def countingLinker (missing : String) : Linker String Unit (List String) where
  next name := if name = missing then none else some name
  message name := name
  keepsError := false
  call p _ w := (w.length, p :: w)

/-- Where `pthread_cond_wait` is missing, the code is 0 with glibc, but 1 with a
linker that keeps its error. -/
theorem hooks_init_zero_counting :
    (∃ v s', reeactPthreadHooksInit (countingLinker "pthread_cond_wait")
        ⟨fun _ => none, none, []⟩ = .ok v s' ∧ v = 0 ∧
      ∀ cs : List (HookCall Unit), (∀ c ∈ cs, c.fn = .condTimedwait) →
        ∃ vs s'', hooked (countingLinker "pthread_cond_wait") (cs.map Act.call) s' = .ok vs s'') ∧
    ∃ v s', reeactPthreadHooksInit { countingLinker "pthread_cond_wait" with keepsError := true }
        ⟨fun _ => none, none, []⟩ = .ok v s' ∧ v = 1 ∧
      ¬ ∀ cs : List (HookCall Unit), ∃ vs s'',
        hooked { countingLinker "pthread_cond_wait" with keepsError := true }
          (cs.map Act.call) s' = .ok vs s'' := by
  obtain ⟨v, s', hrun, -, -, hdrops⟩ :=
    hooks_init_zero_iff (countingLinker "pthread_cond_wait") ⟨fun _ => none, none, []⟩
  obtain ⟨v', s'', hrun', -, hkeeps, -⟩ := hooks_init_zero_iff
    { countingLinker "pthread_cond_wait" with keepsError := true } ⟨fun _ => none, none, []⟩
  have hv : v = 0 := by
    cases hrun
    rfl
  have hv' : v' = 1 := by
    cases hrun'
    rfl
  refine ⟨⟨v, s', hrun, hv, (hdrops rfl).mp hv⟩, v', s'', hrun', hv', fun hall => ?_⟩
  rw [(hkeeps rfl).mpr hall] at hv'
  cases hv'

end Reeact.Hooks
