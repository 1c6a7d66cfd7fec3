import Mathlib.Data.List.Basic
import Mathlib.Tactic.Common

/-!
# Programs that may leave early

A program over a state `σ` ends with a value, or leaves by an exit `ε` from
wherever it is; the state it has got to is kept in both cases. `wp` is the
weakest precondition for a postcondition `Q` of the normal end and one, `E`,
of the exits. Loops are folds; their rule takes an invariant of what has been
gone through. A loop may also be a list of checks, left at the first to fail.
-/

namespace Exits

variable {ε σ α β : Type}

def wp (x : EStateM ε σ α) (Q : α → σ → Prop) (E : ε → σ → Prop) (s : σ) : Prop :=
  match x s with
  | .ok a s' => Q a s'
  | .error e s' => E e s'

section Rules

variable {Q : α → σ → Prop} {E : ε → σ → Prop} {s : σ}

@[simp] theorem wp_pure (a : α) : wp (pure a : EStateM ε σ α) Q E s ↔ Q a s := Iff.rfl

@[simp] theorem wp_throw (e : ε) : wp (throw e : EStateM ε σ α) Q E s ↔ E e s := Iff.rfl

@[simp] theorem wp_bind (x : EStateM ε σ β) (f : β → EStateM ε σ α) :
    wp (x >>= f) Q E s ↔ wp x (fun b s' => wp (f b) Q E s') E s := by
  simp only [wp, bind, EStateM.bind]
  cases x s <;> rfl

@[simp] theorem wp_map (x : EStateM ε σ β) (f : β → α) :
    wp (f <$> x) Q E s ↔ wp x (fun b s' => Q (f b) s') E s := by
  simp only [wp, Functor.map, EStateM.map]
  cases x s <;> rfl

@[simp] theorem wp_discard {R : PUnit → σ → Prop} (x : EStateM ε σ β) :
    wp (discard x) R E s ↔ wp x (fun _ s' => R ⟨⟩ s') E s := wp_map x (fun _ => PUnit.unit)

@[simp] theorem wp_get {R : σ → σ → Prop} : wp (get : EStateM ε σ σ) R E s ↔ R s s := Iff.rfl

@[simp] theorem wp_set {R : PUnit → σ → Prop} (s' : σ) :
    wp (set s' : EStateM ε σ PUnit) R E s ↔ R ⟨⟩ s' := Iff.rfl

@[simp] theorem wp_modify {R : PUnit → σ → Prop} (f : σ → σ) :
    wp (modify f : EStateM ε σ PUnit) R E s ↔ R ⟨⟩ (f s) := Iff.rfl

/-- The rule of consequence. -/
theorem wp_mono {x : EStateM ε σ α} {Q' : α → σ → Prop} {E' : ε → σ → Prop}
    (h : wp x Q E s) (hQ : ∀ a s', Q a s' → Q' a s') (hE : ∀ e s', E e s' → E' e s') :
    wp x Q' E' s := by
  unfold wp at h ⊢
  split at h
  · exact hQ _ _ h
  · exact hE _ _ h

@[simp] theorem wp_tryCatch (x : EStateM ε σ α) (h : ε → EStateM ε σ α) :
    wp (tryCatch x h) Q E s ↔ wp x Q (fun e s' => wp (h e) Q E s') s := by
  simp only [wp, tryCatch, tryCatchThe, MonadExceptOf.tryCatch, EStateM.tryCatch]
  cases x s <;> rfl

theorem wp_mono_ok {x : EStateM ε σ α} {Q' : α → σ → Prop} (h : wp x Q E s)
    (hQ : ∀ a s', Q a s' → Q' a s') : wp x Q' E s :=
  wp_mono h hQ (fun _ _ => id)

/-- A program that has no exit to take ends. -/
theorem ok_of_wp {x : EStateM ε σ α} (h : wp x Q (fun _ _ => False) s) :
    ∃ a s', x s = .ok a s' ∧ Q a s' := by
  unfold wp at h
  split at h
  · rename_i a s' hx
    exact ⟨a, s', hx, h⟩
  · exact h.elim

/-- **The loop rule.** `P xs` holds of the accumulator and the state once the
elements `xs` have been gone through. -/
theorem wp_foldlM (P : List β → α → σ → Prop) {f : α → β → EStateM ε σ α} {l : List β}
    (hstep : ∀ pre x post a s, l = pre ++ x :: post → P pre a s →
      wp (f a x) (P (pre ++ [x])) E s) {a : α} (h : P [] a s) :
    wp (l.foldlM f a) (P l) E s := by
  have key : ∀ (post pre : List β) (a : α) (s : σ), l = pre ++ post → P pre a s →
      wp (post.foldlM f a) (P l) E s := by
    intro post
    induction post with
    | nil =>
        intro pre a s hl hP
        rw [List.append_nil] at hl
        rw [hl]
        exact hP
    | cons x post ih =>
        intro pre a s hl hP
        rw [List.foldlM_cons, wp_bind]
        apply wp_mono_ok (hstep pre x post a s hl hP)
        intro a' s' hP'
        apply ih (pre ++ [x]) a' s' _ hP'
        rw [List.append_assoc]
        exact hl
  exact key l [] a s rfl h

/-- The loop rule without an accumulator. -/
theorem wp_forM (P : List β → σ → Prop) {f : β → EStateM ε σ PUnit} {l : List β}
    (hstep : ∀ pre x post s, l = pre ++ x :: post → P pre s →
      wp (f x) (fun _ => P (pre ++ [x])) E s) (h : P [] s) :
    wp (l.forM f) (fun _ => P l) E s := by
  have key : ∀ (post pre : List β) (s : σ), l = pre ++ post → P pre s →
      wp (post.forM f) (fun _ => P l) E s := by
    intro post
    induction post with
    | nil =>
        intro pre s hl hP
        rw [List.append_nil] at hl
        rw [hl]
        exact hP
    | cons x post ih =>
        intro pre s hl hP
        show wp (f x >>= fun _ => post.forM f) _ E s
        rw [wp_bind]
        apply wp_mono_ok (hstep pre x post s hl hP)
        intro _ s' hP'
        apply ih (pre ++ [x]) s' _ hP'
        rw [List.append_assoc]
        exact hl
  exact key l [] s rfl h

theorem discard_eq (x : EStateM ε σ α) : discard x = (fun _ => PUnit.unit) <$> x := rfl

/-- A loop whose accumulator is thrown away. -/
theorem discard_foldlM {f : α → β → EStateM ε σ α} {g : β → EStateM ε σ PUnit}
    (h : ∀ a x, discard (f a x) = g x) (l : List β) (a : α) :
    discard (l.foldlM f a) = l.forM g := by
  induction l generalizing a with
  | nil => rfl
  | cons x l ih =>
      show discard (f a x >>= fun a' => l.foldlM f a') = g x >>= fun _ => l.forM g
      rw [discard_eq, map_bind, ← h a x, discard_eq, bind_map_left]
      simp only [← discard_eq, ih]

theorem range_split {n x : ℕ} {pre post : List ℕ} (h : List.range n = pre ++ x :: post) :
    x = pre.length ∧ x < n := by
  have hlt : pre.length < (List.range n).length := by
    rw [h, List.length_append, List.length_cons]
    omega
  have hx : (List.range n)[pre.length] = x := by
    simp only [h, List.getElem_append_right (Nat.le_refl _), Nat.sub_self,
      List.getElem_cons_zero]
  rw [List.getElem_range] at hx
  rw [List.length_range] at hlt
  exact ⟨hx.symm, hx ▸ hlt⟩

/-- The loop rule for `for(i = 0; i < n; i++)`. -/
theorem wp_range (P : ℕ → α → σ → Prop) {f : α → ℕ → EStateM ε σ α} {n : ℕ}
    (hstep : ∀ i a s, i < n → P i a s → wp (f a i) (P (i + 1)) E s) {a : α} (h : P 0 a s) :
    wp ((List.range n).foldlM f a) (P n) E s := by
  have hloop := wp_foldlM (fun pre => P pre.length) (f := f) (l := List.range n) (E := E)
    (by
      intro pre x post a s hl hP
      obtain ⟨rfl, hlt⟩ := range_split hl
      rw [List.length_append]
      exact hstep pre.length a s hlt hP) (a := a) (s := s) h
  rw [List.length_range] at hloop
  exact hloop

theorem wp_range_forM (P : ℕ → σ → Prop) {f : ℕ → EStateM ε σ PUnit} {n : ℕ}
    (hstep : ∀ i s, i < n → P i s → wp (f i) (fun _ => P (i + 1)) E s) (h : P 0 s) :
    wp ((List.range n).forM f) (fun _ => P n) E s := by
  have hloop := wp_forM (fun pre => P pre.length) (f := f) (l := List.range n) (E := E)
    (by
      intro pre x post s hl hP
      obtain ⟨rfl, hlt⟩ := range_split hl
      rw [List.length_append]
      exact hstep pre.length s hlt hP) (s := s) h
  rw [List.length_range] at hloop
  exact hloop

/-! ## Checks made in order -/

/-- The first of the checks `0`, .., `n - 1` to fail, and what it finds. -/
def firstFault {φ : Type} (check : ℕ → Option φ) (n : ℕ) : Option φ :=
  (List.range n).findSome? check

variable {φ : Type} {check : ℕ → Option φ} {exit : φ → ε} {n : ℕ}

@[simp] theorem firstFault_zero : firstFault check 0 = none := rfl

theorem firstFault_succ : firstFault check (n + 1) = (firstFault check n).or (check n) := by
  unfold firstFault
  rw [List.range_succ, List.findSome?_append, List.findSome?_singleton]

theorem firstFault_eq_none : firstFault check n = none ↔ ∀ i < n, check i = none := by
  unfold firstFault
  simp only [List.findSome?_eq_none_iff, List.mem_range]

theorem exists_of_firstFault {e : φ} (h : firstFault check n = some e) :
    ∃ i < n, check i = some e := by
  obtain ⟨i, hi, he⟩ := List.exists_of_findSome?_eq_some h
  exact ⟨i, List.mem_range.mp hi, he⟩

/-- What the first check to fail says is what all of them say. -/
theorem firstFault_eq_some {i : ℕ} {e : φ} (hpre : firstFault check i = none) (hi : i < n)
    (he : check i = some e) : firstFault check n = some e := by
  induction n with
  | zero => exact absurd hi (Nat.not_lt_zero i)
  | succ n ih =>
      rw [firstFault_succ]
      by_cases hin : i = n
      · subst hin
        rw [hpre, he]
        rfl
      · rw [ih (by omega)]
        rfl

/-- One turn of a loop of checks, the turns before it passed; `exit` tells how
the program is left where a check fails. -/
theorem wp_turn {R : α → σ → Prop} {F : σ → Prop} {x : EStateM ε σ α} {i : ℕ}
    (hpre : firstFault check i = none) (hi : i < n)
    (hx : wp x (fun a s' => check i = none ∧ R a s')
      (fun e s' => (check i).map exit = some e ∧ F s') s) :
    wp x (fun a s' => firstFault check (i + 1) = none ∧ R a s')
      (fun e s' => (firstFault check n).map exit = some e ∧ F s') s := by
  apply wp_mono hx
  · rintro a s' ⟨hok, hR⟩
    refine ⟨?_, hR⟩
    rw [firstFault_succ, hpre, hok]
    rfl
  · rintro e s' ⟨he, hF⟩
    obtain ⟨fault, hfault, rfl⟩ := Option.map_eq_some_iff.mp he
    rw [firstFault_eq_some hpre hi hfault]
    exact ⟨rfl, hF⟩

/-- **A loop of checks.** If each turn ends when its check passes, and takes
the exit for what the check finds when it does not, so does the loop. -/
theorem wp_range_checks (P : ℕ → α → σ → Prop) (F : σ → Prop) {f : α → ℕ → EStateM ε σ α}
    (hstep : ∀ i a s, i < n → P i a s →
      wp (f a i) (fun a' s' => check i = none ∧ P (i + 1) a' s')
        (fun e s' => (check i).map exit = some e ∧ F s') s) {a : α} (h : P 0 a s) :
    wp ((List.range n).foldlM f a) (fun a' s' => firstFault check n = none ∧ P n a' s')
      (fun e s' => (firstFault check n).map exit = some e ∧ F s') s := by
  apply wp_range (fun i a' s' => firstFault check i = none ∧ P i a' s') ?_ ⟨rfl, h⟩
  rintro i a' s' hi ⟨hpre, hP⟩
  exact wp_turn hpre hi (hstep i a' s' hi hP)

/-- The same without an accumulator. -/
theorem wp_range_forM_checks (P : ℕ → σ → Prop) (F : σ → Prop) {f : ℕ → EStateM ε σ PUnit}
    (hstep : ∀ i s, i < n → P i s →
      wp (f i) (fun _ s' => check i = none ∧ P (i + 1) s')
        (fun e s' => (check i).map exit = some e ∧ F s') s) (h : P 0 s) :
    wp ((List.range n).forM f) (fun _ s' => firstFault check n = none ∧ P n s')
      (fun e s' => (firstFault check n).map exit = some e ∧ F s') s := by
  apply wp_range_forM (fun i s' => firstFault check i = none ∧ P i s') ?_ ⟨rfl, h⟩
  rintro i s' hi ⟨hpre, hP⟩
  exact wp_turn (R := fun _ => P (i + 1)) hpre hi (hstep i s' hi hP)

end Rules

end Exits
