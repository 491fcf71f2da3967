import Mathlib.Data.List.Induction
import Mathlib.Data.Nat.Notation
import Mathlib.Tactic.Common

/-! # Bounded loops and runs

Two shapes of iteration over an arbitrary state type.

* `whileLoop step n s` is a `while` loop: `step s` is the state after one round and `none`
  once the loop test fails.  The bound `n` makes the definition structural;
  `whileLoop_exits` says that a bound above a decreasing measure is never what ends it.
* `run step s as` executes a list of inputs with a partial step function.  Properties of
  runs are stated with `States` (a property of every state reached) and `Along` (a
  condition met by every step, in the state before it).  `run_invariant`, `run_preserves` and
  `states_of_step` are the induction rules, `states_iff_along` and `states_iff_along_state` the
  rules for a step condition that is exact.

`whileLoop_simulates` and `run_simulates` carry a relation between two systems from one step
to a loop and to a run. -/

namespace Transition

section loop

variable {σ : Type*} {step : σ → Option σ}

def whileLoop (step : σ → Option σ) : ℕ → σ → σ
  | 0, s => s
  | n + 1, s =>
      match step s with
      | none => s
      | some s' => whileLoop step n s'

theorem whileLoop_of_none {s : σ} (h : step s = none) : ∀ n, whileLoop step n s = s
  | 0 => rfl
  | n + 1 => by simp [whileLoop, h]

theorem whileLoop_of_some {s s' : σ} (h : step s = some s') (n : ℕ) :
    whileLoop step (n + 1) s = whileLoop step n s' := by simp [whileLoop, h]

/-- The invariant rule. -/
theorem whileLoop_invariant {P : σ → Prop} (hstep : ∀ s s', P s → step s = some s' → P s') :
    ∀ (n : ℕ) (s : σ), P s → P (whileLoop step n s)
  | 0, _, h => h
  | n + 1, s, h => by
      cases hs : step s with
      | none => rwa [whileLoop_of_none hs]
      | some s' =>
          rw [whileLoop_of_some hs]
          exact whileLoop_invariant hstep n s' (hstep s s' h hs)

/-- The termination rule: a measure that every round decreases bounds the rounds. -/
theorem whileLoop_exits (μ : σ → ℕ) (hμ : ∀ s s', step s = some s' → μ s' < μ s) :
    ∀ (n : ℕ) (s : σ), μ s ≤ n → step (whileLoop step n s) = none
  | 0, s, h => by
      cases hs : step s with
      | none => exact hs
      | some s' => have := hμ s s' hs; omega
  | n + 1, s, h => by
      cases hs : step s with
      | none => rwa [whileLoop_of_none hs]
      | some s' =>
          rw [whileLoop_of_some hs]
          have := hμ s s' hs
          exact whileLoop_exits μ hμ n s' (by omega)

/-- The simulation rule: two loops whose rounds match, with one bound. -/
theorem whileLoop_simulates {τ : Type*} {step' : τ → Option τ} {R : σ → τ → Prop}
    (hstep : ∀ s t, R s t → Option.Rel R (step s) (step' t)) :
    ∀ (n : ℕ) (s : σ) (t : τ), R s t → R (whileLoop step n s) (whileLoop step' n t)
  | 0, _, _, h => h
  | n + 1, s, t, h => by
      have hst := hstep s t h
      cases hs : step s with
      | none =>
          cases ht : step' t with
          | none => rwa [whileLoop_of_none hs, whileLoop_of_none ht]
          | some t' => rw [hs, ht] at hst; cases hst
      | some s' =>
          cases ht : step' t with
          | none => rw [hs, ht] at hst; cases hst
          | some t' =>
              rw [hs, ht] at hst
              rw [whileLoop_of_some hs, whileLoop_of_some ht]
              cases hst with
              | some h' => exact whileLoop_simulates hstep n s' t' h'

end loop

section runs

variable {σ α : Type*} (step : σ → α → Option σ) (s : σ)

def run : σ → List α → Option σ
  | s, [] => some s
  | s, a :: as => (step s a).bind fun s' => run s' as

/-- `P` holds in every state that the run over `as` passes through; `P` sees the inputs
consumed so far. -/
def States (P : List α → σ → Prop) (as : List α) : Prop :=
  ∀ pre post, as = pre ++ post → ∀ t, run step s pre = some t → P pre t

/-- `G` is met by every step of the run over `as`; `G` sees the inputs consumed so far, the
state before the step and the next input. -/
def Along (G : List α → σ → α → Prop) (as : List α) : Prop :=
  ∀ pre a post, as = pre ++ a :: post → ∀ t, run step s pre = some t → G pre t a

variable {step s}

@[simp] theorem run_nil : run step s [] = some s := rfl

theorem run_append (as bs : List α) :
    run step s (as ++ bs) = (run step s as).bind fun t => run step t bs := by
  induction as generalizing s with
  | nil => rfl
  | cons a as ih =>
      show (step s a).bind _ = ((step s a).bind _).bind _
      cases step s a with
      | none => rfl
      | some s' => exact ih

theorem run_concat (as : List α) (a : α) :
    run step s (as ++ [a]) = (run step s as).bind fun t => step t a := by
  rw [run_append]
  congr
  funext t
  show (step t a).bind (fun s' => some s') = step t a
  cases step t a <;> rfl

theorem run_concat_eq_some {as : List α} {a : α} {t' : σ} :
    run step s (as ++ [a]) = some t' ↔ ∃ t, run step s as = some t ∧ step t a = some t' := by
  rw [run_concat, Option.bind_eq_some_iff]

theorem run_append_of_eq_some {as bs : List α} {t : σ} (h : run step s as = some t) :
    run step s (as ++ bs) = run step t bs := by rw [run_append, h]; rfl

theorem Along.left {G : List α → σ → α → Prop} {as bs : List α} (h : Along step s G (as ++ bs)) :
    Along step s G as := fun pre a post he t ht =>
  h pre a (post ++ bs) (by rw [he]; simp) t ht

theorem Along.right {G : List α → σ → α → Prop} {as bs : List α} (h : Along step s G (as ++ bs))
    {t : σ} (ht : run step s as = some t) : Along step t (fun pre => G (as ++ pre)) bs :=
  fun pre a post he t' ht' =>
    h (as ++ pre) a post (by rw [he, List.append_assoc]) t' (by rwa [run_append_of_eq_some ht])

theorem Along.last {G : List α → σ → α → Prop} {as : List α} {a : α}
    (h : Along step s G (as ++ [a])) {t : σ} (ht : run step s as = some t) : G as t a :=
  h as a [] rfl t ht

theorem States.last {P : List α → σ → Prop} {as : List α} (h : States step s P as) {t : σ}
    (ht : run step s as = some t) : P as t :=
  h as [] (List.append_nil as).symm t ht

theorem along_nil {G : List α → σ → α → Prop} : Along step s G [] := by
  intro pre a post he
  simp at he

theorem along_cons {G : List α → σ → α → Prop} {a : α} {as : List α} :
    Along step s G (a :: as) ↔
      G [] s a ∧ ∀ t, step s a = some t → Along step t (fun pre => G (a :: pre)) as := by
  constructor
  · intro h
    refine ⟨h [] a as rfl s rfl, fun t ht pre c post he u hu => ?_⟩
    refine h (a :: pre) c post (by rw [he]; rfl) u ?_
    show (step s a).bind _ = some u
    rw [ht]
    exact hu
  · rintro ⟨h0, h⟩ pre c post he u hu
    cases pre with
    | nil =>
        obtain ⟨rfl, rfl⟩ := List.cons.inj he
        exact Option.some_inj.mp hu ▸ h0
    | cons a' pre =>
        obtain ⟨rfl, rfl⟩ := List.cons.inj he
        obtain ⟨t, ht, hu⟩ := Option.bind_eq_some_iff.mp hu
        exact h t ht pre c post rfl u hu

/-- A step condition that does not see the past can be checked along a run. -/
instance decidableAlong {G : σ → α → Prop} [∀ t a, Decidable (G t a)] :
    ∀ (t : σ) (as : List α), Decidable (Along step t (fun _ => G) as)
  | _, [] => isTrue along_nil
  | t, a :: as =>
      have : DecidablePred fun u => Along step u (fun _ => G) as := fun u => decidableAlong u as
      decidable_of_iff (G t a ∧ ∀ u ∈ step t a, Along step u (fun _ => G) as)
        (along_cons (G := fun _ => G)).symm

/-- A step condition, prefix by prefix. -/
theorem along_of_take {G : List α → σ → α → Prop} {as : List α}
    (h : ∀ n < as.length, ∀ t, run step s (as.take n) = some t → ∀ a, G (as.take n) t a) :
    Along step s G as := by
  intro pre a post he t ht
  have htake : as.take pre.length = pre := by rw [he, List.take_left]
  have hlt : pre.length < as.length := by
    rw [he, List.length_append, List.length_cons]
    omega
  have hG := h pre.length hlt t (by rw [htake, ht]) a
  rwa [htake] at hG

/-- The induction rule for runs. -/
theorem run_invariant {G : List α → σ → α → Prop} {P : List α → σ → Prop} (h0 : P [] s)
    (hstep : ∀ as t a t', P as t → G as t a → step t a = some t' → P (as ++ [a]) t') :
    ∀ {as : List α} {t : σ}, Along step s G as → run step s as = some t → P as t := by
  intro as
  induction as using List.reverseRecOn with
  | nil =>
      intro t _ ht
      rw [run_nil, Option.some_inj] at ht
      exact ht ▸ h0
  | append_singleton as a ih =>
      intro t' hG ht'
      obtain ⟨t, ht, hs⟩ := run_concat_eq_some.mp ht'
      exact hstep as t a t' (ih hG.left ht) (hG.last ht) hs

/-- What every step keeps holds after a run. -/
theorem run_preserves {P : σ → Prop} (h0 : P s)
    (hstep : ∀ t a t', P t → step t a = some t' → P t') {as : List α} {t : σ}
    (ht : run step s as = some t) : P t :=
  run_invariant (G := fun _ _ _ => True) (P := fun _ => P) h0
    (fun _ t a t' h _ hs => hstep t a t' h hs) (fun _ _ _ _ _ _ => trivial) ht

/-- The measure rule for runs: the steps that a measure can pay for. -/
theorem run_measure {P : σ → Prop} (μ : σ → ℕ) (h0 : P s)
    (hstep : ∀ t a t', P t → step t a = some t' → P t' ∧ μ t' < μ t) {as : List α} {t : σ}
    (h : run step s as = some t) : as.length + μ t ≤ μ s := by
  induction as using List.reverseRecOn generalizing t with
  | nil =>
      obtain rfl := Option.some_inj.mp h
      exact Nat.le_of_eq (Nat.zero_add _)
  | append_singleton as a ih =>
      obtain ⟨u, hu, hs⟩ := run_concat_eq_some.mp h
      have hP : P u := run_preserves h0 (fun t a t' ht ha => (hstep t a t' ht ha).1) hu
      have hlt := (hstep u a t hP hs).2
      have hle := ih hu
      rw [List.length_append, List.length_singleton]
      omega

/-- The induction rule for the states of a run.  `I` is what is known of the states anyway, `F`
what is known of the steps. -/
theorem states_of_step {F : List α → σ → α → Prop} {I P : List α → σ → Prop} {as : List α}
    (hI : States step s I as) (hF : Along step s F as) (h0 : P [] s)
    (hstep : ∀ as t a t', I as t → F as t a → P as t → step t a = some t' → P (as ++ [a]) t') :
    States step s P as := by
  intro pre post he
  induction pre using List.reverseRecOn generalizing post with
  | nil =>
      intro t ht
      rw [run_nil, Option.some_inj] at ht
      exact ht ▸ h0
  | append_singleton pre a ih =>
      intro t' ht'
      have he' : as = pre ++ a :: post := by rw [he]; simp
      obtain ⟨t, ht, hs⟩ := run_concat_eq_some.mp ht'
      exact hstep pre t a t' (hI pre (a :: post) he' t ht) (hF pre a post he' t ht)
        (ih (a :: post) he' t ht) hs

/-- The simulation rule for runs: `f` translates the inputs, and steps on translated inputs
match. -/
theorem run_simulates {τ β : Type*} {step' : τ → β → Option τ} {R : σ → τ → Prop} {f : α → β}
    {G : α → Prop} (hstep : ∀ s t a, G a → R s t → Option.Rel R (step s a) (step' t (f a))) :
    ∀ (as : List α) (s : σ) (t : τ), (∀ a ∈ as, G a) → R s t →
      Option.Rel R (run step s as) (run step' t (as.map f))
  | [], _, _, _, h => .some h
  | a :: as, s, t, hG, h => by
      have hst := hstep s t a (hG a List.mem_cons_self) h
      have hG' : ∀ a' ∈ as, G a' := fun a' ha' => hG a' (List.mem_cons_of_mem a ha')
      show Option.Rel R ((step s a).bind _) ((step' t (f a)).bind _)
      generalize step s a = x at hst ⊢
      generalize step' t (f a) = y at hst ⊢
      cases hst with
      | none => exact .none
      | some h' => exact run_simulates hstep as _ _ hG' h'

/-- A step condition `G` is exact for `P` when, from a state with `P`, the step keeps `P` if
and only if it meets `G`.  The states of a run then all have `P` if and only if its steps all
meet `G`. -/
theorem states_iff_along {F G : List α → σ → α → Prop} {I P : List α → σ → Prop} {as : List α}
    (hI : States step s I as) (hF : Along step s F as) (h0 : P [] s)
    (hnone : ∀ as t a, I as t → F as t a → P as t → step t a = none → G as t a)
    (hsome : ∀ as t a t', I as t → F as t a → P as t → step t a = some t' →
      (P (as ++ [a]) t' ↔ G as t a)) :
    States step s P as ↔ Along step s G as := by
  constructor
  · intro hP pre a post he t ht
    have hIt := hI pre (a :: post) he t ht
    have hFt := hF pre a post he t ht
    have hPt := hP pre (a :: post) he t ht
    have he' : as = (pre ++ [a]) ++ post := by rw [he]; simp
    cases hs : step t a with
    | none => exact hnone pre t a hIt hFt hPt hs
    | some t' =>
        have ht' : run step s (pre ++ [a]) = some t' := run_concat_eq_some.mpr ⟨t, ht, hs⟩
        exact (hsome pre t a t' hIt hFt hPt hs).mp (hP _ post he' t' ht')
  · intro hG
    have hFG : Along step s (fun as t a => F as t a ∧ G as t a) as := fun pre a post he t ht =>
      ⟨hF pre a post he t ht, hG pre a post he t ht⟩
    exact states_of_step hI hFG h0 fun as t a t' hIt hFGt hPt hs =>
      (hsome as t a t' hIt hFGt.1 hPt hs).mpr hFGt.2

/-- The same for conditions that do not see the past. -/
theorem states_iff_along_state {G : σ → α → Prop} {I P : σ → Prop} {as : List α}
    (hI : States step s (fun _ => I) as) (h0 : P s)
    (hnone : ∀ t a, I t → P t → step t a = none → G t a)
    (hsome : ∀ t a t', I t → P t → step t a = some t' → (P t' ↔ G t a)) :
    States step s (fun _ => P) as ↔ Along step s (fun _ => G) as := by
  refine states_iff_along (F := fun _ _ _ => True) hI (fun _ _ _ _ _ _ => trivial) h0 ?_ ?_
  · intro _ t a h _ hP hs
    exact hnone t a h hP hs
  · intro _ t a t' h _ hP hs
    exact hsome t a t' h hP hs

end runs

end Transition
