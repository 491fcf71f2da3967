import Mathlib.Algebra.BigOperators.Group.List.Basic
import Mathlib.Algebra.GroupWithZero.Nat
import Mathlib.Order.Nat
import Mathlib.Tactic.Common

/-! # Greedy consumption

A demand is served from a list of supplies, front to back, each supply used up before the next
one is touched.

* `fills` lists who served how much, `rest` is what is left of the supplies.
* `amt x` is what the supply `x` holds, and `use x n` is `x` after `n` of it has been used.

`fills_sum` says how much is served, `fills_used_up` that only the last supply touched can
have something left. -/

namespace Greedy

variable {α : Type*} (amt : α → ℕ) (use : α → ℕ → α)

/-- The supplies that serve the demand, each with the amount it serves. -/
def fills : ℕ → List α → List (α × ℕ)
  | _, [] => []
  | d, x :: xs => if d = 0 then [] else (x, min (amt x) d) :: fills (d - min (amt x) d) xs

/-- The supplies after they have served the demand. -/
def rest : ℕ → List α → List α
  | _, [] => []
  | d, x :: xs => if d < amt x then use x d :: xs else rest (d - amt x) xs

variable {amt use} {d : ℕ} {x : α} {xs : List α}

@[simp] theorem fills_nil (d : ℕ) : fills amt d [] = [] := rfl

@[simp] theorem rest_nil (d : ℕ) : rest amt use d [] = [] := rfl

@[simp] theorem fills_zero (xs : List α) : fills amt 0 xs = [] := by
  cases xs with
  | nil => rfl
  | cons x xs => simp [fills]

theorem fills_of_le (hd : 0 < d) (h : amt x ≤ d) :
    fills amt d (x :: xs) = (x, amt x) :: fills amt (d - amt x) xs := by
  rw [fills, if_neg hd.ne', min_eq_left h]

theorem fills_of_lt (hd : 0 < d) (h : d < amt x) : fills amt d (x :: xs) = [(x, d)] := by
  rw [fills, if_neg hd.ne', min_eq_right h.le, Nat.sub_self, fills_zero]

theorem rest_of_le (h : amt x ≤ d) : rest amt use d (x :: xs) = rest amt use (d - amt x) xs := by
  rw [rest, if_neg (not_lt.mpr h)]

theorem rest_of_lt (h : d < amt x) : rest amt use d (x :: xs) = use x d :: xs := by
  rw [rest, if_pos h]

/-- No demand leaves every supply as it is. -/
theorem rest_zero (huse : ∀ x, use x 0 = x) (hpos : ∀ x ∈ xs, 0 < amt x) :
    rest amt use 0 xs = xs := by
  cases xs with
  | nil => rfl
  | cons x xs => rw [rest_of_lt (hpos x List.mem_cons_self), huse]

/-- **The demand is served as far as the supplies go.** -/
theorem fills_sum (d : ℕ) (xs : List α) :
    ((fills amt d xs).map Prod.snd).sum = min d (xs.map amt).sum := by
  induction xs generalizing d with
  | nil => simp
  | cons x xs ih =>
      rcases Nat.eq_zero_or_pos d with rfl | hd
      · simp
      · rw [List.map_cons, List.sum_cons]
        rcases Nat.lt_or_ge d (amt x) with h | h
        · rw [fills_of_lt hd h]
          simp only [List.map_cons, List.map_nil, List.sum_cons, List.sum_nil]
          omega
        · rw [fills_of_le hd h, List.map_cons, List.sum_cons, ih]
          omega

theorem fills_pos (hpos : ∀ x ∈ xs, 0 < amt x) : ∀ f ∈ fills amt d xs, 0 < f.2 := by
  induction xs generalizing d with
  | nil => simp
  | cons x xs ih =>
      have hx := hpos x List.mem_cons_self
      have hxs := fun y hy => hpos y (List.mem_cons_of_mem _ hy)
      intro f hf
      rw [fills] at hf
      split_ifs at hf with hd
      · cases hf
      rcases List.mem_cons.mp hf with rfl | hf
      · show 0 < min (amt x) d
        omega
      · exact ih hxs f hf

/-- Supplies within the demand are used up. -/
theorem fills_of_sum_le (hpos : ∀ x ∈ xs, 0 < amt x) (h : (xs.map amt).sum ≤ d) :
    fills amt d xs = xs.map fun x => (x, amt x) := by
  induction xs generalizing d with
  | nil => rfl
  | cons x xs ih =>
      have hx := hpos x List.mem_cons_self
      rw [List.map_cons, List.sum_cons] at h
      rw [fills_of_le (by omega) (by omega), List.map_cons]
      congr 1
      exact ih (fun y hy => hpos y (List.mem_cons_of_mem _ hy)) (by omega)

theorem rest_of_sum_le (h : (xs.map amt).sum ≤ d) : rest amt use d xs = [] := by
  induction xs generalizing d with
  | nil => rfl
  | cons x xs ih =>
      rw [List.map_cons, List.sum_cons] at h
      rw [rest_of_le (by omega)]
      exact ih (by omega)

/-- **Every supply but the last one touched is used up.** -/
theorem fills_used_up {pre post : List (α × ℕ)} {n : ℕ} (h : fills amt d xs = pre ++ (x, n) :: post)
    (hpost : post ≠ []) : n = amt x := by
  induction xs generalizing d pre with
  | nil => simp at h
  | cons y ys ih =>
      rcases Nat.eq_zero_or_pos d with rfl | hd
      · simp at h
      rcases Nat.lt_or_ge d (amt y) with hy | hy
      · rw [fills_of_lt hd hy] at h
        have hlen := congrArg List.length h
        have := List.length_pos_of_ne_nil hpost
        simp only [List.length_append, List.length_cons, List.length_nil] at hlen
        omega
      · rw [fills_of_le hd hy] at h
        cases pre with
        | nil =>
            obtain ⟨he, -⟩ := List.cons.inj h
            rw [(Prod.mk.inj he).1] at he
            exact (Prod.mk.inj he).2.symm
        | cons p pre => exact ih (List.cons.inj h).2

end Greedy
