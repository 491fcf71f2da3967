import Mathlib.Tactic.Common

/-! # The order of last entries

A log lists what happened, oldest first; the same item may occur in it several times.
`LastBefore log x y` says that `y` was entered after the last time that `x` was.  It compares the
last entries of two items, is a strict order on them (`LastBefore.asymm`), and does not change
when other items are entered (`LastBefore.append`). -/

namespace Chronology

variable {α : Type*} {log ext : List α} {x y : α}

/-- `y` was entered after `x` was entered for the last time. -/
def LastBefore (log : List α) (x y : α) : Prop := ∃ l r, log = l ++ x :: r ∧ x ∉ r ∧ y ∈ r

theorem LastBefore.asymm (h : LastBefore log x y) : ¬ LastBefore log y x := by
  rintro ⟨l', r', he', hy, hx⟩
  obtain ⟨l, r, he, hx', hy'⟩ := h
  obtain ⟨c, -, hc⟩ | ⟨c, -, hc⟩ := List.append_eq_append_iff.mp (he.symm.trans he')
  · -- the last `x` is not after the last `y`
    cases c with
    | nil =>
        obtain ⟨rfl, rfl⟩ := List.cons.inj hc
        exact hx' hx
    | cons a c =>
        obtain ⟨rfl, rfl⟩ := List.cons.inj hc
        exact hx' (List.mem_append_right _ (List.mem_cons_of_mem _ hx))
  · cases c with
    | nil =>
        obtain ⟨rfl, rfl⟩ := List.cons.inj hc
        exact hx' hx
    | cons a c =>
        obtain ⟨rfl, rfl⟩ := List.cons.inj hc
        exact hy (List.mem_append_right _ (List.mem_cons_of_mem _ hy'))

/-- Entering other items keeps the order. -/
theorem LastBefore.append (h : LastBefore log x y) (hx : x ∉ ext) : LastBefore (log ++ ext) x y := by
  obtain ⟨l, r, rfl, hxr, hy⟩ := h
  refine ⟨l, r ++ ext, by simp, ?_, List.mem_append_left _ hy⟩
  rw [List.mem_append]
  exact not_or.mpr ⟨hxr, hx⟩

theorem exists_last_entry (h : x ∈ log) : ∃ l r, log = l ++ x :: r ∧ x ∉ r := by
  obtain ⟨l, r, he, hl⟩ := List.eq_append_cons_of_mem (List.mem_reverse.mpr h)
  refine ⟨r.reverse, l.reverse, ?_, by rwa [List.mem_reverse]⟩
  rw [← List.reverse_reverse log, he]
  simp

/-- An item that is entered now comes after every other one. -/
theorem lastBefore_concat (hx : x ∈ log) (hne : x ≠ y) : LastBefore (log ++ [y]) x y := by
  obtain ⟨l, r, rfl, hxr⟩ := exists_last_entry hx
  refine ⟨l, r ++ [y], by simp, ?_, by simp⟩
  rw [List.mem_append, List.mem_singleton]
  exact not_or.mpr ⟨hxr, hne⟩

end Chronology
