import Mathlib.Tactic.Common

/-! # Replicated tables

A table gives some keys a value; a change rewrites the entry of one key.  A primary evolves by
changes, and a replica follows it by applying the same changes.

* A replica that agrees with the primary keeps doing so (`replay`).
* A replica that has only part of the primary's entries, but those right, is `Within` it, and
  stays so under the same change (`Within.apply`).  This is what a truncated copy of the primary
  is good for.

A register that holds one dated value takes only what is newer (`keepNewer`).  Where the date
decides the value, what it holds in the end depends on the newest value alone
(`foldl_keepNewer_eq`). -/

namespace Replication

variable {κ ν : Type*} [DecidableEq κ]

abbrev Table (κ ν : Type*) := κ → Option ν

/-- The new value of one key; `none` removes the entry. -/
structure Change (κ ν : Type*) where
  key : κ
  value : Option ν

def Change.apply (c : Change κ ν) (t : Table κ ν) : Table κ ν :=
  fun k => if k = c.key then c.value else t k

/-- The changes, in order. -/
def replay (cs : List (Change κ ν)) (t : Table κ ν) : Table κ ν := cs.foldl (fun t c => c.apply t) t

/-- Every entry of `r` is one of `t`. -/
def Within (r t : Table κ ν) : Prop := ∀ k v, r k = some v → t k = some v

section laws
variable {c : Change κ ν} {cs : List (Change κ ν)} {r t : Table κ ν} {k : κ}

@[simp] theorem Change.apply_self : c.apply t c.key = c.value := if_pos rfl

theorem Change.apply_ne (h : k ≠ c.key) : c.apply t k = t k := if_neg h

/-- Applying a change twice is applying it once. -/
theorem Change.apply_apply : c.apply (c.apply t) = c.apply t := by
  funext k
  unfold apply
  split_ifs <;> rfl

/-- Two changes of one key do the same if they set the same value. -/
theorem Change.apply_eq_iff {c' : Change κ ν} (h : c'.key = c.key) :
    c'.apply t = c.apply t ↔ c'.value = c.value := by
  constructor
  · intro he
    have hk := congrFun he c.key
    rwa [apply_self, ← h, apply_self] at hk
  · intro hv
    funext k
    unfold apply
    rw [h, hv]

/-- Two changes of different keys do the same only if neither does anything. -/
theorem Change.apply_eq_iff_of_ne {c' : Change κ ν} (h : c'.key ≠ c.key) :
    c'.apply t = c.apply t ↔ c.value = t c.key ∧ c'.value = t c'.key := by
  constructor
  · intro he
    have hk := congrFun he c.key
    have hk' := congrFun he c'.key
    rw [apply_self, apply_ne h.symm] at hk
    rw [apply_self, apply_ne h] at hk'
    exact ⟨hk.symm, hk'⟩
  · intro hv
    funext k
    unfold apply
    split_ifs with h1 h2 h2
    · exact absurd (h1.symm.trans h2) h
    · rw [hv.2, h1]
    · rw [hv.1, h2]
    · rfl

@[simp] theorem replay_cons : replay (c :: cs) t = replay cs (c.apply t) := rfl

theorem replay_append {cs' : List (Change κ ν)} : replay (cs ++ cs') t = replay cs' (replay cs t) :=
  List.foldl_append

theorem replay_of_not_mem (h : k ∉ cs.map Change.key) : replay cs t k = t k := by
  induction cs generalizing t with
  | nil => rfl
  | cons c cs ih =>
      rw [List.map_cons, List.mem_cons, not_or] at h
      rw [replay_cons, ih h.2, Change.apply_ne h.1]

/-- What the changes have set does not depend on what was there. -/
theorem replay_of_mem {u : Table κ ν} (h : k ∈ cs.map Change.key) : replay cs t k = replay cs u k := by
  induction cs generalizing t u with
  | nil => cases h
  | cons c cs ih =>
      rw [replay_cons, replay_cons]
      by_cases hk : k ∈ cs.map Change.key
      · exact ih hk
      · obtain rfl : k = c.key := (List.mem_cons.mp h).resolve_right hk
        rw [replay_of_not_mem hk, replay_of_not_mem hk, Change.apply_self, Change.apply_self]

/-- **Two tables agree after the same changes** if and only if these have set every key on which
the tables differ. -/
theorem replay_eq_iff {u : Table κ ν} :
    replay cs t = replay cs u ↔ ∀ k, t k ≠ u k → k ∈ cs.map Change.key := by
  constructor
  · intro he k hne
    by_contra hk
    have hat := congrFun he k
    rw [replay_of_not_mem hk, replay_of_not_mem hk] at hat
    exact hne hat
  · intro h
    funext k
    by_cases hk : k ∈ cs.map Change.key
    · exact replay_of_mem hk
    · rw [replay_of_not_mem hk, replay_of_not_mem hk]
      by_contra hne
      exact hk (h k hne)

/-- **A partial replica stays within the primary** under a common change. -/
theorem Within.apply (h : Within r t) (c : Change κ ν) : Within (c.apply r) (c.apply t) := by
  intro k v hk
  unfold Change.apply at hk ⊢
  split_ifs at hk ⊢
  · exact hk
  · exact h k v hk

theorem Within.replay (h : Within r t) (cs : List (Change κ ν)) :
    Within (replay cs r) (replay cs t) := by
  induction cs generalizing r t with
  | nil => exact h
  | cons c cs ih => exact ih (h.apply c)

end laws

/-! ### A dated register -/

section register
omit [DecidableEq κ]
variable {r x : ℕ × ν} {xs : List (ℕ × ν)}

def keepNewer (r x : ℕ × ν) : ℕ × ν := if x.1 ≤ r.1 then r else x

theorem le_keepNewer_left : r.1 ≤ (keepNewer r x).1 := by
  unfold keepNewer
  split_ifs <;> omega

theorem le_keepNewer_right : x.1 ≤ (keepNewer r x).1 := by
  unfold keepNewer
  split_ifs <;> omega

theorem keepNewer_eq_or : keepNewer r x = r ∨ keepNewer r x = x := by
  unfold keepNewer
  split_ifs
  · exact .inl rfl
  · exact .inr rfl

theorem foldl_keepNewer_mem : ∀ {xs : List (ℕ × ν)} {r : ℕ × ν}, xs.foldl keepNewer r ∈ r :: xs
  | [], _ => List.mem_singleton_self _
  | x :: xs, r => by
      have h : xs.foldl keepNewer (keepNewer r x) ∈ keepNewer r x :: xs := foldl_keepNewer_mem
      rw [List.foldl_cons]
      rcases List.mem_cons.mp h with h | h
      · rw [h]
        rcases keepNewer_eq_or (r := r) (x := x) with he | he <;> simp [he]
      · exact List.mem_cons_of_mem r (List.mem_cons_of_mem x h)

theorem le_foldl_keepNewer : ∀ {xs : List (ℕ × ν)} {r y : ℕ × ν}, y ∈ r :: xs →
    y.1 ≤ (xs.foldl keepNewer r).1
  | [], r, y, hy => by
      obtain rfl := List.mem_singleton.mp hy
      exact Nat.le_refl y.1
  | x :: xs, r, y, hy => by
      have hfirst : (keepNewer r x).1 ≤ (xs.foldl keepNewer (keepNewer r x)).1 :=
        le_foldl_keepNewer List.mem_cons_self
      rw [List.foldl_cons]
      rcases List.mem_cons.mp hy with rfl | hy
      · exact Nat.le_trans le_keepNewer_left hfirst
      · rcases List.mem_cons.mp hy with rfl | hy
        · exact Nat.le_trans le_keepNewer_right hfirst
        · exact le_foldl_keepNewer (List.mem_cons_of_mem _ hy)

/-- **The newest value is kept**, in whatever order the values come and however often. -/
theorem foldl_keepNewer_eq (hdate : ∀ y ∈ r :: xs, ∀ z ∈ r :: xs, y.1 = z.1 → y = z)
    (hx : x ∈ r :: xs) (hmax : ∀ y ∈ r :: xs, y.1 ≤ x.1) : xs.foldl keepNewer r = x := by
  have hmem : xs.foldl keepNewer r ∈ r :: xs := foldl_keepNewer_mem
  exact hdate _ hmem x hx (Nat.le_antisymm (hmax _ hmem) (le_foldl_keepNewer hx))

end register

end Replication
