import Mathlib.Data.Nat.Notation
import Mathlib.Logic.Function.Basic
import Mathlib.Order.Lattice
import Mathlib.Tactic.Common

/-! # Release and acquire

Threads `τ` that share atomic locations `ℓ` with values `ν` and plain data `δ`, under the rules of
release stores, acquire loads and relaxed loads.

* A store appends a message to the history of its location, so each location has one writer at a
  time.  A load may read any message that is no older than the last one its thread has seen.
* A `View` says what has happened before: of an atomic location the latest message seen, of a datum
  the number of accesses.  A release store leaves the view of its thread in the message, and an
  acquire load takes it up.
* All accesses to a datum conflict.  An access that is not ordered after every earlier one is a
  data race: `access` is then `none`.

The contents of the data are the client's: with no race there is one order of the accesses to a
datum.  `Everywhere` is a property of all views, with one rule for each operation; `Ok`, that no
view is ahead of what has happened, is its first use. -/

namespace ReleaseAcquire

abbrev View (ℓ δ : Type*) := ℓ ⊕ δ → ℕ

structure Message (ℓ δ ν : Type*) where
  value : ν
  view : View ℓ δ

structure Memory (τ ℓ δ ν : Type*) where
  history : ℓ → List (Message ℓ δ ν)
  accesses : δ → ℕ
  view : τ → View ℓ δ

namespace Memory

variable {τ ℓ δ ν : Type*}

/-- Every location starts with one message that all threads have seen. -/
def start (init : ℓ → ν) : Memory τ ℓ δ ν :=
  ⟨fun x => [⟨init x, fun _ => 0⟩], fun _ => 0, fun _ _ => 0⟩

/-- The message that a load by `t` reads when it is given the `k`-th one of `x`. -/
def message (m : Memory τ ℓ δ ν) (t : τ) (x : ℓ) (k : ℕ) : Option (Message ℓ δ ν) :=
  if m.view t (.inl x) ≤ k then (m.history x)[k]? else none

/-- All that has happened. -/
def now (m : Memory τ ℓ δ ν) : View ℓ δ :=
  Sum.elim (fun x => (m.history x).length - 1) m.accesses

section ops
variable [DecidableEq τ] [DecidableEq ℓ] [DecidableEq δ]

def see (m : Memory τ ℓ δ ν) (t : τ) (v : View ℓ δ) : Memory τ ℓ δ ν :=
  { m with view := Function.update m.view t (m.view t ⊔ v) }

def relaxed (m : Memory τ ℓ δ ν) (t : τ) (x : ℓ) (k : ℕ) : Option (ν × Memory τ ℓ δ ν) :=
  (m.message t x k).map fun msg =>
    (msg.value, m.see t (Function.update (fun _ => 0) (.inl x) k))

def acquire (m : Memory τ ℓ δ ν) (t : τ) (x : ℓ) (k : ℕ) : Option (ν × Memory τ ℓ δ ν) :=
  (m.message t x k).map fun msg => (msg.value, m.see t msg.view)

/-- The view of `t` once it has stored to `x`. -/
def stamped (m : Memory τ ℓ δ ν) (t : τ) (x : ℓ) : View ℓ δ :=
  Function.update (m.view t) (.inl x) (m.history x).length

def release (m : Memory τ ℓ δ ν) (t : τ) (x : ℓ) (v : ν) : Memory τ ℓ δ ν :=
  { m with
    history := Function.update m.history x (m.history x ++ [⟨v, m.stamped t x⟩])
    view := Function.update m.view t (m.stamped t x) }

/-- The view of `t` once it has accessed `d`. -/
def touched (m : Memory τ ℓ δ ν) (t : τ) (d : δ) : View ℓ δ :=
  Function.update (m.view t) (.inr d) (m.accesses d + 1)

def access (m : Memory τ ℓ δ ν) (t : τ) (d : δ) : Option (Memory τ ℓ δ ν) :=
  if m.view t (.inr d) = m.accesses d then
    some { m with
      accesses := Function.update m.accesses d (m.accesses d + 1)
      view := Function.update m.view t (m.touched t d) }
  else none

end ops

/-! ### What the operations do -/

section laws
variable {m m' : Memory τ ℓ δ ν} {t u : τ} {x y : ℓ} {d e : δ} {k : ℕ} {v : ν}

theorem message_eq_some {msg : Message ℓ δ ν} :
    m.message t x k = some msg ↔ m.view t (.inl x) ≤ k ∧ (m.history x)[k]? = some msg := by
  unfold message
  split_ifs with h
  · exact (and_iff_right h).symm
  · exact iff_of_false (fun hn => by cases hn) fun hk => h hk.1

@[simp] theorem now_inl : m.now (.inl x) = (m.history x).length - 1 := rfl

@[simp] theorem now_inr : m.now (.inr d) = m.accesses d := rfl

/-- **A thread that has seen the last message** of a location can read no other. -/
theorem message_iff_of_last {msg : Message ℓ δ ν} (hlast : m.view t (.inl x) = m.now (.inl x)) :
    m.message t x k = some msg ↔ k = m.view t (.inl x) ∧ (m.history x)[k]? = some msg := by
  rw [message_eq_some, and_congr_left_iff]
  intro hk
  obtain ⟨hlt, -⟩ := List.getElem?_eq_some_iff.mp hk
  rw [hlast, now_inl]
  omega

section threads
variable [DecidableEq τ]

theorem acquire_eq_some :
    m.acquire t x k = some (v, m') ↔ ∃ w, m.message t x k = some ⟨v, w⟩ ∧ m' = m.see t w := by
  unfold acquire
  rw [Option.map_eq_some_iff]
  constructor
  · rintro ⟨⟨v', w⟩, hmsg, heq⟩
    obtain ⟨rfl, rfl⟩ := Prod.mk.inj heq
    exact ⟨w, hmsg, rfl⟩
  · rintro ⟨w, hmsg, rfl⟩
    exact ⟨⟨v, w⟩, hmsg, rfl⟩

@[simp] theorem see_view_self (w : View ℓ δ) : (m.see t w).view t = m.view t ⊔ w :=
  Function.update_self ..

theorem see_view_of_ne (w : View ℓ δ) (h : u ≠ t) : (m.see t w).view u = m.view u :=
  Function.update_of_ne h ..

/-- What a thread has seen already changes nothing. -/
theorem see_of_le {w : View ℓ δ} (h : w ≤ m.view t) : m.see t w = m := by
  unfold see
  rw [sup_eq_left.mpr h, Function.update_eq_self]

end threads

section views
variable [DecidableEq ℓ] [DecidableEq δ]

@[simp] theorem stamped_self : m.stamped t x (.inl x) = (m.history x).length :=
  Function.update_self ..

theorem stamped_inl_of_ne (h : y ≠ x) : m.stamped t x (.inl y) = m.view t (.inl y) :=
  Function.update_of_ne (fun he => h (Sum.inl.inj he)) ..

@[simp] theorem stamped_inr : m.stamped t x (.inr d) = m.view t (.inr d) :=
  Function.update_of_ne (fun he => by cases he) ..

@[simp] theorem touched_self : m.touched t d (.inr d) = m.accesses d + 1 :=
  Function.update_self ..

theorem touched_inr_of_ne (h : e ≠ d) : m.touched t d (.inr e) = m.view t (.inr e) :=
  Function.update_of_ne (fun he => h (Sum.inr.inj he)) ..

@[simp] theorem touched_inl : m.touched t d (.inl x) = m.view t (.inl x) :=
  Function.update_of_ne (fun he => by cases he) ..

end views

section memory
variable [DecidableEq τ] [DecidableEq ℓ] [DecidableEq δ]

theorem relaxed_eq_some : m.relaxed t x k = some (v, m') ↔
    (∃ w, m.message t x k = some ⟨v, w⟩) ∧
      m' = m.see t (Function.update (fun _ => 0) (.inl x) k) := by
  unfold relaxed
  rw [Option.map_eq_some_iff]
  constructor
  · rintro ⟨⟨v', w⟩, hmsg, heq⟩
    obtain ⟨rfl, rfl⟩ := Prod.mk.inj heq
    exact ⟨⟨w, hmsg⟩, rfl⟩
  · rintro ⟨⟨w, hmsg⟩, rfl⟩
    exact ⟨⟨v, w⟩, hmsg, rfl⟩

theorem access_eq_some : m.access t d = some m' ↔
    m.view t (.inr d) = m.accesses d ∧
      m' = { m with
        accesses := Function.update m.accesses d (m.accesses d + 1)
        view := Function.update m.view t (m.touched t d) } := by
  unfold access
  split_ifs with h
  · rw [Option.some_inj, eq_comm, and_iff_right h]
  · exact iff_of_false (fun hn => by cases hn) fun hk => h hk.1

theorem access_isSome : (m.access t d).isSome ↔ m.view t (.inr d) = m.accesses d := by
  unfold access
  split_ifs with h
  · exact iff_of_true rfl h
  · exact iff_of_false (by simp) h

@[simp] theorem release_view_self : (m.release t x v).view t = m.stamped t x :=
  Function.update_self ..

theorem release_view_of_ne (h : u ≠ t) : (m.release t x v).view u = m.view u :=
  Function.update_of_ne h ..

@[simp] theorem release_history_self :
    (m.release t x v).history x = m.history x ++ [⟨v, m.stamped t x⟩] := Function.update_self ..

theorem release_history_of_ne (h : y ≠ x) : (m.release t x v).history y = m.history y :=
  Function.update_of_ne h ..

@[simp] theorem release_accesses : (m.release t x v).accesses = m.accesses := rfl

theorem now_release :
    (m.release t x v).now = Function.update m.now (.inl x) (m.history x).length := by
  funext z
  cases z with
  | inl y =>
      by_cases h : y = x
      · subst h
        simp
      · rw [Function.update_of_ne (fun he => h (Sum.inl.inj he)), now_inl, now_inl,
          release_history_of_ne h]
  | inr e => rw [Function.update_of_ne (fun he => by cases he), now_inr, now_inr, release_accesses]

theorem le_now_release : m.now ≤ (m.release t x v).now := by
  rw [now_release, le_update_iff]
  exact ⟨Nat.sub_le _ 1, fun _ _ => le_rfl⟩

/-! The accesses. -/

theorem access_view_self (h : m.access t d = some m') : m'.view t = m.touched t d := by
  rw [(access_eq_some.mp h).2]
  exact Function.update_self ..

theorem access_view_of_ne (h : m.access t d = some m') (hu : u ≠ t) : m'.view u = m.view u := by
  rw [(access_eq_some.mp h).2]
  exact Function.update_of_ne hu ..

theorem access_history (h : m.access t d = some m') : m'.history = m.history := by
  rw [(access_eq_some.mp h).2]

theorem access_accesses (h : m.access t d = some m') :
    m'.accesses = Function.update m.accesses d (m.accesses d + 1) := by
  rw [(access_eq_some.mp h).2]

theorem now_access (h : m.access t d = some m') :
    m'.now = Function.update m.now (.inr d) (m.accesses d + 1) := by
  funext z
  cases z with
  | inl y =>
      rw [Function.update_of_ne (fun he => by cases he), now_inl, now_inl, access_history h]
  | inr e =>
      rw [now_inr, access_accesses h]
      by_cases he : e = d
      · subst he
        simp
      · rw [Function.update_of_ne he, Function.update_of_ne (fun h' => he (Sum.inr.inj h')),
          now_inr]

theorem le_now_access (h : m.access t d = some m') : m.now ≤ m'.now := by
  rw [now_access h, le_update_iff]
  exact ⟨Nat.le_succ _, fun _ _ => le_rfl⟩

end memory

/-! ### Properties of all views -/

/-- `P` holds of what each thread knows and of what each message carries. -/
structure Everywhere (P : View ℓ δ → Prop) (m : Memory τ ℓ δ ν) : Prop where
  threads : ∀ t, P (m.view t)
  messages : ∀ x, ∀ msg ∈ m.history x, P msg.view

variable {P Q : View ℓ δ → Prop}

theorem Everywhere.imp (h : Everywhere P m) (hPQ : ∀ w, P w → Q w) : Everywhere Q m :=
  ⟨fun t => hPQ _ (h.threads t), fun x msg hmsg => hPQ _ (h.messages x msg hmsg)⟩

theorem Everywhere.see [DecidableEq τ] {w : View ℓ δ} (h : Everywhere P m) (hw : P (m.view t ⊔ w)) :
    Everywhere P (m.see t w) := by
  refine ⟨fun u => ?_, h.messages⟩
  by_cases hu : u = t
  · rwa [hu, see_view_self]
  · rw [see_view_of_ne w hu]
    exact h.threads u

section stores
variable [DecidableEq τ] [DecidableEq ℓ] [DecidableEq δ]

theorem Everywhere.release (h : Everywhere P m) (hw : P (m.stamped t x)) :
    Everywhere P (m.release t x v) := by
  constructor
  · intro u
    by_cases hu : u = t
    · rwa [hu, release_view_self]
    · rw [release_view_of_ne hu]
      exact h.threads u
  · intro y msg hmsg
    by_cases hy : y = x
    · subst hy
      rw [release_history_self, List.mem_append, List.mem_singleton] at hmsg
      obtain hmsg | rfl := hmsg
      · exact h.messages y msg hmsg
      · exact hw
    · rw [release_history_of_ne hy] at hmsg
      exact h.messages y msg hmsg

theorem Everywhere.access (h : Everywhere P m) (hm : m.access t d = some m')
    (hw : P (m.touched t d)) : Everywhere P m' := by
  refine ⟨fun u => ?_, by rw [access_history hm]; exact h.messages⟩
  by_cases hu : u = t
  · rwa [hu, access_view_self hm]
  · rw [access_view_of_ne hm hu]
    exact h.threads u

end stores

/-! ### No view is ahead -/

theorem getElem?_concat_eq_some {β : Type*} {l : List β} {a b : β} :
    (l ++ [a])[k]? = some b ↔ k < l.length ∧ l[k]? = some b ∨ k = l.length ∧ a = b := by
  obtain hk | rfl | hk := lt_trichotomy k l.length
  · rw [List.getElem?_append_left hk]
    simp [hk, hk.ne]
  · simp
  · rw [List.getElem?_eq_none (by rw [List.length_append, List.length_singleton]; omega)]
    simp [hk.ne', Nat.not_lt.mpr hk.le]

/-- The invariant of every memory: a message is stamped with its place in the history. -/
structure Ok (m : Memory τ ℓ δ ν) : Prop where
  stamp : ∀ (x : ℓ) (k : ℕ) (msg : Message ℓ δ ν),
    (m.history x)[k]? = some msg → msg.view (.inl x) = k
  behind : Everywhere (· ≤ m.now) m

theorem ok_start (init : ℓ → ν) : (start init : Memory τ ℓ δ ν).Ok where
  stamp := by
    intro x k msg hmsg
    obtain ⟨hk, rfl⟩ := List.getElem?_eq_some_iff.mp hmsg
    have hk0 : k = 0 := Nat.lt_one_iff.mp hk
    subst hk0
    rfl
  behind := by
    refine ⟨fun t z => Nat.zero_le _, fun x msg hmsg => ?_⟩
    obtain rfl := List.mem_singleton.mp hmsg
    exact fun z => Nat.zero_le _

theorem Ok.view_le (h : m.Ok) (t : τ) : m.view t ≤ m.now := h.behind.threads t

theorem Ok.message_le {msg : Message ℓ δ ν} (h : m.Ok) (hmsg : m.message t x k = some msg) :
    msg.view ≤ m.now :=
  h.behind.messages x msg (List.mem_of_getElem? (message_eq_some.mp hmsg).2)

theorem Ok.see [DecidableEq τ] {w : View ℓ δ} (h : m.Ok) (hw : w ≤ m.now) : (m.see t w).Ok :=
  ⟨h.stamp, h.behind.see (sup_le (h.view_le t) hw)⟩

variable [DecidableEq τ] [DecidableEq ℓ] [DecidableEq δ]

theorem Ok.release (h : m.Ok) : (m.release t x v).Ok where
  stamp := by
    intro y k msg hmsg
    by_cases hy : y = x
    · subst hy
      rw [release_history_self] at hmsg
      obtain ⟨-, hmsg⟩ | ⟨rfl, rfl⟩ := getElem?_concat_eq_some.mp hmsg
      · exact h.stamp y k msg hmsg
      · exact stamped_self
    · rw [release_history_of_ne hy] at hmsg
      exact h.stamp y k msg hmsg
  behind := by
    refine (h.behind.imp fun w hw => hw.trans le_now_release).release ?_
    rw [now_release]
    exact update_le_update_iff.mpr ⟨le_rfl, fun z _ => h.view_le t z⟩

theorem Ok.access (h : m.Ok) (hm : m.access t d = some m') : m'.Ok where
  stamp := by
    rw [access_history hm]
    exact h.stamp
  behind := by
    refine (h.behind.imp fun w hw => hw.trans (le_now_access hm)).access hm ?_
    rw [now_access hm]
    exact update_le_update_iff.mpr ⟨le_rfl, fun z _ => h.view_le t z⟩

/-- **A thread that knows of every access** may access. -/
theorem Ok.access_isSome (h : m.Ok) (hd : m.accesses d ≤ m.view t (.inr d)) :
    (m.access t d).isSome :=
  Memory.access_isSome.mpr ((h.view_le t (.inr d)).antisymm hd)

end laws

end Memory
end ReleaseAcquire
