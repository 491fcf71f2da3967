import Mathlib.Data.List.Infix
import Mathlib.Tactic.Common

/-! # Bounded queues

A first-in first-out queue of bounded capacity with one operation at each end, both of which
report whether they took effect.

* `Effect cap q c q'` says that the completed call `c`, with the outcome it reports, takes the
  contents from `q` to `q'`, and `Legal cap log q` that the calls of a log do so from the empty
  queue to `q`.  An implementation is correct when its log of completed calls is legal:
  `Legal.fifo` and `Legal.bounded` are what follows for the values. -/

namespace BoundedQueue

variable {α : Type*}

/-- A completed call and its outcome. -/
inductive Call (α : Type*) where
  | push (v : α) (ok : Bool)
  | pop (out : Option α)
deriving DecidableEq

/-- The value that a call has put into the queue. -/
@[simp] def Call.accepted? : Call α → Option α
  | .push v true => some v
  | .push _ false | .pop _ => none

/-- The value that a call has taken out of the queue. -/
@[simp] def Call.returned? : Call α → Option α
  | .pop out => out
  | .push _ _ => none

/-- The value that a call has offered. -/
@[simp] def Call.offered? : Call α → Option α
  | .push v _ => some v
  | .pop _ => none

def accepted (log : List (Call α)) : List α := log.filterMap Call.accepted?

def returned (log : List (Call α)) : List α := log.filterMap Call.returned?

def offered (log : List (Call α)) : List α := log.filterMap Call.offered?

theorem accepted_append (log log' : List (Call α)) :
    accepted (log ++ log') = accepted log ++ accepted log' := List.filterMap_append

theorem returned_append (log log' : List (Call α)) :
    returned (log ++ log') = returned log ++ returned log' := List.filterMap_append

theorem offered_append (log log' : List (Call α)) :
    offered (log ++ log') = offered log ++ offered log' := List.filterMap_append

@[simp] theorem accepted_concat (log : List (Call α)) (c : Call α) :
    accepted (log ++ [c]) = accepted log ++ c.accepted?.toList := by
  unfold accepted
  rw [List.filterMap_append]
  rfl

@[simp] theorem returned_concat (log : List (Call α)) (c : Call α) :
    returned (log ++ [c]) = returned log ++ c.returned?.toList := by
  unfold returned
  rw [List.filterMap_append]
  rfl

@[simp] theorem offered_concat (log : List (Call α)) (c : Call α) :
    offered (log ++ [c]) = offered log ++ c.offered?.toList := by
  unfold offered
  rw [List.filterMap_append]
  rfl

/-- What is accepted has been offered. -/
theorem accepted_sublist_offered (log : List (Call α)) : (accepted log).Sublist (offered log) := by
  induction log with
  | nil => exact .slnil
  | cons c log ih =>
      unfold accepted offered at ih ⊢
      cases c with
      | push v ok =>
          cases ok
          · exact ih.cons v
          · exact ih.cons_cons v
      | pop out => exact ih

/-! ### The operations -/

/-- What a completed call does to the contents. -/
inductive Effect (cap : ℕ) : List α → Call α → List α → Prop
  | accept {q : List α} {v : α} : q.length < cap → Effect cap q (.push v true) (q ++ [v])
  | refuse {q : List α} {v : α} : cap ≤ q.length → Effect cap q (.push v false) q
  | take {v : α} {q : List α} : Effect cap (v :: q) (.pop (some v)) q
  | miss : Effect cap [] (.pop none) []

/-- The calls of the log lead from the empty queue to the contents `q`. -/
inductive Legal (cap : ℕ) : List (Call α) → List α → Prop
  | nil : Legal cap [] []
  | concat {log : List (Call α)} {q q' : List α} {c : Call α} :
      Legal cap log q → Effect cap q c q' → Legal cap (log ++ [c]) q'

section laws
variable {cap : ℕ} {log : List (Call α)} {q q' : List α} {c : Call α}

theorem Effect.full {v : α} (h : Effect cap q (.push v false) q') : cap ≤ q.length := by
  cases h with
  | refuse hle => exact hle

theorem Effect.empty (h : Effect cap q (.pop none) q') : q = [] := by
  cases h with
  | miss => rfl

/-- What a call accepts is what it returns and what is added to the contents. -/
theorem Effect.fifo (h : Effect cap q c q') :
    q ++ c.accepted?.toList = c.returned?.toList ++ q' := by
  cases h with
  | accept => rfl
  | refuse => simp [Call.accepted?, Call.returned?]
  | take => simp [Call.accepted?, Call.returned?]
  | miss => rfl

theorem Effect.bounded (h : Effect cap q c q') (hq : q.length ≤ cap) : q'.length ≤ cap := by
  cases h with
  | accept hlt => rw [List.length_append, List.length_singleton]; omega
  | refuse => exact hq
  | take => rw [List.length_cons] at hq; omega
  | miss => exact hq

/-- **First in, first out**: the values returned and then the contents are the values accepted. -/
theorem Legal.fifo (h : Legal cap log q) : accepted log = returned log ++ q := by
  induction h with
  | nil => rfl
  | concat _ he ih =>
      rw [accepted_concat, returned_concat, ih, List.append_assoc, he.fifo, List.append_assoc]

theorem Legal.bounded (h : Legal cap log q) : q.length ≤ cap := by
  induction h with
  | nil => exact Nat.zero_le cap
  | concat _ he ih => exact he.bounded ih

/-- A queue that is never offered more than it can hold refuses nothing, whoever takes out when. -/
theorem Legal.accepted_eq_offered (h : Legal cap log q) (hle : (offered log).length ≤ cap) :
    accepted log = offered log := by
  induction h with
  | nil => rfl
  | @concat log q q' c hl he ih =>
      rw [offered_concat, List.length_append] at hle
      rw [accepted_concat, offered_concat, ih (by omega)]
      cases he with
      | accept | take | miss => rfl
      | @refuse v hfull =>
          have hlen : (accepted log).length = (returned log).length + q.length := by
            rw [hl.fifo, List.length_append]
          rw [ih (by omega)] at hlen
          simp only [Call.offered?, Option.toList_some, List.length_singleton] at hle
          omega

end laws

end BoundedQueue
