import Mathlib.Tactic.Common
import Trading.Transition

/-! # Request and reply sockets

A socket that alternates strictly: after a request it takes no other one until the last frame of
the reply has been received, and refuses one that comes earlier.

* `ReqSocket` counts the frames of the reply that are still to be received.
* A program that uses such a socket may give a receive up (a timeout) and go on.  `Uses` is what one
  step of it may do: nothing, send, receive a frame, receive the last frame and send, or give up.
  `owed` is the number of frames that the program itself still goes on to receive.
* `refused_iff` is the rule for runs: no request is refused if and only if none is made after a
  receive has been given up. -/

namespace RequestReply

open Transition (States Along states_iff_along states_of_step)

structure ReqSocket where
  pending : ℕ := 0
  refused : Bool := false
deriving DecidableEq, Repr

namespace ReqSocket

/-- A request, the reply to which has `n` frames. -/
def send (k : ReqSocket) (n : ℕ) : ReqSocket :=
  if k.pending = 0 then { k with pending := n } else { k with refused := true }

/-- A frame is received. -/
def recv (k : ReqSocket) : ReqSocket := { k with pending := k.pending - 1 }

variable {k : ReqSocket} {n : ℕ}

@[simp] theorem refused_recv : k.recv.refused = k.refused := rfl

@[simp] theorem pending_recv : k.recv.pending = k.pending - 1 := rfl

theorem send_of_pending (h : k.pending = 0) : k.send n = { k with pending := n } := if_pos h

theorem refused_send (h : k.refused = false) : (k.send n).refused = false ↔ k.pending = 0 := by
  unfold send
  split_ifs with hp
  · simp [h, hp]
  · simp [hp]

end ReqSocket

/-- What a step does on the socket; `calls` if it sends outside an exchange, `timeout` if it gives
a receive up. -/
inductive Uses (calls timeout : Prop) (k : ReqSocket) (owed : ℕ) : ReqSocket → ℕ → Prop
  | quiet : ¬ calls → ¬ timeout → Uses calls timeout k owed k owed
  | send (n : ℕ) : calls → ¬ timeout → owed = 0 → Uses calls timeout k owed (k.send n) n
  | recv : ¬ calls → ¬ timeout → 0 < owed → Uses calls timeout k owed k.recv (owed - 1)
  | recvSend (n : ℕ) : ¬ calls → ¬ timeout → owed = 1 →
      Uses calls timeout k owed (k.recv.send n) n
  | giveUp : ¬ calls → timeout → 0 < owed → Uses calls timeout k owed k 0

/-- What a socket that has refused nothing has to do with the program: nothing but the frames owed
is pending, until a receive has been given up. -/
def InStep (late : Prop) (k : ReqSocket) (owed : ℕ) : Prop :=
  (¬ late → k.pending = owed) ∧ (late → k.pending ≠ 0 ∧ owed = 0)

section step
variable {calls timeout late : Prop} {k k' : ReqSocket} {owed owed' : ℕ}

theorem InStep.not_late (h : InStep late k owed) (ho : 0 < owed) : ¬ late := fun hl => by
  have := (h.2 hl).2
  omega

/-- In step, nothing is pending outside an exchange exactly if no receive has been given up. -/
theorem InStep.pending_iff (h : InStep late k owed) (ho : owed = 0) : k.pending = 0 ↔ ¬ late :=
  ⟨fun hp hl => (h.2 hl).1 hp, fun hl => (h.1 hl).trans ho⟩

theorem Uses.inStep (hu : Uses calls timeout k owed k' owed') (h : InStep late k owed)
    (hr : k.refused = false) (hr' : k'.refused = false) : InStep (late ∨ timeout) k' owed' := by
  cases hu with
  | quiet _ ht => simpa [InStep, ht] using h
  | send n _ ht ho =>
      have hp := (k.refused_send hr).mp hr'
      have hl := (h.pending_iff ho).mp hp
      simp [InStep, ht, hl, ReqSocket.send_of_pending hp]
  | recv _ ht ho =>
      have hl := h.not_late ho
      simp [InStep, ht, hl, h.1 hl]
  | recvSend n _ ht ho =>
      have hl := h.not_late (by omega)
      have hp : k.recv.pending = 0 := by simp [h.1 hl, ho]
      simp [InStep, ht, hl, ReqSocket.send_of_pending hp]
  | giveUp _ ht ho =>
      have hl := h.not_late ho
      have hp := h.1 hl
      simp only [InStep, ht, or_true, not_true_eq_false, false_implies, true_and, and_true,
        true_implies]
      omega

/-- A request is refused exactly if it is made after a receive has been given up. -/
theorem Uses.refused_iff (hu : Uses calls timeout k owed k' owed') (h : InStep late k owed)
    (hr : k.refused = false) : k'.refused = false ↔ (calls → ¬ late) := by
  cases hu with
  | quiet hc | recv hc | giveUp hc => exact iff_of_true hr fun hc' => absurd hc' hc
  | send n hc _ ho => rw [k.refused_send hr, h.pending_iff ho, forall_prop_of_true hc]
  | recvSend n hc _ ho =>
      have hp : k.recv.pending = 0 := by simp [h.1 (h.not_late (by omega)), ho]
      exact iff_of_true ((k.recv.refused_send hr).mpr hp) fun hc' => absurd hc' hc

end step

section runs
variable {σ α : Type*} {step : σ → α → Option σ} {socket : σ → ReqSocket} {owed : σ → ℕ}
  {Calls : σ → α → Prop} {Timeout : α → Prop} {s : σ}

theorem timeout_concat {as : List α} {a : α} :
    (∃ x ∈ as ++ [a], Timeout x) ↔ (∃ x ∈ as, Timeout x) ∨ Timeout a := by
  simp [or_and_right, exists_or]

/-- The rule for runs, of a program that ends when a request is refused; `I` is what is known of
its states anyway. -/
theorem refused_iff {as : List α} {I : σ → Prop} (hI : States step s (fun _ => I) as)
    (huses : ∀ t a t', I t → (socket t).refused = false → step t a = some t' →
      Uses (Calls t a) (Timeout a) (socket t) (owed t) (socket t') (owed t'))
    (hcalls : ∀ t a, (socket t).refused = false → Calls t a → step t a ≠ none)
    (hends : ∀ t a, (socket t).refused = true → step t a = none)
    (hr : (socket s).refused = false) (hp : (socket s).pending = owed s) :
    States step s (fun _ t => (socket t).refused = false) as ↔
      Along step s (fun pre t a => Calls t a → ¬ ∃ x ∈ pre, Timeout x) as := by
  have hsync : States step s (fun pre t => (socket t).refused = false →
      InStep (∃ x ∈ pre, Timeout x) (socket t) (owed t)) as := by
    refine states_of_step (F := fun _ _ _ => True) hI (fun _ _ _ _ _ _ => trivial)
      (fun _ => by simp [InStep, hp]) ?_
    intro pre t a t' hIt _ h hs hr'
    cases hrt : (socket t).refused with
    | true => rw [hends t a hrt] at hs; cases hs
    | false =>
        rw [timeout_concat]
        exact (huses t a t' hIt hrt hs).inStep (h hrt) hrt hr'
  have hboth : States step s (fun pre t => I t ∧ ((socket t).refused = false →
      InStep (∃ x ∈ pre, Timeout x) (socket t) (owed t))) as := fun pre post he t ht =>
    ⟨hI pre post he t ht, hsync pre post he t ht⟩
  refine states_iff_along (F := fun _ _ _ => True) hboth (fun _ _ _ _ _ _ => trivial) hr ?_ ?_
  · intro pre t a _ _ hrt hs hc
    exact absurd hs (hcalls t a hrt hc)
  · intro pre t a t' h _ hrt hs
    exact (huses t a t' h.1 hrt hs).refused_iff (h.2 hrt) hrt

end runs

end RequestReply
