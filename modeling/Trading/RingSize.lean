import Trading.SpscRing

/-! # The size of the ring

`size` of `containers/SpscRing.hpp`, called by a third thread while the two sides of the ring go on
with their calls.

* A call of `size` loads the two counters, one a step, and returns the difference, which wraps.  The
  language does not say which operand of `-` is evaluated first, so a call may load either counter
  first.
* `mark` records where the log of the completed calls stood at the first load.

Between the loads the counter that is loaded second moves on, by any number of calls:
`plausible_run` says exactly when what `size` returns is still a number of values that the ring can
hold, and `plausible_of_quiet` that it is when one side completes no call between the loads, as the
side that calls `size` itself. -/

namespace Trading
namespace SpscRing

open BoundedQueue (Call accepted returned)
open Transition (run_preserves States Along states_of_step states_iff_along_state)

variable {α : Type*}

/-- The counter that `size` loads first. -/
inductive LoadOrder where
  | headFirst
  | tailFirst
deriving DecidableEq, Repr

/-- The first load of `size`. -/
def firstLoad (r : SpscRing α) : LoadOrder → UInt64
  | .headFirst => r.head
  | .tailFirst => r.tail

/-- The second load of `size` and its result `head_.load() - tail_.load()`; `c` is the counter that
is loaded already. -/
def sizeFrom (r : SpscRing α) (c : UInt64) : LoadOrder → UInt64
  | .headFirst => c - r.tail
  | .tailFirst => r.head - c

/-- How far a call of `size` has come: `c` is the counter it has loaded. -/
inductive Monitor where
  | idle
  | loaded (o : LoadOrder) (c : UInt64) (mark : ℕ)
deriving DecidableEq

/-- A ring in use and a thread that asks for its size.  `sizes` are the values returned to it. -/
structure Watched (α : Type*) where
  sides : State α
  monitor : Monitor
  sizes : List UInt64
deriving DecidableEq

/-- The step that the scheduler picks: one of a side, the first load of `size` or the second. -/
inductive WatchedAction (α : Type*) where
  | side (a : Action α)
  | size (o : LoadOrder)
  | monitor
deriving DecidableEq

namespace Watched

def step (moved : α → α) (w : Watched α) : WatchedAction α → Option (Watched α)
  | .side a => (SpscRing.step moved w.sides a).map fun s => { w with sides := s }
  | .size o =>
      match w.monitor with
      | .idle =>
          some { w with monitor := .loaded o (w.sides.ring.firstLoad o) w.sides.log.length }
      | .loaded .. => none
  | .monitor =>
      match w.monitor with
      | .idle => none
      | .loaded o c _ =>
          some { w with monitor := .idle, sizes := w.sizes ++ [w.sides.ring.sizeFrom c o] }

def start [Inhabited α] (r : SpscRing α) : Watched α := ⟨SpscRing.start r, .idle, []⟩

/-- The steps of the three threads, each with the state it starts from and the one it leads to. -/
inductive Moves (moved : α → α) : Watched α → WatchedAction α → Watched α → Prop
  | side {s s' : State α} {m : Monitor} {sizes : List UInt64} {a : Action α} :
      SpscRing.step moved s a = some s' →
      Moves moved ⟨s, m, sizes⟩ (.side a) ⟨s', m, sizes⟩
  | first {s : State α} {sizes : List UInt64} {o : LoadOrder} :
      Moves moved ⟨s, .idle, sizes⟩ (.size o)
        ⟨s, .loaded o (s.ring.firstLoad o) s.log.length, sizes⟩
  | second {s : State α} {sizes : List UInt64} {o : LoadOrder} {c : UInt64} {mark : ℕ} :
      Moves moved ⟨s, .loaded o c mark, sizes⟩ .monitor
        ⟨s, .idle, sizes ++ [s.ring.sizeFrom c o]⟩

theorem moves_of_step {moved : α → α} {w w' : Watched α} {a : WatchedAction α}
    (hs : step moved w a = some w') : Moves moved w a w' := by
  obtain ⟨s, m, sizes⟩ := w
  cases a with
  | side a =>
      obtain ⟨s', hs', rfl⟩ := Option.map_eq_some_iff.mp hs
      exact .side hs'
  | size o =>
      cases m with
      | idle => exact Option.some_inj.mp hs ▸ .first
      | loaded => cases hs
  | monitor =>
      cases m with
      | idle => cases hs
      | loaded => exact Option.some_inj.mp hs ▸ .second

/-- No size is above the capacity. -/
def Plausible (cap : ℕ) (w : Watched α) : Prop := ∀ n ∈ w.sizes, n.toNat ≤ cap

/-- The number of values unread at the first load. -/
def unreadAt (w : Watched α) (mark : ℕ) : ℕ :=
  (accepted (w.sides.log.take mark)).length - (returned (w.sides.log.take mark)).length

/-- The pushes that have succeeded since the first load. -/
def pushesSince (w : Watched α) (mark : ℕ) : ℕ := (accepted (w.sides.log.drop mark)).length

/-- The pops that have succeeded since the first load. -/
def popsSince (w : Watched α) (mark : ℕ) : ℕ := (returned (w.sides.log.drop mark)).length

end Watched

/-- The number `k` of calls is at most `room`, and at most `cap` short of it, whole turns of a
counter aside. -/
def Fits (cap room k : ℕ) : Prop :=
  k % UInt64.size ≤ room ∨ UInt64.size + room ≤ k % UInt64.size + cap

/-- The second load is in time: after `head_` not more values have been popped than were unread at
the first load, after `tail_` not more pushed than slots were free. -/
def Watched.InTime (cap : ℕ) (w : Watched α) : WatchedAction α → Prop
  | .side _ | .size _ => True
  | .monitor =>
      match w.monitor with
      | .idle => True
      | .loaded .headFirst _ mark => Fits cap (w.unreadAt mark) (w.popsSince mark)
      | .loaded .tailFirst _ mark => Fits cap (cap - w.unreadAt mark) (w.pushesSince mark)

/-- One of the two sides has not completed a call with success since the first load. -/
def Watched.Quiet (w : Watched α) : WatchedAction α → Prop
  | .side _ | .size _ => True
  | .monitor =>
      match w.monitor with
      | .idle => True
      | .loaded _ _ mark => w.pushesSince mark = 0 ∨ w.popsSince mark = 0

/-! ### The counters -/

section counters
variable {cap n r k : ℕ}

theorem fits_of_le (h : k ≤ n) : Fits cap n k := .inl ((Nat.mod_le k _).trans h)

/-- The first counter of two is `n` ahead, and then the other one moves on by `k`. -/
theorem toNat_sub_le_iff_of_behind (hn : n ≤ cap) (hcap : cap ≤ 2 ^ 63) :
    (UInt64.ofNat (r + n) - UInt64.ofNat (r + k)).toNat ≤ cap ↔ Fits cap n k := by
  have hsize : UInt64.size = 18446744073709551616 := rfl
  unfold Fits
  rw [UInt64.toNat_sub, UInt64.toNat_ofNat', UInt64.toNat_ofNat', hsize]
  omega

/-- The first counter of two is `n` ahead, and then it moves on by `k`. -/
theorem toNat_sub_le_iff_of_ahead (hn : n ≤ cap) (hcap : cap ≤ 2 ^ 63) :
    (UInt64.ofNat (r + n + k) - UInt64.ofNat r).toNat ≤ cap ↔ Fits cap (cap - n) k := by
  have hsize : UInt64.size = 18446744073709551616 := rfl
  unfold Fits
  rw [UInt64.toNat_sub, UInt64.toNat_ofNat', UInt64.toNat_ofNat', hsize]
  omega

end counters

/-- What the counter that is loaded first has counted. -/
def LoadOrder.counted : LoadOrder → List (Call α) → List α
  | .headFirst => accepted
  | .tailFirst => returned

/-- What a call of `size` relies on: at its first load the log was `mark` calls long, the ring held
no more than it can, and `c` was the counter. -/
structure Seen (cap : ℕ) (log : List (Call α)) (o : LoadOrder) (c : UInt64) (mark : ℕ) :
    Prop where
  inLog : mark ≤ log.length
  le : (returned (log.take mark)).length ≤ (accepted (log.take mark)).length
  bound : (accepted (log.take mark)).length ≤ (returned (log.take mark)).length + cap
  counter : c = UInt64.ofNat (o.counted (log.take mark)).length

def Monitor.Ok (cap : ℕ) (log : List (Call α)) : Monitor → Prop
  | .idle => True
  | .loaded o c mark => Seen cap log o c mark

/-- The invariant of the three threads. -/
structure Watched.Ok (cap : ℕ) (w : Watched α) : Prop where
  sides : w.sides.Ok cap
  monitor : w.monitor.Ok cap w.sides.log

section threads
variable {cap : ℕ} {moved : α → α} {w w' : Watched α} {log : List (Call α)} {o : LoadOrder}
  {c : UInt64} {mark : ℕ} {a : WatchedAction α}

theorem Seen.append (h : Seen cap log o c mark) (log' : List (Call α)) :
    Seen cap (log ++ log') o c mark := by
  have htake : (log ++ log').take mark = log.take mark := List.take_append_of_le_length h.inLog
  refine ⟨?_, ?_, ?_, ?_⟩
  · rw [List.length_append]
    exact h.inLog.trans (Nat.le_add_right _ _)
  · rw [htake]
    exact h.le
  · rw [htake]
    exact h.bound
  · rw [htake]
    exact h.counter

theorem Monitor.Ok.append {m : Monitor} (h : m.Ok cap log) (log' : List (Call α)) :
    m.Ok cap (log ++ log') := by
  cases m with
  | idle => trivial
  | loaded o c mark => exact Seen.append h log'

/-- The first load. -/
theorem seen_firstLoad {s : State α} (h : s.Ok cap) (o : LoadOrder) :
    Seen cap s.log o (s.ring.firstLoad o) s.log.length := by
  refine ⟨le_rfl, ?_, ?_, ?_⟩
  · rw [List.take_length]
    exact h.le
  · rw [List.take_length]
    exact h.bound
  · rw [List.take_length]
    cases o with
    | headFirst => exact h.head
    | tailFirst => exact h.tail

theorem Watched.Ok.step (h : w.Ok cap) (hs : Watched.step moved w a = some w') : w'.Ok cap := by
  cases Watched.moves_of_step hs with
  | @side s s' m sizes a hs' =>
      refine ⟨(refines_step h.sides hs').1, ?_⟩
      show m.Ok cap s'.log
      rw [(log_step hs').1]
      exact h.monitor.append _
  | @first s sizes o => exact ⟨h.sides, seen_firstLoad h.sides o⟩
  | second => exact ⟨h.sides, trivial⟩

/-- What the ring has accepted is what it had accepted at the first load, and the pushes since. -/
theorem length_accepted (w : Watched α) (mark : ℕ) : w.sides.accepted.length =
    (accepted (w.sides.log.take mark)).length + w.pushesSince mark := by
  unfold State.accepted Watched.pushesSince
  rw [← List.length_append, ← BoundedQueue.accepted_append, List.take_append_drop]

theorem length_returned (w : Watched α) (mark : ℕ) : w.sides.returned.length =
    (returned (w.sides.log.take mark)).length + w.popsSince mark := by
  unfold State.returned Watched.popsSince
  rw [← List.length_append, ← BoundedQueue.returned_append, List.take_append_drop]

theorem Watched.Ok.seen (h : w.Ok cap) (hm : w.monitor = .loaded o c mark) :
    Seen cap w.sides.log o c mark := by
  have hmonitor := h.monitor
  rwa [hm] at hmonitor

/-- The values unread at the first load, and that they were no more than the ring can hold. -/
theorem Watched.Ok.length_unreadAt (h : w.Ok cap) (hm : w.monitor = .loaded o c mark) :
    (accepted (w.sides.log.take mark)).length =
      (returned (w.sides.log.take mark)).length + w.unreadAt mark ∧ w.unreadAt mark ≤ cap := by
  have hle := (h.seen hm).le
  have hbound := (h.seen hm).bound
  unfold Watched.unreadAt
  omega

/-- **The second load** returns no more than the capacity exactly if it is in time. -/
theorem Watched.Ok.sizeFrom_le_iff (h : w.Ok cap) (hm : w.monitor = .loaded o c mark) :
    (w.sides.ring.sizeFrom c o).toNat ≤ cap ↔ w.InTime cap .monitor := by
  have hcap := h.sides.layout.cap_le
  have hcounter := (h.seen hm).counter
  obtain ⟨hunread, hle⟩ := h.length_unreadAt hm
  unfold InTime
  rw [hm]
  cases o with
  | headFirst =>
      have hc : c = UInt64.ofNat (accepted (w.sides.log.take mark)).length := hcounter
      show (c - w.sides.ring.tail).toNat ≤ cap ↔ Fits cap (w.unreadAt mark) (w.popsSince mark)
      rw [hc, hunread, h.sides.tail, length_returned w mark]
      exact toNat_sub_le_iff_of_behind hle hcap
  | tailFirst =>
      have hc : c = UInt64.ofNat (returned (w.sides.log.take mark)).length := hcounter
      show (w.sides.ring.head - c).toNat ≤ cap ↔
        Fits cap (cap - w.unreadAt mark) (w.pushesSince mark)
      rw [hc, h.sides.head, length_accepted w mark, hunread]
      exact toNat_sub_le_iff_of_ahead hle hcap

/-- A size is added to the plausible ones: it is plausible itself exactly if it is in time. -/
theorem Watched.Ok.plausible_step_iff (h : w.Ok cap) (hp : w.Plausible cap)
    (hs : Watched.step moved w a = some w') : w'.Plausible cap ↔ w.InTime cap a := by
  cases Watched.moves_of_step hs with
  | side | first => exact iff_of_true hp trivial
  | @second s sizes o c mark =>
      rw [← h.sizeFrom_le_iff rfl]
      constructor
      · intro hp'
        exact hp' _ (List.mem_append_right _ List.mem_cons_self)
      · intro hle n hn
        obtain hn | hn := List.mem_append.mp hn
        · exact hp n hn
        · exact List.mem_singleton.mp hn ▸ hle

/-- While one side rests, the other one has no more to do than there is room for. -/
theorem Watched.Ok.inTime_of_quiet (h : w.Ok cap) (hq : w.Quiet a) : w.InTime cap a := by
  cases a with
  | side | size => trivial
  | monitor =>
      have hle := h.sides.le
      have hbound := h.sides.bound
      unfold Quiet at hq
      unfold InTime
      cases hm : w.monitor with
      | idle => trivial
      | loaded o c mark =>
          obtain ⟨hunread, -⟩ := h.length_unreadAt hm
          rw [hm] at hq
          rw [length_accepted w mark, length_returned w mark, hunread] at hle hbound
          cases o with
          | headFirst =>
              have hpops : w.popsSince mark ≤ w.unreadAt mark := by omega
              exact fits_of_le hpops
          | tailFirst =>
              have hpushes : w.pushesSince mark ≤ cap - w.unreadAt mark := by omega
              exact fits_of_le hpushes

theorem watched_ok_start [Inhabited α] {capacity : UInt64} {r : SpscRing α}
    (h : make capacity = some r) : (Watched.start r).Ok capacity.toNat := ⟨ok_start h, trivial⟩

theorem watched_ok_run [Inhabited α] {capacity : UInt64} {r : SpscRing α}
    (hmake : make capacity = some r) (acts : List (WatchedAction α)) :
    States (Watched.step moved) (Watched.start r) (fun _ w => w.Ok capacity.toNat) acts :=
  fun _ _ _ _ hrun => run_preserves (watched_ok_start hmake) (fun _ _ _ h hs => h.step hs) hrun

/-- **Every size is between 0 and the capacity** exactly in the interleavings in which every second
load is in time. -/
theorem plausible_run [Inhabited α] (moved : α → α) {capacity : UInt64} {r : SpscRing α}
    (hmake : make capacity = some r) (acts : List (WatchedAction α)) :
    States (Watched.step moved) (Watched.start r) (fun _ w => w.Plausible capacity.toNat) acts ↔
      Along (Watched.step moved) (Watched.start r) (fun _ w a => w.InTime capacity.toNat a)
        acts := by
  refine states_iff_along_state (watched_ok_run hmake acts) (by intro n hn; cases hn) ?_ ?_
  · intro w a h _ hnone
    cases a with
    | side | size => trivial
    | monitor =>
        unfold Watched.InTime
        cases hm : w.monitor with
        | idle => trivial
        | loaded => simp [Watched.step, hm] at hnone
  · intro w a w' h hp hs
    exact h.plausible_step_iff hp hs

/-- A size that is asked for while both sides are at work, and in time nevertheless. -/
theorem plausible_run_two :
    let two : SpscRing ℕ := ⟨1, [0, 0], 0, 0⟩
    let acts : List (WatchedAction ℕ) :=
      [.side (.push .lvalue 7), .side .producer, .side .producer, .side .producer,
        .size .headFirst, .side (.push .rvalue 8), .side .producer, .side .pop, .side .consumer,
        .side .producer, .side .consumer, .side .producer, .side .consumer, .monitor]
    States (Watched.step id) (Watched.start two) (fun _ w => w.Plausible 2) acts ↔
      Along (Watched.step id) (Watched.start two) (fun _ w a => w.InTime 2 a) acts :=
  plausible_run id (show make (2 : UInt64) = some ⟨1, [0, 0], 0, 0⟩ from rfl) _

/-- Between the loads of a size a value goes in and out of a ring with one slot, which makes
2 ^ 64 - 1 of 0; or one goes in, out, and another one in, which makes 2. -/
theorem not_plausible_one :
    let one : SpscRing ℕ := ⟨0, [0], 0, 0⟩
    make 1 = some one ∧
      ¬ States (Watched.step id) (Watched.start one) (fun _ w => w.Plausible 1)
        [.size .headFirst, .side (.push .lvalue 7), .side .producer, .side .producer,
          .side .producer, .side .pop, .side .consumer, .side .consumer, .side .consumer,
          .monitor] ∧
      ¬ States (Watched.step id) (Watched.start one) (fun _ w => w.Plausible 1)
        [.size .tailFirst, .side (.push .lvalue 7), .side .producer, .side .producer,
          .side .producer, .side .pop, .side .consumer, .side .consumer, .side .consumer,
          .side (.push .lvalue 8), .side .producer, .side .producer, .side .producer,
          .monitor] := by
  refine ⟨rfl, fun h => ?_, fun h => ?_⟩
  · exact absurd (h.last rfl 18446744073709551615 (by decide)) (by decide)
  · exact absurd (h.last rfl 2 (by decide)) (by decide)

/-- **A size is plausible** if one of the two sides completes no call between its loads. -/
theorem plausible_of_quiet [Inhabited α] {capacity : UInt64} {r : SpscRing α}
    (hmake : make capacity = some r) {acts : List (WatchedAction α)}
    (hq : Along (Watched.step moved) (Watched.start r) (fun _ w a => w.Quiet a) acts) :
    States (Watched.step moved) (Watched.start r) (fun _ w => w.Plausible capacity.toNat) acts := by
  refine states_of_step (watched_ok_run hmake acts) hq (by intro n hn; cases hn) ?_
  intro _ w a w' h hquiet hp hs
  exact (h.plausible_step_iff hp hs).mpr (h.inTime_of_quiet hquiet)

end threads

end SpscRing
end Trading
