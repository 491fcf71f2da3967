import Trading.Reports
import Trading.SpscRing

/-! # The engine worker and the exec ring

`matching_engine_worker` takes commands from the order ring one at a time and runs them on its
`EngineBook`, whose sink pushes every report into the exec ring and ignores the result of
`try_push`.  The steps of the push and those of the consumer's pop are interleaved, as are the
reports of one command with the consumer.

* What the engine does does not depend on the ring, so `take` computes all reports of a command
  and `publish` hands them over in order.
* The order ring is the list of the commands it holds; `submit` appends one at any time.
* A command that is undefined in the engine has no next state.

A report is published once its push has returned.  `Moves` says once what a step can do, and
`delivered_iff` when all reports arrive. -/

namespace Trading

open Transition (run_preserves States Along states_iff_along_state)

instance : Inhabited ExecReport := ⟨{}⟩

structure EngineWorker where
  orders : List OrderCmd
  book : EngineBook
  pending : List ExecReport
  ring : SpscRing.State ExecReport
deriving DecidableEq

namespace EngineWorker

/-- One step of the gateway, the worker or the consumer. -/
inductive Action where
  | submit (c : OrderCmd)
  | take
  | publish
  | producer
  | pop
  | consumer
deriving DecidableEq

def start (r : SpscRing ExecReport) : EngineWorker := ⟨[], .empty, [], SpscRing.start r⟩

/-- The worker is between two commands. -/
def ready (w : EngineWorker) : Bool := w.pending = [] ∧ w.ring.producer = .idle

def step (moved : ExecReport → ExecReport) (w : EngineWorker) : Action → Option EngineWorker
  | .submit c => some { w with orders := w.orders ++ [c] }
  | .take =>
      if w.ready then
        match w.orders with
        | [] => some w
        | c :: cs =>
            (w.book.dispatch c).map fun b =>
              { w with orders := cs, book := b, pending := EngineBook.published w.book b }
      else none
  | .publish =>
      match w.pending with
      | [] => none
      | er :: rest =>
          (SpscRing.step moved w.ring (.push .lvalue er)).map fun ring =>
            { w with pending := rest, ring := ring }
  | .producer => (SpscRing.step moved w.ring .producer).map fun ring => { w with ring := ring }
  | .pop => (SpscRing.step moved w.ring .pop).map fun ring => { w with ring := ring }
  | .consumer => (SpscRing.step moved w.ring .consumer).map fun ring => { w with ring := ring }

/-! ### What a step can do -/

/-- The steps of the worker and of the consumer, each with the state it leads to. -/
inductive Moves (moved : ExecReport → ExecReport) (w : EngineWorker) :
    Action → EngineWorker → Prop
  | submit (c : OrderCmd) : Moves moved w (.submit c) { w with orders := w.orders ++ [c] }
  /-- There is no command. -/
  | wait : Moves moved w .take w
  | take {c : OrderCmd} {cs : List OrderCmd} {b : EngineBook} : w.pending = [] →
      w.ring.producer = .idle → w.orders = c :: cs → w.book.dispatch c = some b →
      Moves moved w .take
        { w with orders := cs, book := b, pending := EngineBook.published w.book b }
  | publish {er : ExecReport} {rest : List ExecReport} {ring : SpscRing.State ExecReport} :
      w.pending = er :: rest → SpscRing.step moved w.ring (.push .lvalue er) = some ring →
      Moves moved w .publish { w with pending := rest, ring := ring }
  | producer {ring : SpscRing.State ExecReport} :
      SpscRing.step moved w.ring .producer = some ring →
      Moves moved w .producer { w with ring := ring }
  | pop {ring : SpscRing.State ExecReport} :
      SpscRing.step moved w.ring .pop = some ring → Moves moved w .pop { w with ring := ring }
  | consumer {ring : SpscRing.State ExecReport} :
      SpscRing.step moved w.ring .consumer = some ring →
      Moves moved w .consumer { w with ring := ring }

theorem moves_of_step {moved : ExecReport → ExecReport} {w w' : EngineWorker} {a : Action}
    (hs : step moved w a = some w') : Moves moved w a w' := by
  cases a with
  | submit c =>
      obtain rfl := Option.some_inj.mp hs
      exact .submit c
  | take =>
      unfold step at hs
      dsimp only at hs
      split_ifs at hs with hready
      obtain ⟨hpend, hidle⟩ : w.pending = [] ∧ w.ring.producer = .idle := by
        simpa [ready] using hready
      cases hc : w.orders with
      | nil =>
          simp only [hc, Option.some_inj] at hs
          exact hs ▸ .wait
      | cons c cs =>
          simp only [hc, Option.map_eq_some_iff] at hs
          obtain ⟨b, hb, rfl⟩ := hs
          exact .take hpend hidle hc hb
  | publish =>
      unfold step at hs
      dsimp only at hs
      cases hp : w.pending with
      | nil => simp [hp] at hs
      | cons er rest =>
          simp only [hp, Option.map_eq_some_iff] at hs
          obtain ⟨ring, hring, rfl⟩ := hs
          exact .publish hp hring
  | producer =>
      obtain ⟨ring, hring, rfl⟩ := Option.map_eq_some_iff.mp hs
      exact .producer hring
  | pop =>
      obtain ⟨ring, hring, rfl⟩ := Option.map_eq_some_iff.mp hs
      exact .pop hring
  | consumer =>
      obtain ⟨ring, hring, rfl⟩ := Option.map_eq_some_iff.mp hs
      exact .consumer hring

/-! ### The reports -/

/-- The reports that the engine has published: the pushes that have returned. -/
def published (w : EngineWorker) : List ExecReport := w.ring.offered

/-- The reports that the consumer has popped. -/
def popped (w : EngineWorker) : List ExecReport := w.ring.returned

/-- The reports that the exec ring holds. -/
def inRing (w : EngineWorker) : List ExecReport := w.ring.unread

/-- No report is lost: those popped and then those in the ring are those published. -/
def Delivered (w : EngineWorker) : Prop := w.popped ++ w.inRing = w.published

instance (w : EngineWorker) : Decidable w.Delivered := inferInstanceAs (Decidable (_ = _))

/-- The exec ring is not full when the sink looks. -/
def Room (cap : ℕ) (w : EngineWorker) (a : Action) : Prop :=
  a = .producer → ∀ o er h, w.ring.producer = .loaded o er h → w.inRing.length < cap

/-- The sink of the engine: what it has published, what it is publishing, and what it will publish
for the command in hand. -/
def SinkSplit (w : EngineWorker) : Prop :=
  w.book.sink = w.published ++ w.ring.producer.inFlight ++ w.pending

/-- What holds of the worker in every interleaving. -/
structure Ok (cap : ℕ) (w : EngineWorker) : Prop where
  sound : w.book.Sound
  ring : w.ring.Ok cap
  legal : BoundedQueue.Legal cap w.ring.log w.ring.unread
  sink : w.SinkSplit

section steps
variable {cap : ℕ} {moved : ExecReport → ExecReport} {w w' : EngineWorker} {a : Action}

theorem delivered_iff_accepted (h : w.Ok cap) : w.Delivered ↔ w.ring.accepted = w.ring.offered := by
  have hfifo : w.ring.accepted = w.ring.returned ++ w.ring.unread := h.legal.fifo
  rw [hfifo]
  rfl

/-- Steps of the ring other than the start of a push. -/
theorem Ok.ringStep {a : SpscRing.Action ExecReport} {ring : SpscRing.State ExecReport}
    (h : w.Ok cap) (hs : SpscRing.step moved w.ring a = some ring) (ha : a.offers = []) :
    Ok cap { w with ring := ring } where
  sound := h.sound
  ring := (SpscRing.refines_step h.ring hs).1
  legal := SpscRing.legal_step h.ring h.legal hs
  sink := by
    have hlog := (SpscRing.log_step hs).2
    rw [ha, List.append_nil] at hlog
    unfold SinkSplit published
    rw [hlog]
    exact h.sink

theorem Ok.step (h : w.Ok cap) (hs : step moved w a = some w') : w'.Ok cap := by
  cases moves_of_step hs with
  | submit c => exact ⟨h.sound, h.ring, h.legal, h.sink⟩
  | wait => exact h
  | take hpend hidle _ hb =>
      obtain ⟨rs, hrs, -⟩ := EngineBook.reporting_dispatch h.sound hb
      have hsink := h.sink
      unfold SinkSplit at hsink
      rw [hpend, List.append_nil] at hsink
      refine ⟨h.sound.dispatch hb, h.ring, h.legal, ?_⟩
      show _ = w.published ++ w.ring.producer.inFlight ++ EngineBook.published w.book _
      rw [EngineBook.published_of_sink hrs, hrs, hsink]
  | @publish er rest ring hp hring =>
      have hlog := (SpscRing.log_step hring).2
      have hsink := h.sink
      unfold SinkSplit published at hsink
      refine ⟨h.sound, (SpscRing.refines_step h.ring hring).1,
        SpscRing.legal_step h.ring h.legal hring, ?_⟩
      show w.book.sink = ring.offered ++ ring.producer.inFlight ++ rest
      rw [hlog, hsink, hp, List.append_assoc _ _ rest]
      rfl
  | producer hring | pop hring | consumer hring => exact h.ringStep hring rfl

theorem ok_start {capacity : UInt64} {r : SpscRing ExecReport}
    (hmake : SpscRing.make capacity = some r) : (start r).Ok capacity.toNat :=
  ⟨EngineBook.Sound.empty, SpscRing.ok_start hmake, .nil, rfl⟩

/-- One step keeps the reports together exactly if the ring has room when the sink looks. -/
theorem delivered_step_iff (h : w.Ok cap) (hd : w.Delivered) (hs : step moved w a = some w') :
    w'.Delivered ↔ w.Room cap a := by
  have h' := h.step hs
  have hall := (delivered_iff_accepted h).mp hd
  rw [delivered_iff_accepted h']
  cases moves_of_step hs with
  | submit | wait | take => exact iff_of_true hall fun ha => by cases ha
  | @publish er _ _ _ hring =>
      have hroom : w.ring.HasRoom cap (.push .lvalue er) := fun ha => by cases ha
      exact iff_of_true ((SpscRing.accepted_eq_offered_iff h.ring hring hall).mpr hroom)
        fun ha => by cases ha
  | producer hring =>
      refine (SpscRing.accepted_eq_offered_iff h.ring hring hall).trans ?_
      exact ⟨fun hroom _ => hroom rfl, fun hroom _ => hroom rfl⟩
  | pop hring =>
      have hroom : w.ring.HasRoom cap .pop := fun ha => by cases ha
      exact iff_of_true ((SpscRing.accepted_eq_offered_iff h.ring hring hall).mpr hroom)
        fun ha => by cases ha
  | consumer hring =>
      have hroom : w.ring.HasRoom cap .consumer := fun ha => by cases ha
      exact iff_of_true ((SpscRing.accepted_eq_offered_iff h.ring hring hall).mpr hroom)
        fun ha => by cases ha

/-- A step that is not possible finds no full ring: the sink never waits. -/
theorem room_of_step_eq_none (hs : step moved w a = none) : w.Room cap a := by
  rintro rfl o er k hp
  obtain ⟨ring, hring⟩ := SpscRing.exists_step_loaded moved hp
  change (SpscRing.step moved w.ring .producer).map _ = none at hs
  rw [hring] at hs
  cases hs

end steps

theorem ok_states {capacity : UInt64} {r : SpscRing ExecReport} {moved : ExecReport → ExecReport}
    (hmake : SpscRing.make capacity = some r) (acts : List Action) :
    States (step moved) (start r) (fun _ w => w.Ok capacity.toNat) acts := by
  intro pre _ _ w hrun
  exact run_preserves (ok_start hmake) (fun _ _ _ h hs => h.step hs) hrun

/-- **No report is lost, exactly** in the runs in which the exec ring is never full when the sink
looks; and what is published is what the engine hands to its sink, in order. -/
theorem delivered_iff {capacity : UInt64} {r : SpscRing ExecReport}
    (moved : ExecReport → ExecReport) (hmake : SpscRing.make capacity = some r)
    (acts : List Action) :
    States (step moved) (start r) (fun _ w => w.SinkSplit) acts ∧
      (States (step moved) (start r) (fun _ w => w.Delivered) acts ↔
        Along (step moved) (start r) (fun _ w a => w.Room capacity.toNat a) acts) := by
  have hok : States (step moved) (start r) (fun _ w => w.Ok capacity.toNat) acts :=
    ok_states hmake acts
  refine ⟨fun pre post he w hw => (hok pre post he w hw).sink, ?_⟩
  refine states_iff_along_state hok rfl ?_ ?_
  · intro w a _ _ hs
    exact room_of_step_eq_none hs
  · intro w a w' h hd hs
    exact delivered_step_iff h hd hs

/-- A ring of one slot, and two orders that rest: the report of the second one is dropped. -/
theorem delivered_dropped : ¬ States (step id) (start ⟨0, [{}], 0, 0⟩) (fun _ w => w.Delivered)
    [.submit (.new { orderId := 1, side := .bid, price := 100, qty := 5 }),
      .submit (.new { orderId := 2, side := .bid, price := 99, qty := 5 }),
      .take, .publish, .producer, .producer, .producer, .take, .publish, .producer] := by
  intro h
  exact absurd (h.last rfl) (by decide)

/-- A ring of two slots that the consumer keeps up with. -/
theorem delivered_iff_drained :
    let acts : List Action := [.submit (.new { orderId := 1, side := .bid, price := 100, qty := 5 }),
      .take, .publish, .producer, .pop, .producer, .producer, .consumer, .consumer, .consumer]
    States (step id) (start ⟨1, [{}, {}], 0, 0⟩) (fun _ w => w.SinkSplit) acts ∧
      (States (step id) (start ⟨1, [{}, {}], 0, 0⟩) (fun _ w => w.Delivered) acts ↔
        Along (step id) (start ⟨1, [{}, {}], 0, 0⟩) (fun _ w a => w.Room 2 a) acts) :=
  delivered_iff id (show SpscRing.make (2 : UInt64) = some ⟨1, [{}, {}], 0, 0⟩ from rfl) _

end EngineWorker
end Trading
