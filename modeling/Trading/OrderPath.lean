import Trading.EngineWorker

/-! # From the gateway to the consumer of the reports

The order path of `app/src/me_pipeline_main.cpp`: a gateway pushes commands into the order ring, the
thread of `matching_engine_worker` pops them one at a time and runs each on its `EngineBook`, whose
sink pushes the reports into the exec ring, and a consumer pops those.

* Both rings are used step by step, and the steps of the three threads are interleaved.  The worker
  is one thread: it polls the order ring between two commands only.
* The gateway passes a temporary to `try_push`.  What `std::move` leaves behind is `movedCmd` for a
  command and `moved` for a report.
* That the worker does not see `stop` yet is that it goes on; a worker that has seen it takes no
  further step.

`executed` records the commands that the engine has run.  `Faithful` is what the path is for, and
`faithful_run` says that every interleaving is: the engine runs the accepted commands in their
order, each once, and the consumer gets the reports of that very run. -/

namespace Trading

open Transition (run run_concat_eq_some run_preserves States)

instance : Inhabited OrderCmd := ⟨.new {}⟩

structure OrderPath where
  orders : SpscRing.State OrderCmd
  cmd : Option OrderCmd
  book : EngineBook
  pending : List ExecReport
  execs : SpscRing.State ExecReport
  executed : List OrderCmd
deriving DecidableEq

namespace OrderPath

inductive Action where
  /-- A temporary is passed to `try_push`, as in `gateway_submit` and `gateway_cancel`. -/
  | submit (c : OrderCmd)
  | gateway
  | poll
  | worker
  | dispatch
  | publish
  | producer
  | pop
  | consumer
deriving DecidableEq

def start (orders : SpscRing OrderCmd) (execs : SpscRing ExecReport) : OrderPath :=
  ⟨SpscRing.start orders, none, .empty, [], SpscRing.start execs, []⟩

/-- The worker is between two commands. -/
def Between (s : OrderPath) : Prop :=
  s.cmd = none ∧ s.pending = [] ∧ s.execs.producer = .idle

instance (s : OrderPath) : Decidable s.Between :=
  inferInstanceAs (Decidable (_ ∧ _ ∧ _))

/-- The command that a step of `try_pop` hands out. -/
def handedOut : SpscRing.Consumer OrderCmd → Option OrderCmd
  | .taken _ out => some out
  | .idle | .loaded _ | .available _ => none

def step (movedCmd : OrderCmd → OrderCmd) (moved : ExecReport → ExecReport) (s : OrderPath) :
    Action → Option OrderPath
  | .submit c =>
      (SpscRing.step movedCmd s.orders (.push .rvalue c)).map fun orders =>
        { s with orders := orders }
  | .gateway =>
      (SpscRing.step movedCmd s.orders .producer).map fun orders => { s with orders := orders }
  | .poll =>
      if s.Between then
        (SpscRing.step movedCmd s.orders .pop).map fun orders => { s with orders := orders }
      else none
  | .worker =>
      (SpscRing.step movedCmd s.orders .consumer).map fun orders =>
        { s with orders := orders, cmd := handedOut s.orders.consumer }
  | .dispatch =>
      match s.cmd with
      | none => none
      | some c =>
          (s.book.dispatch c).map fun b =>
            { s with
              cmd := none, book := b, pending := EngineBook.published s.book b
              executed := s.executed ++ [c] }
  | .publish =>
      match s.pending with
      | [] => none
      | er :: rest =>
          (SpscRing.step moved s.execs (.push .lvalue er)).map fun execs =>
            { s with pending := rest, execs := execs }
  | .producer => (SpscRing.step moved s.execs .producer).map fun execs => { s with execs := execs }
  | .pop => (SpscRing.step moved s.execs .pop).map fun execs => { s with execs := execs }
  | .consumer => (SpscRing.step moved s.execs .consumer).map fun execs => { s with execs := execs }

/-! ### What a step can do -/

/-- A step is one of a ring, or it runs a command. -/
inductive Moves (movedCmd : OrderCmd → OrderCmd) (moved : ExecReport → ExecReport)
    (s : OrderPath) : Action → OrderPath → Prop
  | submit {c : OrderCmd} {orders : SpscRing.State OrderCmd} :
      SpscRing.step movedCmd s.orders (.push .rvalue c) = some orders →
      Moves movedCmd moved s (.submit c) { s with orders := orders }
  | gateway {orders : SpscRing.State OrderCmd} :
      SpscRing.step movedCmd s.orders .producer = some orders →
      Moves movedCmd moved s .gateway { s with orders := orders }
  | poll {orders : SpscRing.State OrderCmd} : s.Between →
      SpscRing.step movedCmd s.orders .pop = some orders →
      Moves movedCmd moved s .poll { s with orders := orders }
  | worker {orders : SpscRing.State OrderCmd} :
      SpscRing.step movedCmd s.orders .consumer = some orders →
      Moves movedCmd moved s .worker
        { s with orders := orders, cmd := handedOut s.orders.consumer }
  | dispatch {c : OrderCmd} {b : EngineBook} : s.cmd = some c → s.book.dispatch c = some b →
      Moves movedCmd moved s .dispatch
        { s with
          cmd := none, book := b, pending := EngineBook.published s.book b
          executed := s.executed ++ [c] }
  | publish {er : ExecReport} {rest : List ExecReport} {execs : SpscRing.State ExecReport} :
      s.pending = er :: rest → SpscRing.step moved s.execs (.push .lvalue er) = some execs →
      Moves movedCmd moved s .publish { s with pending := rest, execs := execs }
  | execs {a : SpscRing.Action ExecReport} {a' : Action} {execs : SpscRing.State ExecReport} :
      (a = .producer ∨ a = .pop ∨ a = .consumer) → SpscRing.step moved s.execs a = some execs →
      Moves movedCmd moved s a' { s with execs := execs }

variable {movedCmd : OrderCmd → OrderCmd} {moved : ExecReport → ExecReport} {s s' : OrderPath}
  {a : Action}

theorem moves_of_step (hs : step movedCmd moved s a = some s') : Moves movedCmd moved s a s' := by
  cases a with
  | submit c =>
      obtain ⟨orders, horders, rfl⟩ := Option.map_eq_some_iff.mp hs
      exact .submit horders
  | gateway =>
      obtain ⟨orders, horders, rfl⟩ := Option.map_eq_some_iff.mp hs
      exact .gateway horders
  | poll =>
      unfold step at hs
      dsimp only at hs
      split_ifs at hs with hbetween
      obtain ⟨orders, horders, rfl⟩ := Option.map_eq_some_iff.mp hs
      exact .poll hbetween horders
  | worker =>
      obtain ⟨orders, horders, rfl⟩ := Option.map_eq_some_iff.mp hs
      exact .worker horders
  | dispatch =>
      unfold step at hs
      dsimp only at hs
      cases hc : s.cmd with
      | none => simp [hc] at hs
      | some c =>
          simp only [hc, Option.map_eq_some_iff] at hs
          obtain ⟨b, hb, rfl⟩ := hs
          exact .dispatch hc hb
  | publish =>
      unfold step at hs
      dsimp only at hs
      cases hp : s.pending with
      | nil => simp [hp] at hs
      | cons er rest =>
          simp only [hp, Option.map_eq_some_iff] at hs
          obtain ⟨execs, hexecs, rfl⟩ := hs
          exact .publish hp hexecs
  | producer =>
      obtain ⟨execs, hexecs, rfl⟩ := Option.map_eq_some_iff.mp hs
      exact .execs (.inl rfl) hexecs
  | pop =>
      obtain ⟨execs, hexecs, rfl⟩ := Option.map_eq_some_iff.mp hs
      exact .execs (.inr (.inl rfl)) hexecs
  | consumer =>
      obtain ⟨execs, hexecs, rfl⟩ := Option.map_eq_some_iff.mp hs
      exact .execs (.inr (.inr rfl)) hexecs

/-! ### The invariant -/

/-- What holds in every interleaving, with rings of `m` and `n` slots. -/
structure Ok (m n : ℕ) (s : OrderPath) : Prop where
  sound : s.book.Sound
  orders : s.orders.Ok m ∧ BoundedQueue.Legal m s.orders.log s.orders.unread
  execs : s.execs.Ok n ∧ BoundedQueue.Legal n s.execs.log s.execs.unread
  /-- The worker has run what it has popped, but for the command in its hands. -/
  popped : s.executed ++ s.cmd.toList = s.orders.returned
  book : run EngineBook.dispatch .empty s.executed = some s.book
  sink : s.book.sink = s.execs.offered ++ s.execs.producer.inFlight ++ s.pending
  /-- The worker is one thread. -/
  polling : s.orders.consumer ≠ .idle → s.Between
  holding : s.cmd ≠ none → s.pending = [] ∧ s.execs.producer = .idle

section ok
variable {m n : ℕ}

theorem Ok.ringStep {α : Type*} {cap : ℕ} {f : α → α} {r r' : SpscRing.State α}
    {a : SpscRing.Action α} (h : r.Ok cap ∧ BoundedQueue.Legal cap r.log r.unread)
    (hs : SpscRing.step f r a = some r') :
    r'.Ok cap ∧ BoundedQueue.Legal cap r'.log r'.unread :=
  ⟨(SpscRing.refines_step h.1 hs).1, SpscRing.legal_step h.1 h.2 hs⟩

/-- The gateway's steps leave alone what the worker has popped. -/
theorem Ok.gatewayStep {orders : SpscRing.State OrderCmd} {a : SpscRing.Action OrderCmd}
    (h : s.Ok m n) (hs : SpscRing.step movedCmd s.orders a = some orders)
    (hret : orders.returned = s.orders.returned) (hcons : orders.consumer = s.orders.consumer) :
    Ok m n { s with orders := orders } :=
  { h with
    orders := Ok.ringStep h.orders hs
    popped := h.popped.trans hret.symm
    polling := fun hne => h.polling (by rwa [← hcons]) }

/-- A step of `try_pop` on the order ring. -/
theorem Ok.workerStep {orders : SpscRing.State OrderCmd} (h : s.Ok m n)
    (hs : SpscRing.step movedCmd s.orders .consumer = some orders) :
    Ok m n { s with orders := orders, cmd := handedOut s.orders.consumer } := by
  have hbusy : s.orders.consumer ≠ .idle := by
    intro hidle
    change SpscRing.stepConsumer movedCmd s.orders = some orders at hs
    unfold SpscRing.stepConsumer at hs
    rw [hidle] at hs
    cases hs
  obtain ⟨hcmd, hpend, hidle⟩ := h.polling hbusy
  have hret := SpscRing.returned_step hs
  have hpopped := h.popped
  rw [hcmd, Option.toList_none, List.append_nil] at hpopped
  refine { h with
    orders := Ok.ringStep h.orders hs, popped := ?_, polling := ?_, holding := ?_ }
  · rw [hret, ← hpopped, List.append_cancel_left_eq]
    unfold SpscRing.completed handedOut
    cases s.orders.consumer with
    | idle | available | taken => rfl
    | loaded t =>
        dsimp only
        split_ifs <;> rfl
  · intro hne
    refine ⟨?_, hpend, hidle⟩
    -- the last step of the pop leaves the consumer idle
    generalize s.orders = r at hs ⊢
    cases SpscRing.moves_of_step hs with
    | miss | find | take => rfl
    | release => exact absurd rfl hne
  · exact fun _ => ⟨hpend, hidle⟩

/-- The command is run, and its reports wait to be pushed. -/
theorem Ok.dispatchStep {c : OrderCmd} {b : EngineBook} (h : s.Ok m n) (hc : s.cmd = some c)
    (hb : s.book.dispatch c = some b) :
    Ok m n { s with
      cmd := none, book := b, pending := EngineBook.published s.book b,
      executed := s.executed ++ [c] } := by
  obtain ⟨hpend, hidle⟩ := h.holding (by rw [hc]; exact Option.some_ne_none c)
  obtain ⟨rs, hrs, -⟩ := EngineBook.reporting_dispatch h.sound hb
  have hpopped := h.popped
  rw [hc, Option.toList_some] at hpopped
  refine ⟨h.sound.dispatch hb, h.orders, h.execs, ?_, ?_, ?_, ?_, ?_⟩
  · rw [Option.toList_none, List.append_nil]
    exact hpopped
  · exact run_concat_eq_some.mpr ⟨s.book, h.book, hb⟩
  · have hsink := h.sink
    rw [hpend, List.append_nil] at hsink
    show b.sink = s.execs.offered ++ s.execs.producer.inFlight ++ EngineBook.published s.book b
    rw [EngineBook.published_of_sink hrs, hrs, hsink]
  · intro hne
    have hcmd := (h.polling hne).1
    rw [hc] at hcmd
    cases hcmd
  · exact fun hne => absurd rfl hne

/-- The first of the waiting reports is pushed. -/
theorem Ok.publishStep {er : ExecReport} {rest : List ExecReport} {execs : SpscRing.State ExecReport}
    (h : s.Ok m n) (hp : s.pending = er :: rest)
    (hs : SpscRing.step moved s.execs (.push .lvalue er) = some execs) :
    Ok m n { s with pending := rest, execs := execs } := by
  have hlog := (SpscRing.log_step hs).2
  have hnot : ∀ {p : Prop}, s.pending = [] → p := by
    intro p hnil
    rw [hp] at hnil
    cases hnil
  refine { h with execs := Ok.ringStep h.execs hs, sink := ?_, polling := ?_, holding := ?_ }
  · show s.book.sink = execs.offered ++ execs.producer.inFlight ++ rest
    rw [hlog, h.sink, hp, List.append_assoc _ _ rest]
    rfl
  · exact fun hne => hnot (h.polling hne).2.1
  · exact fun hne => hnot (h.holding hne).1

/-- A push or a pop of the exec ring goes on, or a pop begins. -/
theorem Ok.execsStep {a : SpscRing.Action ExecReport} {execs : SpscRing.State ExecReport}
    (h : s.Ok m n) (ha : a = .producer ∨ a = .pop ∨ a = .consumer)
    (hs : SpscRing.step moved s.execs a = some execs) : Ok m n { s with execs := execs } := by
  have hlog := (SpscRing.log_step hs).2
  have hoffers : a.offers = [] := by
    obtain rfl | rfl | rfl := ha <;> rfl
  -- a push that is not under way is not begun by these steps
  have hidle : s.execs.producer = .idle → execs.producer = .idle := by
    intro hp
    generalize s.execs = r at hs hp
    obtain rfl | rfl | rfl := ha
    · cases SpscRing.moves_of_step hs with
      | refuse | accept | write | commit => cases hp
    · cases SpscRing.moves_of_step hs with
      | pop => exact hp
    · cases SpscRing.moves_of_step hs with
      | miss | find | take | release => exact hp
  rw [hoffers, List.append_nil] at hlog
  refine { h with execs := Ok.ringStep h.execs hs, sink := ?_, polling := ?_, holding := ?_ }
  · show s.book.sink = execs.offered ++ execs.producer.inFlight ++ s.pending
    rw [hlog, h.sink]
  · intro hne
    obtain ⟨hcmd, hpend, hp⟩ := h.polling hne
    exact ⟨hcmd, hpend, hidle hp⟩
  · intro hne
    obtain ⟨hpend, hp⟩ := h.holding hne
    exact ⟨hpend, hidle hp⟩

theorem Ok.step (h : s.Ok m n) (hs : step movedCmd moved s a = some s') : s'.Ok m n := by
  cases moves_of_step hs with
  | submit horders =>
      refine h.gatewayStep horders ?_ (SpscRing.consumer_step_push horders)
      rw [SpscRing.returned_step horders]
      exact List.append_nil _
  | gateway horders =>
      refine h.gatewayStep horders ?_ (SpscRing.consumer_step_producer horders)
      rw [SpscRing.returned_step horders, SpscRing.returned_completed fun _ _ ha => by cases ha]
      exact List.append_nil _
  | poll hbetween horders =>
      refine { h with orders := Ok.ringStep h.orders horders, popped := ?_, polling := ?_ }
      · rw [SpscRing.returned_step horders]
        exact h.popped.trans (List.append_nil _).symm
      · exact fun _ => hbetween
  | worker horders => exact h.workerStep horders
  | dispatch hc hb => exact h.dispatchStep hc hb
  | publish hp hexecs => exact h.publishStep hp hexecs
  | execs ha hexecs => exact h.execsStep ha hexecs

end ok

/-! ### The whole path -/

/-- What the path with rings of `m` and `n` slots is for. -/
structure Faithful (m n : ℕ) (s : OrderPath) : Prop where
  /-- Every accepted command has been run, is in the worker's hands or waits, in their order. -/
  commands : s.executed ++ s.cmd.toList ++ s.orders.unread = s.orders.accepted
  /-- The book is that of an engine that runs these commands one after the other. -/
  book : run EngineBook.dispatch .empty s.executed = some s.book
  /-- Every report of that engine has been offered to the exec ring or is about to be. -/
  reports : s.execs.offered ++ s.execs.producer.inFlight ++ s.pending = s.book.sink
  /-- The consumer gets the reports that found room, in their order. -/
  delivered : s.execs.returned ++ s.execs.unread = s.execs.accepted
  dropped : s.execs.accepted.Sublist s.execs.offered
  bounded : s.orders.unread.length ≤ m ∧ s.execs.unread.length ≤ n
  /-- Once nothing is under way, the consumer has the reports of all accepted commands, but for
  those that found no room. -/
  quiet : s.Between → s.orders.unread = [] → s.execs.unread = [] →
    ∃ b : EngineBook, run EngineBook.dispatch .empty s.orders.accepted = some b ∧
      s.execs.returned.Sublist b.sink ∧
      (s.execs.accepted = s.execs.offered → s.execs.returned = b.sink)

theorem faithful_of_ok {m n : ℕ} (h : s.Ok m n) : Faithful m n s := by
  have hcommands : s.executed ++ s.cmd.toList ++ s.orders.unread = s.orders.accepted := by
    rw [h.popped]
    exact h.orders.2.fifo.symm
  have hdelivered : s.execs.returned ++ s.execs.unread = s.execs.accepted := h.execs.2.fifo.symm
  have hdropped : s.execs.accepted.Sublist s.execs.offered :=
    BoundedQueue.accepted_sublist_offered s.execs.log
  refine ⟨hcommands, h.book, h.sink.symm, hdelivered, hdropped,
    ⟨h.orders.2.bounded, h.execs.2.bounded⟩, ?_⟩
  rintro ⟨hcmd, hpend, hidle⟩ horders hexecs
  have hsink := h.sink
  rw [hpend, hidle, List.append_nil] at hsink
  have hoffered : s.book.sink = s.execs.offered := hsink.trans (List.append_nil _)
  rw [hcmd, horders, Option.toList_none, List.append_nil, List.append_nil] at hcommands
  rw [hexecs, List.append_nil] at hdelivered
  refine ⟨s.book, hcommands ▸ h.book, ?_, fun hall => ?_⟩
  · rw [hoffered, hdelivered]
    exact hdropped
  · rw [hoffered, hdelivered, hall]

theorem ok_start {orderCap execCap : UInt64} {orders : SpscRing OrderCmd}
    {execs : SpscRing ExecReport} (horders : SpscRing.make orderCap = some orders)
    (hexecs : SpscRing.make execCap = some execs) :
    (start orders execs).Ok orderCap.toNat execCap.toNat where
  sound := EngineBook.Sound.empty
  orders := ⟨SpscRing.ok_start horders, .nil⟩
  execs := ⟨SpscRing.ok_start hexecs, .nil⟩
  popped := rfl
  book := rfl
  sink := rfl
  polling := fun hne => absurd rfl hne
  holding := fun hne => absurd rfl hne

/-- **The order path is faithful** in every interleaving of the gateway, the worker and the
consumer, at all capacities that the rings accept: no accepted command is lost, run twice or
overtaken, and the reports are those of the engine that runs them. -/
theorem faithful_run (movedCmd : OrderCmd → OrderCmd) (moved : ExecReport → ExecReport)
    {orderCap execCap : UInt64} {orders : SpscRing OrderCmd} {execs : SpscRing ExecReport}
    (horders : SpscRing.make orderCap = some orders) (hexecs : SpscRing.make execCap = some execs)
    (acts : List Action) :
    States (step movedCmd moved) (start orders execs)
      (fun _ s => Faithful orderCap.toNat execCap.toNat s) acts := by
  intro pre _ _ s hrun
  exact faithful_of_ok
    (run_preserves (ok_start horders hexecs) (fun _ _ _ h hs => h.step hs) hrun)

/-- Two orders through rings of one and two slots: the second finds the order ring full at first,
and then trades with the first. -/
theorem faithful_run_two : States (step id id)
    (start ⟨0, [.new {}], 0, 0⟩ ⟨1, [{}, {}], 0, 0⟩) (fun _ s => Faithful 1 2 s)
    [.submit (.new { orderId := 1, side := .bid, price := 100, qty := 5 }), .gateway, .gateway,
      .gateway, .submit (.new { orderId := 2, side := .ask, price := 100, qty := 3 }), .poll,
      .worker, .worker, .gateway, .worker, .dispatch, .publish,
      .submit (.new { orderId := 2, side := .ask, price := 100, qty := 3 }), .gateway, .producer,
      .gateway, .pop, .producer, .producer, .consumer, .gateway, .consumer, .consumer, .poll,
      .worker, .worker, .worker, .dispatch] :=
  faithful_run id id (show SpscRing.make (1 : UInt64) = some ⟨0, [.new {}], 0, 0⟩ from rfl)
    (show SpscRing.make (2 : UInt64) = some ⟨1, [{}, {}], 0, 0⟩ from rfl) _

end OrderPath
end Trading
