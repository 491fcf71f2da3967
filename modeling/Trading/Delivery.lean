import Trading.OrderPath
import Trading.Tape

/-! # Delivery of the reports

The sink of the engine drops a report that finds the exec ring full.  What the commands cost bounds
the reports that there are, so an exec ring that holds the cost of the accepted commands drops
nothing, and the worker never waits for the consumer (`delivered_in_full`).

Nor does anything wait for ever.  `work` bounds what is left to do once the gateway has stopped: the
steps of the two rings, and for each command its cost, eight steps a report.  A step of the worker
or of the consumer reduces it, unless it polls an empty ring, and `drains` says that such steps are
never missing before everything has arrived. -/

namespace Trading

open Transition (run run_append run_concat_eq_some run_preserves run_measure States)

/-! ### The work left in a ring -/

namespace SpscRing

open BoundedQueue (accepted returned)

variable {α : Type*} {cap : ℕ} {moved : α → α} {s s' : State α} {a : Action α}

/-- The steps left of a push and of the pop of its value. -/
def Producer.left : Producer α → ℕ
  | .idle => 0
  | .loaded .. => 7
  | .admitted .. => 6
  | .written .. => 5

/-- The steps left to pop `n` values. -/
def Consumer.left (n : ℕ) : Consumer α → ℕ
  | .idle => 4 * n
  | .loaded _ => if n = 0 then 1 else 4 * n - 1
  | .available _ => 4 * n - 2
  | .taken .. => 4 * n - 3

def State.work (s : State α) : ℕ := s.producer.left + s.consumer.left s.unread.length

/-- One more value to pop. -/
theorem Consumer.left_succ (n : ℕ) (c : Consumer α) : c.left (n + 1) ≤ c.left n + 4 := by
  cases c with
  | loaded =>
      unfold left
      dsimp only
      split_ifs <;> omega
  | idle | available | taken => unfold left; dsimp only; omega

theorem length_unread_step (h : s.Ok cap) (hs : step moved s a = some s') :
    s'.unread.length + (BoundedQueue.returned (completed s a)).length =
      s.unread.length + (BoundedQueue.accepted (completed s a)).length := by
  have hlen := h.length_unread
  have hlen' := (refines_step h hs).1.length_unread
  rw [State.returned, State.accepted, (log_step hs).1, BoundedQueue.returned_append,
    BoundedQueue.accepted_append, List.length_append, List.length_append] at hlen'
  rw [State.returned, State.accepted] at hlen
  omega

/-- Every step does some of the work, but for a poll of the empty ring; a push brings new work. -/
theorem work_step (h : s.Ok cap) (hs : step moved s a = some s')
    (hpop : a = .pop → s.unread ≠ []) : s'.work + 1 ≤ s.work + 8 * a.offers.length := by
  have hok := (refines_step h hs).1
  have hlen := length_unread_step h hs
  have hle : s.unread.length + s.returned.length = s.accepted.length := h.length_unread
  have hpos : a = .pop → 0 < s.unread.length := fun ha => List.length_pos_of_ne_nil (hpop ha)
  unfold State.work
  generalize s.unread.length = n at hlen hle hpos ⊢
  generalize s'.unread.length = n' at hlen ⊢
  cases moves_of_step hs with
  | @push r c =>
      obtain rfl : n' = n := hlen
      show 7 + c.left n' + 1 ≤ 0 + c.left n' + 8
      omega
  | @refuse r c arg log o v k hfull =>
      simp only [completed, hfull, if_true] at hlen
      obtain rfl : n' = n := hlen
      show 0 + c.left n' + 1 ≤ 7 + c.left n' + 0
      omega
  | @accept r c arg log o v k hfull =>
      simp only [completed, hfull] at hlen
      obtain rfl : n' = n := hlen
      show 6 + c.left n' + 1 ≤ 7 + c.left n' + 0
      omega
  | @write r c =>
      obtain rfl : n' = n := hlen
      show 5 + c.left n' + 1 ≤ 6 + c.left n' + 0
      omega
  | @commit r c =>
      obtain rfl : n' = n + 1 := hlen
      have hsucc := c.left_succ n
      show 0 + c.left (n + 1) + 1 ≤ 5 + c.left n + 0
      omega
  | @pop r p =>
      obtain rfl : n' = n := hlen
      have hpos := hpos rfl
      show p.left + (if n' = 0 then 1 else 4 * n' - 1) + 1 ≤ p.left + 4 * n' + 0
      rw [if_neg hpos.ne']
      omega
  | @miss r p arg log t hempty =>
      have hI : Inv cap r p (.loaded t) (accepted log) (returned log) := h
      simp only [completed, hempty, if_true] at hlen
      obtain rfl : n' = n := hlen
      have hzero : n' + (returned log).length = (accepted log).length := hle
      have heq := hI.isEmpty_iff.mp hempty
      obtain rfl : n' = 0 := by omega
      exact Nat.le_refl _
  | @find r p arg log t hempty =>
      have hI : Inv cap r p (.available t) (accepted log) (returned log) := hok
      have hlt := hI.consumer.2
      simp only [completed, hempty, if_false] at hlen
      obtain rfl : n' = n := hlen
      have hle : n' + (returned log).length = (accepted log).length := hle
      show p.left + (4 * n' - 2) + 1 ≤ p.left + (if n' = 0 then 1 else 4 * n' - 1) + 0
      rw [if_neg (by omega)]
      omega
  | @take r p arg log t v hv =>
      have hI : Inv cap r p (.available t) (accepted log) (returned log) := h
      have hlt := hI.consumer.2
      obtain rfl : n' = n := hlen
      have hle : n' + (returned log).length = (accepted log).length := hle
      show p.left + (4 * n' - 3) + 1 ≤ p.left + (4 * n' - 2) + 0
      omega
  | @release r p =>
      have hlen : n' + 1 = n := hlen
      show p.left + 4 * n' + 1 ≤ p.left + (4 * n - 3) + 0
      omega

/-- A push that is under way can go on. -/
theorem exists_step_producer (moved : α → α) (h : s.Ok cap) (hp : s.producer ≠ .idle) :
    ∃ s', step moved s .producer = some s' := by
  cases hprod : s.producer with
  | idle => exact absurd hprod hp
  | loaded o v k => exact exists_step_loaded moved hprod
  | admitted o v k =>
      have hI : Inv cap s.ring (.admitted o v k) s.consumer s.accepted s.returned := hprod ▸ h
      show ∃ s', stepProducer moved s = some s'
      unfold stepProducer
      rw [hprod]
      dsimp only
      rw [if_pos hI.slot_lt_push]
      exact ⟨_, rfl⟩
  | written v k =>
      show ∃ s', stepProducer moved s = some s'
      unfold stepProducer
      rw [hprod]
      exact ⟨_, rfl⟩

/-- A pop that is under way can go on. -/
theorem exists_step_consumer (moved : α → α) (h : s.Ok cap) (hc : s.consumer ≠ .idle) :
    ∃ s', step moved s .consumer = some s' := by
  show ∃ s', stepConsumer moved s = some s'
  unfold stepConsumer
  cases hcons : s.consumer with
  | idle => exact absurd hcons hc
  | loaded t =>
      dsimp only
      split_ifs
      · exact ⟨_, rfl⟩
      · exact ⟨_, rfl⟩
  | available t =>
      have hI : Inv cap s.ring s.producer (.available t) s.accepted s.returned := hcons ▸ h
      dsimp only
      rw [List.getElem?_eq_getElem hI.slot_lt_pop]
      exact ⟨_, rfl⟩
  | taken t out => exact ⟨_, rfl⟩

theorem accepted_step_pop (hs : step moved s .pop = some s') : s'.accepted = s.accepted := by
  cases moves_of_step hs with
  | pop => rfl

theorem accepted_step_consumer (hs : step moved s .consumer = some s') :
    s'.accepted = s.accepted := by
  cases moves_of_step hs with
  | miss | find | take | release => simp [State.accepted]

end SpscRing

/-! ### The path -/

namespace OrderPath

/-- Nothing is under way, and nothing waits. -/
def Quiet (s : OrderPath) : Prop :=
  s.Between ∧ (s.orders.consumer = .idle ∧ s.orders.unread = []) ∧
    s.execs.consumer = .idle ∧ s.execs.unread = []

/-- A step of the worker or of the consumer that polls no empty ring. -/
def useful (s : OrderPath) : Action → Bool
  | .submit _ | .gateway => false
  | .poll => !s.orders.unread.isEmpty
  | .pop => !s.execs.unread.isEmpty
  | .worker | .dispatch | .publish | .producer | .consumer => true

/-- The steps that are taken once the gateway has stopped. -/
def drain (movedCmd : OrderCmd → OrderCmd) (moved : ExecReport → ExecReport) (s : OrderPath)
    (a : Action) : Option OrderPath :=
  if s.useful a then step movedCmd moved s a else none

/-- What a command costs in steps. -/
def cmdWork (c : OrderCmd) : ℕ := 8 * c.cost + 1

/-- The steps left until everything has arrived. -/
def work (s : OrderPath) : ℕ :=
  ((s.cmd.toList ++ s.orders.unread).map cmdWork).sum + s.orders.work + 8 * s.pending.length +
    s.execs.work + 16 * s.book.nodes.length

section
variable {m n : ℕ} {movedCmd : OrderCmd → OrderCmd} {moved : ExecReport → ExecReport}
  {s s' : OrderPath} {a : Action}

theorem useful_of_drain (hs : drain movedCmd moved s a = some s') :
    s.useful a = true ∧ step movedCmd moved s a = some s' := by
  unfold drain at hs
  split_ifs at hs with huse
  exact ⟨huse, hs⟩

/-- A step on the order ring leaves the commands that are not yet run. -/
theorem Ok.waiting (h : s.Ok m n) (h' : s'.Ok m n) (hexec : s'.executed = s.executed)
    (hacc : s'.orders.accepted = s.orders.accepted) :
    s'.cmd.toList ++ s'.orders.unread = s.cmd.toList ++ s.orders.unread := by
  have hcommands := (faithful_of_ok h).commands
  have hcommands' := (faithful_of_ok h').commands
  rw [hexec, hacc, ← hcommands, List.append_assoc, List.append_assoc] at hcommands'
  exact List.append_cancel_left hcommands'

/-- Each of these steps does some of the work, and accepts no command. -/
theorem Ok.drain_step (h : s.Ok m n) (hs : drain movedCmd moved s a = some s') :
    (s'.Ok m n ∧ s'.orders.accepted = s.orders.accepted) ∧ s'.work < s.work := by
  obtain ⟨huse, hstep⟩ := useful_of_drain hs
  have hok := h.step hstep
  cases a with
  | submit | gateway => cases huse
  | poll =>
      have hne : s.orders.unread ≠ [] := by simpa [useful] using huse
      unfold OrderPath.step at hstep
      dsimp only at hstep
      split_ifs at hstep with hbetween
      obtain ⟨orders, horders, rfl⟩ := Option.map_eq_some_iff.mp hstep
      have hacc := SpscRing.accepted_step_pop horders
      have hwork := SpscRing.work_step h.orders.1 horders fun _ => hne
      have hwait := h.waiting hok rfl hacc
      refine ⟨⟨hok, hacc⟩, ?_⟩
      simp only [SpscRing.Action.offers, List.length_nil] at hwork
      unfold work
      rw [hwait]
      dsimp only
      omega
  | worker =>
      obtain ⟨orders, horders, rfl⟩ := Option.map_eq_some_iff.mp hstep
      have hacc := SpscRing.accepted_step_consumer horders
      have hwork := SpscRing.work_step h.orders.1 horders fun ha => by cases ha
      have hwait := h.waiting hok rfl hacc
      refine ⟨⟨hok, hacc⟩, ?_⟩
      simp only [SpscRing.Action.offers, List.length_nil] at hwork
      unfold work
      rw [hwait]
      dsimp only
      omega
  | dispatch =>
      unfold OrderPath.step at hstep
      dsimp only at hstep
      cases hc : s.cmd with
      | none => simp [hc] at hstep
      | some c =>
          simp only [hc, Option.map_eq_some_iff] at hstep
          obtain ⟨b, hb, rfl⟩ := hstep
          obtain ⟨hpend, -⟩ := h.holding (by rw [hc]; exact Option.some_ne_none c)
          have hcost := h.sound.length_published hb
          refine ⟨⟨hok, rfl⟩, ?_⟩
          unfold work
          simp only [hc, hpend, Option.toList_none, Option.toList_some, List.nil_append,
            List.cons_append, List.map_cons, List.sum_cons, List.length_nil, cmdWork]
          omega
  | publish =>
      unfold OrderPath.step at hstep
      dsimp only at hstep
      cases hp : s.pending with
      | nil => simp [hp] at hstep
      | cons er rest =>
          simp only [hp, Option.map_eq_some_iff] at hstep
          obtain ⟨execs, hexecs, rfl⟩ := hstep
          have hwork := SpscRing.work_step h.execs.1 hexecs fun ha => by cases ha
          refine ⟨⟨hok, rfl⟩, ?_⟩
          simp only [SpscRing.Action.offers, List.length_singleton] at hwork
          unfold work
          simp only [hp, List.length_cons]
          omega
  | producer | consumer =>
      obtain ⟨execs, hexecs, rfl⟩ := Option.map_eq_some_iff.mp hstep
      have hwork := SpscRing.work_step h.execs.1 hexecs fun ha => by cases ha
      refine ⟨⟨hok, rfl⟩, ?_⟩
      simp only [SpscRing.Action.offers, List.length_nil] at hwork
      unfold work
      dsimp only
      omega
  | pop =>
      have hne : s.execs.unread ≠ [] := by simpa [useful] using huse
      obtain ⟨execs, hexecs, rfl⟩ := Option.map_eq_some_iff.mp hstep
      have hwork := SpscRing.work_step h.execs.1 hexecs fun _ => hne
      refine ⟨⟨hok, rfl⟩, ?_⟩
      simp only [SpscRing.Action.offers, List.length_nil] at hwork
      unfold work
      dsimp only
      omega

/-- Before everything has arrived, the worker or the consumer can go on. -/
theorem Ok.quiet_or_drain (movedCmd : OrderCmd → OrderCmd) (moved : ExecReport → ExecReport)
    (h : s.Ok m n) (hdef : (run EngineBook.dispatch .empty s.orders.accepted).isSome) :
    s.Quiet ∨ ∃ a, (drain movedCmd moved s a).isSome := by
  by_cases hprod : s.execs.producer = .idle
  swap
  · obtain ⟨execs, hexecs⟩ := SpscRing.exists_step_producer moved h.execs.1 hprod
    exact .inr ⟨.producer, by simp [drain, useful, OrderPath.step, hexecs]⟩
  by_cases hcons : s.execs.consumer = .idle
  swap
  · obtain ⟨execs, hexecs⟩ := SpscRing.exists_step_consumer moved h.execs.1 hcons
    exact .inr ⟨.consumer, by simp [drain, useful, OrderPath.step, hexecs]⟩
  by_cases hwork : s.orders.consumer = .idle
  swap
  · obtain ⟨orders, horders⟩ := SpscRing.exists_step_consumer movedCmd h.orders.1 hwork
    exact .inr ⟨.worker, by simp [drain, useful, OrderPath.step, horders]⟩
  cases hc : s.cmd with
  | some c =>
      -- the command in hand is one of those that the engine can run
      have hcommands := (faithful_of_ok h).commands
      rw [hc, Option.toList_some, List.append_assoc, List.singleton_append] at hcommands
      rw [← hcommands, run_append, h.book, Option.bind_some] at hdef
      obtain ⟨b, hb⟩ : ∃ b, s.book.dispatch c = some b := by
        cases hd : s.book.dispatch c with
        | none => simp [run, hd] at hdef
        | some b => exact ⟨b, rfl⟩
      exact .inr ⟨.dispatch, by simp [drain, useful, OrderPath.step, hc, hb]⟩
  | none =>
      cases hp : s.pending with
      | cons er rest =>
          exact .inr ⟨.publish, by
            simp [drain, useful, OrderPath.step, hp, SpscRing.step, hprod]⟩
      | nil =>
          have hbetween : s.Between := ⟨hc, hp, hprod⟩
          by_cases hexecs : s.execs.unread = []
          swap
          · exact .inr ⟨.pop, by
              simp [drain, useful, OrderPath.step, hexecs, SpscRing.step, hcons]⟩
          by_cases horders : s.orders.unread = []
          swap
          · exact .inr ⟨.poll, by
              simp [drain, useful, OrderPath.step, horders, SpscRing.step, hwork, hbetween]⟩
          exact .inl ⟨hbetween, ⟨hwork, horders⟩, hcons, hexecs⟩

/-- What the reports of the commands run so far amount to. -/
theorem Ok.length_offered_le (h : s.Ok m n) :
    s.execs.offered.length ≤ (s.orders.accepted.map OrderCmd.cost).sum := by
  have hsink := congrArg List.length h.sink
  have hcost := EngineBook.length_sink_le h.book
  rw [← (faithful_of_ok h).commands, List.append_assoc, List.map_append, List.sum_append]
  simp only [List.length_append] at hsink
  omega

end

/-! ### The whole path -/

section
variable (movedCmd : OrderCmd → OrderCmd) (moved : ExecReport → ExecReport)
  {orderCap execCap : UInt64} {orders : SpscRing OrderCmd} {execs : SpscRing ExecReport}

/-- **An exec ring that holds the cost of the accepted commands drops nothing**, in every
interleaving and however slow the consumer: what it has got, what the ring holds, what is being
pushed and what is about to be are the reports of the engine. -/
theorem delivered_in_full (horders : SpscRing.make orderCap = some orders)
    (hexecs : SpscRing.make execCap = some execs) (acts : List Action) :
    States (step movedCmd moved) (start orders execs)
      (fun _ s => (s.orders.accepted.map OrderCmd.cost).sum ≤ execCap.toNat →
        s.execs.returned ++ s.execs.unread ++ s.execs.producer.inFlight ++ s.pending = s.book.sink)
      acts := by
  intro pre _ _ s hrun hcost
  have hok : s.Ok orderCap.toNat execCap.toNat :=
    run_preserves (ok_start horders hexecs) (fun _ _ _ h hs => h.step hs) hrun
  have hall : s.execs.accepted = s.execs.offered :=
    hok.execs.2.accepted_eq_offered (hok.length_offered_le.trans hcost)
  rw [hok.sink, ← hall, (faithful_of_ok hok).delivered]

/-- Three asks and a bid that takes them all: the four commands may cost sixteen reports, as many as
the ring has slots, and make eleven, which all wait in it. -/
theorem delivered_in_full_sweep :
    let order (o : Order) : List Action := [.submit (.new o), .gateway, .gateway, .gateway, .poll,
      .worker, .worker, .worker, .dispatch]
    let report : List Action := [.publish, .producer, .producer, .producer]
    ∃ s, run (step id id)
      (start ⟨0, [.new {}], 0, 0⟩ ⟨15, List.replicate 16 {}, 0, 0⟩)
      (order { orderId := 1, side := .ask, price := 100, qty := 1 } ++ report ++
        order { orderId := 2, side := .ask, price := 101, qty := 1 } ++ report ++
        order { orderId := 3, side := .ask, price := 102, qty := 1 } ++ report ++
        order { orderId := 4, side := .bid, price := 102, qty := 3 } ++
        (List.replicate 8 report).flatten) = some s ∧
    (s.orders.accepted.map OrderCmd.cost).sum = 16 ∧ s.execs.unread.length = 11 ∧
    s.execs.returned ++ s.execs.unread ++ s.execs.producer.inFlight ++ s.pending = s.book.sink := by
  intro order report
  obtain ⟨s, hs, hcost, hlen⟩ : ∃ s ∈ run (step id id)
      (start ⟨0, [.new {}], 0, 0⟩ ⟨15, List.replicate 16 {}, 0, 0⟩)
      (order { orderId := 1, side := .ask, price := 100, qty := 1 } ++ report ++
        order { orderId := 2, side := .ask, price := 101, qty := 1 } ++ report ++
        order { orderId := 3, side := .ask, price := 102, qty := 1 } ++ report ++
        order { orderId := 4, side := .bid, price := 102, qty := 3 } ++
        (List.replicate 8 report).flatten),
      (s.orders.accepted.map OrderCmd.cost).sum = 16 ∧ s.execs.unread.length = 11 := by
    decide +kernel
  refine ⟨s, hs, hcost, hlen, ?_⟩
  exact (delivered_in_full id id (show SpscRing.make (1 : UInt64) = some _ from rfl)
    (show SpscRing.make (16 : UInt64) = some _ from rfl) _).last hs hcost.le

/-- **The path drains**: once the gateway stops, the worker and the consumer, in whatever order they
take their steps, have at most `work` to do that is not a poll of an empty ring, and can do it until
every accepted command has been run and every report that found room has been read. -/
theorem drains (horders : SpscRing.make orderCap = some orders)
    (hexecs : SpscRing.make execCap = some execs) {acts more : List Action} {s s' : OrderPath}
    (hrun : run (step movedCmd moved) (start orders execs) acts = some s)
    (hdef : (run EngineBook.dispatch .empty s.orders.accepted).isSome)
    (hmore : run (drain movedCmd moved) s more = some s') :
    more.length + s'.work ≤ s.work ∧
    ((∃ a, (drain movedCmd moved s' a).isSome) ∨
      s'.executed = s.orders.accepted ∧ s'.execs.returned = s'.execs.accepted) := by
  have hok : s.Ok orderCap.toNat execCap.toNat :=
    run_preserves (ok_start horders hexecs) (fun _ _ _ h hs => h.step hs) hrun
  have h' : s'.Ok orderCap.toNat execCap.toNat ∧ s'.orders.accepted = s.orders.accepted := by
    refine run_preserves
      (P := fun t => t.Ok orderCap.toNat execCap.toNat ∧ t.orders.accepted = s.orders.accepted)
      ⟨hok, rfl⟩ (fun t a t' ht hs => ?_) hmore
    exact ⟨(ht.1.drain_step hs).1.1, (ht.1.drain_step hs).1.2.trans ht.2⟩
  refine ⟨run_measure work hok (fun t a t' ht hs => ?_) hmore, ?_⟩
  · exact ⟨(ht.drain_step hs).1.1, (ht.drain_step hs).2⟩
  · rcases h'.1.quiet_or_drain movedCmd moved (h'.2.symm ▸ hdef) with hq | hgo
    · obtain ⟨⟨hcmd, -, -⟩, ⟨-, hunread⟩, -, hread⟩ := hq
      have hf := faithful_of_ok h'.1
      have hcommands := hf.commands
      have hdelivered := hf.delivered
      rw [hcmd, hunread, Option.toList_none, List.append_nil, List.append_nil] at hcommands
      rw [hread, List.append_nil] at hdelivered
      exact .inr ⟨hcommands.trans h'.2, hdelivered⟩
    · exact .inl hgo

/-- One order is run and its report read: thirteen steps, of the thirty-seven paid for. -/
theorem drains_one : ∃ s s', run (step id id) (start ⟨0, [.new {}], 0, 0⟩ ⟨0, [{}], 0, 0⟩)
      [.submit (.new { orderId := 1, side := .bid, price := 100, qty := 5 }), .gateway, .gateway,
        .gateway] = some s ∧
    run (drain id id) s [.poll, .worker, .worker, .worker, .dispatch, .publish, .producer,
      .producer, .producer, .pop, .consumer, .consumer, .consumer] = some s' ∧
    13 + s'.work ≤ s.work ∧ s.work = 37 := by
  obtain ⟨s, hs, hdef, hwork, s', hs'⟩ : ∃ s ∈ run (step id id)
      (start ⟨0, [.new {}], 0, 0⟩ ⟨0, [{}], 0, 0⟩)
      [.submit (.new { orderId := 1, side := .bid, price := 100, qty := 5 }), .gateway, .gateway,
        .gateway],
      (run EngineBook.dispatch .empty s.orders.accepted).isSome ∧ s.work = 37 ∧
      ∃ s' ∈ run (drain id id) s [.poll, .worker, .worker, .worker, .dispatch, .publish, .producer,
        .producer, .producer, .pop, .consumer, .consumer, .consumer], True := by decide +kernel
  exact ⟨s, s', hs, hs'.1, (drains id id (show SpscRing.make (1 : UInt64) = some _ from rfl)
    (show SpscRing.make (1 : UInt64) = some _ from rfl) hs hdef hs'.1).1, hwork⟩

end

end OrderPath
end Trading
