import Trading.MDSim
import Trading.OrderBook
import Trading.Subscriber
import Trading.Transition

/-! # Consumers of the feed

The programs that apply L2 deltas, one event at a time.

* `md_book_consumer` keeps a map like the subscriber's (`SimpleBook`).
* `md_to_orderbook_consumer` applies each delta twice to an `OrderBook` and counts (`MarketBook`).
* `md_replay` applies the deltas to an `OrderBook` straight from the socket (`replayDelta`).

The subscriber and `SimpleBook` key their levels by the side byte, `OrderBook` by bid or not bid;
`OrderBook` does not store a level without quantity or orders; `md_replay` tests for `Upsert` where
the others test for `Erase`.  `agree_iff` says which deltas do the same to all of them. -/

namespace Trading

open Replication (Change)
open Transition (States Along states_iff_along_state)

/-! ### `md_book_consumer` -/

structure SimpleBook where
  tob : TopOfBook := {}
  levels : LevelMap := .empty
deriving DecidableEq

namespace SimpleBook

def table (b : SimpleBook) : LevelTable := b.levels.find?

def consume (b : SimpleBook) : MDEvent → SimpleBook
  | .l1 _ p => { b with tob := p.tob }
  | .l2Delta _ d =>
      let key := (d.side, d.price)
      { b with
        levels := if d.action = kErase then b.levels.erase key
          else b.levels.set key (d.aggQty, d.orderCount) }

theorem table_consume (b : SimpleBook) (n : ℕ) (d : L2DeltaPayload) :
    (b.consume (.l2Delta n d)).table = d.change.apply b.table := find?_delta b.levels d

end SimpleBook

/-! ### `md_to_orderbook_consumer` and `md_replay` -/

namespace OrderBook

/-- A delta in `md_to_orderbook_consumer`. -/
def applyDelta (b : OrderBook) (d : L2DeltaPayload) : OrderBook :=
  if d.action = kErase then b.eraseLevel (sideOf d.side) d.price
  else b.upsertLevel (sideOf d.side) d.price d.aggQty d.orderCount

/-- A delta in `md_replay`. -/
def replayDelta (b : OrderBook) (d : L2DeltaPayload) : OrderBook :=
  if d.action = kUpsert then b.onL2Upsert (sideOf d.side) d.price d.aggQty d.orderCount
  else b.onL2Erase (sideOf d.side) d.price

end OrderBook

/-- What `upsertLevel` makes of a quantity and an order count. -/
def L2DeltaPayload.level (d : L2DeltaPayload) : Option (ℕ × ℕ) :=
  if d.aggQty = 0 ∨ d.orderCount = 0 then none else some (d.aggQty, d.orderCount)

/-- The level that a delta addresses in an `OrderBook`. -/
def L2DeltaPayload.key (d : L2DeltaPayload) : LevelKey := ((sideOf d.side).toByte, d.price)

theorem OrderBook.table_applyDelta (b : OrderBook) (d : L2DeltaPayload) : (b.applyDelta d).table =
    Change.apply ⟨d.key, if d.action = kErase then none else d.level⟩ b.table := by
  unfold applyDelta
  split_ifs
  · exact b.table_eraseLevel _ _
  · exact b.table_upsertLevel _ _ _ _

theorem OrderBook.table_replayDelta (b : OrderBook) (d : L2DeltaPayload) : (b.replayDelta d).table =
    Change.apply ⟨d.key, if d.action = kUpsert then d.level else none⟩ b.table := by
  unfold replayDelta
  split_ifs
  · exact b.table_upsertLevel _ _ _ _
  · exact b.table_eraseLevel _ _

/-- The counters of the consumer.  It does not write `last_l2_seq_applied`. -/
structure BookMetrics where
  l2Applied : ℕ := 0
  l1Seen : ℕ := 0
  invariantsFail : ℕ := 0
  l2IdempotentHits : ℕ := 0
  lastL2SeqApplied : ℕ := 0
deriving DecidableEq, Repr

def kIdemDepth : ℕ := 0

/-- The `OrderBook` of the consumer, with its counters. -/
structure MarketBook where
  book : OrderBook
  metrics : BookMetrics
deriving DecidableEq

namespace MarketBook

def empty : MarketBook := ⟨.empty, {}⟩

def consume (m : MarketBook) : MDEvent → MarketBook
  | .l1 .. => { m with metrics := { m.metrics with l1Seen := m.metrics.l1Seen + 1 } }
  | .l2Delta _ d =>
      let once := m.book.applyDelta d
      let h1 := once.hashL2 kIdemDepth
      -- the idempotency check applies the delta again
      let twice := once.applyDelta d
      let h2 := twice.hashL2 kIdemDepth
      { book := twice
        metrics := { m.metrics with
          l2IdempotentHits := m.metrics.l2IdempotentHits + if h1 = h2 then 1 else 0
          invariantsFail := m.metrics.invariantsFail + if twice.validate then 0 else 1
          l2Applied := m.metrics.l2Applied + 1 } }

theorem table_consume (m : MarketBook) (n : ℕ) (d : L2DeltaPayload) :
    (m.consume (.l2Delta n d)).book.table =
      Change.apply ⟨d.key, if d.action = kErase then none else d.level⟩ m.book.table := by
  show ((m.book.applyDelta d).applyDelta d).table = _
  rw [OrderBook.table_applyDelta, OrderBook.table_applyDelta, Change.apply_apply]

/-- A delta as the simulator sends them does to the book what it says. -/
theorem table_consume_sent (m : MarketBook) {ev : MDEvent}
    (hsent : ∀ n d, ev = .l2Delta n d → d.Sent) :
    (m.consume ev).book.table = Replication.replay ev.change?.toList m.book.table := by
  cases ev with
  | l1 n p => rfl
  | l2Delta n d =>
      obtain ⟨⟨s, hs⟩, hd⟩ := hsent n d rfl
      rw [table_consume]
      show _ = d.change.apply m.book.table
      have hkey : d.key = d.change.key := by
        show ((sideOf d.side).toByte, d.price) = (d.side, d.price)
        rw [hs, sideOf_toByte]
      rw [Change.apply_eq_iff hkey]
      unfold L2DeltaPayload.change L2DeltaPayload.level
      obtain ⟨ha, -⟩ | ⟨-, hq, hc⟩ := hd
      · dsimp only
        rw [if_pos ha, if_pos ha]
      · have hz : ¬ (d.aggQty = 0 ∨ d.orderCount = 0) := by omega
        rw [if_neg hz]

end MarketBook

/-! ### Agreement -/

/-- The four programs, given the same deltas. -/
structure Appliers where
  subscriber : LocalBook
  simple : SimpleBook
  market : MarketBook
  replay : OrderBook
deriving DecidableEq

namespace Appliers

def empty : Appliers := ⟨{}, {}, .empty, .empty⟩

/-- A delta with its sequence number. -/
def step (a : Appliers) (x : ℕ × L2DeltaPayload) : Option Appliers :=
  some
    { subscriber := a.subscriber.applyL2Delta x.2 x.1
      simple := a.simple.consume (.l2Delta x.1 x.2)
      market := a.market.consume (.l2Delta x.1 x.2)
      replay := a.replay.replayDelta x.2 }

/-- All four have the same levels. -/
def Agree (a : Appliers) : Prop :=
  a.simple.table = a.subscriber.table ∧ a.market.book.table = a.subscriber.table ∧
    a.replay.table = a.subscriber.table

/-- The delta does the same everywhere. -/
def Uniform (a : Appliers) (d : L2DeltaPayload) : Prop :=
  d.action = kUpsert ∧ (∃ s : Side, d.side = s.toByte) ∧ d.aggQty ≠ 0 ∧ d.orderCount ≠ 0 ∨
    d.action = kErase ∧
      ((∃ s : Side, d.side = s.toByte) ∨ a.subscriber.table (Side.ask.toByte, d.price) = none)

section agree
variable {a a' : Appliers} {x : ℕ × L2DeltaPayload}

/-- After a delta the two maps have made one change, and each book one of its own. -/
theorem agree_step_iff_changes (h : a.Agree) (hs : a.step x = some a') : a'.Agree ↔
    Change.apply ⟨x.2.key, if x.2.action = kErase then none else x.2.level⟩ a.subscriber.table =
        x.2.change.apply a.subscriber.table ∧
      Change.apply ⟨x.2.key, if x.2.action = kUpsert then x.2.level else none⟩ a.subscriber.table =
        x.2.change.apply a.subscriber.table := by
  obtain ⟨hsimple, hmarket, hreplay⟩ := h
  obtain rfl := Option.some_inj.mp hs
  unfold Agree
  dsimp only
  rw [SimpleBook.table_consume, MarketBook.table_consume, OrderBook.table_replayDelta,
    LocalBook.table_applyL2Delta, hsimple, hmarket, hreplay]
  exact and_iff_right rfl

/-- The books have no levels beside the two sides. -/
theorem Agree.none_of_side (h : a.Agree) {k : LevelKey} (hk : ∀ s, k.1 ≠ Side.toByte s) :
    a.subscriber.table k = none := by
  rw [← h.2.2]
  exact twoSided_eq_none hk

theorem kErase_ne_kUpsert : kErase ≠ kUpsert := by decide

theorem uniform_iff_of_side (h : a.Agree) (hs : a.step x = some a')
    (hside : ∃ s : Side, x.2.side = s.toByte) : a'.Agree ↔ a.Uniform x.2 := by
  obtain ⟨n, d⟩ := x
  have hkey : d.key = d.change.key := by
    obtain ⟨s, hs⟩ := hside
    show ((sideOf d.side).toByte, d.price) = (d.side, d.price)
    rw [hs, sideOf_toByte]
  rw [agree_step_iff_changes h hs, Change.apply_eq_iff hkey, Change.apply_eq_iff hkey]
  unfold L2DeltaPayload.change L2DeltaPayload.level Uniform
  dsimp only at hside ⊢
  by_cases he : d.action = kErase
  · have hu : ¬ d.action = kUpsert := he ▸ kErase_ne_kUpsert
    rw [if_pos he, if_pos he, if_neg hu]
    exact iff_of_true ⟨rfl, rfl⟩ (.inr ⟨he, .inl hside⟩)
  · rw [if_neg he, if_neg he]
    by_cases hu : d.action = kUpsert
    · rw [if_pos hu]
      by_cases hz : d.aggQty = 0 ∨ d.orderCount = 0
      · rw [if_pos hz]
        refine iff_of_false (fun hc => by cases hc.1) fun hU => ?_
        obtain ⟨-, -, hq, hc⟩ | ⟨he', -⟩ := hU
        · exact hz.elim hq hc
        · exact he he'
      · rw [if_neg hz]
        rw [not_or] at hz
        exact iff_of_true ⟨rfl, rfl⟩ (.inl ⟨hu, hside, hz⟩)
    · rw [if_neg hu]
      refine iff_of_false (fun hc => by cases hc.2) fun hU => ?_
      obtain ⟨hu', -⟩ | ⟨he', -⟩ := hU
      · exact hu hu'
      · exact he he'

/-- The maps keep the byte, the books take the level for an ask. -/
theorem uniform_iff_of_no_side (h : a.Agree) (hs : a.step x = some a')
    (hside : ¬ ∃ s : Side, x.2.side = s.toByte) : a'.Agree ↔ a.Uniform x.2 := by
  obtain ⟨n, d⟩ := x
  have hask : sideOf d.side = .ask := if_neg fun hb => hside ⟨.bid, hb⟩
  have hkey : d.key ≠ d.change.key := fun hk => hside ⟨_, (congrArg Prod.fst hk).symm⟩
  have hnone : a.subscriber.table d.change.key = none := h.none_of_side fun s hs => hside ⟨s, hs⟩
  rw [agree_step_iff_changes h hs, Change.apply_eq_iff_of_ne hkey, Change.apply_eq_iff_of_ne hkey,
    hnone]
  unfold L2DeltaPayload.change L2DeltaPayload.key Uniform
  dsimp only at hside ⊢
  rw [hask]
  by_cases he : d.action = kErase
  · have hu : ¬ d.action = kUpsert := he ▸ kErase_ne_kUpsert
    rw [if_pos he, if_pos he, if_neg hu]
    constructor
    · intro hc
      exact .inr ⟨he, .inr hc.1.2.symm⟩
    · intro hU
      obtain ⟨hu', -⟩ | ⟨-, hs | hn⟩ := hU
      · exact absurd hu' hu
      · exact absurd hs hside
      · exact ⟨⟨rfl, hn.symm⟩, rfl, hn.symm⟩
  · rw [if_neg he]
    refine iff_of_false (fun hc => by cases hc.1.1) fun hU => ?_
    obtain ⟨-, hs, -⟩ | ⟨he', -⟩ := hU
    · exact hside hs
    · exact he he'

theorem agree_step_iff (h : a.Agree) (hs : a.step x = some a') : a'.Agree ↔ a.Uniform x.2 := by
  by_cases hside : ∃ s : Side, x.2.side = s.toByte
  · exact uniform_iff_of_side h hs hside
  · exact uniform_iff_of_no_side h hs hside

end agree

/-- **All appliers agree** along a sequence of deltas if and only if each of them is either an
upsert with quantity and orders on a known side, or an erasure that, on an unknown side, finds no ask
at its price. -/
theorem agree_iff {a : Appliers} (h : a.Agree) (ds : List (ℕ × L2DeltaPayload)) :
    States step a (fun _ a => a.Agree) ds ↔ Along step a (fun _ a x => a.Uniform x.2) ds :=
  states_iff_along_state (I := fun _ => True) (fun _ _ _ _ _ => trivial) h
    (fun _ _ _ _ hs => by cases hs) (fun _ _ _ _ h hs => agree_step_iff h hs)

theorem agree_empty : empty.Agree := ⟨rfl, OrderBook.table_empty, OrderBook.table_empty⟩

/-- A level comes and goes. -/
theorem agree_iff_two :
    let ds : List (ℕ × L2DeltaPayload) :=
      [(1, ⟨kUpsert, Side.bid.toByte, 100, 5, 2⟩), (2, ⟨kErase, Side.bid.toByte, 100, 0, 0⟩)]
    States step empty (fun _ a => a.Agree) ds ↔ Along step empty (fun _ a x => a.Uniform x.2) ds :=
  agree_iff agree_empty _

/-- An upsert without quantity is stored by the maps and removes the level from the books. -/
theorem disagree_zero : ¬ States step empty (fun _ a => a.Agree)
    [(1, ⟨kUpsert, Side.bid.toByte, 100, 0, 1⟩)] := by
  intro h
  have hmarket := congrFun (h.last rfl).2.1 (Side.bid.toByte, 100)
  exact absurd hmarket (by decide +kernel)

end Appliers

end Trading
