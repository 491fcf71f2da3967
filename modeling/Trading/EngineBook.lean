import Trading.OrdMap
import Trading.Transition
import Trading.Types

/-! # The matching engine's book

The class `EngineBook` of `engine/EngineBook.cpp`: two price maps of order queues, the index
`loc_` from order id to queue position, and the sink of execution reports.

* A method that mutates the book is a function of the book.  The sink is the list of the
  reports published so far; the engine worker always installs one.
* A queue is a list with the front first.  The two matching loops of the source are one loop
  with the taker's side as a parameter (`matchSide`); its rounds are bounded by the number of
  levels and of queued orders, and `Matching.lean` shows that the bounds are never what ends it.
* `operator[]` of the price maps creates a missing level: `queueFor` reads the empty queue
  there, and `eraseAt`, `enqueue` write the level back.
* `erase_at` receives a reference into the very index entry it erases, and its callers erase
  that entry once more.  The entry is passed by value here, and erasing an absent key does
  nothing.
* `q[lc.idx]` of `on_replace` past the end of the queue is undefined: `onReplace` is `none`. -/

namespace Trading

open Transition (whileLoop)

structure Node where
  ord : Order
  leaves : ℕ
deriving DecidableEq, Repr

abbrev Queue := List Node

/-- Bids, high to low. -/
abbrev PriceMap := OrdMap (fun p q : PriceTicks => p > q) Queue
/-- Asks, low to high. -/
abbrev PriceMapAsc := OrdMap (fun p q : PriceTicks => p < q) Queue

/-- Where an order rests: side, price and index in the queue. -/
structure Loc where
  side : Side
  px : PriceTicks
  idx : ℕ
deriving DecidableEq, Repr

/-- The index; `unordered_map` is never iterated, so its order is immaterial. -/
abbrev LocMap := OrdMap (fun a b : OrderId => a < b) Loc

structure EngineBook where
  bids : PriceMap
  asks : PriceMapAsc
  loc : LocMap
  sink : List ExecReport
deriving DecidableEq

/-- `is_limit_cross`. -/
def isLimitCross (takerSide : Side) (takerPx oppPx : PriceTicks) : Bool :=
  if takerPx = kNoPrice ∨ oppPx = kNoPrice then true
  else match takerSide with
    | .bid => decide (takerPx ≥ oppPx)
    | .ask => decide (takerPx ≤ oppPx)

def isMarket (o : Order) : Bool := o.type = .market

/-! ### Reports -/

def newReport (taker : Node) : ExecReport :=
  { orderId := taker.ord.orderId, execType := .new, status := .new,
    lastQty := 0, lastPx := kNoPrice, leavesQty := taker.leaves }

/-- The report of one party of a fill, whose leaves have been reduced already. -/
def tradeReport (n : Node) (px : PriceTicks) (qty : ℕ) : ExecReport :=
  { orderId := n.ord.orderId, execType := .trade,
    status := if n.leaves = 0 then .filled else .partiallyFilled,
    lastQty := qty, lastPx := px, leavesQty := n.leaves }

/-- The closing report of `on_new` for an order without leaves. -/
def filledReport (o : Order) : ExecReport :=
  { orderId := o.orderId, execType := .trade, status := .filled,
    lastQty := 0, lastPx := kNoPrice, leavesQty := 0 }

def canceledReport (id : OrderId) : ExecReport :=
  { orderId := id, execType := .canceled, status := .canceled,
    lastQty := 0, lastPx := kNoPrice, leavesQty := 0 }

def replacedReport (n : Node) : ExecReport :=
  { orderId := n.ord.orderId, execType := .replaced, status := .replaced,
    lastQty := 0, lastPx := kNoPrice, leavesQty := n.leaves }

namespace EngineBook

def empty : EngineBook := ⟨.empty, .empty, .empty, []⟩

def publish (b : EngineBook) (er : ExecReport) : EngineBook := { b with sink := b.sink ++ [er] }

/-! ### Levels -/

/-- The levels of a side, best first. -/
def levels (b : EngineBook) : Side → List (PriceTicks × Queue)
  | .bid => b.bids.entries
  | .ask => b.asks.entries

def queue? (b : EngineBook) : Side → PriceTicks → Option Queue
  | .bid, px => b.bids.find? px
  | .ask, px => b.asks.find? px

/-- `best_bid` and `best_ask`. -/
def best? (b : EngineBook) : Side → Option (PriceTicks × Queue)
  | .bid => b.bids.first?
  | .ask => b.asks.first?

/-- `queue_for`: the queue that `operator[]` yields. -/
def queueFor (b : EngineBook) (s : Side) (px : PriceTicks) : Queue := (b.queue? s px).getD []

def setQueue (b : EngineBook) (s : Side) (px : PriceTicks) (q : Queue) : EngineBook :=
  match s with
  | .bid => { b with bids := b.bids.set px q }
  | .ask => { b with asks := b.asks.set px q }

def eraseLevel (b : EngineBook) (s : Side) (px : PriceTicks) : EngineBook :=
  match s with
  | .bid => { b with bids := b.bids.erase px }
  | .ask => { b with asks := b.asks.erase px }

/-- `loc_.erase(id)`. -/
def eraseLoc (b : EngineBook) (id : OrderId) : EngineBook := { b with loc := b.loc.erase id }

def top (b : EngineBook) : TopOfBook :=
  let bid := b.best? .bid
  let ask := b.best? .ask
  { bestBidPrice := (bid.map Prod.fst).getD kNoPrice
    bestBidQty := (bid.bind fun e => e.2.head?.map Node.leaves).getD 0
    bestAskPrice := (ask.map Prod.fst).getD kNoPrice
    bestAskQty := (ask.bind fun e => e.2.head?.map Node.leaves).getD 0 }

/-! ### Enqueueing and removal -/

def enqueue (b : EngineBook) (n : Node) : EngineBook :=
  let q := b.queueFor n.ord.side n.ord.price ++ [n]
  let b := b.setQueue n.ord.side n.ord.price q
  { b with loc := b.loc.set n.ord.orderId ⟨n.ord.side, n.ord.price, q.length - 1⟩ }

/-- `std::swap(q[i], q.back())`. -/
def swapBack (q : Queue) (i : ℕ) : Queue :=
  match q[i]?, q.getLast? with
  | some x, some y => (q.set i y).set (q.length - 1) x
  | _, _ => q

/-- `it->second.idx = i` for the entry of `id`, if there is one. -/
def reindex (b : EngineBook) (id : OrderId) (i : ℕ) : EngineBook :=
  match b.loc.find? id with
  | none => b
  | some l => { b with loc := b.loc.set id { l with idx := i } }

def eraseAt (b : EngineBook) (lc : Loc) : EngineBook :=
  let q := b.queueFor lc.side lc.px
  let b := b.setQueue lc.side lc.px q
  match q[lc.idx]? with
  | none => b
  | some victim =>
      let last := lc.idx = q.length - 1
      let q := (if last then q else swapBack q lc.idx).dropLast
      let b := (b.setQueue lc.side lc.px q).eraseLoc victim.ord.orderId
      let b := match q[lc.idx]? with
        | some moved => if last then b else b.reindex moved.ord.orderId lc.idx
        | none => b
      if q.isEmpty then b.eraseLevel lc.side lc.px else b

/-! ### Matching -/

/-- What the matching loops mutate: the book and the incoming order. -/
structure Matching where
  book : EngineBook
  taker : Node
deriving DecidableEq

/-- `fill`: the reduced maker, with the state after both reports. -/
def fill (maker : Node) (s : Matching) (px : PriceTicks) (qty : ℕ) : Node × Matching :=
  let maker := { maker with leaves := maker.leaves - qty }
  let taker := { s.taker with leaves := s.taker.leaves - qty }
  let book := (s.book.publish (tradeReport taker px qty)).publish (tradeReport maker px qty)
  (maker, ⟨book, taker⟩)

/-- One round of the inner loop, over the queue at `px` of side `opp`. -/
def sweepStep (opp : Side) (px : PriceTicks) (s : Matching) : Option Matching :=
  if 0 < s.taker.leaves then
    match s.book.queueFor opp px with
    | [] => none
    | maker :: rest =>
        let dq := min maker.leaves s.taker.leaves
        let (maker, s) := fill maker s px dq
        if maker.leaves = 0 then
          some { s with book := (s.book.eraseLoc maker.ord.orderId).setQueue opp px rest }
        else some { s with book := s.book.setQueue opp px (maker :: rest) }
  else none

/-- One round of the outer loop, over the levels of the side opposite to the taker's. -/
def matchStep (side : Side) (s : Matching) : Option Matching :=
  if 0 < s.taker.leaves then
    match s.book.best? side.opp with
    | none => none
    | some (px, q) =>
        if isLimitCross side s.taker.ord.price px then
          let s := whileLoop (sweepStep side.opp px) q.length s
          if (s.book.queueFor side.opp px).isEmpty then
            some { s with book := s.book.eraseLevel side.opp px }
          else some s
        else none
  else none

def matchSide (side : Side) (s : Matching) : Matching :=
  whileLoop (matchStep side) (s.book.levels side.opp).length s

def matchBuy (s : Matching) : Matching := matchSide .bid s

def matchSell (s : Matching) : Matching := matchSide .ask s

/-! ### The engine API -/

def onNew (b : EngineBook) (o : Order) : EngineBook :=
  let taker : Node := ⟨o, o.qty⟩
  let b := b.publish (newReport taker)
  let s := if o.side = .bid then matchBuy ⟨b, taker⟩ else matchSell ⟨b, taker⟩
  if 0 < s.taker.leaves ∧ ¬isMarket o then s.book.enqueue s.taker
  else if s.taker.leaves = 0 then s.book.publish (filledReport o)
  else s.book

def onCancel (b : EngineBook) (id : OrderId) : EngineBook :=
  match b.loc.find? id with
  | none => b
  | some lc => ((b.eraseAt lc).eraseLoc id).publish (canceledReport id)

/-- The changes `on_replace` makes to the node it has pulled out. -/
def adjust (n : Node) (newPx : PriceTicks) (newQty : ℕ) : Node :=
  let leaves :=
    if newQty < n.ord.qty then
      let cut := n.ord.qty - newQty
      if n.leaves > cut then n.leaves - cut else 0
    else if newQty > n.ord.qty then wrap64 (n.leaves + (newQty - n.ord.qty))
    else n.leaves
  let pxChange := newPx ≠ kNoPrice ∧ newPx ≠ n.ord.price
  ⟨{ n.ord with qty := newQty, price := if pxChange then newPx else n.ord.price }, leaves⟩

def onReplace (b : EngineBook) (id : OrderId) (newPx : PriceTicks) (newQty : ℕ) :
    Option EngineBook :=
  match b.loc.find? id with
  | none => some b
  | some lc =>
      match (b.queueFor lc.side lc.px)[lc.idx]? with
      | none => none
      | some n =>
          let b := (b.eraseAt lc).eraseLoc id
          let n := adjust n newPx newQty
          some ((b.onNew n.ord).publish (replacedReport n))

/-- The dispatch of `matching_engine_worker`. -/
def dispatch (b : EngineBook) : OrderCmd → Option EngineBook
  | .new o => some (b.onNew o)
  | .cancel id => some (b.onCancel id)
  | .replace id newPx newQty => b.onReplace id newPx newQty

end EngineBook
end Trading
