import Trading.OrdMap
import Trading.Wire

/-! # The market book

The class `OrderBook` of `engine/OrderBook.hpp`: its L2 and L3 operations, what it shows of its
levels, and its checks.

* An L2 operation is given the `Side` in the payload, which is a byte off the wire; it only asks
  whether that is `Side::Bid`, so the callers pass `sideOf` of it.
* A level keeps the orders that L3 operations have put into it, and `l3Index` where they stand;
  a list iterator is the identity of its element, and `nextElem` the next fresh one.  The L2
  operations leave the orders of a level alone and do not look at the index.
* `cancelOrder` reads and erases through an iterator of the index.  It is `none` where the list of
  the level does not have that element any more, which is undefined.
* The two branches of `addOrder` and of `cancelOrder`, one for each side, are one. -/

namespace Trading

structure L3Order where
  elem : ℕ
  orderId : OrderId
  leaves : ℕ
  entryTime : MonoTime
deriving DecidableEq, Repr

structure Level where
  aggQty : ℕ := 0
  orderCount : ℕ := 0
  fifo : List L3Order := []
deriving DecidableEq, Repr

def Level.pair (l : Level) : ℕ × ℕ := (l.aggQty, l.orderCount)

/-- What `cancelOrder` leaves of a level from which it takes the element `x`. -/
def Level.remove (l : Level) (x : L3Order) : Level :=
  { aggQty := if l.aggQty > x.leaves then l.aggQty - x.leaves else 0
    orderCount := if l.orderCount ≠ 0 then l.orderCount - 1 else l.orderCount
    fifo := l.fifo.filter fun y => y.elem ≠ x.elem }

structure IndexEntry where
  side : Side
  px : PriceTicks
  elem : ℕ
deriving DecidableEq, Repr

structure OrderBook where
  bids : OrdMap (fun p q : PriceTicks => p > q) Level
  asks : OrdMap (fun p q : PriceTicks => p < q) Level
  l3Index : OrdMap (fun a b : OrderId => a < b) IndexEntry
  nextElem : ℕ
deriving DecidableEq

namespace OrderBook

def empty : OrderBook := ⟨.empty, .empty, .empty, 0⟩

def level? (b : OrderBook) : Side → PriceTicks → Option Level
  | .bid, px => b.bids.find? px
  | .ask, px => b.asks.find? px

/-- The L2 levels of the book. -/
def table (b : OrderBook) : LevelTable := twoSided fun s px => (b.level? s px).map Level.pair

/-! ### L2 operations -/

def eraseLevel (b : OrderBook) (s : Side) (px : PriceTicks) : OrderBook :=
  match s with
  | .bid => { b with bids := b.bids.erase px }
  | .ask => { b with asks := b.asks.erase px }

/-- No quantity, or no orders, removes the level. -/
def upsertLevel (b : OrderBook) (s : Side) (px : PriceTicks) (qty cnt : ℕ) : OrderBook :=
  if qty = 0 ∨ cnt = 0 then b.eraseLevel s px
  else
    match s with
    | .bid =>
        let l := (b.bids.find? px).getD {}
        { b with bids := b.bids.set px { l with aggQty := qty, orderCount := cnt } }
    | .ask =>
        let l := (b.asks.find? px).getD {}
        { b with asks := b.asks.set px { l with aggQty := qty, orderCount := cnt } }

/-- `on_l2_upsert`. -/
def onL2Upsert (b : OrderBook) (s : Side) (px : PriceTicks) (aggQty orderCount : ℕ) : OrderBook :=
  b.upsertLevel s px aggQty orderCount

/-- `on_l2_erase`. -/
def onL2Erase (b : OrderBook) (s : Side) (px : PriceTicks) : OrderBook := b.eraseLevel s px

/-! ### L3 operations -/

/-- What `operator[]` of the map of a side yields. -/
def levelFor (b : OrderBook) (s : Side) (px : PriceTicks) : Level := (b.level? s px).getD {}

def setLevel (b : OrderBook) (s : Side) (px : PriceTicks) (l : Level) : OrderBook :=
  match s with
  | .bid => { b with bids := b.bids.set px l }
  | .ask => { b with asks := b.asks.set px l }

def addOrder (b : OrderBook) (o : Order) : OrderBook :=
  let l := b.levelFor o.side o.price
  let l : Level :=
    { aggQty := wrap64 (l.aggQty + o.qty)
      orderCount := wrap32 (l.orderCount + 1)
      fifo := l.fifo ++ [⟨b.nextElem, o.orderId, o.qty, o.entryTime⟩] }
  { b.setLevel o.side o.price l with
    l3Index := b.l3Index.set o.orderId ⟨o.side, o.price, b.nextElem⟩
    nextElem := b.nextElem + 1 }

/-- The book after the cancel, and whether an order has been taken out of it. -/
def cancelOrder (b : OrderBook) (id : OrderId) : Option (OrderBook × Bool) :=
  match b.l3Index.find? id with
  | none => some (b, false)
  | some e =>
      let gone := { b with l3Index := b.l3Index.erase id }
      match b.level? e.side e.px with
      | none => some (gone, false)
      | some l =>
          match l.fifo.find? fun x => x.elem = e.elem with
          | none => none
          | some x =>
              let l := l.remove x
              if l.orderCount = 0 ∧ l.aggQty = 0 ∧ l.fifo = [] then
                some (gone.eraseLevel e.side e.px, true)
              else some (gone.setLevel e.side e.px l, true)

/-- The order that `replaceOrder` cancels. -/
def replaced (oNew : Order) : OrderId :=
  if oNew.prevOrderId ≠ kInvalidOrderId then oNew.prevOrderId else oNew.orderId

def replaceOrder (b : OrderBook) (oNew : Order) : Option (OrderBook × Bool) :=
  (b.cancelOrder (replaced oNew)).map fun r => (r.1.addOrder oNew, true)

inductive L2Op where
  | upsertLevel (s : Side) (px : PriceTicks) (qty cnt : ℕ)
  | eraseLevel (s : Side) (px : PriceTicks)
deriving DecidableEq

inductive L3Op where
  | addOrder (o : Order)
  | cancelOrder (id : OrderId)
  | replaceOrder (oNew : Order)
deriving DecidableEq

inductive BookOp where
  | l2 (op : L2Op)
  | l3 (op : L3Op)
deriving DecidableEq

def applyL2 (b : OrderBook) : L2Op → OrderBook
  | .upsertLevel s px qty cnt => b.upsertLevel s px qty cnt
  | .eraseLevel s px => b.eraseLevel s px

def applyL3 (b : OrderBook) : L3Op → Option OrderBook
  | .addOrder o => some (b.addOrder o)
  | .cancelOrder id => (b.cancelOrder id).map Prod.fst
  | .replaceOrder oNew => (b.replaceOrder oNew).map Prod.fst

def apply (b : OrderBook) : BookOp → Option OrderBook
  | .l2 op => some (b.applyL2 op)
  | .l3 op => b.applyL3 op

/-! ### Readings -/

/-- The orders of a level. -/
def fifo (b : OrderBook) (s : Side) (px : PriceTicks) : List L3Order := (b.levelFor s px).fifo

def top (b : OrderBook) : TopOfBook :=
  let bid := b.bids.first?
  let ask := b.asks.first?
  { bestBidPrice := (bid.map Prod.fst).getD kNoPrice
    bestBidQty := (bid.map fun e => e.2.aggQty).getD 0
    bestAskPrice := (ask.map Prod.fst).getD kNoPrice
    bestAskQty := (ask.map fun e => e.2.aggQty).getD 0 }

def levelCount (b : OrderBook) : ℕ := b.bids.entries.length + b.asks.entries.length

/-- A level as a row of a snapshot. -/
def row (s : Side) (e : PriceTicks × Level) : LevelSummary :=
  ⟨s.toByte, e.1, e.2.aggQty, e.2.orderCount⟩

/-- The best `depth` bids, then the best `depth` asks. -/
def snapshotL2 (b : OrderBook) (depth : ℕ) : List LevelSummary :=
  (b.bids.entries.take depth).map (row .bid) ++ (b.asks.entries.take depth).map (row .ask)

/-! ### Checks -/

/-- `validate`: the best prices do not cross, and no level has orders without quantity. -/
def validate (b : OrderBook) : Bool :=
  let uncrossed := match b.bids.first?, b.asks.first? with
    | some bid, some ask => !(bid.1 ≥ ask.1)
    | _, _ => true
  let sound := fun e : PriceTicks × Level => !(e.2.orderCount > 0 && e.2.aggQty = 0)
  uncrossed && b.bids.entries.all sound && b.asks.entries.all sound

def mix (h v : UInt64) : UInt64 :=
  h ^^^ (v + 0x9e3779b97f4a7c15 + (h <<< (6 : UInt64)) + (h >>> (2 : UInt64)))

/-- What `hashL2` mixes in for the levels of a side, `0` being no limit. -/
def hashWords (depthLimit : ℕ) (es : List (PriceTicks × Level)) : List UInt64 :=
  (if depthLimit = 0 then es else es.take depthLimit).flatMap fun e =>
    [e.1.toUInt64, UInt64.ofNat e.2.aggQty, UInt64.ofNat e.2.orderCount]

def hashL2 (b : OrderBook) (depthLimit : ℕ) : UInt64 :=
  (hashWords depthLimit b.bids.entries ++ hashWords depthLimit b.asks.entries).foldl mix
    0xcbf29ce484222325

/-! ### The levels after an operation -/

section levels
variable (b : OrderBook) (s s' : Side) (px px' : PriceTicks) (qty cnt : ℕ)

theorem table_empty : empty.table = fun _ => none := by
  funext k
  show twoSided (fun _ _ => none) k = none
  unfold twoSided
  split_ifs <;> rfl

theorem level?_eraseLevel : (b.eraseLevel s px).level? s' px' =
    if s' = s ∧ px' = px then none else b.level? s' px' := by
  cases s <;> cases s' <;> simp [eraseLevel, level?, OrdMap.find?_erase]

theorem table_eraseLevel : (b.eraseLevel s px).table =
    Replication.Change.apply ⟨(s.toByte, px), none⟩ b.table := by
  refine twoSided_update fun t q => ?_
  rw [level?_eraseLevel]
  split_ifs <;> rfl

/-- An upsert keeps the orders of the level. -/
theorem level?_upsertLevel : (b.upsertLevel s px qty cnt).level? s' px' =
    if s' = s ∧ px' = px then
      if qty = 0 ∨ cnt = 0 then none
      else some { (b.level? s px).getD {} with aggQty := qty, orderCount := cnt }
    else b.level? s' px' := by
  unfold upsertLevel
  by_cases hz : qty = 0 ∨ cnt = 0
  · rw [if_pos hz, if_pos hz, level?_eraseLevel]
  · rw [if_neg hz, if_neg hz]
    cases s <;> cases s' <;> simp [level?, OrdMap.find?_set]

theorem table_upsertLevel : (b.upsertLevel s px qty cnt).table =
    Replication.Change.apply
      ⟨(s.toByte, px), if qty = 0 ∨ cnt = 0 then none else some (qty, cnt)⟩ b.table := by
  refine twoSided_update fun t q => ?_
  rw [level?_upsertLevel]
  split_ifs <;> rfl

theorem level?_setLevel (l : Level) : (b.setLevel s px l).level? s' px' =
    if s' = s ∧ px' = px then some l else b.level? s' px' := by
  cases s <;> cases s' <;> simp [setLevel, level?, OrdMap.find?_set]

@[simp] theorem l3Index_setLevel (l : Level) : (b.setLevel s px l).l3Index = b.l3Index := by
  cases s <;> rfl

@[simp] theorem l3Index_eraseLevel : (b.eraseLevel s px).l3Index = b.l3Index := by cases s <;> rfl

@[simp] theorem nextElem_setLevel (l : Level) : (b.setLevel s px l).nextElem = b.nextElem := by
  cases s <;> rfl

@[simp] theorem nextElem_eraseLevel : (b.eraseLevel s px).nextElem = b.nextElem := by
  cases s <;> rfl

@[simp] theorem level?_withIndex (i : OrdMap (fun a b : OrderId => a < b) IndexEntry) (n : ℕ) :
    ({ b with l3Index := i, nextElem := n } : OrderBook).level? s px = b.level? s px := by
  cases s <;> rfl

@[simp] theorem l3Index_upsertLevel : (b.upsertLevel s px qty cnt).l3Index = b.l3Index := by
  unfold upsertLevel
  split_ifs
  · exact l3Index_eraseLevel ..
  · cases s <;> rfl

@[simp] theorem nextElem_upsertLevel : (b.upsertLevel s px qty cnt).nextElem = b.nextElem := by
  unfold upsertLevel
  split_ifs
  · exact nextElem_eraseLevel ..
  · cases s <;> rfl

end levels

end OrderBook
end Trading
