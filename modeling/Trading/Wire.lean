import Trading.Replication
import Trading.Types

/-! # The market data feed on the wire

The messages of `feed/Wire.hpp` and the events of `engine/MDEvent.hpp`.

* `Action` and `Side` arrive as bytes, which need not be one of the enumerators; the payloads
  keep the bytes.
* A message is its payload with the `seqno` of its header: the kind in the header announces the
  payload, and the other header fields are read by no modelled function.  Sequence numbers,
  quantities and order counts are natural numbers; they are only compared and incremented.
* A snapshot request is served as the decoded request. -/

namespace Trading

abbrev Byte := UInt8

/-- `Action::Upsert`. -/
def kUpsert : Byte := 0

/-- `Action::Erase`. -/
def kErase : Byte := 1

def Side.toByte : Side → Byte
  | .bid => 0
  | .ask => 1

/-- `side == Side::Bid ? Bid : Ask`. -/
def sideOf (b : Byte) : Side := if b = Side.bid.toByte then .bid else .ask

@[simp] theorem sideOf_toByte (s : Side) : sideOf s.toByte = s := by cases s <;> rfl

theorem Side.toByte_inj {s t : Side} : s.toByte = t.toByte ↔ s = t := by
  cases s <;> cases t <;> decide

/-- The whole top of book. -/
structure L1Payload where
  bestBidPx : PriceTicks := kNoPrice
  bestBidQty : ℕ := 0
  bestAskPx : PriceTicks := kNoPrice
  bestAskQty : ℕ := 0
deriving DecidableEq, Repr

def TopOfBook.toPayload (t : TopOfBook) : L1Payload :=
  ⟨t.bestBidPrice, t.bestBidQty, t.bestAskPrice, t.bestAskQty⟩

def L1Payload.tob (p : L1Payload) : TopOfBook :=
  ⟨p.bestBidPx, p.bestBidQty, p.bestAskPx, p.bestAskQty⟩

@[simp] theorem tob_toPayload (t : TopOfBook) : t.toPayload.tob = t := rfl

/-- One price level changed or removed. -/
structure L2DeltaPayload where
  action : Byte := kUpsert
  side : Byte := Side.bid.toByte
  price : PriceTicks := kNoPrice
  aggQty : ℕ := 0
  orderCount : ℕ := 0
deriving DecidableEq, Repr

/-- A row of an L2 snapshot. -/
structure LevelSummary where
  side : Byte
  price : PriceTicks
  aggQty : ℕ
  orderCount : ℕ
deriving DecidableEq, Repr

/-- A message of the feed, and what the subscriber hands on. -/
inductive MDEvent where
  | l1 (seqno : ℕ) (p : L1Payload)
  | l2Delta (seqno : ℕ) (d : L2DeltaPayload)
deriving DecidableEq, Repr

/-- The sequence number of a delta. -/
def MDEvent.deltaSeqno? : MDEvent → Option ℕ
  | .l2Delta seqno _ => some seqno
  | .l1 .. => none

structure SnapRequest where
  stream : String
  symbol : String
  depth : ℕ := 10
deriving DecidableEq, Repr

/-- The reply to a snapshot request; the L2 one echoes the depth it was served at. -/
inductive SnapReply where
  | l1 (seqno : ℕ) (p : L1Payload)
  | l2 (seqno : ℕ) (depth : ℕ) (levels : List LevelSummary)
deriving DecidableEq, Repr

/-! ### Levels as a table -/

/-- A side byte and a price. -/
abbrev LevelKey := Byte × PriceTicks

/-- The aggregate quantity and the order count of a level. -/
abbrev LevelTable := Replication.Table LevelKey (ℕ × ℕ)

/-- The table of the levels of two sides. -/
def twoSided (level? : Side → PriceTicks → Option (ℕ × ℕ)) : LevelTable := fun k =>
  if k.1 = Side.bid.toByte then level? .bid k.2
  else if k.1 = Side.ask.toByte then level? .ask k.2
  else none

section twoSided
variable {f g : Side → PriceTicks → Option (ℕ × ℕ)} {s : Side} {px : PriceTicks}

@[simp] theorem twoSided_toByte : twoSided f (s.toByte, px) = f s px := by cases s <;> rfl

/-- Only the two sides have levels. -/
theorem twoSided_eq_none {k : LevelKey} (h : ∀ s, k.1 ≠ Side.toByte s) : twoSided f k = none := by
  unfold twoSided
  rw [if_neg (h .bid), if_neg (h .ask)]

/-- An update of one level is a change of the table. -/
theorem twoSided_update {v : Option (ℕ × ℕ)}
    (h : ∀ t q, g t q = if t = s ∧ q = px then v else f t q) :
    twoSided g = Replication.Change.apply ⟨(s.toByte, px), v⟩ (twoSided f) := by
  funext ⟨x, q⟩
  by_cases hside : ∃ t, x = Side.toByte t
  · obtain ⟨t, rfl⟩ := hside
    rw [twoSided_toByte, h]
    unfold Replication.Change.apply
    simp only [Prod.mk.injEq, Side.toByte_inj, twoSided_toByte]
  · have hne : ∀ t, x ≠ Side.toByte t := fun t ht => hside ⟨t, ht⟩
    have hk : (x, q) ≠ (s.toByte, px) := fun hk => hne s (congrArg Prod.fst hk)
    rw [twoSided_eq_none hne, Replication.Change.apply_ne hk, twoSided_eq_none hne]

end twoSided

/-- What a delta says about the table of levels: to erase one, or to set it. -/
def L2DeltaPayload.change (d : L2DeltaPayload) : Replication.Change LevelKey (ℕ × ℕ) :=
  ⟨(d.side, d.price), if d.action = kErase then none else some (d.aggQty, d.orderCount)⟩

/-- What an event says about the table of levels. -/
def MDEvent.change? : MDEvent → Option (Replication.Change LevelKey (ℕ × ℕ))
  | .l2Delta _ d => some d.change
  | .l1 .. => none

end Trading
