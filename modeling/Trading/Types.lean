import Mathlib.Algebra.Group.Int.Defs
import Mathlib.Algebra.GroupWithZero.Nat
import Mathlib.Order.RelClasses
import Mathlib.Data.Nat.Basic

/-! # Shared wire and domain types

The types of `common/Types.hpp` and `engine/OrderFlow.hpp` that the matching engine reads
and writes.

* `PriceTicks` is the 64-bit signed integer of the source; prices are compared and the least
  one, `kNoPrice`, is the "no price" sentinel, so the width matters.
* Quantities (`Qty`) and identifiers are 64-bit unsigned in the source and natural numbers
  here.  Identifiers are only compared.  Quantities are subtracted only where the difference
  is nonnegative; the sums that could leave 64 bits are reduced explicitly (`wrap64`).

An order keeps the fields that some modelled function reads; the others (attribution, time
in force, pegging, statistics) are read by none. -/

namespace Trading

abbrev OrderId := ℕ
abbrev ClientOrderId := ℕ
abbrev InstrumentId := ℕ
abbrev SeqNo := ℕ
abbrev PriceTicks := Int64

/-- Monotonic time in nanoseconds. -/
abbrev MonoTime := Int64

def kInvalidOrderId : OrderId := 0

/-- `std::numeric_limits<PriceTicks>::min()`. -/
def kNoPrice : PriceTicks := Int64.minValue

/-- Reduction of a sum of quantities to 64 bits. -/
def wrap64 (n : ℕ) : ℕ := n % 2 ^ 64

/-- Reduction of a count of orders to 32 bits. -/
def wrap32 (n : ℕ) : ℕ := n % 2 ^ 32

/-- Prices are ordered as the integers they denote. -/
instance instLinearOrderPriceTicks : LinearOrder PriceTicks where
  le_refl a := Int64.le_iff_toInt_le.mpr (Int.le_refl _)
  le_trans a b c := by
    simp only [Int64.le_iff_toInt_le]
    exact Int.le_trans
  le_antisymm a b := by
    simp only [Int64.le_iff_toInt_le, ← Int64.toInt_inj]
    exact Int.le_antisymm
  le_total a b := by
    simp only [Int64.le_iff_toInt_le]
    exact Int.le_total _ _
  lt_iff_le_not_ge a b := by
    simp only [Int64.le_iff_toInt_le, Int64.lt_iff_toInt_lt]
    omega
  toDecidableLE := inferInstance
  toDecidableEq := inferInstance
  toDecidableLT := inferInstance

instance : IsStrictTotalOrder PriceTicks (fun p q => p > q) where
  trichotomous _ _ h h' := le_antisymm (not_lt.mp h) (not_lt.mp h')
  irrefl := lt_irrefl
  trans _ _ _ h h' := h'.trans h

inductive Side where
  | bid
  | ask
deriving DecidableEq, Repr

namespace Side

/-- The side an incoming order trades against. -/
def opp : Side → Side
  | bid => ask
  | ask => bid

theorem opp_ne (s : Side) : s.opp ≠ s := by cases s <;> decide

theorem ne_opp (s : Side) : s ≠ s.opp := (opp_ne s).symm

end Side

/-- `p` stands before `q` on its side. -/
def Better : Side → PriceTicks → PriceTicks → Prop
  | .bid, p, q => p > q
  | .ask, p, q => p < q

instance : ∀ s, DecidableRel (Better s)
  | .bid => fun p q => inferInstanceAs (Decidable (p > q))
  | .ask => fun p q => inferInstanceAs (Decidable (p < q))

instance : ∀ s, IsStrictTotalOrder PriceTicks (Better s)
  | .bid => inferInstanceAs (IsStrictTotalOrder PriceTicks fun p q => p > q)
  | .ask => inferInstanceAs (IsStrictTotalOrder PriceTicks fun p q => p < q)

inductive OrderType where
  | limit
  | market
  | stop
  | stopLimit
  | pegged
  | iceberg
deriving DecidableEq, Repr

inductive ExecStatus where
  | new
  | partiallyFilled
  | filled
  | canceled
  | replaced
  | rejected
  | expired
deriving DecidableEq, Repr

inductive ExecType where
  | new
  | trade
  | canceled
  | replaced
  | rejected
  | expired
deriving DecidableEq, Repr

inductive Aggressor where
  | buyer
  | seller
deriving DecidableEq, Repr

structure TradePrint where
  tradeId : ℕ := 0
  instrument : InstrumentId := 0
  price : PriceTicks := kNoPrice
  qty : ℕ := 0
  aggressor : Aggressor := .buyer
  matchSeqno : SeqNo := 0
  execTime : MonoTime := 0
deriving DecidableEq, Repr

/-- An order; `qty` is the total requested quantity. -/
structure Order where
  orderId : OrderId := kInvalidOrderId
  prevOrderId : OrderId := kInvalidOrderId
  side : Side := .bid
  type : OrderType := .limit
  price : PriceTicks := kNoPrice
  qty : ℕ := 0
  entryTime : MonoTime := 0
deriving DecidableEq, Repr

structure TopOfBook where
  bestBidPrice : PriceTicks := kNoPrice
  bestBidQty : ℕ := 0
  bestAskPrice : PriceTicks := kNoPrice
  bestAskQty : ℕ := 0
deriving DecidableEq, Repr

/-- Commands into the matching engine. -/
inductive OrderCmd where
  | new (order : Order)
  | cancel (orderId : OrderId)
  | replace (orderId : OrderId) (newPrice : PriceTicks) (newQty : ℕ)
deriving DecidableEq, Repr

/-- Execution reports out of the matching engine. -/
structure ExecReport where
  orderId : OrderId := 0
  clientId : ClientOrderId := 0
  status : ExecStatus := .new
  execType : ExecType := .new
  lastQty : ℕ := 0
  lastPx : PriceTicks := 0
  leavesQty : ℕ := 0
  trade : Option TradePrint := none
deriving DecidableEq, Repr

end Trading
