import Mathlib.Data.List.TakeWhile
import Trading.PriceTime

/-! # Market orders

`on_new` takes an order for a market order by its type when it decides whether the remainder rests,
and by the sentinel price when it decides how far the order reaches.  A market order that carries a
price is therefore matched like a limit order.

`market_iff` says when it takes all it can all the same: it is filled at the prices that its own
price lets it reach, or there are no others. -/

namespace Trading
namespace EngineBook

/-- The order is filled or has emptied the other side, and rests nowhere. -/
def TakesAll (b : EngineBook) (o : Order) : Prop :=
  ((b.arrive o).taker.leaves = 0 ∨ (b.onNew o).levels o.side.opp = []) ∧
    (b.onNew o).levels o.side = b.levels o.side

section market
variable {b : EngineBook} {o : Order} {s : Side}

theorem levels_eq_nil_iff (hne : b.NoEmptyLevel) : b.levels s = [] ↔ b.restingOn s = [] := by
  constructor
  · intro h
    simp [restingOn, h]
  · intro h
    cases hb : b.best? s with
    | none => rwa [best?_eq_head?, List.head?_eq_none_iff] at hb
    | some e =>
        obtain ⟨n, es, he⟩ := restingOn_of_best? hne hb
        rw [h] at he
        cases he

theorem beyond_eq_nil_iff {px : PriceTicks} :
    b.beyond s px = [] ↔ ∀ e ∈ b.restingOn s.opp, crosses s px e := List.dropWhile_eq_nil_iff

/-- A market order does not rest. -/
theorem levels_onNew_of_market (hne : b.NoEmptyLevel)
    (ho : ∀ x ∈ b.restingOn o.side.opp, 0 < openQty x) (hm : o.type = .market) :
    (b.onNew o).levels o.side = b.levels o.side := by
  obtain ⟨-, -, -, hown⟩ := arrive_served hne ho
  obtain ⟨-, hl, -⟩ | ⟨-, he⟩ | ⟨-, -, he⟩ := b.onNew_cases o
  · exact absurd hm hl
  · rw [he, levels_publish, hown]
  · rw [he, hown]

/-- An order that is not filled leaves what it does not reach. -/
theorem restingOn_onNew_opp (hne : b.NoEmptyLevel)
    (ho : ∀ x ∈ b.restingOn o.side.opp, 0 < openQty x) (hlt : b.available o.side o.price ≤ o.qty) :
    (b.onNew o).restingOn o.side.opp = b.beyond o.side o.price := by
  obtain ⟨-, -, hopp, -⟩ := arrive_served hne ho
  have hrest : Greedy.rest openQty reduceBy o.qty (b.reach o.side o.price) = [] :=
    Greedy.rest_of_sum_le hlt
  rw [restingOn, levels_onNew_opp hne]
  rw [hrest] at hopp
  exact hopp

/-- When an order is filled or empties the other side. -/
theorem filled_or_emptied_iff (hne : b.NoEmptyLevel)
    (ho : ∀ x ∈ b.restingOn o.side.opp, 0 < openQty x) :
    ((b.arrive o).taker.leaves = 0 ∨ (b.onNew o).levels o.side.opp = []) ↔
      o.qty ≤ b.available o.side o.price ∨ ∀ e ∈ b.restingOn o.side.opp, crosses o.side o.price e := by
  have hleaves : (b.arrive o).taker.leaves = 0 ↔ o.qty ≤ b.available o.side o.price := by
    rw [arrive_leaves hne ho]
    omega
  rw [hleaves, ← beyond_eq_nil_iff]
  refine or_congr_right' fun hlt => ?_
  rw [levels_eq_nil_iff hne.onNew, restingOn_onNew_opp hne ho (not_le.mp hlt).le]

theorem openQty_pos (hpos : ∀ n ∈ b.nodes, 0 < n.leaves) (s : Side) :
    ∀ x ∈ b.restingOn s, 0 < openQty x := fun x hx =>
  hpos x.2 (mem_nodes_iff.mpr ⟨s, x.1, mem_restingOn_iff.mp hx⟩)

/-- **A market order takes all it can** if and only if the orders that its price field reaches have
its quantity, or it reaches all of the other side. -/
theorem market_iff (hne : b.NoEmptyLevel) (hpos : ∀ n ∈ b.nodes, 0 < n.leaves)
    (hm : o.type = .market) : b.TakesAll o ↔
      o.qty ≤ b.available o.side o.price ∨ ∀ e ∈ b.restingOn o.side.opp, crosses o.side o.price e := by
  have ho := openQty_pos hpos o.side.opp
  unfold TakesAll
  rw [and_iff_left (levels_onNew_of_market hne ho hm), filled_or_emptied_iff hne ho]

/-- Two asks, taken by a bid that carries the higher one's price. -/
theorem market_iff_two :
    let b := (empty.onNew { orderId := 1, side := .ask, price := 100, qty := 2 }).onNew
      { orderId := 2, side := .ask, price := 101, qty := 3 }
    let o : Order := { orderId := 3, side := .bid, type := .market, price := 101, qty := 7 }
    b.TakesAll o ↔
      o.qty ≤ b.available o.side o.price ∨ ∀ e ∈ b.restingOn o.side.opp, crosses o.side o.price e := by
  intro b o
  have hb : b.Regular := Regular.of_levels fun s => by cases s <;> decide
  exact market_iff hb.noEmpty (by decide +kernel) rfl

/-- A market bid that carries a price below the second ask leaves that ask, and is not filled. -/
theorem market_left :
    let b := (empty.onNew { orderId := 1, side := .ask, price := 100, qty := 2 }).onNew
      { orderId := 2, side := .ask, price := 101, qty := 3 }
    b.NoEmptyLevel ∧ (∀ n ∈ b.nodes, 0 < n.leaves) ∧
      ¬ b.TakesAll { orderId := 3, side := .bid, type := .market, price := 100, qty := 4 } := by
  intro b
  have hb : b.Regular := Regular.of_levels fun s => by cases s <;> decide
  refine ⟨hb.noEmpty, by decide +kernel, ?_⟩
  unfold TakesAll
  decide +kernel

/-- Without a price it always takes all it can. -/
theorem takesAll_of_noPrice (hne : b.NoEmptyLevel) (hpos : ∀ n ∈ b.nodes, 0 < n.leaves)
    (hm : o.type = .market) (hp : o.price = kNoPrice) : b.TakesAll o := by
  have ho := openQty_pos hpos o.side.opp
  refine ⟨(filled_or_emptied_iff hne ho).mpr (.inr fun e _ => ?_), levels_onNew_of_market hne ho hm⟩
  simp [crosses, isLimitCross, hp]

end market
end EngineBook
end Trading
