import Trading.LevelOrders

/-! # Replacing an order that is gone

`replaceOrder` cancels the order it replaces and adds the new one, whatever the cancel has found.
In the books of L3 operations the orders that stand are those with an entry (`hasOrder_iff`); a
replace does what it should exactly if the order it replaces is one of them
(`replacesLive_run`). -/

namespace Trading

namespace OrderBook

open Transition (States Along along_nil along_cons run_preserves run_invariant)

/-- An order of this id stands in a level. -/
def HasOrder (b : OrderBook) (id : OrderId) : Prop := ∃ s px, ∃ x ∈ b.fifo s px, x.orderId = id

/-- The number of orders in the index. -/
def orderTotal (b : OrderBook) : ℕ := b.l3Index.entries.length

/-- A replace of a live order is the cancel and then the add, a replace of any other order is
refused, and neither makes the live orders more. -/
structure ReplacesLive (b : OrderBook) (oNew : Order) : Prop where
  live : b.HasOrder (replaced oNew) → ∃ b', b.cancelOrder (replaced oNew) = some (b', true) ∧
    b.replaceOrder oNew = some (b'.addOrder oNew, true)
  gone : ¬ b.HasOrder (replaced oNew) → b.replaceOrder oNew = some (b, false)
  total : ∀ b' r, b.replaceOrder oNew = some (b', r) → b'.orderTotal ≤ b.orderTotal

section replaces
variable {b : OrderBook} {id : OrderId} {oNew : Order}

theorem hasOrder_iff (hT : b.Tracked) (hN : b.Named) :
    b.HasOrder id ↔ b.l3Index.find? id ≠ none := by
  constructor
  · rintro ⟨s, px, x, hx, rfl⟩
    rw [hT.place s px x hx]
    exact Option.some_ne_none _
  · intro h
    obtain ⟨e, he⟩ := Option.ne_none_iff_exists'.mp h
    obtain ⟨x, hx, hxe⟩ := named_iff_fifo.mp hN id e he
    exact ⟨e.side, e.px, x, hx, hT.inj _ _ _ _ (hT.place _ _ x hx) he hxe⟩

/-- A live order is taken out. -/
theorem exists_took (hT : b.Tracked) (hN : b.Named) (h : b.HasOrder id) : ∃ b' e l x,
    b.cancelOrder id = some (b', true) ∧ Took b id e l x b' := by
  obtain ⟨⟨b', r⟩, hc⟩ := Option.ne_none_iff_exists'.mp (hN.cancelOrder id)
  obtain ⟨hi, -, -⟩ | ⟨e, l, x, ht, rfl⟩ := hN.cancelOrder_cases hc
  · exact absurd hi ((hasOrder_iff hT hN).mp h)
  · exact ⟨b', e, l, x, hc, ht⟩

/-- `replaceOrder` always says that it has replaced. -/
theorem replaceOrder_ne_false (b b' : OrderBook) (oNew : Order) :
    b.replaceOrder oNew ≠ some (b', false) := by
  unfold replaceOrder
  cases b.cancelOrder (replaced oNew) <;> simp

theorem replacesLive_iff (hT : b.Tracked) (hN : b.Named) (oNew : Order) :
    b.ReplacesLive oNew ↔ b.HasOrder (replaced oNew) := by
  constructor
  · intro h
    by_contra hgone
    exact replaceOrder_ne_false b b oNew (h.gone hgone)
  · intro hlive
    obtain ⟨b₁, e, l, x, hc, ht⟩ := exists_took hT hN hlive
    have hreplace : b.replaceOrder oNew = some (b₁.addOrder oNew, true) := by
      rw [replaceOrder, hc]
      rfl
    refine ⟨fun _ => ⟨b₁, hc, hreplace⟩, fun hgone => absurd hlive hgone, fun b' r hr => ?_⟩
    obtain ⟨rfl, -⟩ := Prod.mk.inj (Option.some_inj.mp (hreplace.symm.trans hr))
    have hle := b₁.l3Index.length_set_le oNew.orderId ⟨oNew.side, oNew.price, b₁.nextElem⟩
    have hlen := b.l3Index.length_erase ht.entry
    rw [← ht.index] at hlen
    show (b₁.l3Index.set _ _).entries.length ≤ b.l3Index.entries.length
    omega

end replaces

/-- **A replace does as it should exactly if its target is live**, in every state of a run of L3
operations with unique live ids. -/
theorem replacesLive_run {ops : List L3Op}
    (hf : Along applyL3 empty (fun _ b op => b.AddsNew (.l3 op)) ops) :
    States applyL3 empty
      (fun _ b => ∀ oNew, b.ReplacesLive oNew ↔ b.HasOrder (replaced oNew)) ops := by
  rintro pre post rfl b hb
  obtain ⟨hT, hN⟩ := run_invariant (P := fun _ b => b.Tracked ∧ b.Named)
    ⟨tracked_empty, named_empty⟩
    (fun _ b op b' h hnew hs => ⟨h.1.applyL3 hnew hs, h.2.applyL3 h.1 hs⟩) hf.left hb
  exact replacesLive_iff hT hN

/-- An order that is replaced, and then cancelled under its new id. -/
theorem replacesLive_run_chain :
    States applyL3 empty (fun _ b => ∀ oNew, b.ReplacesLive oNew ↔ b.HasOrder (replaced oNew))
      [.addOrder { orderId := 1, price := 100, qty := 5 },
        .replaceOrder { orderId := 2, prevOrderId := 1, price := 101, qty := 5 },
        .cancelOrder 2] := by
  refine replacesLive_run (along_cons.mpr ⟨rfl, fun b hb => along_cons.mpr ⟨?_, fun _ _ =>
    along_cons.mpr ⟨trivial, fun _ _ => along_nil⟩⟩⟩)
  obtain rfl := Option.some_inj.mp hb
  intro b' r hc
  obtain ⟨rfl, -⟩ := Prod.mk.inj (Option.some_inj.mp hc)
  rfl

/-- A replace that comes after the cancel of its order. -/
theorem replaceOrder_resurrects :
    ¬ States applyL3 empty (fun _ b => ∀ oNew, b.ReplacesLive oNew)
      [.addOrder { orderId := 1, price := 100, qty := 5 }, .cancelOrder 1] := by
  intro h
  have htotal := (h.last rfl { orderId := 2, prevOrderId := 1, price := 100, qty := 5 }).total _ _ rfl
  exact absurd htotal (by decide)

end OrderBook
end Trading
