import Mathlib.Data.List.TakeWhile
import Trading.Soundness

/-! # The sentinel price

`kNoPrice` marks the absence of a price, but whether an order may rest depends on its type only.
`NoSentinel` says that the sentinel has not become a price: no level stands at it and nothing has
traded at it.  One step breaks this exactly when an order that is no market order arrives without
a price and finds less than its quantity resting against it (`noSentinel_onNew_iff`); `on_replace`
guards its price and never does. -/

namespace Trading
namespace EngineBook

open Transition

/-- No level stands at the sentinel price and nothing has traded at it. -/
structure NoSentinel (b : EngineBook) : Prop where
  level : ∀ s, b.queue? s kNoPrice = none
  trade : ∀ r ∈ b.sink, r.execType = .trade → 0 < r.lastQty → r.lastPx ≠ kNoPrice

/-- The quantity resting on a side. -/
def depth (b : EngineBook) (s : Side) : ℕ := ((b.nodesOn s).map Node.leaves).sum

/-- An order that may rest has a price, or finds its quantity resting against it. -/
def PricedEntry (b : EngineBook) (c : OrderCmd) : Prop :=
  ∀ o, c = .new o → o.type ≠ .market → o.price = kNoPrice → o.qty ≤ b.depth o.side.opp

section steps
variable {b b' : EngineBook} {side : Side} {s s' : Matching} {lc : Loc} {o : Order} {id : OrderId}

/-- An order without a price crosses everything. -/
theorem available_of_kNoPrice (b : EngineBook) (side : Side) :
    b.available side kNoPrice = b.depth side.opp := by
  have hreach : b.reach side kNoPrice = b.restingOn side.opp :=
    List.takeWhile_eq_self_iff.mpr fun e _ => by simp [crosses, isLimitCross]
  have hmap : b.nodesOn side.opp = (b.restingOn side.opp).map Prod.snd := by
    simp [nodesOn, restingOn, List.map_flatMap, Function.comp_def]
  rw [available, hreach, depth, hmap, List.map_map]
  rfl

theorem NoSentinel.publish (h : NoSentinel b) {er : ExecReport}
    (her : er.execType = .trade → 0 < er.lastQty → er.lastPx ≠ kNoPrice) :
    NoSentinel (b.publish er) where
  level s := by simpa using h.level s
  trade r hr := by
    rcases List.mem_append.mp hr with hr | hr
    · exact h.trade r hr
    · exact List.mem_singleton.mp hr ▸ her

theorem NoSentinel.publish_trade {px : PriceTicks} (h : NoSentinel b) (hpx : px ≠ kNoPrice)
    (n : Node) (qty : ℕ) : NoSentinel (b.publish (tradeReport n px qty)) :=
  h.publish fun _ _ => hpx

theorem NoSentinel.best_ne {px : PriceTicks} {q : Queue} (h : NoSentinel b)
    (hb : b.best? side = some (px, q)) : px ≠ kNoPrice := by
  rintro rfl
  have hq := queue?_of_best? hb
  rw [h.level side] at hq
  cases hq

theorem noSentinel_eraseLoc (h : NoSentinel b) (id : OrderId) : NoSentinel (b.eraseLoc id) where
  level s := by simpa using h.level s
  trade := h.trade

theorem NoSentinel.putQueue {px : PriceTicks} (h : NoSentinel b) (hpx : px ≠ kNoPrice) (q : Queue) :
    NoSentinel (b.putQueue side px q) where
  level s := by
    rw [queue?_putQueue_ne _ _ _ _ _ _ fun hk => hpx hk.2.symm]
    exact h.level s
  trade := by
    rw [sink_putQueue]
    exact h.trade

/-- Fills trade at the prices of levels. -/
theorem FillStep.noSentinel (hf : FillStep side s s') (h : NoSentinel s.book) :
    NoSentinel s'.book := by
  cases hf with
  | whole hb =>
      have hpx := h.best_ne hb
      exact (noSentinel_eraseLoc ((h.publish_trade hpx _ _).publish_trade hpx _ _) _).putQueue hpx _
  | part hb =>
      have hpx := h.best_ne hb
      dsimp only [Matching.fillPart]
      exact ((h.publish_trade hpx _ _).publish_trade hpx _ _).putQueue hpx _

theorem NoSentinel.arrive (h : NoSentinel b) (hne : b.NoEmptyLevel) :
    NoSentinel (b.arrive o).book :=
  arrive_invariant (J := fun s => NoSentinel s.book) hne (h.publish (by simp [newReport]))
    fun _ _ _ h hs => hs.noSentinel h

theorem noSentinel_enqueue_iff {n : Node} (h : NoSentinel b) :
    NoSentinel (b.enqueue n) ↔ n.ord.price ≠ kNoPrice := by
  rw [enqueue_eq]
  constructor
  · intro he hpx
    have hl := he.level n.ord.side
    rw [queue?_withLoc, ← hpx, queue?_putQueue_self, if_neg (by simp)] at hl
    cases hl
  · intro hpx
    have hp : NoSentinel (b.putQueue n.ord.side n.ord.price
        (b.queueFor n.ord.side n.ord.price ++ [n])) := h.putQueue hpx _
    exact ⟨fun s => by rw [queue?_withLoc]; exact hp.level s, hp.trade⟩

/-- **The step condition**: an `on_new` brings in the sentinel price exactly when an order that
may rest has no price and something of it remains. -/
theorem noSentinel_onNew_iff (hs : Sound b) (h : NoSentinel b) : NoSentinel (b.onNew o) ↔
    (o.type ≠ .market → o.price = kNoPrice → o.qty ≤ b.depth o.side.opp) := by
  have ha : NoSentinel (b.arrive o).book := h.arrive hs.noEmpty
  have hleaves := hs.arrive_leaves o
  obtain ⟨hpos, hm, he⟩ | ⟨h0, he⟩ | ⟨-, hm, he⟩ := b.onNew_cases o
  · rw [he, noSentinel_enqueue_iff ha, arrive_ord hs.noEmpty]
    constructor
    · exact fun hpx _ hpx' => absurd hpx' hpx
    · intro hG hpx
      have hle := hG hm hpx
      rw [hpx, available_of_kNoPrice] at hleaves
      omega
  · rw [he]
    refine iff_of_true (ha.publish (by simp [filledReport])) fun _ hpx => ?_
    rw [hpx, available_of_kNoPrice] at hleaves
    omega
  · rw [he]
    exact iff_of_true ha fun hm' => absurd hm hm'

theorem NoSentinel.eraseAt (h : NoSentinel b) (hs : Sound b) (hl : b.loc.find? id = some lc) :
    NoSentinel (b.eraseAt lc) := by
  have hs' := hs.eraseAt hl
  obtain ⟨-, he⟩ | ⟨v, q', -, hr⟩ := hs.eraseAt_cases hl
  · rwa [he]
  · refine ⟨fun s => ?_, by rw [hr.sink]; exact h.trade⟩
    have hq := hs.noEmpty.queue?_eq_none_iff.mp (h.level s)
    rw [hs'.noEmpty.queue?_eq_none_iff, hr.queues]
    split_ifs with hk
    · rw [hk.1, hk.2] at hq
      exact absurd hq (hs.queueFor_ne_nil hl)
    · exact hq

theorem NoSentinel.onCancel (h : NoSentinel b) (hs : Sound b) (id : OrderId) :
    NoSentinel (b.onCancel id) := by
  cases hl : b.loc.find? id with
  | none => rwa [onCancel_of_none hl]
  | some lc =>
      rw [onCancel_of_some hl]
      exact (noSentinel_eraseLoc (h.eraseAt hs hl) id).publish (by simp [canceledReport])

/-- `on_replace` keeps the price of the order unless it is given another one. -/
theorem adjust_price_ne {n : Node} (h : n.ord.price ≠ kNoPrice) (newPx : PriceTicks) (newQty : ℕ) :
    (adjust n newPx newQty).ord.price ≠ kNoPrice := by
  show (if newPx ≠ kNoPrice ∧ newPx ≠ n.ord.price then newPx else n.ord.price) ≠ kNoPrice
  split_ifs with hc
  · exact hc.1
  · exact h

theorem NoSentinel.onReplace {px : PriceTicks} {qty : ℕ} (h : NoSentinel b) (hs : Sound b)
    (hr : b.onReplace id px qty = some b') : NoSentinel b' := by
  obtain ⟨-, rfl⟩ | ⟨lc, n, hl, hn, rfl⟩ := onReplace_cases hr
  · exact h
  · have hs' := (hs.eraseAt hl).eraseLoc id
    have h' := noSentinel_eraseLoc (h.eraseAt hs hl) id
    have hpx : lc.px ≠ kNoPrice := fun hc => by
      have hq := hs.noEmpty.queue?_eq_none_iff.mp (h.level lc.side)
      exact hs.queueFor_ne_nil hl (hc ▸ hq)
    have hnode := hs.node _ _ n (List.mem_of_getElem? hn)
    have hprice := adjust_price_ne (hnode.price.symm ▸ hpx) px qty
    exact ((noSentinel_onNew_iff hs' h').mpr fun _ hc => absurd hc hprice).publish
      (by simp [replacedReport])

end steps

/-- **The sentinel never becomes a price, exactly** in the runs in which every order that may rest
has a price, or finds its quantity resting against it. -/
theorem noSentinel_iff {cmds : List OrderCmd} :
    States dispatch EngineBook.empty (fun _ b => NoSentinel b) cmds ↔
      Along dispatch EngineBook.empty (fun _ => PricedEntry) cmds := by
  refine states_iff_along_state (sound_states cmds) ?_ ?_ ?_
  · exact ⟨fun s => by cases s <;> rfl, by simp [EngineBook.empty]⟩
  · rintro t c hs h hd o rfl
    cases hd
  · intro t c t' hs h hd
    cases c with
    | new o =>
        obtain rfl := Option.some_inj.mp hd
        refine (noSentinel_onNew_iff hs h).trans ⟨?_, fun hG => hG o rfl⟩
        rintro hG _ ⟨⟩
        exact hG
    | cancel id =>
        obtain rfl := Option.some_inj.mp hd
        refine iff_of_true (h.onCancel hs id) ?_
        rintro o ⟨⟩
    | replace id px qty =>
        refine iff_of_true (h.onReplace hs hd) ?_
        rintro o ⟨⟩

/-- A limit bid without a price rests at the sentinel, and the next ask trades there. -/
theorem noSentinel_unpriced_bid :
    ¬ States dispatch EngineBook.empty (fun _ b => NoSentinel b)
      [.new { orderId := 1, side := .bid, type := .limit, price := kNoPrice, qty := 5 },
        .new { orderId := 2, side := .ask, type := .limit, price := 100, qty := 5 }] := by
  intro h
  exact absurd (h.last rfl).trade (by decide)

end EngineBook
end Trading
