import Trading.LiveOrders
import Trading.OrderIndex

/-! # Two books of the same orders

`EngineBook` and `OrderBook` both keep orders by side and price.  Here they are fed with the same
limit orders, none of which crosses the other side, and the same cancels, and both are compared
with the live orders.

`OrderBook` keeps the orders of a level in a list, with their total.  `EngineBook` keeps them in a
queue, which `erase_at` permutes; its `top` shows the front order of the best level and not the
level.  The two tops agree after every command if and only if no best level has more than one order
(`top_eq_iff`). -/

namespace Trading

open Transition (run States Along along_nil along_cons run_concat_eq_some)

/-- The two books. -/
structure TwoBooks where
  engine : EngineBook
  book : OrderBook

namespace TwoBooks

inductive Cmd where
  | new (o : Order)
  | cancel (id : OrderId)
deriving DecidableEq

def empty : TwoBooks := ⟨.empty, .empty⟩

def step (t : TwoBooks) : Cmd → Option TwoBooks
  | .new o => some ⟨t.engine.onNew o, t.book.addOrder o⟩
  | .cancel id => (t.book.cancelOrder id).map fun r => ⟨t.engine.onCancel id, r.1⟩

/-- What a command does to the live orders. -/
def Cmd.op : Cmd → OrderBook.L3Op
  | .new o => .addOrder o
  | .cancel id => .cancelOrder id

/-- The live orders after the commands. -/
def live (cmds : List Cmd) : List Order := Live.after (cmds.map Cmd.op)

/-- The order does not reach the other side. -/
def NoCross (live : List Order) (o : Order) : Prop :=
  ∀ o' ∈ live, o'.side = o.side.opp → Better o.side.opp o.price o'.price

instance (live : List Order) (o : Order) : Decidable (NoCross live o) := by
  unfold NoCross
  infer_instance

/-- A new limit order with a price, which does not cross. -/
def Admissible (live : List Order) : Cmd → Prop
  | .new o => Live.Adds live o ∧ o.type = .limit ∧ o.price ≠ kNoPrice ∧ NoCross live o
  | .cancel _ => True

instance (live : List Order) : ∀ c, Decidable (Admissible live c)
  | .new _ => inferInstanceAs (Decidable (_ ∧ _))
  | .cancel _ => inferInstanceAs (Decidable True)

/-- `px` is the best price at which an order is live on the side. -/
def BestAt (live : List Order) (s : Side) (px : PriceTicks) : Prop :=
  Live.ordersAt live s px ≠ [] ∧
    ∀ px', Live.ordersAt live s px' ≠ [] → px' = px ∨ Better s px px'

/-- One order is live at the best price of each side that has orders. -/
def SoleBest (live : List Order) : Prop :=
  ∀ s px, BestAt live s px → (Live.ordersAt live s px).length = 1

open EngineBook (Sound IndexedFrom Unreached Removed)

/-! ### The relation to the live orders -/

/-- A live order as a resting node. -/
def node (o : Order) : Node := ⟨o, o.qty⟩

/-- Both books hold the live orders; the queues of `EngineBook` are in some order. -/
structure Keeps (t : TwoBooks) (live : List Order) : Prop where
  book : t.book.Holds live
  sound : Sound t.engine
  index : IndexedFrom (fun _ _ => 0) t.engine
  queues : ∀ s px, (t.engine.queueFor s px).Perm ((Live.ordersAt live s px).map node)
  ids : (live.map Order.orderId).Nodup
  priced : ∀ o ∈ live, o.price ≠ kNoPrice

section steps
variable {t : TwoBooks} {live : List Order} {s : Side} {px : PriceTicks} {o : Order} {id : OrderId}

theorem Keeps.empty : Keeps TwoBooks.empty [] where
  book := .empty
  sound := .empty
  index id l := by cases l with
    | mk s px i => cases s <;> simp [TwoBooks.empty, EngineBook.empty, EngineBook.queueFor,
        EngineBook.queue?]
  queues s px := by cases s <;> exact .nil
  ids := .nil
  priced o ho := by cases ho

theorem Keeps.mem_queue_iff (h : Keeps t live) {n : Node} :
    n ∈ t.engine.queueFor s px ↔ ∃ o ∈ live, (o.side = s ∧ o.price = px) ∧ node o = n := by
  rw [(h.queues s px).mem_iff, List.mem_map]
  simp only [Live.mem_ordersAt_iff, and_assoc]

theorem Keeps.mem_restingIds_iff (h : Keeps t live) :
    id ∈ t.engine.restingIds ↔ ∃ o ∈ live, o.orderId = id := by
  rw [EngineBook.mem_restingIds_iff]
  constructor
  · rintro ⟨s, px, n, hn, rfl⟩
    obtain ⟨o, ho, -, rfl⟩ := h.mem_queue_iff.mp hn
    exact ⟨o, ho, rfl⟩
  · rintro ⟨o, ho, rfl⟩
    exact ⟨o.side, o.price, node o, h.mem_queue_iff.mpr ⟨o, ho, ⟨rfl, rfl⟩, rfl⟩, rfl⟩

/-- An order that does not cross the live orders reaches nothing. -/
theorem Keeps.unreached (h : Keeps t live) (ho : o.price ≠ kNoPrice) (hc : NoCross live o) :
    Unreached t.engine o := by
  intro px q hb
  have hq := EngineBook.queueFor_of_best? hb
  have hne : q ≠ [] := by
    rintro rfl
    exact h.sound.noEmpty _ _ (EngineBook.queue?_of_best? hb)
  obtain ⟨n, hn⟩ := List.exists_mem_of_ne_nil q hne
  obtain ⟨o', ho', ⟨hside, rfl⟩, -⟩ := h.mem_queue_iff.mp (hq ▸ hn)
  have hbetter := hc o' ho' hside
  have hprices : ¬ (o.price = kNoPrice ∨ o'.price = kNoPrice) := by
    rintro (hp | hp)
    · exact ho hp
    · exact h.priced o' ho' hp
  unfold isLimitCross
  rw [if_neg hprices]
  cases hs : o.side with
  | bid =>
      rw [hs] at hbetter
      exact decide_eq_false (not_le.mpr hbetter)
  | ask =>
      rw [hs] at hbetter
      exact decide_eq_false (not_le.mpr hbetter)

theorem Keeps.new (h : Keeps t live) (ha : Admissible live (.new o)) :
    Keeps ⟨t.engine.onNew o, t.book.addOrder o⟩ (live ++ [o]) := by
  obtain ⟨hadds, htype, hprice, hcross⟩ := ha
  have hmarket : o.type ≠ .market := by rw [htype]; decide
  have hfresh : o.orderId ∉ t.engine.restingIds := by
    rw [h.mem_restingIds_iff]
    rintro ⟨o', ho', hid⟩
    exact hadds.fresh o' ho' hid
  have hnew := EngineBook.onNew_of_unreached (h.unreached hprice hcross) hadds.pos hmarket
  refine ⟨h.book.addOrder hadds, h.sound.onNew o, ?_, fun s px => ?_, ?_, ?_⟩
  · show IndexedFrom _ (t.engine.onNew o)
    rw [hnew, EngineBook.indexed_enqueue_iff]
    · exact h.index
    · exact hfresh
    · exact h.sound.loc_eq_none hfresh
  · show ((t.engine.onNew o).queueFor s px).Perm _
    rw [hnew, EngineBook.queueFor_enqueue, EngineBook.queueFor_publish, Live.ordersAt_concat]
    split_ifs
    · rw [List.map_append]
      exact (h.queues s px).append_right _
    · exact h.queues s px
  · rw [List.map_append, List.map_singleton, ← List.concat_eq_append]
    refine h.ids.concat fun hc => ?_
    obtain ⟨o', ho', hid⟩ := List.mem_map.mp hc
    exact hadds.fresh o' ho' hid
  · intro o' ho'
    rcases List.mem_append.mp ho' with ho' | ho'
    · exact h.priced o' ho'
    · rw [List.mem_singleton.mp ho']
      exact hprice

/-- A removal leaves the queues of the other live orders. -/
theorem Keeps.queues_removed (h : Keeps t live) {lc : Loc} {n : Node} {q' : Queue} {b' : EngineBook}
    (hr : Removed t.engine lc n q' b') (s : Side) (px : PriceTicks) :
    (b'.queueFor s px).Perm ((Live.ordersAt (Live.without live n.ord.orderId) s px).map node) := by
  have hids : ∀ s px, ((t.engine.queueFor s px).map fun m => m.ord.orderId).Nodup := by
    intro s px
    have hp := (h.queues s px).map fun m => m.ord.orderId
    rw [List.map_map] at hp
    exact hp.nodup_iff.mpr (h.ids.sublist (List.filter_sublist.map _))
  have hfilter : ((t.engine.queueFor s px).filter fun m => m.ord.orderId ≠ n.ord.orderId).Perm
      ((Live.ordersAt (Live.without live n.ord.orderId) s px).map node) := by
    refine ((h.queues s px).filter _).trans ?_
    rw [List.filter_map, Live.ordersAt_without]
    exact .refl _
  refine List.Perm.trans ?_ hfilter
  rw [hr.queues]
  split_ifs with hk
  · have hperm := hr.perm
    have hnodup := (hperm.map fun m => m.ord.orderId).nodup_iff.mp (hids lc.side lc.px)
    have hne : ∀ m ∈ q', m.ord.orderId ≠ n.ord.orderId := fun m hm hc =>
      (List.nodup_cons.mp hnodup).1 (List.mem_map.mpr ⟨m, hm, hc⟩)
    have hself : (q'.filter fun m => m.ord.orderId ≠ n.ord.orderId) = q' :=
      List.filter_eq_self.mpr (by simpa using hne)
    have hq := hperm.filter fun m => decide (m.ord.orderId ≠ n.ord.orderId)
    rw [List.filter_cons_of_neg (by simp), hself] at hq
    rw [hk.1, hk.2]
    exact hq.symm
  · have hne : ∀ m ∈ t.engine.queueFor s px, m.ord.orderId ≠ n.ord.orderId := by
      intro m hm hc
      obtain ⟨i, hi⟩ := List.getElem?_of_mem hm
      obtain ⟨l, r, hq, hi'⟩ := hr.shape
      have hn : (t.engine.queueFor lc.side lc.px)[l.length]? = some n := by simp [hq]
      obtain ⟨hs, hp, -⟩ := h.index.position_unique hi hn hc
      exact hk ⟨hs, hp⟩
    rw [List.filter_eq_self.mpr (by simpa using hne)]

theorem Keeps.cancel (h : Keeps t live) (id : OrderId) : ∃ t', t.step (.cancel id) = some t' ∧
    Keeps t' (Live.without live id) := by
  obtain ⟨b', r, hc, -, hb, -⟩ := h.book.cancelOrder id
  refine ⟨⟨t.engine.onCancel id, b'⟩, by rw [step, hc]; rfl, ?_⟩
  have hids : ((Live.without live id).map Order.orderId).Nodup :=
    h.ids.sublist (List.filter_sublist.map _)
  have hpriced : ∀ o ∈ Live.without live id, o.price ≠ kNoPrice := fun o ho =>
    h.priced o (List.mem_of_mem_filter ho)
  cases hl : t.engine.loc.find? id with
  | none =>
      have hfresh : ¬ ∃ o ∈ live, o.orderId = id := by
        rintro ⟨o, ho, rfl⟩
        obtain ⟨i, hi⟩ := List.getElem?_of_mem (h.mem_queue_iff.mpr ⟨o, ho, ⟨rfl, rfl⟩, rfl⟩)
        have he := (h.index o.orderId ⟨o.side, o.price, i⟩).mpr ⟨i, node o, hi, rfl, rfl⟩
        rw [hl] at he
        cases he
      rw [EngineBook.onCancel_of_none hl]
      refine ⟨hb, h.sound, h.index, fun s px => ?_, hids, hpriced⟩
      rw [Live.without_of_fresh hfresh]
      exact h.queues s px
  | some lc =>
      obtain ⟨n, hn, hid⟩ := h.index.named id lc hl
      obtain ⟨q', hr⟩ := EngineBook.removed_eraseAt hn
      obtain ⟨h1, h2⟩ := h.index.eraseAt hl
      refine ⟨hb, h.sound.onCancel id, ?_, fun s px => ?_, hids, hpriced⟩
      · show IndexedFrom _ (t.engine.onCancel id)
        rw [EngineBook.onCancel_of_some hl]
        exact h1.eraseLoc h2
      · show ((t.engine.onCancel id).queueFor s px).Perm _
        rw [EngineBook.queueFor_onCancel hl, ← hid]
        exact h.queues_removed hr s px

end steps

/-! ### The tops -/

/-- The best level of `OrderBook`. -/
def bookBest? (t : TwoBooks) : Side → Option (PriceTicks × Level)
  | .bid => t.book.bids.first?
  | .ask => t.book.asks.first?

section tops
variable {t : TwoBooks} {live : List Order} {s : Side} {px : PriceTicks}

theorem Keeps.queue?_eq_none_iff (h : Keeps t live) :
    t.engine.queue? s px = none ↔ Live.ordersAt live s px = [] := by
  have hp := (h.queues s px).length_eq
  rw [h.sound.noEmpty.queue?_eq_none_iff, ← List.length_eq_zero_iff, ← List.length_eq_zero_iff, hp,
    List.length_map]

theorem Keeps.level?_eq_none_iff (h : Keeps t live) :
    t.book.level? s px = none ↔ Live.ordersAt live s px = [] := by
  have hlen := h.book.length_fifo s px
  rw [← List.length_eq_zero_iff, ← hlen]
  cases hl : t.book.level? s px with
  | none => simp [OrderBook.fifo_of_none hl]
  | some l =>
      have hne := (h.book.level s px l hl).1
      simpa [OrderBook.fifo_of_some hl] using hne

/-- Both books have their best level at the best live price. -/
theorem Keeps.best_cases (h : Keeps t live) (s : Side) :
    t.engine.best? s = none ∧ t.bookBest? s = none ∧ (∀ px, Live.ordersAt live s px = []) ∨
    ∃ px q l, t.engine.best? s = some (px, q) ∧ t.bookBest? s = some (px, l) ∧
      t.engine.queueFor s px = q ∧ t.book.level? s px = some l ∧ BestAt live s px := by
  have hkeys : ∀ px, t.engine.queue? s px = none ↔ t.book.level? s px = none := fun px =>
    h.queue?_eq_none_iff.trans h.level?_eq_none_iff.symm
  have hfirst : t.engine.best? s = none ∧ t.bookBest? s = none ∧ (∀ px, t.engine.queue? s px = none) ∨
      ∃ px q l, t.engine.best? s = some (px, q) ∧ t.bookBest? s = some (px, l) ∧
        t.engine.queue? s px = some q ∧ t.book.level? s px = some l ∧
        ∀ px', t.engine.queue? s px' ≠ none → px' = px ∨ Better s px px' := by
    cases s with
    | bid => exact OrdMap.first?_congr hkeys
    | ask => exact OrdMap.first?_congr hkeys
  have hsome : ∀ px, t.engine.queue? s px ≠ none ↔ Live.ordersAt live s px ≠ [] := fun px =>
    not_congr h.queue?_eq_none_iff
  obtain ⟨h1, h2, h3⟩ | ⟨px, q, l, h1, h2, h3, h4, h5⟩ := hfirst
  · exact .inl ⟨h1, h2, fun px => h.queue?_eq_none_iff.mp (h3 px)⟩
  · refine .inr ⟨px, q, l, h1, h2, EngineBook.queueFor_of_queue? h3, h4,
      (hsome px).mp (by rw [h3]; simp), fun px' hpx' => ?_⟩
    exact h5 px' ((hsome px').mpr hpx')

/-- The best prices. -/
theorem Keeps.best_price (h : Keeps t live) (s : Side) :
    (t.engine.best? s).map Prod.fst = (t.bookBest? s).map Prod.fst := by
  obtain ⟨h1, h2, -⟩ | ⟨px, q, l, h1, h2, -⟩ := h.best_cases s
  · rw [h1, h2]
    rfl
  · rw [h1, h2]
    rfl

/-- The quantity that `EngineBook::top` shows for a side. -/
def frontQty (t : TwoBooks) (s : Side) : ℕ :=
  ((t.engine.best? s).bind fun e => e.2.head?.map Node.leaves).getD 0

/-- The quantity that `OrderBook::top` shows for a side. -/
def levelQty (t : TwoBooks) (s : Side) : ℕ := ((t.bookBest? s).map fun e => e.2.aggQty).getD 0

theorem BestAt.unique {px' : PriceTicks} (h : BestAt live s px) (h' : BestAt live s px') :
    px' = px := by
  obtain he | hlt := h.2 px' h'.1
  · exact he
  · obtain he | hlt' := h'.2 px h.1
    · exact he.symm
    · exact absurd (trans_of (Better s) hlt hlt') (irrefl_of (Better s) px)

/-- The total of a level, by its queue. -/
theorem Keeps.aggQty_eq (h : Keeps t live) {l : Level} (hl : t.book.level? s px = some l) :
    l.aggQty = ((t.engine.queueFor s px).map Node.leaves).sum := by
  have hp := ((h.queues s px).map Node.leaves).sum_nat
  rw [(h.book.level s px l hl).2.1, ← OrderBook.fifo_of_some hl, h.book.sum_leaves, hp, List.map_map]
  rfl

/-- The front order is the whole level if and only if it stands alone. -/
theorem Keeps.frontQty_eq_iff (h : Keeps t live) (s : Side) : t.frontQty s = t.levelQty s ↔
    ∀ px, BestAt live s px → (Live.ordersAt live s px).length = 1 := by
  obtain ⟨h1, h2, hnil⟩ | ⟨px, q, l, h1, h2, rfl, hl, hbest⟩ := h.best_cases s
  · refine iff_of_true (by simp [frontQty, levelQty, h1, h2]) fun px hpx => ?_
    exact absurd (hnil px) hpx.1
  · have hlen := (h.queues s px).length_eq
    rw [List.length_map] at hlen
    have hpos : ∀ n ∈ t.engine.queueFor s px, 0 < n.leaves := fun n hn => (h.sound.node s px n hn).pos
    have hone : (∀ px, BestAt live s px → (Live.ordersAt live s px).length = 1) ↔
        (t.engine.queueFor s px).length = 1 := by
      rw [hlen]
      exact ⟨fun hall => hall px hbest, fun h1 px' hpx' => by rw [hbest.unique hpx', h1]⟩
    have hagg := h.aggQty_eq hl
    rw [hone, frontQty, levelQty, h1, h2]
    cases hq : t.engine.queueFor s px with
    | nil =>
        rw [hq] at hlen
        exact absurd (List.eq_nil_of_length_eq_zero hlen.symm) hbest.1
    | cons n q =>
        rw [hq] at hagg hpos
        have hrest : (q.map Node.leaves).sum = 0 ↔ q = [] := by
          constructor
          · intro h0
            cases q with
            | nil => rfl
            | cons m q =>
                have := hpos m (by simp)
                simp only [List.map_cons, List.sum_cons] at h0
                omega
          · rintro rfl
            rfl
        simp only [List.map_cons, List.sum_cons] at hagg
        simp only [Option.bind_some, List.head?_cons, Option.map_some, Option.getD_some, hagg,
          List.length_cons]
        rw [Nat.add_eq_right, List.length_eq_zero_iff, ← hrest]
        omega

theorem Keeps.top_iff (h : Keeps t live) : t.engine.top = t.book.top ↔ SoleBest live := by
  have hsides : SoleBest live ↔ t.frontQty .bid = t.levelQty .bid ∧ t.frontQty .ask = t.levelQty .ask := by
    rw [h.frontQty_eq_iff, h.frontQty_eq_iff]
    constructor
    · exact fun hs => ⟨hs .bid, hs .ask⟩
    · rintro ⟨hb, ha⟩ (_ | _)
      · exact hb
      · exact ha
  have hengine : t.engine.top = ⟨((t.engine.best? .bid).map Prod.fst).getD kNoPrice, t.frontQty .bid,
      ((t.engine.best? .ask).map Prod.fst).getD kNoPrice, t.frontQty .ask⟩ := rfl
  have hbook : t.book.top = ⟨((t.bookBest? .bid).map Prod.fst).getD kNoPrice, t.levelQty .bid,
      ((t.bookBest? .ask).map Prod.fst).getD kNoPrice, t.levelQty .ask⟩ := rfl
  rw [hengine, hbook, h.best_price .bid, h.best_price .ask, hsides, TopOfBook.mk.injEq]
  simp only [true_and]

end tops

/-! ### Runs -/

section runs
variable {cmds : List Cmd}

theorem live_concat (cmds : List Cmd) (c : Cmd) :
    live (cmds ++ [c]) = Live.step (live cmds) c.op := by
  unfold live
  rw [List.map_append, List.map_singleton, Live.after_concat]

theorem keeps_run (ha : Along step empty (fun pre _ c => Admissible (live pre) c) cmds) :
    ∃ t, run step empty cmds = some t ∧ Keeps t (live cmds) := by
  induction cmds using List.reverseRecOn with
  | nil => exact ⟨empty, rfl, .empty⟩
  | append_singleton cmds c ih =>
      obtain ⟨t, hr, h⟩ := ih ha.left
      have hc := ha.last hr
      rw [live_concat]
      cases c with
      | new o => exact ⟨_, run_concat_eq_some.mpr ⟨t, hr, rfl⟩, h.new hc⟩
      | cancel id =>
          obtain ⟨t', hs, h'⟩ := h.cancel id
          exact ⟨t', run_concat_eq_some.mpr ⟨t, hr, hs⟩, h'⟩

/-- **The tops of the two books agree** after every command if and only if after every command at
most one order is live at the best price of each side. -/
theorem top_eq_iff (ha : Along step empty (fun pre _ c => Admissible (live pre) c) cmds) :
    run step empty cmds ≠ none ∧
      (States step empty (fun _ t => t.engine.top = t.book.top) cmds ↔
        ∀ pre, pre <+: cmds → SoleBest (live pre)) := by
  constructor
  · obtain ⟨t, hr, -⟩ := keeps_run ha
    rw [hr]
    exact Option.some_ne_none t
  · constructor
    · rintro hstates pre ⟨post, rfl⟩
      obtain ⟨t, hr, h⟩ := keeps_run ha.left
      exact h.top_iff.mp (hstates pre post rfl t hr)
    · rintro hsole pre post rfl t hr
      obtain ⟨t', hr', h⟩ := keeps_run ha.left
      obtain rfl := Option.some_inj.mp (hr.symm.trans hr')
      exact h.top_iff.mpr (hsole pre ⟨post, rfl⟩)

/-- An order on each side, the cancel of one, and a cancel of nothing. -/
theorem top_eq_iff_sole :
    let cmds : List Cmd := [.new { orderId := 1, price := 99, qty := 5 },
      .new { orderId := 2, side := .ask, price := 101, qty := 4 }, .cancel 1, .cancel 7]
    run step empty cmds ≠ none ∧
      (States step empty (fun _ t => t.engine.top = t.book.top) cmds ↔
        ∀ pre, pre <+: cmds → SoleBest (live pre)) :=
  top_eq_iff (along_cons.mpr ⟨by decide, fun _ _ => along_cons.mpr ⟨by decide, fun _ _ =>
    along_cons.mpr ⟨by decide, fun _ _ => along_cons.mpr ⟨by decide, fun _ _ => along_nil⟩⟩⟩⟩)

/-- Two bids at one price: one book shows the front order, the other the level. -/
theorem top_ne_two : ¬ States step empty (fun _ t => t.engine.top = t.book.top)
    [.new { orderId := 1, price := 99, qty := 5 }, .new { orderId := 2, price := 99, qty := 3 }] := by
  intro h
  exact absurd (h.last rfl) (by decide +kernel)

end runs

end TwoBooks
end Trading
