import Trading.LevelOrders

/-! # The live orders of the market book

What the L3 operations are for: a book of the orders that have been added and not cancelled, in
the order in which they were added (`Live`).  `OrderBook` keeps it as lists by side and price, with
a running total and a count for each and an index of the elements.

`Holds` says that the book holds given live orders; its counts are bounds only, since a count is
32 bits wide.  `Represents` has exact counts.  Adding an order and cancelling one keep both
(`Holds.addOrder`, `Holds.took`), so every run of L3 operations represents its live orders
(`live_run`). -/

namespace Trading

/-- What a list keeps of an order. -/
def L3Order.body (x : L3Order) : OrderId × ℕ × MonoTime := (x.orderId, x.leaves, x.entryTime)

def Order.body (o : Order) : OrderId × ℕ × MonoTime := (o.orderId, o.qty, o.entryTime)

namespace Live

/-- The live orders after the order `id` has gone. -/
def without (live : List Order) (id : OrderId) : List Order := live.filter fun o => o.orderId ≠ id

def step (live : List Order) : OrderBook.L3Op → List Order
  | .addOrder o => live ++ [o]
  | .cancelOrder id => without live id
  | .replaceOrder oNew => without live (OrderBook.replaced oNew) ++ [oNew]

/-- The live orders after the operations. -/
def after (ops : List OrderBook.L3Op) : List Order := ops.foldl step []

/-- The live orders at a side and price. -/
def ordersAt (live : List Order) (s : Side) (px : PriceTicks) : List Order :=
  live.filter fun o => o.side = s ∧ o.price = px

/-- The open quantity at a side and price. -/
def total (live : List Order) (s : Side) (px : PriceTicks) : ℕ :=
  ((ordersAt live s px).map Order.qty).sum

/-- A new order of positive quantity, whose level stays within the width of its total. -/
structure Adds (live : List Order) (o : Order) : Prop where
  fresh : ∀ o' ∈ live, o'.orderId ≠ o.orderId
  pos : 0 < o.qty
  total : total (live ++ [o]) o.side o.price < 2 ^ 64

instance (live : List Order) (o : Order) : Decidable (Adds live o) :=
  decidable_of_iff ((∀ o' ∈ live, o'.orderId ≠ o.orderId) ∧ 0 < o.qty ∧
    Live.total (live ++ [o]) o.side o.price < 2 ^ 64)
    ⟨fun h => ⟨h.1, h.2.1, h.2.2⟩, fun h => ⟨h.fresh, h.pos, h.total⟩⟩

/-- The level of the order stays within the width of its count. -/
def Counts (live : List Order) (o : Order) : Prop :=
  (ordersAt (live ++ [o]) o.side o.price).length < 2 ^ 32

instance (live : List Order) (o : Order) : Decidable (Counts live o) := by
  unfold Counts
  infer_instance

/-- What is asked of an operation on the live orders. -/
def Admissible (live : List Order) : OrderBook.L3Op → Prop
  | .addOrder o => Adds live o ∧ Counts live o
  | .cancelOrder _ => True
  | .replaceOrder oNew =>
      Adds (without live (OrderBook.replaced oNew)) oNew ∧
        Counts (without live (OrderBook.replaced oNew)) oNew

instance (live : List Order) : ∀ op, Decidable (Admissible live op)
  | .addOrder _ => inferInstanceAs (Decidable (_ ∧ _))
  | .cancelOrder _ => inferInstanceAs (Decidable True)
  | .replaceOrder _ => inferInstanceAs (Decidable (_ ∧ _))

variable {live : List Order} {o o' : Order} {s : Side} {px : PriceTicks} {id : OrderId}

theorem mem_ordersAt_iff : o ∈ ordersAt live s px ↔ o ∈ live ∧ o.side = s ∧ o.price = px := by
  simp [ordersAt]

theorem ordersAt_concat : ordersAt (live ++ [o]) s px =
    if s = o.side ∧ px = o.price then ordersAt live s px ++ [o] else ordersAt live s px := by
  unfold ordersAt
  rw [List.filter_append, List.filter_singleton]
  by_cases hk : s = o.side ∧ px = o.price
  · rw [if_pos hk, decide_eq_true ⟨hk.1.symm, hk.2.symm⟩]
    rfl
  · rw [if_neg hk, decide_eq_false fun hc => hk ⟨hc.1.symm, hc.2.symm⟩]
    exact List.append_nil _

theorem ordersAt_without : ordersAt (without live id) s px =
    (ordersAt live s px).filter fun o => o.orderId ≠ id := by
  unfold ordersAt without
  rw [List.filter_comm]

theorem without_of_fresh (h : ¬ ∃ o ∈ live, o.orderId = id) : without live id = live := by
  refine List.filter_eq_self.mpr fun o ho => decide_eq_true ?_
  exact fun hid => h ⟨o, ho, hid⟩

theorem after_concat (ops : List OrderBook.L3Op) (op : OrderBook.L3Op) :
    after (ops ++ [op]) = step (after ops) op := by
  unfold after
  rw [List.foldl_append]
  rfl

end Live

namespace OrderBook

open Transition (run States Along along_nil along_cons run_concat_eq_some)

/-! ### The book of given live orders -/

/-- The book has the lists of the live orders, each with its total, and an entry for each
element. -/
structure Holds (b : OrderBook) (live : List Order) : Prop where
  tracked : b.Tracked
  named : b.Named
  orders : ∀ s px, (b.fifo s px).map L3Order.body = (Live.ordersAt live s px).map Order.body
  level : ∀ s px l, b.level? s px = some l →
    l.fifo ≠ [] ∧ l.aggQty = (l.fifo.map L3Order.leaves).sum ∧ l.orderCount ≤ l.fifo.length

/-- Every count is exact. -/
def Counted (b : OrderBook) : Prop :=
  ∀ s px l, b.level? s px = some l → l.orderCount = l.fifo.length

/-- The book represents the live orders: each level is non-empty, with its total and its count,
each list has the orders in the order in which they were added, and the index leads from exactly
the live ids to their own elements. -/
structure Represents (b : OrderBook) (live : List Order) : Prop where
  level : ∀ s px l, b.level? s px = some l →
    l.fifo ≠ [] ∧ l.aggQty = (l.fifo.map L3Order.leaves).sum ∧ l.orderCount = l.fifo.length
  orders : ∀ s px, (b.fifo s px).map L3Order.body = (Live.ordersAt live s px).map Order.body
  ids : ∀ id, b.l3Index.find? id ≠ none ↔ ∃ o ∈ live, o.orderId = id
  index : ∀ id e, b.l3Index.find? id = some e ↔
    ∃ x ∈ b.fifo e.side e.px, x.orderId = id ∧ x.elem = e.elem
  elems : ∀ s px, ((b.fifo s px).map L3Order.elem).Nodup

/-- A cancel is defined, is true exactly for a live id, and takes out the order of that id and no
other. -/
def CancelsLive (b : OrderBook) (live : List Order) : Prop :=
  ∀ id, ∃ b' r, b.cancelOrder id = some (b', r) ∧ (r = true ↔ ∃ o ∈ live, o.orderId = id) ∧
    Represents b' (Live.without live id) ∧
    ∀ s px, b'.fifo s px = (b.fifo s px).filter fun x => x.orderId ≠ id

section live
variable {b b' : OrderBook} {live : List Order} {s : Side} {px : PriceTicks} {id : OrderId}
  {o : Order} {e : IndexEntry} {x : L3Order} {l : Level}

/-- With different keys, an element of a list and the elements of other keys make up the list. -/
theorem perm_cons_filter {α β : Type*} [DecidableEq β] {f : α → β} {x : α} : ∀ {l : List α},
    (l.map f).Nodup → x ∈ l → l.Perm (x :: l.filter fun y => f y ≠ f x)
  | [], _, hx => by cases hx
  | y :: l, hnodup, hx => by
      obtain ⟨hy, hl⟩ := List.nodup_cons.mp hnodup
      rcases List.mem_cons.mp hx with rfl | hx
      · have hne : ∀ z ∈ l, f z ≠ f x := fun z hz hc => hy (List.mem_map.mpr ⟨z, hz, hc⟩)
        rw [List.filter_cons_of_neg (by simp), List.filter_eq_self.mpr (by simpa using hne)]
      · have hne : f y ≠ f x := fun hc => hy (List.mem_map.mpr ⟨x, hx, hc.symm⟩)
        rw [List.filter_cons_of_pos (by simpa using hne)]
        exact ((perm_cons_filter hl hx).cons y).trans (.swap x y _)

theorem Holds.empty : Holds OrderBook.empty [] where
  tracked := tracked_empty
  named := named_empty
  orders s px := by cases s <;> rfl
  level s px l h := by cases s <;> cases h

/-- The lists have exactly the live ids. -/
theorem Holds.mem_iff (h : Holds b live) :
    (∃ s px, ∃ x ∈ b.fifo s px, x.orderId = id) ↔ ∃ o ∈ live, o.orderId = id := by
  constructor
  · rintro ⟨s, px, x, hx, rfl⟩
    have hx' : x.body ∈ (Live.ordersAt live s px).map Order.body :=
      h.orders s px ▸ List.mem_map_of_mem hx
    obtain ⟨o, ho, he⟩ := List.mem_map.mp hx'
    exact ⟨o, (Live.mem_ordersAt_iff.mp ho).1, congrArg Prod.fst he⟩
  · rintro ⟨o, ho, rfl⟩
    have ho' : o.body ∈ (b.fifo o.side o.price).map L3Order.body := by
      rw [h.orders]
      exact List.mem_map_of_mem (Live.mem_ordersAt_iff.mpr ⟨ho, rfl, rfl⟩)
    obtain ⟨x, hx, he⟩ := List.mem_map.mp ho'
    exact ⟨o.side, o.price, x, hx, congrArg Prod.fst he⟩

theorem Holds.index (h : Holds b live) : b.l3Index.find? id = some e ↔
    ∃ x ∈ b.fifo e.side e.px, x.orderId = id ∧ x.elem = e.elem := by
  constructor
  · intro he
    obtain ⟨x, hx, hxe⟩ := named_iff_fifo.mp h.named id e he
    have hp := h.tracked.place _ _ x hx
    exact ⟨x, hx, h.tracked.inj _ _ _ e hp he hxe, hxe⟩
  · rintro ⟨x, hx, rfl, hxe⟩
    have hp := h.tracked.place _ _ x hx
    rwa [hxe] at hp

theorem Holds.ids (h : Holds b live) :
    b.l3Index.find? id ≠ none ↔ ∃ o ∈ live, o.orderId = id := by
  rw [← h.mem_iff, Option.ne_none_iff_exists']
  constructor
  · rintro ⟨e, he⟩
    obtain ⟨x, hx, hid, -⟩ := h.index.mp he
    exact ⟨_, _, x, hx, hid⟩
  · rintro ⟨s, px, x, hx, rfl⟩
    exact ⟨_, h.tracked.place s px x hx⟩

theorem Holds.represents (h : Holds b live) (hc : b.Counted) : Represents b live where
  level s px l hl := ⟨(h.level s px l hl).1, (h.level s px l hl).2.1, hc s px l hl⟩
  orders := h.orders
  ids _ := h.ids
  index _ _ := h.index
  elems := h.tracked.unique

/-- The sum of a list is the open quantity at its place. -/
theorem Holds.sum_leaves (h : Holds b live) (s : Side) (px : PriceTicks) :
    ((b.fifo s px).map L3Order.leaves).sum = Live.total live s px := by
  have hm := congrArg (List.map fun p : OrderId × ℕ × MonoTime => p.2.1) (h.orders s px)
  rw [List.map_map, List.map_map] at hm
  exact congrArg List.sum hm

theorem Holds.length_fifo (h : Holds b live) (s : Side) (px : PriceTicks) :
    (b.fifo s px).length = (Live.ordersAt live s px).length := by
  have hm := congrArg List.length (h.orders s px)
  rwa [List.length_map, List.length_map] at hm

/-- A level that is missing counts for nothing. -/
theorem Holds.levelFor (h : Holds b live) (s : Side) (px : PriceTicks) :
    (b.levelFor s px).aggQty = ((b.fifo s px).map L3Order.leaves).sum ∧
      (b.levelFor s px).orderCount ≤ (b.fifo s px).length := by
  cases hl : b.level? s px with
  | none =>
      rw [fifo_of_none hl, OrderBook.levelFor, hl]
      exact ⟨rfl, le_rfl⟩
  | some l =>
      rw [fifo_of_some hl, levelFor_of_some hl]
      exact (h.level s px l hl).2

/-! ### Adding and cancelling -/

theorem Holds.addOrder (h : Holds b live) (ha : Live.Adds live o) :
    Holds (b.addOrder o) (live ++ [o]) where
  tracked := by
    refine h.tracked.addOrder ?_
    by_contra hc
    obtain ⟨o', ho', hid⟩ := h.ids.mp hc
    exact ha.fresh o' ho' hid
  named := h.named.addOrder
  orders s px := by
    rw [fifo_addOrder, Live.ordersAt_concat]
    split_ifs
    · rw [List.map_append, List.map_append, h.orders]
      rfl
    · exact h.orders s px
  level s px l hl := by
    rw [level?_addOrder] at hl
    split_ifs at hl with hk
    · obtain ⟨hagg, hcount⟩ := h.levelFor s px
      have hsum : ((b.fifo s px ++ [b.newElem o]).map L3Order.leaves).sum =
          ((b.fifo s px).map L3Order.leaves).sum + o.qty := by
        rw [List.map_append, List.sum_append]
        rfl
      have htotal : ((b.fifo s px).map L3Order.leaves).sum + o.qty < 2 ^ 64 := by
        have ht := ha.total
        unfold Live.total at ht
        rw [Live.ordersAt_concat, if_pos ⟨rfl, rfl⟩, List.map_append, List.sum_append] at ht
        rw [h.sum_leaves, hk.1, hk.2]
        exact ht
      obtain rfl := Option.some_inj.mp hl
      refine ⟨by simp, ?_, ?_⟩
      · rw [hsum, hagg]
        exact Nat.mod_eq_of_lt htotal
      · rw [List.length_append, List.length_singleton]
        exact (Nat.mod_le _ _).trans (Nat.succ_le_succ hcount)
    · exact h.level s px l hl

theorem Counted.addOrder (hc : b.Counted) (h : Holds b live) (ha : Live.Counts live o) :
    (b.addOrder o).Counted := by
  intro s px l hl
  rw [level?_addOrder] at hl
  split_ifs at hl with hk
  · have hcount : (b.levelFor s px).orderCount = (b.fifo s px).length := by
      cases hl : b.level? s px with
      | none =>
          rw [fifo_of_none hl, OrderBook.levelFor, hl]
          rfl
      | some l =>
          rw [fifo_of_some hl, levelFor_of_some hl]
          exact hc s px l hl
    have hlt : (b.fifo s px).length + 1 < 2 ^ 32 := by
      have ha : (Live.ordersAt (live ++ [o]) o.side o.price).length < 2 ^ 32 := ha
      rw [Live.ordersAt_concat, if_pos ⟨rfl, rfl⟩, List.length_append, List.length_singleton] at ha
      rw [h.length_fifo, hk.1, hk.2]
      exact ha
    obtain rfl := Option.some_inj.mp hl
    rw [List.length_append, List.length_singleton, hcount]
    exact Nat.mod_eq_of_lt hlt
  · exact hc s px l hl

/-- A cancel takes out its own order and no other. -/
theorem Took.fifo_eq (ht : Took b id e l x b') (h : Holds b live) (s : Side) (px : PriceTicks) :
    b'.fifo s px = (b.fifo s px).filter fun y => y.orderId ≠ id := by
  rw [ht.fifo]
  have hid : ∀ y ∈ b.fifo s px, y.orderId = id ↔ (s = e.side ∧ px = e.px) ∧ y.elem = e.elem := by
    intro y hy
    constructor
    · intro hc
      obtain ⟨hs, hpx, hye⟩ := h.tracked.eq_of_orderId ht.entry hy hc
      exact ⟨⟨hs, hpx⟩, hye⟩
    · rintro ⟨-, hye⟩
      exact h.tracked.inj _ _ _ e (h.tracked.place s px y hy) ht.entry hye
  split_ifs with hk
  · refine List.filter_congr fun y hy => decide_eq_decide.mpr (not_congr ?_)
    rw [hid y hy]
    exact ⟨fun he => ⟨hk, he⟩, And.right⟩
  · refine (List.filter_eq_self.mpr fun y hy => decide_eq_true ?_).symm
    rw [ne_eq, hid y hy]
    exact fun hc => hk hc.1

theorem Took.fifo_perm (ht : Took b id e l x b') (h : b.Tracked) :
    l.fifo.Perm (x :: (l.remove x).fifo) := by
  have hnodup := h.unique e.side e.px
  rw [fifo_of_some ht.level] at hnodup
  exact perm_cons_filter hnodup (List.mem_of_find?_eq_some ht.elem)

/-- What is left of a level has the total and the count of what is left of its list. -/
theorem Holds.remove (h : Holds b live) (ht : Took b id e l x b') :
    (l.remove x).aggQty = ((l.remove x).fifo.map L3Order.leaves).sum ∧
      (l.remove x).orderCount ≤ (l.remove x).fifo.length ∧
      (l.orderCount = l.fifo.length → (l.remove x).orderCount = (l.remove x).fifo.length) := by
  obtain ⟨-, hagg, hcount⟩ := h.level _ _ l ht.level
  have hperm := ht.fifo_perm h.tracked
  have hsum : (l.fifo.map L3Order.leaves).sum =
      x.leaves + ((l.remove x).fifo.map L3Order.leaves).sum := (hperm.map _).sum_nat
  have hlen : l.fifo.length = (l.remove x).fifo.length + 1 := hperm.length_eq
  have haggQty : (l.remove x).aggQty = if l.aggQty > x.leaves then l.aggQty - x.leaves else 0 := rfl
  have horderCount : (l.remove x).orderCount =
      if l.orderCount ≠ 0 then l.orderCount - 1 else l.orderCount := rfl
  refine ⟨?_, ?_, fun hc => ?_⟩
  · rw [haggQty, hagg, hsum]
    split_ifs <;> omega
  · rw [horderCount]
    split_ifs <;> omega
  · rw [horderCount, hc]
    split_ifs <;> omega

theorem Holds.took (h : Holds b live) (ht : Took b id e l x b') :
    Holds b' (Live.without live id) where
  tracked := ht.tracked h.tracked
  named := ht.named h.tracked h.named
  orders s px := by
    rw [ht.fifo_eq h, Live.ordersAt_without]
    have hm := congrArg (List.filter fun p : OrderId × ℕ × MonoTime => p.1 ≠ id) (h.orders s px)
    rw [List.filter_map, List.filter_map] at hm
    exact hm
  level s px l' hl' := by
    rw [ht.levels] at hl'
    split_ifs at hl' with hk hg
    · obtain rfl := Option.some_inj.mp hl'
      obtain ⟨hagg, hcount, -⟩ := h.remove ht
      refine ⟨fun hnil => hg ⟨?_, ?_, hnil⟩, hagg, hcount⟩
      · rw [hnil] at hcount
        exact Nat.le_zero.mp hcount
      · rw [hagg, hnil]
        rfl
    · exact h.level s px l' hl'

theorem Counted.took (hc : b.Counted) (h : Holds b live) (ht : Took b id e l x b') :
    b'.Counted := by
  intro s px l' hl'
  rw [ht.levels] at hl'
  split_ifs at hl' with hk hg
  · obtain rfl := Option.some_inj.mp hl'
    exact (h.remove ht).2.2 (hc _ _ l ht.level)
  · exact hc s px l' hl'

/-- **Cancelling** takes out exactly the order of the id, if it is live, and says so. -/
theorem Holds.cancelOrder (h : Holds b live) (id : OrderId) : ∃ b' r,
    b.cancelOrder id = some (b', r) ∧ (r = true ↔ ∃ o ∈ live, o.orderId = id) ∧
      Holds b' (Live.without live id) ∧ (b.Counted → b'.Counted) ∧
      ∀ s px, b'.fifo s px = (b.fifo s px).filter fun x => x.orderId ≠ id := by
  obtain ⟨⟨b', r⟩, hc⟩ := Option.ne_none_iff_exists'.mp (h.named.cancelOrder id)
  refine ⟨b', r, hc, ?_⟩
  obtain ⟨hi, rfl, rfl⟩ | ⟨e, l, x, ht, rfl⟩ := h.named.cancelOrder_cases hc
  · have hfresh : ¬ ∃ o ∈ live, o.orderId = id := fun hex => h.ids.mpr hex hi
    refine ⟨iff_of_false (by simp) hfresh, ?_, fun hcount => hcount, fun s px => ?_⟩
    · rwa [Live.without_of_fresh hfresh]
    · refine (List.filter_eq_self.mpr fun x hx => decide_eq_true ?_).symm
      exact fun hid => hfresh (h.mem_iff.mp ⟨s, px, x, hx, hid⟩)
  · refine ⟨iff_of_true rfl (h.ids.mp ?_), h.took ht, fun hcount => hcount.took h ht, ht.fifo_eq h⟩
    rw [ht.entry]
    exact Option.some_ne_none e

end live

/-! ### Runs of L3 operations -/

section runs
variable {b b' : OrderBook} {live : List Order} {op : L3Op}

theorem Holds.applyL3 (h : Holds b live) (hc : b.Counted) (ha : Live.Admissible live op) : ∃ b',
    b.applyL3 op = some b' ∧ Holds b' (Live.step live op) ∧ b'.Counted := by
  cases op with
  | addOrder o => exact ⟨_, rfl, h.addOrder ha.1, hc.addOrder h ha.2⟩
  | cancelOrder id =>
      obtain ⟨b', r, he, -, h', hc', -⟩ := h.cancelOrder id
      exact ⟨b', by rw [OrderBook.applyL3, he]; rfl, h', hc' hc⟩
  | replaceOrder oNew =>
      obtain ⟨b', r, he, -, h', hc', -⟩ := h.cancelOrder (replaced oNew)
      refine ⟨b'.addOrder oNew, ?_, h'.addOrder ha.1, (hc' hc).addOrder h' ha.2⟩
      rw [OrderBook.applyL3, replaceOrder, he]
      rfl

theorem holds_run {ops : List L3Op}
    (ha : Along applyL3 empty (fun pre _ op => Live.Admissible (Live.after pre) op) ops) :
    ∃ b, run applyL3 empty ops = some b ∧ Holds b (Live.after ops) ∧ b.Counted := by
  induction ops using List.reverseRecOn with
  | nil => exact ⟨empty, rfl, .empty, fun s px l h => by cases s <;> cases h⟩
  | append_singleton ops op ih =>
      obtain ⟨b, hr, h, hc⟩ := ih ha.left
      obtain ⟨b', hs, h', hc'⟩ := h.applyL3 hc (ha.last hr)
      refine ⟨b', run_concat_eq_some.mpr ⟨b, hr, hs⟩, ?_, hc'⟩
      rwa [Live.after_concat]

/-- **The book represents its live orders** in every state of a run of L3 operations, and every
operation of the run is defined. -/
theorem live_run {ops : List L3Op}
    (ha : Along applyL3 empty (fun pre _ op => Live.Admissible (Live.after pre) op) ops) :
    run applyL3 empty ops ≠ none ∧ States applyL3 empty (fun pre b =>
      Represents b (Live.after pre) ∧ CancelsLive b (Live.after pre)) ops := by
  refine ⟨?_, fun pre post he b hb => ?_⟩
  · obtain ⟨b, hr, -⟩ := holds_run ha
    rw [hr]
    exact Option.some_ne_none b
  · obtain ⟨b₁, hr, h, hc⟩ := holds_run (he ▸ ha).left
    obtain rfl := Option.some_inj.mp (hb.symm.trans hr)
    refine ⟨h.represents hc, fun id => ?_⟩
    obtain ⟨b', r, hcancel, hlive, h', hc', hfifo⟩ := h.cancelOrder id
    exact ⟨b', r, hcancel, hlive, h'.represents (hc' hc), hfifo⟩

/-- Two orders at one price, the first of which is replaced under a new id. -/
theorem live_run_replace :
    let ops : List L3Op := [.addOrder { orderId := 1, price := 100, qty := 5 },
      .addOrder { orderId := 2, price := 100, qty := 3 },
      .replaceOrder { orderId := 3, prevOrderId := 1, price := 100, qty := 4 }, .cancelOrder 2]
    run applyL3 empty ops ≠ none ∧ States applyL3 empty (fun pre b =>
      Represents b (Live.after pre) ∧ CancelsLive b (Live.after pre)) ops :=
  live_run (along_cons.mpr ⟨by decide, fun _ _ => along_cons.mpr ⟨by decide, fun _ _ =>
    along_cons.mpr ⟨by decide, fun _ _ => along_cons.mpr ⟨by decide, fun _ _ => along_nil⟩⟩⟩⟩)

end runs

end OrderBook
end Trading
