import Mathlib.Data.Set.Card
import Trading.Consumers

/-! # The L2 book as a map

What the L2 operations are for: a map from side and price to quantity and order count, in which
the last operation on a key decides (`lastWrite`).  `Shows` says that everything an `OrderBook`
lets a reader see is that of a given map: the levels, the top, the number of levels and the
snapshots of every depth.

`shows_lastWrite` is the result for the operations.  `md_to_orderbook_consumer` applies every delta
twice, which is the same as once (`applyDelta_applyDelta`), and counts the deltas after which the
book is crossed (`metrics_foldl`).  `l2_book` puts the two together. -/

namespace Trading

/-- A map from side and price to quantity and order count. -/
abbrev LevelFun := Side → PriceTicks → Option (ℕ × ℕ)

namespace OrderBook

/-! ### The reference map -/

def L2Op.key : L2Op → Side × PriceTicks
  | .upsertLevel s px _ _ => (s, px)
  | .eraseLevel s px => (s, px)

/-- What an operation leaves at its key: a level without quantity or orders is none. -/
def L2Op.value : L2Op → Option (ℕ × ℕ)
  | .upsertLevel _ _ qty cnt => if qty = 0 ∨ cnt = 0 then none else some (qty, cnt)
  | .eraseLevel .. => none

/-- The value of the last operation on a key. -/
def lastWrite (ops : List L2Op) : LevelFun := fun s px =>
  (ops.reverse.find? fun op => op.key = (s, px)).bind L2Op.value

/-- The greatest bid, or the least ask, with its level. -/
def IsBest (t : LevelFun) (s : Side) (px : PriceTicks) (v : ℕ × ℕ) : Prop :=
  t s px = some v ∧ ∀ px', t s px' ≠ none → px' = px ∨ Better s px px'

/-- The best price of a side, with its quantity; `kNoPrice` and nothing for an empty side. -/
def BestIs (t : LevelFun) (s : Side) (px : PriceTicks) (qty : ℕ) : Prop :=
  (∃ cnt, IsBest t s px (qty, cnt)) ∨ (∀ px', t s px' = none) ∧ px = kNoPrice ∧ qty = 0

/-- The best bid is at or above the best ask. -/
def Crossed (t : LevelFun) : Prop :=
  ∃ bid ask v w, IsBest t .bid bid v ∧ IsBest t .ask ask w ∧ ask ≤ bid

/-- The levels of a side in the order of the side, best first. -/
structure Ladder (t : LevelFun) (s : Side) (es : List (PriceTicks × (ℕ × ℕ))) : Prop where
  sorted : es.Pairwise fun e e' => Better s e.1 e'.1
  mem : ∀ px v, (px, v) ∈ es ↔ t s px = some v

/-- A level of the map as a row of a snapshot. -/
def summary (s : Side) (e : PriceTicks × (ℕ × ℕ)) : LevelSummary := ⟨s.toByte, e.1, e.2.1, e.2.2⟩

/-- What the book shows is the map. -/
structure Shows (b : OrderBook) (t : LevelFun) : Prop where
  level : ∀ s px, (b.level? s px).map Level.pair = t s px
  bid : BestIs t .bid b.top.bestBidPrice b.top.bestBidQty
  ask : BestIs t .ask b.top.bestAskPrice b.top.bestAskQty
  count : b.levelCount = {k : Side × PriceTicks | t k.1 k.2 ≠ none}.ncard
  snapshot : ∃ bids asks, Ladder t .bid bids ∧ Ladder t .ask asks ∧ ∀ depth, b.snapshotL2 depth =
    (bids.take depth).map (summary .bid) ++ (asks.take depth).map (summary .ask)

section map
variable {b : OrderBook} {t : LevelFun} {s : Side} {px : PriceTicks} {ops : List L2Op} {op : L2Op}

theorem lastWrite_concat : lastWrite (ops ++ [op]) s px =
    if op.key = (s, px) then op.value else lastWrite ops s px := by
  unfold lastWrite
  rw [List.reverse_append, List.reverse_singleton, List.singleton_append, List.find?_cons]
  by_cases hk : op.key = (s, px) <;> simp [hk]

/-- A stored level is that of an upsert. -/
theorem exists_upsert_of_lastWrite {v : ℕ × ℕ} (h : lastWrite ops s px = some v) :
    .upsertLevel s px v.1 v.2 ∈ ops ∧ 0 < v.1 ∧ 0 < v.2 := by
  obtain ⟨op, hop, hv⟩ := Option.bind_eq_some_iff.mp h
  have hmem := List.mem_reverse.mp (List.mem_of_find?_eq_some hop)
  have hkey : op.key = (s, px) := by simpa using List.find?_some hop
  cases op with
  | eraseLevel s px => cases hv
  | upsertLevel s' px' qty cnt =>
      obtain ⟨rfl, rfl⟩ := Prod.mk.inj hkey
      simp only [L2Op.value] at hv
      split_ifs at hv with hz
      obtain rfl := Option.some_inj.mp hv
      dsimp only
      exact ⟨hmem, by omega⟩

theorem lastWrite_pos {v : ℕ × ℕ} (h : lastWrite ops s px = some v) : 0 < v.1 ∧ 0 < v.2 :=
  (exists_upsert_of_lastWrite h).2

theorem level?_applyL2 : ((b.applyL2 op).level? s px).map Level.pair =
    if op.key = (s, px) then op.value else (b.level? s px).map Level.pair := by
  cases op with
  | upsertLevel s' px' qty cnt =>
      have hk : (L2Op.upsertLevel s' px' qty cnt).key = (s, px) ↔ s = s' ∧ px = px' := by
        simp [L2Op.key, eq_comm]
      simp only [hk, applyL2, level?_upsertLevel, L2Op.value]
      split_ifs <;> rfl
  | eraseLevel s' px' =>
      have hk : (L2Op.eraseLevel s' px').key = (s, px) ↔ s = s' ∧ px = px' := by
        simp [L2Op.key, eq_comm]
      simp only [hk, applyL2, level?_eraseLevel, L2Op.value]
      split_ifs <;> rfl

/-- The stored levels are those of the last operations on their keys. -/
theorem level?_foldl (ops : List L2Op) (s : Side) (px : PriceTicks) :
    ((ops.foldl applyL2 empty).level? s px).map Level.pair = lastWrite ops s px := by
  induction ops using List.reverseRecOn with
  | nil => cases s <;> rfl
  | append_singleton ops op ih =>
      rw [List.foldl_append, lastWrite_concat, ← ih]
      exact level?_applyL2

/-! ### What the book shows -/

/-- The levels of a side, best first. -/
def levels (b : OrderBook) : Side → List (PriceTicks × Level)
  | .bid => b.bids.entries
  | .ask => b.asks.entries

/-- The levels of a side as those of a map. -/
def ladder (b : OrderBook) (s : Side) : List (PriceTicks × (ℕ × ℕ)) :=
  (b.levels s).map fun e => (e.1, e.2.pair)

theorem mem_levels_iff {l : Level} : (px, l) ∈ b.levels s ↔ b.level? s px = some l := by
  cases s
  · exact b.bids.mem_entries_iff
  · exact b.asks.mem_entries_iff

theorem ladder_of_level (h : ∀ s px, (b.level? s px).map Level.pair = t s px) (s : Side) :
    Ladder t s (b.ladder s) where
  sorted := by
    unfold ladder
    rw [List.pairwise_map]
    cases s
    · exact b.bids.sorted
    · exact b.asks.sorted
  mem px v := by
    rw [← h, Option.map_eq_some_iff, ladder, List.mem_map]
    constructor
    · rintro ⟨⟨px', l⟩, hl, he⟩
      obtain ⟨rfl, rfl⟩ := Prod.mk.inj he
      exact ⟨l, mem_levels_iff.mp hl, rfl⟩
    · rintro ⟨l, hl, rfl⟩
      exact ⟨(px, l), mem_levels_iff.mpr hl, rfl⟩

/-- The first of the levels is the best. -/
theorem Ladder.isBest_iff {es : List (PriceTicks × (ℕ × ℕ))} {v : ℕ × ℕ} (h : Ladder t s es) :
    IsBest t s px v ↔ es.head? = some (px, v) := by
  cases es with
  | nil =>
      refine iff_of_false (fun hb => ?_) (by simp)
      cases (h.mem px v).mpr hb.1
  | cons e es =>
      obtain ⟨px', v'⟩ := e
      have hsorted := (List.pairwise_cons.mp h.sorted).1
      have hhead := (h.mem px' v').mp List.mem_cons_self
      simp only [List.head?_cons, Option.some_inj, Prod.mk.injEq]
      constructor
      · rintro ⟨hv, hbest⟩
        have hpx : px' = px := by
          obtain he | hlt := hbest px' (by simp [hhead])
          · exact he
          · rcases List.mem_cons.mp ((h.mem px v).mpr hv) with he | he
            · exact (Prod.mk.inj he).1.symm
            · exact absurd (trans_of (Better s) hlt (hsorted _ he)) (irrefl_of (Better s) px)
        subst hpx
        rw [hv, Option.some_inj] at hhead
        exact ⟨rfl, hhead.symm⟩
      · rintro ⟨rfl, rfl⟩
        refine ⟨hhead, fun px hpx => ?_⟩
        obtain ⟨v, hv⟩ := Option.ne_none_iff_exists'.mp hpx
        rcases List.mem_cons.mp ((h.mem px v).mpr hv) with he | he
        · exact .inl (Prod.mk.inj he).1
        · exact .inr (hsorted _ he)

theorem Ladder.bestIs {es : List (PriceTicks × (ℕ × ℕ))} (h : Ladder t s es) :
    BestIs t s ((es.head?.map Prod.fst).getD kNoPrice) ((es.head?.map fun e => e.2.1).getD 0) := by
  cases es with
  | nil =>
      refine .inr ⟨fun px' => ?_, rfl, rfl⟩
      cases hv : t s px' with
      | none => rfl
      | some v => cases (h.mem px' v).mpr hv
  | cons e es =>
      obtain ⟨px, qty, cnt⟩ := e
      exact .inl ⟨cnt, h.isBest_iff.mpr rfl⟩

theorem Ladder.keys_nodup {es : List (PriceTicks × (ℕ × ℕ))} (h : Ladder t s es) :
    (es.map fun e => (s, e.1)).Nodup := by
  refine List.pairwise_map.mpr (h.sorted.imp fun {e e'} hlt he => ?_)
  have hpx : e.1 = e'.1 := congrArg Prod.snd he
  exact irrefl_of (Better s) e'.1 (hpx ▸ hlt)

/-- The number of levels. -/
theorem Ladder.ncard {bids asks : List (PriceTicks × (ℕ × ℕ))} (hb : Ladder t .bid bids)
    (ha : Ladder t .ask asks) :
    {k : Side × PriceTicks | t k.1 k.2 ≠ none}.ncard = bids.length + asks.length := by
  have hmem : ∀ s es, Ladder t s es → ∀ px, (s, px) ∈ es.map (fun e => (s, e.1)) ↔ t s px ≠ none := by
    intro s es h px
    simp only [List.mem_map, Prod.mk.injEq, true_and, Option.ne_none_iff_exists']
    constructor
    · rintro ⟨⟨px', v⟩, he, rfl⟩
      exact ⟨v, (h.mem px' v).mp he⟩
    · rintro ⟨v, hv⟩
      exact ⟨(px, v), (h.mem px v).mpr hv, rfl⟩
  have hset : {k : Side × PriceTicks | t k.1 k.2 ≠ none} =
      ((bids.map (fun e => (Side.bid, e.1)) ++ asks.map fun e => (Side.ask, e.1)).toFinset :
        Set (Side × PriceTicks)) := by
    ext ⟨s, px⟩
    simp only [Set.mem_ofPred_eq, List.coe_toFinset, List.mem_append]
    cases s
    · rw [hmem .bid bids hb]
      simp
    · rw [hmem .ask asks ha]
      simp
  rw [hset, Set.ncard_coe_finset, List.toFinset_card_of_nodup, List.length_append, List.length_map,
    List.length_map]
  refine List.nodup_append.mpr ⟨hb.keys_nodup, ha.keys_nodup, ?_⟩
  rintro k hk _ hk' rfl
  obtain ⟨e, -, rfl⟩ := List.mem_map.mp hk
  obtain ⟨e', -, he⟩ := List.mem_map.mp hk'
  cases congrArg Prod.fst he

/-- The stored levels decide what the book shows. -/
theorem shows_of_level (h : ∀ s px, (b.level? s px).map Level.pair = t s px) : b.Shows t := by
  have hbid := ladder_of_level h .bid
  have hask := ladder_of_level h .ask
  refine ⟨h, ?_, ?_, ?_, b.ladder .bid, b.ladder .ask, hbid, hask, fun depth => ?_⟩
  · have hbest := hbid.bestIs
    rw [ladder, List.head?_map, Option.map_map, Option.map_map] at hbest
    exact hbest
  · have hbest := hask.bestIs
    rw [ladder, List.head?_map, Option.map_map, Option.map_map] at hbest
    exact hbest
  · rw [hbid.ncard hask, ladder, ladder, List.length_map, List.length_map]
    rfl
  · rw [ladder, ladder, ← List.map_take, ← List.map_take, List.map_map, List.map_map]
    rfl

theorem shows_lastWrite (ops : List L2Op) : (ops.foldl applyL2 empty).Shows (lastWrite ops) :=
  shows_of_level (level?_foldl ops)

end map
end OrderBook

/-! ### The consumer -/

/-- What `md_to_orderbook_consumer` does with a delta. -/
def L2DeltaPayload.op (d : L2DeltaPayload) : OrderBook.L2Op :=
  if d.action = kErase then .eraseLevel (sideOf d.side) d.price
  else .upsertLevel (sideOf d.side) d.price d.aggQty d.orderCount

def MDEvent.op? : MDEvent → Option OrderBook.L2Op
  | .l1 .. => none
  | .l2Delta _ d => some d.op

/-- The operations of a sequence of events. -/
def bookOps (evs : List MDEvent) : List OrderBook.L2Op := evs.filterMap MDEvent.op?

/-- The positions of the deltas after which the best bid is at or above the best ask. -/
def crossings (evs : List MDEvent) : Set ℕ :=
  {i | (∃ n d, evs[i]? = some (.l2Delta n d)) ∧
    OrderBook.Crossed (OrderBook.lastWrite (bookOps (evs.take (i + 1))))}

namespace OrderBook
variable {b : OrderBook} {t : LevelFun} {d : L2DeltaPayload}

theorem applyDelta_eq (b : OrderBook) (d : L2DeltaPayload) : b.applyDelta d = b.applyL2 d.op := by
  unfold applyDelta L2DeltaPayload.op
  split_ifs <;> rfl

/-- The second application of a delta changes nothing. -/
theorem applyL2_applyL2 (b : OrderBook) (op : L2Op) : (b.applyL2 op).applyL2 op = b.applyL2 op := by
  cases op with
  | eraseLevel s px => cases s <;> simp [applyL2, eraseLevel]
  | upsertLevel s px qty cnt =>
      by_cases hz : qty = 0 ∨ cnt = 0
      · cases s <;> simp [applyL2, upsertLevel, eraseLevel, hz]
      · cases s <;> simp [applyL2, upsertLevel, hz]

theorem Shows.isBest_iff {s : Side} {px : PriceTicks} {v : ℕ × ℕ} (h : b.Shows t) :
    IsBest t s px v ↔ ∃ l, (b.levels s).head? = some (px, l) ∧ l.pair = v := by
  rw [(ladder_of_level h.level s).isBest_iff, ladder, List.head?_map, Option.map_eq_some_iff]
  constructor
  · rintro ⟨⟨px', l⟩, hl, he⟩
    obtain ⟨rfl, rfl⟩ := Prod.mk.inj he
    exact ⟨l, hl, rfl⟩
  · rintro ⟨l, hl, rfl⟩
    exact ⟨(px, l), hl, rfl⟩

/-- With quantity and orders in every level, `validate` fails exactly on a crossed book. -/
theorem Shows.validate_iff (h : b.Shows t) (hpos : ∀ s px v, t s px = some v → 0 < v.1 ∧ 0 < v.2) :
    b.validate = true ↔ ¬ Crossed t := by
  have hlevel : ∀ s, (b.levels s).all (fun e => !(e.2.orderCount > 0 && e.2.aggQty = 0)) = true := by
    intro s
    rw [List.all_eq_true]
    rintro ⟨px, l⟩ hl
    have hv := h.level s px
    rw [mem_levels_iff.mp hl, Option.map_some] at hv
    have hagg : 0 < l.aggQty := (hpos s px l.pair hv.symm).1
    simp [hagg.ne']
  have hcrossed : Crossed t ↔ ∃ bid ask, b.bids.first? = some bid ∧ b.asks.first? = some ask ∧
      ask.1 ≤ bid.1 := by
    unfold Crossed
    simp only [h.isBest_iff]
    constructor
    · rintro ⟨bid, ask, v, w, ⟨l, hl, -⟩, ⟨m, hm, -⟩, hle⟩
      exact ⟨(bid, l), (ask, m), hl, hm, hle⟩
    · rintro ⟨⟨bid, l⟩, ⟨ask, m⟩, hl, hm, hle⟩
      exact ⟨bid, ask, l.pair, m.pair, ⟨l, hl, rfl⟩, ⟨m, hm, rfl⟩, hle⟩
  have hbid := hlevel .bid
  have hask := hlevel .ask
  unfold levels at hbid hask
  rw [hcrossed, validate, hbid, hask]
  cases b.bids.first? with
  | none => simp
  | some bid =>
      cases b.asks.first? with
      | none => simp
      | some ask => simp

theorem applyDelta_applyDelta (b : OrderBook) (d : L2DeltaPayload) :
    (b.applyDelta d).applyDelta d = b.applyDelta d := by
  rw [applyDelta_eq, applyDelta_eq, applyL2_applyL2]

end OrderBook

namespace MarketBook
variable {evs : List MDEvent} {ev : MDEvent}

theorem bookOps_concat : bookOps (evs ++ [ev]) = bookOps evs ++ ev.op?.toList := by
  cases ev <;> simp [bookOps, MDEvent.op?]

/-- The book is that of the operations, each done once. -/
theorem book_foldl (evs : List MDEvent) :
    (evs.foldl consume empty).book = (bookOps evs).foldl OrderBook.applyL2 .empty := by
  induction evs using List.reverseRecOn with
  | nil => rfl
  | append_singleton evs ev ih =>
      rw [List.foldl_append, bookOps_concat, List.foldl_append, ← ih]
      cases ev with
      | l1 n p => rfl
      | l2Delta n d =>
          show ((evs.foldl consume empty).book.applyDelta d).applyDelta d = _
          rw [OrderBook.applyDelta_applyDelta, OrderBook.applyDelta_eq]
          rfl

/-- The event is a delta that leaves the book crossed. -/
def EndsCrossed (evs : List MDEvent) (ev : MDEvent) : Prop :=
  (∃ n d, ev = .l2Delta n d) ∧ OrderBook.Crossed (OrderBook.lastWrite (bookOps (evs ++ [ev])))

theorem mem_crossings_concat (i : ℕ) : i ∈ crossings (evs ++ [ev]) ↔
    i ∈ crossings evs ∨ i = evs.length ∧ EndsCrossed evs ev := by
  unfold crossings EndsCrossed
  rw [Set.mem_ofPred_eq, Set.mem_ofPred_eq]
  rcases Nat.lt_trichotomy i evs.length with hlt | rfl | hlt
  · have htake : (evs ++ [ev]).take (i + 1) = evs.take (i + 1) :=
      List.take_append_of_le_length (by omega)
    rw [List.getElem?_append_left hlt, htake]
    simp [hlt.ne]
  · have htake : (evs ++ [ev]).take (evs.length + 1) = evs ++ [ev] := by simp
    rw [List.getElem?_concat_length, htake]
    simp
  · have hnone : (evs ++ [ev])[i]? = none := List.getElem?_eq_none (by simp; omega)
    simp [hlt.ne', hnone, List.getElem?_eq_none hlt.le]

theorem ncard_crossings_of_crossed (hc : EndsCrossed evs ev) :
    (crossings (evs ++ [ev])).ncard = (crossings evs).ncard + 1 := by
  have hlt : ∀ i ∈ crossings evs, i < evs.length := by
    rintro i ⟨⟨n, d, hi⟩, -⟩
    exact (List.getElem?_eq_some_iff.mp hi).1
  have hins : crossings (evs ++ [ev]) = insert evs.length (crossings evs) := by
    ext i
    simp [mem_crossings_concat, hc, or_comm]
  rw [hins, Set.ncard_insert_of_notMem (fun h => lt_irrefl _ (hlt _ h))
    ((Set.finite_lt_nat evs.length).subset hlt)]

theorem crossings_of_not_crossed (hc : ¬ EndsCrossed evs ev) :
    crossings (evs ++ [ev]) = crossings evs := by
  ext i
  simp [mem_crossings_concat, hc]

/-- Every delta is an idempotent hit, and the failed checks are the deltas after which the best bid
is at or above the best ask. -/
theorem metrics_foldl (evs : List MDEvent) :
    (evs.foldl consume empty).metrics.l2IdempotentHits = (evs.foldl consume empty).metrics.l2Applied ∧
      (evs.foldl consume empty).metrics.invariantsFail = (crossings evs).ncard := by
  induction evs using List.reverseRecOn with
  | nil => simp [crossings, empty]
  | append_singleton evs ev ih =>
      have hbook := book_foldl (evs ++ [ev])
      rw [List.foldl_append] at hbook ⊢
      generalize evs.foldl consume empty = m at ih hbook ⊢
      cases ev with
      | l1 n p =>
          rw [crossings_of_not_crossed (by rintro ⟨⟨n, d, he⟩, -⟩; cases he)]
          exact ih
      | l2Delta n d =>
          have htwice := OrderBook.applyDelta_applyDelta m.book d
          have hshows := OrderBook.shows_lastWrite (bookOps (evs ++ [.l2Delta n d]))
          rw [← hbook] at hshows
          have hvalid := hshows.validate_iff fun s px v hv => OrderBook.lastWrite_pos hv
          have hbook' : (m.consume (.l2Delta n d)).book = m.book.applyDelta d := htwice
          rw [List.foldl_cons, List.foldl_nil, hbook'] at hvalid
          refine ⟨by simp [consume, htwice, ih.1], ?_⟩
          simp only [List.foldl_cons, List.foldl_nil, consume, htwice]
          by_cases hv : (m.book.applyDelta d).validate = true
          · rw [if_pos hv, crossings_of_not_crossed fun hc => hvalid.mp hv hc.2]
            exact ih.2
          · have hc : EndsCrossed evs (.l2Delta n d) := ⟨⟨n, d, rfl⟩, by rwa [hvalid, not_not] at hv⟩
            rw [if_neg hv, ncard_crossings_of_crossed hc, ih.2]

end MarketBook

/-- **The L2 book is the map of the last writes**, for every sequence of operations, and the consumer
keeps it so: its second application of a delta changes nothing, every delta is an idempotent hit, and
the failed checks are the deltas after which the best bid is at or above the best ask. -/
theorem l2_book (ops : List OrderBook.L2Op) (evs : List MDEvent) :
    ((ops.foldl OrderBook.applyL2 .empty).Shows (OrderBook.lastWrite ops) ∧
      ∀ s px v, OrderBook.lastWrite ops s px = some v → 0 < v.1 ∧ 0 < v.2) ∧
    (evs.foldl MarketBook.consume .empty).book.Shows (OrderBook.lastWrite (bookOps evs)) ∧
    (∀ (b : OrderBook) d, (b.applyDelta d).applyDelta d = b.applyDelta d) ∧
    (evs.foldl MarketBook.consume .empty).metrics.l2IdempotentHits =
      (evs.foldl MarketBook.consume .empty).metrics.l2Applied ∧
    (evs.foldl MarketBook.consume .empty).metrics.invariantsFail = (crossings evs).ncard := by
  refine ⟨⟨OrderBook.shows_lastWrite ops, fun s px v hv => OrderBook.lastWrite_pos hv⟩, ?_,
    OrderBook.applyDelta_applyDelta, MarketBook.metrics_foldl evs⟩
  rw [MarketBook.book_foldl]
  exact OrderBook.shows_lastWrite _

end Trading
