import Trading.Greedy
import Trading.Matching

/-! # Price-time matching

The reference that matching is compared with: the orders resting opposite to the incoming one
are listed by price, best first, and then by position in the queue, and served greedily
(`Greedy.lean`) from the front as far as the incoming order crosses them.

* `matchSide_served`: in every book the matching loops compute exactly this, reports included.
* `onNew_priceTime`: for a priced limit order or an unpriced market order, the same with the
  acceptance test written without the sentinel price, through to what `on_new` leaves. -/

namespace Trading
namespace EngineBook

open Transition (whileLoop)
open Relation (ReflTransGen)

/-- The orders resting on a side, each with the price of its level: best level first, front of
the queue first. -/
def restingOn (b : EngineBook) (s : Side) : List (PriceTicks × Node) :=
  (b.levels s).flatMap fun e => e.2.map (Prod.mk e.1)

/-- Whether an incoming order of side `side` and price `px` trades with the resting order `e`. -/
def crosses (side : Side) (px : PriceTicks) (e : PriceTicks × Node) : Bool :=
  isLimitCross side px e.1

/-- The resting orders that an incoming order of side `side` and price `px` reaches. -/
def reach (b : EngineBook) (side : Side) (px : PriceTicks) : List (PriceTicks × Node) :=
  (b.restingOn side.opp).takeWhile (crosses side px)

/-- The resting orders from the first one on that it does not cross. -/
def beyond (b : EngineBook) (side : Side) (px : PriceTicks) : List (PriceTicks × Node) :=
  (b.restingOn side.opp).dropWhile (crosses side px)

def openQty (e : PriceTicks × Node) : ℕ := e.2.leaves

def reduceBy (e : PriceTicks × Node) (n : ℕ) : PriceTicks × Node :=
  (e.1, { e.2 with leaves := e.2.leaves - n })

/-- The quantity that an incoming order of side `side` and price `px` finds. -/
def available (b : EngineBook) (side : Side) (px : PriceTicks) : ℕ :=
  ((b.reach side px).map openQty).sum

/-- The reports of a list of fills, with `leaves` of the taker open before the first. -/
def fillReports (taker : Order) : ℕ → List ((PriceTicks × Node) × ℕ) → List ExecReport
  | _, [] => []
  | leaves, ((px, maker), dq) :: fs =>
      tradeReport ⟨taker, leaves - dq⟩ px dq ::
      tradeReport { maker with leaves := maker.leaves - dq } px dq ::
      fillReports taker (leaves - dq) fs

@[simp] theorem restingOn_publish (b : EngineBook) (er : ExecReport) (s : Side) :
    (b.publish er).restingOn s = b.restingOn s := by simp [restingOn]

@[simp] theorem reach_publish (b : EngineBook) (er : ExecReport) (side : Side) (px : PriceTicks) :
    (b.publish er).reach side px = b.reach side px := by simp [reach]

@[simp] theorem beyond_publish (b : EngineBook) (er : ExecReport) (side : Side) (px : PriceTicks) :
    (b.publish er).beyond side px = b.beyond side px := by simp [beyond]

@[simp] theorem available_publish (b : EngineBook) (er : ExecReport) (side : Side)
    (px : PriceTicks) : (b.publish er).available side px = b.available side px := by
  simp [available]

/-! ### The resting orders under one fill -/

section resting
variable {b : EngineBook} {s opp : Side} {px : PriceTicks} {q rest : Queue} {maker : Node}
  {m : Matching}

theorem mem_restingOn_iff {n : Node} : (px, n) ∈ b.restingOn s ↔ n ∈ b.queueFor s px := by
  simp only [restingOn, List.mem_flatMap, List.mem_map, Prod.exists, Prod.mk.injEq]
  constructor
  · rintro ⟨px', q, hq, n', hn, rfl, rfl⟩
    rwa [queueFor_of_queue? (mem_levels_iff.mp hq)]
  · intro hn
    cases hc : b.queue? s px with
    | none => simp [queueFor, hc] at hn
    | some q =>
        rw [queueFor_of_queue? hc] at hn
        exact ⟨px, q, mem_levels_iff.mpr hc, n, hn, rfl, rfl⟩

theorem restingOn_of_levels {es : List (PriceTicks × Queue)} (h : b.levels s = (px, q) :: es) :
    b.restingOn s = q.map (Prod.mk px) ++ es.flatMap fun e => e.2.map (Prod.mk e.1) := by
  rw [restingOn, h, List.flatMap_cons]

theorem restingOn_putQueue_best {es : List (PriceTicks × Queue)} {q' : Queue}
    (h : b.levels s = (px, q) :: es) : (b.putQueue s px q').restingOn s =
      q'.map (Prod.mk px) ++ es.flatMap fun e => e.2.map (Prod.mk e.1) := by
  rw [restingOn, levels_putQueue_best h]
  split_ifs with hq
  · rw [hq, List.map_nil, List.nil_append]
  · rw [List.flatMap_cons]

/-- A complete fill takes the first order away. -/
theorem restingOn_fillWhole (hb : m.book.best? opp = some (px, maker :: rest)) :
    m.book.restingOn opp = (px, maker) :: (m.fillWhole opp px maker rest).book.restingOn opp := by
  obtain ⟨es, he⟩ := best?_eq_some_iff.mp hb
  rw [restingOn_of_levels he, Matching.fillWhole, restingOn_putQueue_best (by simpa using he)]
  rfl

/-- A partial fill reduces the first order. -/
theorem restingOn_fillPart (hb : m.book.best? opp = some (px, maker :: rest)) : ∃ es,
    m.book.restingOn opp = (px, maker) :: es ∧
    (m.fillPart opp px maker rest).book.restingOn opp =
      reduceBy (px, maker) m.taker.leaves :: es := by
  obtain ⟨es, he⟩ := best?_eq_some_iff.mp hb
  refine ⟨rest.map (Prod.mk px) ++ es.flatMap fun e => e.2.map (Prod.mk e.1),
    restingOn_of_levels he, ?_⟩
  rw [Matching.fillPart, restingOn_putQueue_best (by simpa using he)]
  rfl

theorem levels_fillWhole (side : Side) :
    (m.fillWhole side.opp px maker rest).book.levels side = m.book.levels side := by
  rw [Matching.fillWhole, levels_putQueue_of_ne _ (Side.opp_ne side)]
  simp

theorem levels_fillPart (side : Side) :
    (m.fillPart side.opp px maker rest).book.levels side = m.book.levels side := by
  rw [Matching.fillPart, levels_putQueue_of_ne _ (Side.opp_ne side)]
  simp

/-- The first resting order stands at the best level. -/
theorem restingOn_of_best? (hne : b.NoEmptyLevel) (hb : b.best? s = some (px, q)) :
    ∃ n es, b.restingOn s = (px, n) :: es := by
  obtain ⟨es, he⟩ := best?_eq_some_iff.mp hb
  cases q with
  | nil => exact absurd (queue?_of_best? hb) (hne s px)
  | cons n q => exact ⟨n, _, restingOn_of_levels he⟩

theorem reach_of_cons {side : Side} {px' : PriceTicks} {es : List (PriceTicks × Node)}
    (h : b.restingOn side.opp = (px, maker) :: es) (hc : isLimitCross side px' px = true) :
    b.reach side px' = (px, maker) :: es.takeWhile (crosses side px') := by
  rw [reach, h, List.takeWhile_cons_of_pos (by exact hc)]

theorem beyond_of_cons {side : Side} {px' : PriceTicks} {es : List (PriceTicks × Node)}
    (h : b.restingOn side.opp = (px, maker) :: es) (hc : isLimitCross side px' px = true) :
    b.beyond side px' = es.dropWhile (crosses side px') := by
  rw [beyond, h, List.dropWhile_cons_of_pos (by exact hc)]

theorem reach_append_beyond (b : EngineBook) (side : Side) (px : PriceTicks) :
    b.reach side px ++ b.beyond side px = b.restingOn side.opp :=
  List.takeWhile_append_dropWhile

theorem restingOn_of_best?_none (hb : b.best? s = none) : b.restingOn s = [] := by
  rw [best?_eq_head?, List.head?_eq_none_iff] at hb
  rw [restingOn, hb, List.flatMap_nil]

end resting

/-! ### The matching loops -/

section served
variable {side : Side} {s s' e : Matching}

/-- `e` is `s` after the taker of `s` has been served greedily. -/
structure Served (side : Side) (s e : Matching) : Prop where
  taker : e.taker =
    ⟨s.taker.ord, s.taker.leaves - s.book.available side s.taker.ord.price⟩
  reports : e.book.sink = s.book.sink ++ fillReports s.taker.ord s.taker.leaves
    (Greedy.fills openQty s.taker.leaves (s.book.reach side s.taker.ord.price))
  opposite : e.book.restingOn side.opp =
    Greedy.rest openQty reduceBy s.taker.leaves (s.book.reach side s.taker.ord.price) ++
      s.book.beyond side s.taker.ord.price
  own : e.book.levels side = s.book.levels side

/-- Every order opposite to `side` has something open. -/
def OpenOpposite (side : Side) (s : Matching) : Prop :=
  ∀ x ∈ s.book.restingOn side.opp, 0 < openQty x

theorem FillStep.openOpposite (h : FillStep side s s') (ho : OpenOpposite side s) :
    OpenOpposite side s' := by
  cases h with
  | whole hb =>
      intro x hx
      apply ho x
      rw [restingOn_fillWhole hb]
      exact List.mem_cons_of_mem _ hx
  | part hb _ _ hlt =>
      obtain ⟨es, he, he'⟩ := restingOn_fillPart hb
      intro x hx
      rw [he'] at hx
      rcases List.mem_cons.mp hx with rfl | hx
      · exact Nat.sub_pos_of_lt hlt
      · exact ho x (he ▸ List.mem_cons_of_mem _ hx)

/-- An exhausted taker, or one that crosses nothing, has been served. -/
theorem Served.of_done (hd : Done side s) (hne : s.book.NoEmptyLevel) (ho : OpenOpposite side s) :
    Served side s s := by
  rcases Nat.eq_zero_or_pos s.taker.leaves with h0 | hpos
  · have hopen : ∀ x ∈ s.book.reach side s.taker.ord.price, 0 < openQty x := fun x hx =>
      ho x ((List.takeWhile_prefix _).subset hx)
    refine ⟨?_, ?_, ?_, rfl⟩
    · rw [h0, Nat.zero_sub, ← h0]
    · rw [h0, Greedy.fills_zero, fillReports, List.append_nil]
    · rw [h0, Greedy.rest_zero (fun _ => rfl) hopen, reach_append_beyond]
  · have hreach : s.book.reach side s.taker.ord.price = [] := by
      unfold reach
      cases hb : s.book.best? side.opp with
      | none => rw [restingOn_of_best?_none hb, List.takeWhile_nil]
      | some e =>
          obtain ⟨n, es, he⟩ := restingOn_of_best? hne hb
          rw [he, List.takeWhile_cons_of_neg (by simp [crosses, hd hpos _ _ hb])]
    refine ⟨?_, ?_, ?_, rfl⟩
    · rw [available, hreach, List.map_nil, List.sum_nil, Nat.sub_zero]
    · rw [hreach, Greedy.fills_nil, fillReports, List.append_nil]
    · rw [← s.book.reach_append_beyond side s.taker.ord.price, hreach, Greedy.rest_nil]

/-- A fill does the first piece of the service. -/
theorem Served.of_fillStep (h : FillStep side s s') (hs' : Served side s' e) : Served side s e := by
  obtain ⟨ht, hr, hopp, hown⟩ := hs'
  cases h with
  | @whole px maker rest hb hc hpos hle =>
      have hle' : openQty (px, maker) ≤ s.taker.leaves := hle
      have hcons := restingOn_fillWhole hb
      have hreach : s.book.reach side s.taker.ord.price = (px, maker) ::
          (s.fillWhole side.opp px maker rest).book.reach side s.taker.ord.price :=
        reach_of_cons hcons hc
      have hbeyond : s.book.beyond side s.taker.ord.price =
          (s.fillWhole side.opp px maker rest).book.beyond side s.taker.ord.price :=
        beyond_of_cons hcons hc
      refine ⟨?_, ?_, ?_, hown.trans (levels_fillWhole side)⟩
      · rw [ht, available, available, hreach, List.map_cons, List.sum_cons, ← Nat.sub_sub]
        rfl
      · rw [hr, hreach, Greedy.fills_of_le hpos hle']
        simp [Matching.fillWhole, fillReports, openQty]
      · rw [hopp, hreach, hbeyond, Greedy.rest_of_le hle']
        rfl
  | @part px maker rest hb hc hpos hlt =>
      have hlt' : s.taker.leaves < openQty (px, maker) := hlt
      obtain ⟨es, he, he'⟩ := restingOn_fillPart hb
      have hreach := reach_of_cons he hc
      have hreach' : (s.fillPart side.opp px maker rest).book.reach side s.taker.ord.price =
          reduceBy (px, maker) s.taker.leaves :: es.takeWhile (crosses side s.taker.ord.price) :=
        reach_of_cons he' hc
      have hbeyond : (s.fillPart side.opp px maker rest).book.beyond side s.taker.ord.price =
          s.book.beyond side s.taker.ord.price :=
        (beyond_of_cons he' hc).trans (beyond_of_cons he hc).symm
      have hleft : 0 < openQty (reduceBy (px, maker) s.taker.leaves) := Nat.sub_pos_of_lt hlt
      refine ⟨?_, ?_, ?_, hown.trans (levels_fillPart side)⟩
      · have hav : s.book.available side s.taker.ord.price = openQty (px, maker) +
            ((es.takeWhile (crosses side s.taker.ord.price)).map openQty).sum := by
          rw [available, hreach, List.map_cons, List.sum_cons]
        have hnone : s.taker.leaves - s.book.available side s.taker.ord.price = 0 := by omega
        rw [ht, hnone]
        simp [Matching.fillPart]
      · rw [hr, hreach, Greedy.fills_of_lt hpos hlt']
        simp [Matching.fillPart, fillReports]
      · rw [hopp, hreach, Greedy.rest_of_lt hlt']
        show Greedy.rest openQty reduceBy 0 ((s.fillPart side.opp px maker rest).book.reach side
            s.taker.ord.price) ++ (s.fillPart side.opp px maker rest).book.beyond side
            s.taker.ord.price = _
        rw [hreach', hbeyond, Greedy.rest_of_lt hleft]
        rfl

/-- **The matching loops serve the taker greedily.** -/
theorem matchSide_served (hne : s.book.NoEmptyLevel) (ho : OpenOpposite side s) :
    Served side s (matchSide side s) := by
  have hfills : ReflTransGen (FillStep side) s (matchSide side s) := matchSide_fills hne
  have hne' := fills_invariant (P := fun t => t.book.NoEmptyLevel)
    (fun _ _ h hs => hs.noEmptyLevel h) hfills hne
  have ho' := fills_invariant (P := OpenOpposite side) (fun _ _ h hs => hs.openOpposite h) hfills ho
  have hd := matchSide_done side s
  generalize matchSide side s = e at *
  induction hfills using ReflTransGen.head_induction_on with
  | refl => exact Served.of_done hd hne' ho'
  | head h _ ih => exact Served.of_fillStep h (ih (h.noEmptyLevel hne) (h.openOpposite ho))

end served

/-! ### The incoming order -/

section arrival
variable {b : EngineBook} {o : Order}

/-- The incoming order is served greedily by the orders it reaches. -/
theorem arrive_served (hne : b.NoEmptyLevel) (ho : ∀ x ∈ b.restingOn o.side.opp, 0 < openQty x) :
    (b.arrive o).taker = ⟨o, o.qty - b.available o.side o.price⟩ ∧
    (b.arrive o).book.sink = b.sink ++ newReport ⟨o, o.qty⟩ ::
      fillReports o o.qty (Greedy.fills openQty o.qty (b.reach o.side o.price)) ∧
    (b.arrive o).book.restingOn o.side.opp =
      Greedy.rest openQty reduceBy o.qty (b.reach o.side o.price) ++ b.beyond o.side o.price ∧
    (b.arrive o).book.levels o.side = b.levels o.side := by
  have hs : Served o.side ⟨b.publish (newReport ⟨o, o.qty⟩), ⟨o, o.qty⟩⟩ (b.arrive o) :=
    matchSide_served (fun s px => by simpa using hne s px) fun x hx => ho x (by simpa using hx)
  refine ⟨by simpa using hs.taker, ?_, by simpa using hs.opposite, by simpa using hs.own⟩
  rw [hs.reports, sink_publish, reach_publish, List.append_assoc, List.singleton_append]

/-- What remains of the incoming order. -/
theorem arrive_leaves (hne : b.NoEmptyLevel) (ho : ∀ x ∈ b.restingOn o.side.opp, 0 < openQty x) :
    (b.arrive o).taker.leaves = o.qty - b.available o.side o.price := by
  rw [(arrive_served hne ho).1]

end arrival

/-! ### Priced orders

A limit order with a price and a market order without one, in a book without sentinel prices.
There the order accepts a level exactly when its limit allows the price. -/

section priced
variable {b : EngineBook} {o : Order} {px : PriceTicks}

/-- Whether the limit of `o` allows the price; a market order allows every price. -/
def accepts (o : Order) (px : PriceTicks) : Bool :=
  o.type = .market || match o.side with
    | .bid => decide (px ≤ o.price)
    | .ask => decide (o.price ≤ px)

/-- The opposite resting orders that `o` accepts, in price-time order. -/
def accepted (b : EngineBook) (o : Order) : List (PriceTicks × Node) :=
  (b.restingOn o.side.opp).filter fun e => accepts o e.1

/-- The opposite resting orders that `o` does not accept, in price-time order. -/
def refused (b : EngineBook) (o : Order) : List (PriceTicks × Node) :=
  (b.restingOn o.side.opp).filter fun e => !accepts o e.1

/-- A limit order with a price or a market order without one. -/
def Priced (o : Order) : Prop :=
  o.type = .limit ∧ o.price ≠ kNoPrice ∨ o.type = .market ∧ o.price = kNoPrice

/-- Levels are nonempty and priced; nodes are open and stand at their own side and price. -/
structure Regular (b : EngineBook) : Prop where
  noEmpty : b.NoEmptyLevel
  node : ∀ s px, ∀ n ∈ b.queueFor s px, 0 < n.leaves ∧ n.ord.side = s ∧ n.ord.price = px
  priced : ∀ s px, b.queueFor s px ≠ [] → px ≠ kNoPrice

theorem Regular.of_levels (h : ∀ s, ∀ e ∈ b.levels s, e.2 ≠ [] ∧ e.1 ≠ kNoPrice ∧
    ∀ n ∈ e.2, 0 < n.leaves ∧ n.ord.side = s ∧ n.ord.price = e.1) : b.Regular where
  noEmpty s px hq := (h s _ (mem_levels_iff.mpr hq)).1 rfl
  node s px n hn := by
    cases hq : b.queue? s px with
    | none => simp [queueFor, hq] at hn
    | some q =>
        rw [queueFor_of_queue? hq] at hn
        exact (h s _ (mem_levels_iff.mpr hq)).2.2 n hn
  priced s px hne := by
    cases hq : b.queue? s px with
    | none => simp [queueFor, hq] at hne
    | some q => exact (h s _ (mem_levels_iff.mpr hq)).2.1

theorem isLimitCross_eq_accepts (ho : Priced o) (hpx : px ≠ kNoPrice) :
    isLimitCross o.side o.price px = accepts o px := by
  rcases ho with ⟨ht, hp⟩ | ⟨ht, hp⟩
  · have hsent : ¬ (o.price = kNoPrice ∨ px = kNoPrice) := not_or.mpr ⟨hp, hpx⟩
    unfold isLimitCross accepts
    rw [if_neg hsent, ht]
    cases o.side <;> simp
  · simp [isLimitCross, accepts, ht, hp]

/-- Later resting orders of a side have no better price. -/
theorem restingOn_sorted (b : EngineBook) (s : Side) : (b.restingOn s).Pairwise fun e e' =>
    match s with
    | .bid => e'.1 ≤ e.1
    | .ask => e.1 ≤ e'.1 := by
  unfold restingOn
  rw [List.pairwise_flatMap]
  constructor
  · rintro ⟨px, q⟩ -
    rw [List.pairwise_map]
    refine List.pairwise_of_forall fun x y => ?_
    cases s <;> exact le_rfl
  · refine (b.levels_pairwise s).imp ?_
    rintro ⟨px, q⟩ ⟨px', q'⟩ hlt x hx y hy
    obtain ⟨n, -, rfl⟩ := List.mem_map.mp hx
    obtain ⟨n', -, rfl⟩ := List.mem_map.mp hy
    cases s <;> exact le_of_lt hlt

/-- What a refused order hides is refused. -/
theorem accepts_antitone (b : EngineBook) (o : Order) :
    (b.restingOn o.side.opp).Pairwise fun e e' => accepts o e'.1 → accepts o e.1 := by
  refine (b.restingOn_sorted o.side.opp).imp ?_
  intro e e'
  unfold accepts
  cases o.side
  · intro hle h
    simp only [Bool.or_eq_true, decide_eq_true_eq] at *
    exact h.imp_right (le_trans hle)
  · intro hle h
    simp only [Bool.or_eq_true, decide_eq_true_eq] at *
    exact h.imp_right fun h => le_trans h hle

theorem takeWhile_eq_filter {α : Type*} {p : α → Bool} : ∀ {l : List α},
    (l.Pairwise fun x y => p y → p x) → l.takeWhile p = l.filter p ∧
      l.dropWhile p = l.filter fun x => !p x
  | [], _ => ⟨rfl, rfl⟩
  | x :: l, h => by
      obtain ⟨hx, hl⟩ := List.pairwise_cons.mp h
      by_cases hp : p x = true
      · obtain ⟨h1, h2⟩ := takeWhile_eq_filter hl
        rw [List.takeWhile_cons_of_pos hp, List.dropWhile_cons_of_pos hp, h1, h2]
        simp [hp]
      · have hnone : ∀ y ∈ l, p y = false := fun y hy => by
          by_contra hy'
          exact hp (hx y hy (by simpa using hy'))
        rw [List.takeWhile_cons_of_neg hp, List.dropWhile_cons_of_neg hp]
        constructor
        · rw [List.filter_cons_of_neg hp, List.filter_eq_nil_iff.mpr (by simpa using hnone)]
        · rw [List.filter_eq_self.mpr]
          simpa [hp] using hnone

/-- The orders reached are those accepted. -/
theorem Regular.reach_eq (hb : b.Regular) (ho : Priced o) :
    b.reach o.side o.price = b.accepted o ∧ b.beyond o.side o.price = b.refused o := by
  have hcross : ∀ e ∈ b.restingOn o.side.opp, crosses o.side o.price e = accepts o e.1 := by
    rintro ⟨px, n⟩ he
    refine isLimitCross_eq_accepts ho (hb.priced o.side.opp px ?_)
    exact List.ne_nil_of_mem (mem_restingOn_iff.mp he)
  have hmono : (b.restingOn o.side.opp).Pairwise fun e e' =>
      crosses o.side o.price e' → crosses o.side o.price e := by
    refine (b.accepts_antitone o).imp_of_mem ?_
    intro e e' he he' h
    rwa [hcross e he, hcross e' he']
  obtain ⟨h1, h2⟩ := takeWhile_eq_filter hmono
  refine ⟨h1.trans (List.filter_congr hcross), h2.trans (List.filter_congr fun e he => ?_)⟩
  rw [hcross e he]

theorem Regular.openQty_pos (hb : b.Regular) (s : Side) : ∀ x ∈ b.restingOn s, 0 < openQty x :=
  fun ⟨px, n⟩ hx => (hb.node s px n (mem_restingOn_iff.mp hx)).1

/-- The reports of fills are the trades that executed something. -/
theorem fillReports_trades (taker : Order) : ∀ (leaves : ℕ) (fs : List ((PriceTicks × Node) × ℕ)),
    (∀ f ∈ fs, 0 < f.2) → ∀ r ∈ fillReports taker leaves fs, r.execType = .trade ∧ 0 < r.lastQty
  | _, [], _, _, hr => by simp [fillReports] at hr
  | leaves, ((px, maker), dq) :: fs, hpos, r, hr => by
      have hdq : 0 < dq := hpos _ List.mem_cons_self
      rw [fillReports, List.mem_cons, List.mem_cons] at hr
      rcases hr with rfl | rfl | hr
      · exact ⟨rfl, hdq⟩
      · exact ⟨rfl, hdq⟩
      · exact fillReports_trades taker _ fs (fun f hf => hpos f (List.mem_cons_of_mem _ hf)) r hr

/-- **`on_new` is price-time matching.**  Both loops end by their own tests; the reports that
execute something are the greedy fills of the accepted orders; what is left of these, before the
orders refused, is the opposite side afterwards; and a limit order rests with its remainder at
the back of its level. -/
theorem onNew_priceTime (hb : b.Regular) (ho : Priced o) :
    (matchStep o.side (b.arrive o) = none ∧ ∀ (s : Matching) px q, s.book.best? o.side.opp = some (px, q) →
      sweepStep o.side.opp px (whileLoop (sweepStep o.side.opp px) q.length s) = none) ∧
    (∃ rs, (b.onNew o).sink = b.sink ++ rs ∧
      rs.filter (fun r => r.execType = .trade ∧ 0 < r.lastQty) =
        fillReports o o.qty (Greedy.fills openQty o.qty (b.accepted o))) ∧
    ((Greedy.fills openQty o.qty (b.accepted o)).map Prod.snd).sum =
      min o.qty ((b.accepted o).map openQty).sum ∧
    (∀ pre e n post, Greedy.fills openQty o.qty (b.accepted o) = pre ++ (e, n) :: post →
      post ≠ [] → n = openQty e) ∧
    (b.onNew o).NoEmptyLevel ∧
    (b.onNew o).restingOn o.side.opp =
      Greedy.rest openQty reduceBy o.qty (b.accepted o) ++ b.refused o ∧
    (∀ px, (b.onNew o).queueFor o.side px =
      if px = o.price ∧ o.type = .limit ∧ ((b.accepted o).map openQty).sum < o.qty then
        b.queueFor o.side px ++ [⟨o, o.qty - ((b.accepted o).map openQty).sum⟩]
      else b.queueFor o.side px) := by
  have hne := hb.noEmpty
  have hopen := hb.openQty_pos o.side.opp
  obtain ⟨hacc, href⟩ := hb.reach_eq ho
  obtain ⟨htaker, hsink, hopp, hown⟩ := arrive_served hne hopen
  have hav : b.available o.side o.price = ((b.accepted o).map openQty).sum := by
    rw [available, hacc]
  rw [hav] at htaker
  rw [hacc] at hsink hopp
  rw [href] at hopp
  have htrades := fillReports_trades o o.qty (Greedy.fills openQty o.qty (b.accepted o))
    (Greedy.fills_pos fun x hx => hopen x (List.mem_of_mem_filter hx))
  refine ⟨⟨matchSide_exits _ _, fun s px q hb => sweep_exits (by rw [queueFor_of_best? hb])⟩, ?_,
    Greedy.fills_sum _ _, fun _ _ _ _ => Greedy.fills_used_up, hne.onNew, ?_, ?_⟩
  · refine ⟨_, by rw [sink_onNew, hsink, List.append_assoc, List.cons_append], ?_⟩
    rw [List.filter_cons_of_neg (by simp [newReport]), List.filter_append,
      List.filter_eq_self.mpr (by simpa using htrades)]
    split_ifs <;> simp [filledReport]
  · rw [restingOn, levels_onNew_opp hne]
    exact hopp
  · intro px
    have hq := queueFor_of_levels hown px
    obtain ⟨hpos, hm, he⟩ | ⟨h0, he⟩ | ⟨-, hm, he⟩ := b.onNew_cases o
    · have hl : o.type = .limit := (ho.resolve_right fun h => hm h.1).1
      rw [htaker] at hpos he
      rw [he, queueFor_enqueue, hq]
      have hlt : ((b.accepted o).map openQty).sum < o.qty := Nat.lt_of_sub_pos hpos
      simp [hl, hlt]
    · rw [htaker] at h0
      have hge : ¬ ((b.accepted o).map openQty).sum < o.qty := by
        have : o.qty - ((b.accepted o).map openQty).sum = 0 := h0
        omega
      rw [he, queueFor_publish, hq, if_neg fun h => hge h.2.2]
    · rw [he, hq, if_neg]
      rintro ⟨-, hl, -⟩
      rw [hm] at hl
      cases hl

/-- Two asks at 100 and one at 101, swept by a bid that takes the level and half of the next. -/
theorem onNew_priceTime_sweep :
    let b := ((empty.onNew { orderId := 1, side := .ask, price := 100, qty := 2 }).onNew
      { orderId := 2, side := .ask, price := 100, qty := 3 }).onNew
      { orderId := 3, side := .ask, price := 101, qty := 4 }
    let o : Order := { orderId := 4, side := .bid, price := 101, qty := 7 }
    ∃ rs, (b.onNew o).sink = b.sink ++ rs ∧
      rs.filter (fun r => r.execType = .trade ∧ 0 < r.lastQty) =
        fillReports o 7 (Greedy.fills openQty 7 (b.accepted o)) := by
  intro b o
  have hb : b.Regular := Regular.of_levels fun s => by cases s <;> decide
  exact (onNew_priceTime hb (.inl ⟨rfl, by decide⟩)).2.1

end priced

end EngineBook
end Trading
