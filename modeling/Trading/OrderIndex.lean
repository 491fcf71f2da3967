import Trading.OrderIds

/-! # The order index

`loc_` remembers where every resting order stands, as a position in the queue of its level.
`ExactIndex` says that it remembers exactly the resting orders, at their true positions.
`enqueue` and `erase_at` keep it exact; the matching loops pop the front of a queue without
telling the orders behind it, so that a level that loses its front order and is left standing is
remembered with shifted positions.  `IndexedFrom off` describes such a state: the entries of the
queue at side `s` and price `px` are ahead of the true positions by `off s px`.

The index is exact in every state of a run if and only if no incoming order ends inside a level
after it has taken the front order of the level whole (`exactIndex_iff`). -/

namespace Trading
namespace EngineBook

open Transition
open Relation (ReflTransGen)

/-- `loc_` has an entry for exactly the resting orders, and the entry is the true position. -/
structure ExactIndex (b : EngineBook) : Prop where
  entry : ∀ id, b.loc.find? id ≠ none ↔ id ∈ b.restingIds
  position : ∀ s px i n, (b.queueFor s px)[i]? = some n →
    b.loc.find? n.ord.orderId = some ⟨s, px, i⟩

/-- The entries of the queue at `s` and `px` are ahead of the positions by `off s px`. -/
def IndexedFrom (off : Side → PriceTicks → ℕ) (b : EngineBook) : Prop :=
  ∀ id l, b.loc.find? id = some l ↔ ∃ i n, (b.queueFor l.side l.px)[i]? = some n ∧
    n.ord.orderId = id ∧ l.idx = i + off l.side l.px

/-- The entry of `id` stands at an order of that id, if there is an entry. -/
def Named (b : EngineBook) (id : OrderId) : Prop :=
  ∀ lc, b.loc.find? id = some lc → ∃ n, (b.queueFor lc.side lc.px)[lc.idx]? = some n ∧
    n.ord.orderId = id

/-! ### Levels that lose their front -/

/-- An order of quantity `qty` that accepts the prices in `cross` and sweeps the levels ends
inside one of them, the front order of the level being gone.  `popped` says that the first level
has lost its front order already. -/
def splits (cross : PriceTicks → Bool) : Prop → ℕ → List (PriceTicks × Queue) → Prop
  | _, _, [] => False
  | popped, qty, (px, q) :: es =>
      cross px = true ∧
        if (q.map Node.leaves).sum ≤ qty then splits cross False (qty - (q.map Node.leaves).sum) es
        else popped ∨ ∃ n ∈ q.head?, n.leaves ≤ qty

/-- The incoming order `o` ends inside a level after taking its front order whole. -/
def SplitsLevel (b : EngineBook) (o : Order) : Prop :=
  splits (isLimitCross o.side o.price) False o.qty (b.levels o.side.opp)

/-- The order that a command brings into matching: a new one, or the one that `on_replace` finds,
with its new quantity and price. -/
def incoming (b : EngineBook) : OrderCmd → Option Order
  | .new o => some o
  | .cancel _ => none
  | .replace id newPx newQty =>
      (b.loc.find? id).bind fun lc => ((b.queueFor lc.side lc.px)[lc.idx]?).map fun n =>
        (adjust n newPx newQty).ord

section index
variable {b : EngineBook} {off off' : Side → PriceTicks → ℕ} {side opp : Side} {s e : Matching}
  {px : PriceTicks} {maker : Node} {rest : Queue}

theorem exactIndex_iff_indexedFrom : ExactIndex b ↔ IndexedFrom (fun _ _ => 0) b := by
  constructor
  · intro h id l
    constructor
    · intro hl
      obtain ⟨s, px, n, hn, hid⟩ := mem_restingIds_iff.mp ((h.entry id).mp (by simp [hl]))
      obtain ⟨i, hi⟩ := List.getElem?_of_mem hn
      have hp := h.position s px i n hi
      rw [hid, hl] at hp
      obtain rfl := Option.some_inj.mp hp
      exact ⟨i, n, hi, hid, rfl⟩
    · rintro ⟨i, n, hi, rfl, hidx⟩
      rw [h.position _ _ i n hi]
      obtain ⟨s, px, idx⟩ := l
      simp_all
  · intro h
    have hpos : ∀ s px i n, (b.queueFor s px)[i]? = some n →
        b.loc.find? n.ord.orderId = some ⟨s, px, i⟩ := fun s px i n hi =>
      (h _ _).mpr ⟨i, n, hi, rfl, rfl⟩
    refine ⟨fun id => ⟨fun hne => ?_, fun hid => ?_⟩, hpos⟩
    · obtain ⟨l, hl⟩ := Option.ne_none_iff_exists'.mp hne
      obtain ⟨i, n, hi, hid, -⟩ := (h id l).mp hl
      exact mem_restingIds_iff.mpr ⟨_, _, n, List.mem_of_getElem? hi, hid⟩
    · obtain ⟨s, px, n, hn, rfl⟩ := mem_restingIds_iff.mp hid
      obtain ⟨i, hi⟩ := List.getElem?_of_mem hn
      simp [hpos s px i n hi]

/-- An exact index, level by level. -/
theorem ExactIndex.of_levels (hloc : ∀ e ∈ b.loc.entries, e.1 ∈ b.restingIds)
    (hpos : ∀ s, ∀ e ∈ b.levels s, ∀ x ∈ e.2.zipIdx,
      b.loc.find? x.1.ord.orderId = some ⟨s, e.1, x.2⟩) : ExactIndex b := by
  have hposition : ∀ s px i n, (b.queueFor s px)[i]? = some n →
      b.loc.find? n.ord.orderId = some ⟨s, px, i⟩ := by
    intro s px i n hn
    obtain ⟨q, hq⟩ := exists_queue? (List.ne_nil_of_mem (List.mem_of_getElem? hn))
    rw [queueFor_of_queue? hq] at hn
    exact hpos s (px, q) (mem_levels_iff.mpr hq) (n, i) (List.mk_mem_zipIdx_iff_getElem?.mpr hn)
  refine ⟨fun id => ⟨fun hne => ?_, fun hid => ?_⟩, hposition⟩
  · obtain ⟨l, hl⟩ := Option.ne_none_iff_exists'.mp hne
    exact hloc (id, l) (b.loc.mem_entries_iff.mpr hl)
  · obtain ⟨s, px, n, hn, rfl⟩ := mem_restingIds_iff.mp hid
    obtain ⟨i, hi⟩ := List.getElem?_of_mem hn
    simp [hposition s px i n hi]

/-- An id stands at one position only. -/
theorem IndexedFrom.position_unique (h : IndexedFrom off b) {s s' : Side} {px px' : PriceTicks}
    {i i' : ℕ} {n n' : Node} (hn : (b.queueFor s px)[i]? = some n)
    (hn' : (b.queueFor s' px')[i']? = some n') (hid : n.ord.orderId = n'.ord.orderId) :
    s = s' ∧ px = px' ∧ i = i' := by
  have h1 := (h n.ord.orderId ⟨s, px, i + off s px⟩).mpr ⟨i, n, hn, rfl, rfl⟩
  have h2 := (h n.ord.orderId ⟨s', px', i' + off s' px'⟩).mpr ⟨i', n', hn', hid.symm, rfl⟩
  rw [h1] at h2
  obtain ⟨rfl, rfl, hidx⟩ := Loc.mk.inj (Option.some_inj.mp h2)
  exact ⟨rfl, rfl, by omega⟩

/-- Offsets of empty queues do not matter. -/
theorem IndexedFrom.congr (h : IndexedFrom off b)
    (hoff : ∀ s px, b.queueFor s px ≠ [] → off s px = off' s px) : IndexedFrom off' b := by
  intro id l
  rw [h id l]
  constructor
  · rintro ⟨i, n, hn, hid, hidx⟩
    exact ⟨i, n, hn, hid, by rw [hidx, hoff _ _ (List.ne_nil_of_mem (List.mem_of_getElem? hn))]⟩
  · rintro ⟨i, n, hn, hid, hidx⟩
    exact ⟨i, n, hn, hid, by rw [hidx, hoff _ _ (List.ne_nil_of_mem (List.mem_of_getElem? hn))]⟩

/-- A shifted index is exact only where nothing stands. -/
theorem IndexedFrom.exact_iff (h : IndexedFrom off b) :
    IndexedFrom (fun _ _ => 0) b ↔ ∀ s px, b.queueFor s px ≠ [] → off s px = 0 := by
  constructor
  · intro h0 s px hne
    obtain ⟨n, q, hq⟩ := List.exists_cons_of_ne_nil hne
    have hn : (b.queueFor s px)[0]? = some n := by simp [hq]
    have h1 := (h n.ord.orderId ⟨s, px, 0 + off s px⟩).mpr ⟨0, n, hn, rfl, rfl⟩
    have h2 := (h0 n.ord.orderId ⟨s, px, 0⟩).mpr ⟨0, n, hn, rfl, rfl⟩
    rw [h1] at h2
    have := (Loc.mk.inj (Option.some_inj.mp h2)).2.2
    omega
  · exact fun hoff => h.congr hoff

/-- A complete fill shifts the queue it pops. -/
theorem IndexedFrom.fillWhole (h : IndexedFrom off s.book)
    (hq : s.book.queueFor opp px = maker :: rest) :
    IndexedFrom (fun s' px' => off s' px' + if s' = opp ∧ px' = px then 1 else 0)
      (s.fillWhole opp px maker rest).book := by
  have hmaker : (s.book.queueFor opp px)[0]? = some maker := by simp [hq]
  have hrest : ∀ i, (s.book.queueFor opp px)[i + 1]? = rest[i]? := fun i => by simp [hq]
  intro id l
  rw [loc_fillWhole, OrdMap.find?_erase, queueFor_fillWhole]
  by_cases hid : id = maker.ord.orderId
  · -- the entry of the maker is erased, and no other order has its id
    rw [if_pos hid]
    refine iff_of_false (by simp) ?_
    rintro ⟨i, n, hn, hnid, -⟩
    split_ifs at hn with hk
    · rw [← hrest] at hn
      have := (h.position_unique hmaker hn (hnid.trans hid).symm).2.2
      omega
    · obtain ⟨hs, hp, -⟩ := h.position_unique hmaker hn (hnid.trans hid).symm
      exact hk ⟨hs.symm, hp.symm⟩
  · rw [if_neg hid, h id l]
    split_ifs with hk
    · simp only [hk.1, hk.2, and_self, if_true]
      constructor
      · rintro ⟨i, n, hn, hnid, hidx⟩
        cases i with
        | zero =>
            rw [hmaker, Option.some_inj] at hn
            exact absurd (hnid.symm.trans (hn ▸ rfl)) hid
        | succ i => exact ⟨i, n, hrest i ▸ hn, hnid, by omega⟩
      · rintro ⟨i, n, hn, hnid, hidx⟩
        exact ⟨i + 1, n, hrest i ▸ hn, hnid, by omega⟩
    · simp only [if_neg hk, Nat.add_zero]

/-- A partial fill keeps every position. -/
theorem IndexedFrom.fillPart (h : IndexedFrom off s.book)
    (hq : s.book.queueFor opp px = maker :: rest) :
    IndexedFrom off (s.fillPart opp px maker rest).book := by
  intro id l
  rw [loc_fillPart, h id l, queueFor_fillPart]
  split_ifs with hk
  · rw [hk.1, hk.2, hq]
    constructor
    · rintro ⟨i, n, hn, hnid, hidx⟩
      cases i with
      | zero =>
          obtain rfl := Option.some_inj.mp hn
          exact ⟨0, _, rfl, hnid, hidx⟩
      | succ i => exact ⟨i + 1, n, hn, hnid, hidx⟩
    · rintro ⟨i, n, hn, hnid, hidx⟩
      cases i with
      | zero =>
          obtain rfl := Option.some_inj.mp hn
          exact ⟨0, maker, rfl, hnid, hidx⟩
      | succ i => exact ⟨i + 1, n, hn, hnid, hidx⟩
  · rfl

/-- The offsets when only the best level of `s` has lost orders, `k` of them. -/
def bestOff (b : EngineBook) (s : Side) (k : ℕ) : Side → PriceTicks → ℕ := fun s' px' =>
  if s' = s ∧ (b.best? s).map Prod.fst = some px' then k else 0

theorem levels_fillWhole_opp {es : List (PriceTicks × Queue)}
    (hl : s.book.levels opp = (px, maker :: rest) :: es) :
    (s.fillWhole opp px maker rest).book.levels opp =
      if rest = [] then es else (px, rest) :: es :=
  levels_putQueue_best (by simpa using hl)

theorem levels_fillPart_opp {es : List (PriceTicks × Queue)}
    (hl : s.book.levels opp = (px, maker :: rest) :: es) :
    (s.fillPart opp px maker rest).book.levels opp =
      (px, { maker with leaves := maker.leaves - s.taker.leaves } :: rest) :: es := by
  refine (levels_putQueue_best (by simpa using hl)).trans ?_
  simp

theorem bestOff_of_levels {es : List (PriceTicks × Queue)} {q : Queue} {k : ℕ}
    (hl : b.levels opp = (px, q) :: es) (s' : Side) (px' : PriceTicks) :
    b.bestOff opp k s' px' = if s' = opp ∧ px' = px then k else 0 := by
  have hb : (b.best? opp).map Prod.fst = some px := by
    rw [best?_eq_head?, hl]
    rfl
  simp only [bestOff, hb, Option.some_inj, eq_comm]

theorem bestOff_of_levels_nil {k : ℕ} (hl : b.levels opp = []) (s' : Side) (px' : PriceTicks) :
    b.bestOff opp k s' px' = 0 := by
  have hb : (b.best? opp).map Prod.fst = none := by
    rw [best?_eq_head?, hl]
    rfl
  simp [bestOff, hb]

/-! ### Splitting under fills -/

variable {cross : PriceTicks → Bool} {popped : Prop} {qty : ℕ} {es : List (PriceTicks × Queue)}

/-- A maker that goes whole leaves the question to the orders behind it. -/
theorem splits_whole (hc : cross px = true) (hle : maker.leaves ≤ qty) :
    splits cross popped qty ((px, maker :: rest) :: es) ↔
      splits cross (rest ≠ []) (qty - maker.leaves) (if rest = [] then es else (px, rest) :: es) := by
  have hsum : ((maker :: rest).map Node.leaves).sum = maker.leaves + (rest.map Node.leaves).sum := by
    rw [List.map_cons, List.sum_cons]
  by_cases hr : rest = []
  · subst hr
    simp only [splits, hsum, List.map_nil, List.sum_nil, Nat.add_zero, if_pos hle, hc, true_and,
      if_true, ne_eq, not_true_eq_false]
  · rw [if_neg hr]
    simp only [splits, hsum, hc, true_and]
    by_cases hq : (rest.map Node.leaves).sum ≤ qty - maker.leaves
    · rw [if_pos hq, if_pos (by omega), Nat.sub_sub]
    · rw [if_neg hq, if_neg (by omega)]
      exact iff_of_true (.inr ⟨maker, rfl, hle⟩) (.inl hr)

/-- With nothing left of the incoming order only the past counts. -/
theorem splits_zero (hpos : 0 < maker.leaves) (hc : popped → cross px = true) :
    splits cross popped 0 ((px, maker :: rest) :: es) ↔ popped := by
  have hsum : ¬ ((maker :: rest).map Node.leaves).sum ≤ 0 := by
    rw [List.map_cons, List.sum_cons]
    omega
  simp only [splits, if_neg hsum]
  constructor
  · rintro ⟨-, hp | ⟨n, hn, hle⟩⟩
    · exact hp
    · obtain rfl := Option.some_inj.mp hn
      omega
  · exact fun hp => ⟨hc hp, .inl hp⟩

/-- A maker that is not used up ends the sweep. -/
theorem splits_part (hc : cross px = true) (hlt : qty < maker.leaves) :
    splits cross popped qty ((px, maker :: rest) :: es) ↔ popped := by
  have hsum : ¬ ((maker :: rest).map Node.leaves).sum ≤ qty := by
    rw [List.map_cons, List.sum_cons]
    omega
  simp only [splits, if_neg hsum, hc, true_and]
  constructor
  · rintro (hp | ⟨n, hn, hle⟩)
    · exact hp
    · obtain rfl := Option.some_inj.mp hn
      omega
  · exact .inl

/-- When matching has ended, the index is exact unless the best level has lost its front order. -/
theorem exact_iff_of_done {k : ℕ} (hd : Done side e) (hs : Sound e.book)
    (hI : IndexedFrom (e.book.bestOff side.opp k) e.book)
    (hk : 0 < k → ∀ px q, e.book.best? side.opp = some (px, q) →
      isLimitCross side e.taker.ord.price px = true) :
    IndexedFrom (fun _ _ => 0) e.book ↔
      ¬ splits (isLimitCross side e.taker.ord.price) (0 < k) e.taker.leaves
        (e.book.levels side.opp) := by
  cases hl : e.book.levels side.opp with
  | nil =>
      refine iff_of_true (hI.congr fun s px _ => bestOff_of_levels_nil hl s px) ?_
      exact fun h => h
  | cons lv es =>
      obtain ⟨px, q⟩ := lv
      have hb : e.book.best? side.opp = some (px, q) := best?_eq_some_iff.mpr ⟨es, hl⟩
      have hne := hs.noEmpty side.opp px
      have hq := queueFor_of_best? hb
      cases q with
      | nil => exact absurd (queue?_of_best? hb) hne
      | cons n q =>
          have hn : 0 < n.leaves := (hs.node side.opp px n (hq ▸ List.mem_cons_self)).pos
          have hexact : IndexedFrom (fun _ _ => 0) e.book ↔ ¬ 0 < k := by
            rw [hI.exact_iff]
            constructor
            · intro h
              have h := h side.opp px (by simp [hq])
              rw [bestOff_of_levels hl, if_pos ⟨rfl, rfl⟩] at h
              omega
            · intro h s' px' _
              rw [bestOff_of_levels hl]
              split_ifs
              · omega
              · rfl
          have hcross := fun hk0 => hk hk0 px (n :: q) hb
          rw [hexact]
          rcases Nat.eq_zero_or_pos e.taker.leaves with h0 | hpos
          · rw [h0, splits_zero hn hcross]
          · have hout := hd hpos px _ hb
            have hk0 : ¬ 0 < k := fun hk0 => by simp [hcross hk0] at hout
            exact iff_of_true hk0 fun h => by simp [h.1] at hout

/-- The index is exact after the fills if and only if they do not end inside a level that has
lost its front order; `k` orders have left the best level before. -/
theorem exact_iff_not_splits {k : ℕ} (hf : ReflTransGen (FillStep side) s e) (hd : Done side e)
    (hs : Sound s.book) (hI : IndexedFrom (s.book.bestOff side.opp k) s.book)
    (hk : 0 < k → ∀ px q, s.book.best? side.opp = some (px, q) →
      isLimitCross side s.taker.ord.price px = true) :
    IndexedFrom (fun _ _ => 0) e.book ↔
      ¬ splits (isLimitCross side s.taker.ord.price) (0 < k) s.taker.leaves
        (s.book.levels side.opp) := by
  induction hf using ReflTransGen.head_induction_on generalizing k with
  | refl => exact exact_iff_of_done hd hs hI hk
  | @head s s' h _ ih =>
      have hs' := h.sound hs
      cases h with
      | @whole px maker rest hb hc hpos hle =>
          obtain ⟨es, hl⟩ := best?_eq_some_iff.mp hb
          have hq := queueFor_of_best? hb
          have hl' : (s.fillWhole side.opp px maker rest).book.levels side.opp =
              if rest = [] then es else (px, rest) :: es := levels_fillWhole_opp hl
          have hI' := hI.fillWhole hq
          rw [hl, splits_whole hc hle, ← hl']
          by_cases hr : rest = []
          · -- the level is gone, and with it the offset
            have hk' : (rest ≠ []) = (0 < 0) := by simp [hr]
            rw [hk']
            refine ih hs' (hI'.congr fun s' px' hne => ?_) fun h => absurd h (lt_irrefl 0)
            rw [queueFor_fillWhole, hr] at hne
            have hn : ¬ (s' = side.opp ∧ px' = px) := fun hn => hne (if_pos hn)
            rw [bestOff_of_levels hl, if_neg hn, if_neg hn]
            simp [bestOff]
          · have hk' : (rest ≠ []) = (0 < k + 1) := by simp [hr]
            rw [hk']
            rw [if_neg hr] at hl'
            refine ih hs' (hI'.congr fun s' px' _ => ?_) fun _ px' q' hb' => ?_
            · rw [bestOff_of_levels hl, bestOff_of_levels hl']
              split_ifs <;> rfl
            · obtain ⟨es', he'⟩ := best?_eq_some_iff.mp hb'
              rw [hl', List.cons.injEq, Prod.mk.injEq] at he'
              exact he'.1.1 ▸ hc
      | @part px maker rest hb hc hpos hlt =>
          obtain ⟨es, hl⟩ := best?_eq_some_iff.mp hb
          have hl' : (s.fillPart side.opp px maker rest).book.levels side.opp =
              (px, { maker with leaves := maker.leaves - s.taker.leaves } :: rest) :: es :=
            levels_fillPart_opp hl
          have hI' := hI.fillPart (queueFor_of_best? hb)
          have hcross : ∀ px' q', (s.fillPart side.opp px maker rest).book.best? side.opp =
              some (px', q') → isLimitCross side s.taker.ord.price px' = true := by
            intro px' q' hb'
            obtain ⟨es', he'⟩ := best?_eq_some_iff.mp hb'
            rw [hl', List.cons.injEq, Prod.mk.injEq] at he'
            exact he'.1.1 ▸ hc
          have h := ih hs' (hI'.congr fun s' px' _ => by
            rw [bestOff_of_levels hl, bestOff_of_levels hl']) fun _ => hcross
          have hleft : 0 < maker.leaves - s.taker.leaves := Nat.sub_pos_of_lt hlt
          rw [h, hl, splits_part hc hlt, hl']
          exact not_congr (splits_zero hleft fun _ => hc)

theorem getElem?_concat_eq_some {q : Queue} {n m : Node} {i : ℕ} :
    (q ++ [n])[i]? = some m ↔ q[i]? = some m ∨ i = q.length ∧ m = n := by
  rw [List.getElem?_append]
  split_ifs with hi
  · exact ⟨.inl, fun h => h.resolve_right fun h => by omega⟩
  · have hnone : q[i]? = none := List.getElem?_eq_none (by omega)
    rw [hnone, List.getElem?_singleton]
    split_ifs with h0
    · rw [Option.some_inj]
      exact ⟨fun h => .inr ⟨by omega, h.symm⟩, fun h => h.elim (by simp) fun h => h.2.symm⟩
    · exact ⟨fun h => absurd h (by simp), fun h => h.elim (by simp) fun h => absurd h.1 (by omega)⟩

/-- Enqueueing a fresh order does not decide whether the index is exact. -/
theorem indexed_enqueue_iff {n : Node} (hn : n.ord.orderId ∉ b.restingIds)
    (hloc : b.loc.find? n.ord.orderId = none) :
    IndexedFrom (fun _ _ => 0) (b.enqueue n) ↔ IndexedFrom (fun _ _ => 0) b := by
  have hfresh : ∀ s px i (m : Node), (b.queueFor s px)[i]? = some m → m.ord.orderId ≠ n.ord.orderId :=
    fun s px i m hm hid => hn (mem_restingIds_iff.mpr ⟨s, px, m, List.mem_of_getElem? hm, hid⟩)
  refine forall_congr' fun id => forall_congr' fun l => ?_
  rw [loc_enqueue, OrdMap.find?_set, queueFor_enqueue]
  by_cases hid : id = n.ord.orderId
  · -- the entry and the place of the new order agree
    rw [if_pos hid, hid, hloc]
    refine iff_of_true ⟨?_, ?_⟩ (iff_of_false (by simp) ?_)
    · intro hl
      obtain rfl := Option.some_inj.mp hl
      refine ⟨(b.queueFor n.ord.side n.ord.price).length, n, ?_, rfl, rfl⟩
      rw [if_pos ⟨rfl, rfl⟩, getElem?_concat_eq_some]
      exact .inr ⟨rfl, rfl⟩
    · rintro ⟨i, m, hm, hmid, hidx⟩
      split_ifs at hm with hk
      · obtain hm | ⟨hi, rfl⟩ := getElem?_concat_eq_some.mp hm
        · exact absurd hmid (hfresh _ _ i m hm)
        · obtain ⟨s, px, idx⟩ := l
          obtain ⟨rfl, rfl⟩ := hk
          have hlen : idx = (b.queueFor m.ord.side m.ord.price).length := hidx.trans hi
          rw [hlen]
      · exact absurd hmid (hfresh _ _ i m hm)
    · rintro ⟨i, m, hm, hmid, -⟩
      exact hfresh _ _ i m hm hmid
  · rw [if_neg hid]
    refine iff_congr Iff.rfl ?_
    split_ifs with hk
    · constructor
      · rintro ⟨i, m, hm, hmid, hidx⟩
        obtain hm | ⟨-, rfl⟩ := getElem?_concat_eq_some.mp hm
        · exact ⟨i, m, hm, hmid, hidx⟩
        · exact absurd hmid.symm hid
      · rintro ⟨i, m, hm, hmid, hidx⟩
        exact ⟨i, m, getElem?_concat_eq_some.mpr (.inl hm), hmid, hidx⟩
    · rfl

/-- Entries point at resting orders, so a fresh id has none. -/
theorem Sound.loc_eq_none (h : Sound b) {id : OrderId} (hid : id ∉ b.restingIds) :
    b.loc.find? id = none := by
  by_contra hc
  obtain ⟨l, hl⟩ := Option.ne_none_iff_exists'.mp hc
  exact hid (h.mem_restingIds hl)

/-- **The step condition**: from an exact index an `on_new` of a fresh order leaves an exact
index if and only if the order does not end inside a level after taking its front whole. -/
theorem exactIndex_onNew_iff {o : Order} (hs : Sound b) (h : IndexedFrom (fun _ _ => 0) b)
    (hfresh : o.orderId ∉ b.restingIds) :
    IndexedFrom (fun _ _ => 0) (b.onNew o) ↔ ¬ SplitsLevel b o := by
  have ha : IndexedFrom (fun _ _ => 0) (b.arrive o).book ↔ ¬ SplitsLevel b o := by
    have hI : IndexedFrom (bestOff (b.publish (newReport ⟨o, o.qty⟩)) o.side.opp 0)
        (b.publish (newReport ⟨o, o.qty⟩)) := fun id l => by
      simpa [bestOff] using h id l
    have h := exact_iff_not_splits (arrive_fills hs.noEmpty) (arrive_done b o) (hs.publish _) hI
      fun h => absurd h (lt_irrefl 0)
    rw [h, SplitsLevel, levels_publish, lt_self_iff_false]
  have hsub := (restingIds_arrive (o := o) hs.noEmpty).subset
  have hord : (b.arrive o).taker.ord = o := arrive_ord hs.noEmpty
  have hnid : (b.arrive o).taker.ord.orderId ∉ (b.arrive o).book.restingIds := by
    rw [hord]
    exact fun hc => hfresh (hsub hc)
  obtain ⟨-, -, he⟩ | ⟨-, he⟩ | ⟨-, -, he⟩ := b.onNew_cases o
  · rw [he, indexed_enqueue_iff hnid (hs.arrive.loc_eq_none hnid), ha]
  · rw [he, ← ha]
    refine forall_congr' fun id => forall_congr' fun l => ?_
    rw [loc_publish, queueFor_publish]
  · rw [he, ha]

/-! ### Removal -/

theorem getElem?_back {l m : Queue} {v z : Node} :
    (l ++ v :: (m ++ [z]))[l.length + m.length + 1]? = some z := by
  rw [List.getElem?_append_right (by omega),
    show l.length + m.length + 1 - l.length = m.length + 1 by omega, List.getElem?_cons_succ,
    List.getElem?_concat_length]

/-- A queue in which `z` has moved from the back to the place of `v`. -/
theorem getElem?_refill {l m : Queue} {v z n : Node} {i : ℕ} :
    (l ++ z :: m)[i]? = some n ↔ i = l.length ∧ n = z ∨
      i ≠ l.length ∧ i < (l ++ z :: m).length ∧ (l ++ v :: (m ++ [z]))[i]? = some n := by
  have hlen : (l ++ z :: m).length = l.length + (m.length + 1) := by simp
  rcases Nat.lt_trichotomy i l.length with hi | rfl | hi
  · rw [List.getElem?_append_left hi, List.getElem?_append_left hi]
    exact ⟨fun h => .inr ⟨by omega, by omega, h⟩, fun h => h.elim (fun h => by omega) fun h => h.2.2⟩
  · simp [eq_comm]
  · obtain ⟨k, rfl⟩ := Nat.exists_eq_add_of_lt hi
    have hz : (l ++ z :: m)[l.length + k + 1]? = m[k]? := by
      rw [List.getElem?_append_right (by omega), show l.length + k + 1 - l.length = k + 1 by omega,
        List.getElem?_cons_succ]
    have hv : (l ++ v :: (m ++ [z]))[l.length + k + 1]? = (m ++ [z])[k]? := by
      rw [List.getElem?_append_right (by omega), show l.length + k + 1 - l.length = k + 1 by omega,
        List.getElem?_cons_succ]
    rw [hz, hv]
    constructor
    · intro h
      have hk := (List.getElem?_eq_some_iff.mp h).1
      exact .inr ⟨by omega, by omega, by rwa [List.getElem?_append_left hk]⟩
    · rintro (h | ⟨-, hk, h⟩)
      · omega
      · rwa [List.getElem?_append_left (by omega)] at h

section removal
variable {lc : Loc} {l m : Queue} {v z : Node}

/-- The positions after the order at the back of a queue has been removed. -/
theorem IndexedFrom.getElem?_eraseAt_last (h : IndexedFrom (fun _ _ => 0) b)
    (hq : b.queueFor lc.side lc.px = l ++ [v]) (hi : l.length = lc.idx) {s : Side}
    {px : PriceTicks} {i : ℕ} {n : Node} : ((b.eraseAt lc).queueFor s px)[i]? = some n ↔
      (b.queueFor s px)[i]? = some n ∧ n.ord.orderId ≠ v.ord.orderId := by
  have hv : (b.queueFor lc.side lc.px)[lc.idx]? = some v := by
    rw [hq, ← hi, List.getElem?_concat_length]
  rw [eraseAt_of_last hq hi, queueFor_eraseLoc, queueFor_putQueue]
  by_cases hk : s = lc.side ∧ px = lc.px
  · obtain ⟨rfl, rfl⟩ := hk
    rw [if_pos ⟨rfl, rfl⟩]
    constructor
    · intro hn
      have hlt := (List.getElem?_eq_some_iff.mp hn).1
      have hn' : (b.queueFor lc.side lc.px)[i]? = some n := by
        rwa [hq, List.getElem?_append_left hlt]
      refine ⟨hn', fun hc => ?_⟩
      have := (h.position_unique hn' hv hc).2.2
      omega
    · rintro ⟨hn, hne⟩
      rw [hq, getElem?_concat_eq_some] at hn
      obtain hn | ⟨-, rfl⟩ := hn
      · exact hn
      · exact absurd rfl hne
  · rw [if_neg hk]
    refine ⟨fun hn => ⟨hn, fun hc => ?_⟩, And.left⟩
    obtain ⟨hs, hp, -⟩ := h.position_unique hn hv hc
    exact hk ⟨hs, hp⟩

/-- Removing the order at the back of a queue. -/
theorem IndexedFrom.eraseAt_last (h : IndexedFrom (fun _ _ => 0) b)
    (hq : b.queueFor lc.side lc.px = l ++ [v]) (hi : l.length = lc.idx) :
    IndexedFrom (fun _ _ => 0) (b.eraseAt lc) := by
  intro id' l'
  simp only [h.getElem?_eraseAt_last hq hi]
  rw [eraseAt_of_last hq hi, loc_eraseLoc, loc_putQueue, OrdMap.find?_erase]
  by_cases hv' : id' = v.ord.orderId
  · rw [if_pos hv']
    refine iff_of_false (by simp) ?_
    rintro ⟨i, n, ⟨-, hne⟩, hnid, -⟩
    exact hne (hnid.trans hv')
  · rw [if_neg hv', h id' l']
    refine exists_congr fun i => exists_congr fun n => ?_
    constructor
    · rintro ⟨hn, rfl, hidx⟩
      exact ⟨⟨hn, hv'⟩, rfl, hidx⟩
    · rintro ⟨⟨hn, -⟩, hnid, hidx⟩
      exact ⟨hn, hnid, hidx⟩

/-- The index after the order at the back has moved into the place of the removed one. -/
theorem IndexedFrom.find?_eraseAt_swap (h : IndexedFrom (fun _ _ => 0) b)
    (hq : b.queueFor lc.side lc.px = l ++ v :: (m ++ [z])) (hi : l.length = lc.idx)
    (id' : OrderId) : (b.eraseAt lc).loc.find? id' = if id' = z.ord.orderId then some lc
      else if id' = v.ord.orderId then none else b.loc.find? id' := by
  have hv : (b.queueFor lc.side lc.px)[lc.idx]? = some v := by simp [hq, ← hi]
  have hz : (b.queueFor lc.side lc.px)[l.length + m.length + 1]? = some z := hq ▸ getElem?_back
  have hzv : z.ord.orderId ≠ v.ord.orderId := fun hc => by
    have := (h.position_unique hz hv hc).2.2
    omega
  have hlz : b.loc.find? z.ord.orderId =
      some ⟨lc.side, lc.px, l.length + m.length + 1⟩ := (h _ _).mpr ⟨_, z, hz, rfl, rfl⟩
  rw [eraseAt_of_swap hq hi, find?_reindex, loc_eraseLoc, loc_putQueue,
    OrdMap.find?_erase_ne _ hzv, hlz, OrdMap.find?_erase]
  rfl

/-- The positions after the order at the back has moved into the place of the removed one. -/
theorem IndexedFrom.getElem?_eraseAt_swap (h : IndexedFrom (fun _ _ => 0) b)
    (hq : b.queueFor lc.side lc.px = l ++ v :: (m ++ [z])) (hi : l.length = lc.idx) {s : Side}
    {px : PriceTicks} {i : ℕ} {n : Node} : ((b.eraseAt lc).queueFor s px)[i]? = some n ↔
      (s = lc.side ∧ px = lc.px ∧ i = lc.idx ∧ n = z) ∨ (b.queueFor s px)[i]? = some n ∧
        n.ord.orderId ≠ v.ord.orderId ∧ n.ord.orderId ≠ z.ord.orderId := by
  have hv : (b.queueFor lc.side lc.px)[lc.idx]? = some v := by simp [hq, ← hi]
  have hz : (b.queueFor lc.side lc.px)[l.length + m.length + 1]? = some z := hq ▸ getElem?_back
  have hlen : (l ++ z :: m).length = l.length + m.length + 1 := by
    rw [List.length_append, List.length_cons]
    omega
  rw [eraseAt_of_swap hq hi, queueFor_reindex, queueFor_eraseLoc, queueFor_putQueue]
  by_cases hk : s = lc.side ∧ px = lc.px
  · obtain ⟨rfl, rfl⟩ := hk
    have hrefill : (l ++ z :: m)[i]? = some n ↔ i = lc.idx ∧ n = z ∨
        i ≠ lc.idx ∧ i < (l ++ z :: m).length ∧ (b.queueFor lc.side lc.px)[i]? = some n := by
      rw [hq, ← hi]
      exact getElem?_refill
    rw [if_pos ⟨rfl, rfl⟩, hrefill]
    constructor
    · rintro (⟨rfl, rfl⟩ | ⟨hne, hlt, hn⟩)
      · exact .inl ⟨rfl, rfl, rfl, rfl⟩
      · refine .inr ⟨hn, fun hc => hne (h.position_unique hn hv hc).2.2, fun hc => ?_⟩
        have := (h.position_unique hn hz hc).2.2
        omega
    · rintro (⟨-, -, rfl, rfl⟩ | ⟨hn, hnv, hnz⟩)
      · exact .inl ⟨rfl, rfl⟩
      · have hne : i ≠ lc.idx := by
          rintro rfl
          rw [hv, Option.some_inj] at hn
          exact hnv (hn ▸ rfl)
        have hback : i ≠ l.length + m.length + 1 := by
          rintro rfl
          rw [hz, Option.some_inj] at hn
          exact hnz (hn ▸ rfl)
        have hlt := (List.getElem?_eq_some_iff.mp hn).1
        rw [hq, List.length_append, List.length_cons, List.length_append,
          List.length_singleton] at hlt
        exact .inr ⟨hne, by omega, hn⟩
  · -- no order of another level is the removed or the moved one
    rw [if_neg hk]
    constructor
    · intro hn
      refine .inr ⟨hn, fun hc => ?_, fun hc => ?_⟩
      · obtain ⟨hs, hp, -⟩ := h.position_unique hn hv hc
        exact hk ⟨hs, hp⟩
      · obtain ⟨hs, hp, -⟩ := h.position_unique hn hz hc
        exact hk ⟨hs, hp⟩
    · rintro (⟨hs, hp, -⟩ | ⟨hn, -⟩)
      · exact absurd ⟨hs, hp⟩ hk
      · exact hn

/-- Removing an order before the back of a queue. -/
theorem IndexedFrom.eraseAt_swap (h : IndexedFrom (fun _ _ => 0) b)
    (hq : b.queueFor lc.side lc.px = l ++ v :: (m ++ [z])) (hi : l.length = lc.idx) :
    IndexedFrom (fun _ _ => 0) (b.eraseAt lc) := by
  intro id' l'
  rw [h.find?_eraseAt_swap hq hi]
  simp only [h.getElem?_eraseAt_swap hq hi]
  by_cases hz' : id' = z.ord.orderId
  · -- the moved order has the position of the removed one
    rw [if_pos hz', Option.some_inj]
    constructor
    · rintro rfl
      exact ⟨lc.idx, z, .inl ⟨rfl, rfl, rfl, rfl⟩, hz'.symm, rfl⟩
    · rintro ⟨i, n, ⟨hs, hp, rfl, -⟩ | ⟨-, -, hnz⟩, hnid, hidx⟩
      · obtain ⟨s, px, idx⟩ := l'
        obtain rfl : s = lc.side := hs
        obtain rfl : px = lc.px := hp
        obtain rfl : idx = lc.idx := hidx
        rfl
      · exact absurd (hnid.trans hz') hnz
  rw [if_neg hz']
  by_cases hv' : id' = v.ord.orderId
  · -- the removed order is nowhere any more
    rw [if_pos hv']
    refine iff_of_false (by simp) ?_
    rintro ⟨i, n, ⟨-, -, -, rfl⟩ | ⟨-, hnv, -⟩, hnid, -⟩
    · exact hz' hnid.symm
    · exact hnv (hnid.trans hv')
  · -- the others stand where they stood
    rw [if_neg hv', h id' l']
    refine exists_congr fun i => exists_congr fun n => ?_
    constructor
    · rintro ⟨hn, rfl, hidx⟩
      exact ⟨.inr ⟨hn, hv', hz'⟩, rfl, hidx⟩
    · rintro ⟨⟨-, -, -, rfl⟩ | ⟨hn, -⟩, hnid, hidx⟩
      · exact absurd hnid.symm hz'
      · exact ⟨hn, hnid, hidx⟩

/-- Removing the order that an exact index names keeps the index exact. -/
theorem IndexedFrom.eraseAt {id : OrderId} (h : IndexedFrom (fun _ _ => 0) b)
    (hl : b.loc.find? id = some lc) :
    IndexedFrom (fun _ _ => 0) (b.eraseAt lc) ∧ (b.eraseAt lc).loc.find? id = none := by
  obtain ⟨i, v, hv, hid, hidx⟩ := (h id lc).mp hl
  obtain rfl : lc.idx = i := hidx
  obtain ⟨l, r, hq, hi⟩ := queue_split hv
  rcases List.eq_nil_or_concat r with rfl | ⟨m, z, rfl⟩
  · exact ⟨h.eraseAt_last hq hi, by simp [eraseAt_of_last hq hi, hid]⟩
  · rw [List.concat_eq_append] at hq
    have hz : (b.queueFor lc.side lc.px)[l.length + m.length + 1]? = some z := hq ▸ getElem?_back
    have hne : id ≠ z.ord.orderId := fun hc => by
      have := (h.position_unique hz hv (hc.symm.trans hid.symm)).2.2
      omega
    refine ⟨h.eraseAt_swap hq hi, ?_⟩
    rw [h.find?_eraseAt_swap hq hi, if_neg hne, if_pos hid.symm]

end removal

theorem IndexedFrom.eraseLoc {id : OrderId} (h : IndexedFrom (fun _ _ => 0) b)
    (hl : b.loc.find? id = none) : IndexedFrom (fun _ _ => 0) (b.eraseLoc id) := by
  have he : b.loc.erase id = b.loc := b.loc.erase_of_find?_none hl
  intro id' l'
  rw [loc_eraseLoc, he, queueFor_eraseLoc]
  exact h id' l'

theorem IndexedFrom.named (h : IndexedFrom (fun _ _ => 0) b) (id : OrderId) : Named b id := by
  intro lc hl
  obtain ⟨i, n, hn, hid, hidx⟩ := (h id lc).mp hl
  obtain rfl : lc.idx = i := hidx
  exact ⟨n, hn, hid⟩

/-- What `on_replace` hands to `on_new`. -/
theorem incoming_replace {id : OrderId} {newPx : PriceTicks} {newQty : ℕ} {lc : Loc} {n : Node}
    (hl : b.loc.find? id = some lc) (hn : (b.queueFor lc.side lc.px)[lc.idx]? = some n) :
    incoming b (.replace id newPx newQty) = some (adjust n newPx newQty).ord := by
  simp [incoming, hl, hn]

/-- Taking an order out leaves the side that it will match against as it is. -/
theorem splitsLevel_eraseAt {id : OrderId} {lc : Loc} {o : Order} (hs : Sound b)
    (hl : b.loc.find? id = some lc) (ho : o.side = lc.side) :
    SplitsLevel ((b.eraseAt lc).eraseLoc id) o ↔ SplitsLevel b o := by
  have hlev : (b.eraseAt lc).levels lc.side.opp = b.levels lc.side.opp := by
    obtain ⟨-, he⟩ | ⟨v, q', -, hr⟩ := hs.eraseAt_cases hl
    · rw [he]
    · exact hr.opposite
  rw [SplitsLevel, SplitsLevel, levels_eraseLoc, ho, hlev]

end index

/-- The order that the command brings in does not end inside a level after taking its front. -/
def NoSplit (b : EngineBook) (c : OrderCmd) : Prop := ∀ o, incoming b c = some o → ¬ SplitsLevel b o

section runs
variable {b b' : EngineBook} {c : OrderCmd}

/-- One command keeps the index exact if and only if it splits no level. -/
theorem exactIndex_dispatch_iff (hs : Sound b) (hf : FreshId b c) (hnd : b.restingIds.Nodup)
    (h : IndexedFrom (fun _ _ => 0) b) (hd : b.dispatch c = some b') :
    IndexedFrom (fun _ _ => 0) b' ↔ NoSplit b c := by
  cases c with
  | new o =>
      obtain rfl := Option.some_inj.mp hd
      rw [exactIndex_onNew_iff hs h (hf o.orderId List.mem_cons_self)]
      constructor
      · rintro hG _ ⟨⟩
        exact hG
      · exact fun hG => hG o rfl
  | cancel id =>
      obtain rfl := Option.some_inj.mp hd
      refine iff_of_true ?_ (by rintro _ ⟨⟩)
      cases hl : b.loc.find? id with
      | none => rwa [onCancel_of_none hl]
      | some lc =>
          obtain ⟨h1, h2⟩ := h.eraseAt hl
          rw [onCancel_of_some hl]
          exact h1.eraseLoc h2
  | replace id px qty =>
      obtain ⟨hl, rfl⟩ | ⟨lc, n, hl, hn, rfl⟩ := onReplace_cases hd
      · exact iff_of_true h (by simp [NoSplit, incoming, hl])
      · obtain ⟨h1, h2⟩ := h.eraseAt hl
        have hs' := (hs.eraseAt hl).eraseLoc id
        -- the order that re-enters has been taken out, so its id is fresh
        have hfresh : n.ord.orderId ∉ (b.eraseAt lc).restingIds :=
          notMem_restingIds_eraseAt hnd hn
        have hiff : IndexedFrom (fun _ _ => 0)
            (((b.eraseAt lc).eraseLoc id).onNew (adjust n px qty).ord) ↔
            ¬ SplitsLevel ((b.eraseAt lc).eraseLoc id) (adjust n px qty).ord :=
          exactIndex_onNew_iff hs' (h1.eraseLoc h2) hfresh
        have hpub : IndexedFrom (fun _ _ => 0) ((((b.eraseAt lc).eraseLoc id).onNew
            (adjust n px qty).ord).publish (replacedReport (adjust n px qty))) ↔
            IndexedFrom (fun _ _ => 0) (((b.eraseAt lc).eraseLoc id).onNew (adjust n px qty).ord) := by
          refine forall_congr' fun id => forall_congr' fun l => ?_
          rw [loc_publish, queueFor_publish]
        have hside : (adjust n px qty).ord.side = lc.side :=
          (hs.node _ _ n (List.mem_of_getElem? hn)).side
        rw [hpub, hiff, splitsLevel_eraseAt hs hl hside, NoSplit, incoming_replace hl hn]
        constructor
        · rintro hG _ ⟨⟩
          exact hG
        · exact fun hG => hG _ rfl

/-- **The index is exact, exactly** in the runs in which no incoming order ends inside a level
after taking its front order whole.  With an exact index the position that `on_replace` reads is
in range and holds the order that the command names. -/
theorem exactIndex_iff {cmds : List OrderCmd}
    (hf : Along dispatch EngineBook.empty (fun _ => FreshId) cmds) :
    States dispatch EngineBook.empty (fun _ b => ExactIndex b ∧ ∀ id, Named b id) cmds ↔
      Along dispatch EngineBook.empty (fun _ => NoSplit) cmds := by
  have hP : ∀ b, (ExactIndex b ∧ ∀ id, Named b id) ↔ IndexedFrom (fun _ _ => 0) b := fun b => by
    rw [exactIndex_iff_indexedFrom]
    exact ⟨And.left, fun h => ⟨h, h.named⟩⟩
  simp only [hP]
  refine states_iff_along (I := fun _ b => Sound b ∧ b.restingIds.Nodup) ?_ hf ?_ ?_ ?_
  · exact fun pre post he t ht => ⟨sound_run ht, nodup_of_run (he ▸ hf).left ht⟩
  · exact fun id l => by cases l with | mk s px i => cases s <;> simp [EngineBook.empty, queueFor, queue?]
  · -- an exact index keeps `on_replace` in range
    intro _ t c _ _ h hd
    cases c with
    | new o => cases hd
    | cancel id => cases hd
    | replace id px qty =>
        cases hl : t.loc.find? id with
        | none => simp [dispatch, onReplace, hl] at hd
        | some lc =>
            obtain ⟨n, hn, -⟩ := h.named id lc hl
            simp [dispatch, onReplace, hl, hn] at hd
  · exact fun _ t c t' hI hF h hd => exactIndex_dispatch_iff hI.1 hF hI.2 h hd

/-- A run in which a bid takes part of the front ask only. -/
theorem exactIndex_iff_partial :
    States dispatch EngineBook.empty (fun _ b => ExactIndex b ∧ ∀ id, Named b id)
        [.new { orderId := 1, side := .ask, price := 100, qty := 5 },
          .new { orderId := 2, side := .bid, price := 100, qty := 2 }, .cancel 1] ↔
      Along dispatch EngineBook.empty (fun _ => NoSplit)
        [.new { orderId := 1, side := .ask, price := 100, qty := 5 },
          .new { orderId := 2, side := .bid, price := 100, qty := 2 }, .cancel 1] :=
  exactIndex_iff (freshIds_of_nodup (by decide))

/-- Two asks on a level of which a bid takes the first: the second one stands at the front, and
the index has it at position 1. -/
theorem exactIndex_popped :
    ¬ States dispatch EngineBook.empty (fun _ b => ExactIndex b ∧ ∀ id, Named b id)
      [.new { orderId := 1, side := .ask, price := 100, qty := 1 },
        .new { orderId := 2, side := .ask, price := 100, qty := 1 },
        .new { orderId := 3, side := .bid, price := 100, qty := 1 }] := by
  intro h
  have hpos := (h.last rfl).1.position .ask 100 0 _ rfl
  exact absurd hpos (by decide)

end runs

end EngineBook
end Trading
