import Trading.Depth

/-! # The simulator's book is never crossed

The clamp of the edit loop looks at the best opposite price before the edit.  `Spread` is what it
keeps: every bid is below every ask, and the prices are far enough from the limits of `int64` for
the arithmetic of the clamp not to wrap and for no price to be the sentinel.  The guard
`repair_cross_and_emit` is then never entered (`Spread.not_crossed`), and a replica that has the
book's levels is uncrossed with it. -/

namespace Trading

open Replication (replay replay_append Within)

/-! ### Prices that do not wrap -/

section prices
variable {a b tick mid : PriceTicks} {k : ℕ}

theorem toInt_add_of_bounds (h : -2 ^ 63 ≤ a.toInt + b.toInt) (h' : a.toInt + b.toInt < 2 ^ 63) :
    (a + b).toInt = a.toInt + b.toInt := by
  rw [Int64.toInt_add]
  exact Int.bmod_eq_of_le_mul_two (by omega) (by omega)

theorem toInt_sub_of_bounds (h : -2 ^ 63 ≤ a.toInt - b.toInt) (h' : a.toInt - b.toInt < 2 ^ 63) :
    (a - b).toInt = a.toInt - b.toInt := by
  rw [Int64.toInt_sub]
  exact Int.bmod_eq_of_le_mul_two (by omega) (by omega)

theorem toInt_mul_of_bounds (h : -2 ^ 63 ≤ a.toInt * b.toInt) (h' : a.toInt * b.toInt < 2 ^ 63) :
    (a * b).toInt = a.toInt * b.toInt := by
  rw [Int64.toInt_mul]
  exact Int.bmod_eq_of_le_mul_two (by omega) (by omega)

/-- The prices `k` ticks from `mid` do not overflow, and are not the sentinel. -/
def Far (tick mid : PriceTicks) (k : ℕ) : Prop :=
  -2 ^ 63 < mid.toInt - k * tick.toInt ∧ mid.toInt + k * tick.toInt < 2 ^ 63

instance : Decidable (Far tick mid k) := inferInstanceAs (Decidable (_ ∧ _))

theorem Far.nonneg (htick : 0 < tick.toInt) : 0 ≤ (k : ℤ) * tick.toInt :=
  Int.mul_nonneg (Int.natCast_nonneg k) (Int.le_of_lt htick)

theorem Far.small (h : Far tick mid k) (htick : 0 < tick.toInt) : k < 2 ^ 63 := by
  have hle : (k : ℤ) * 1 ≤ k * tick.toInt :=
    Int.mul_le_mul_of_nonneg_left htick (Int.natCast_nonneg k)
  obtain ⟨hlow, hhigh⟩ := h
  omega

theorem Far.toInt_above (h : Far tick mid k) (htick : 0 < tick.toInt) :
    (mid + Int64.ofNat k * tick).toInt = mid.toInt + k * tick.toInt := by
  have hk : (Int64.ofNat k).toInt = k := Int64.toInt_ofNat_of_lt (h.small htick)
  have hnonneg := Far.nonneg (k := k) htick
  have hlow := mid.le_toInt
  obtain ⟨hbelow, habove⟩ := h
  have hmul : (Int64.ofNat k * tick).toInt = k * tick.toInt := by
    rw [toInt_mul_of_bounds (by rw [hk]; omega) (by rw [hk]; omega), hk]
  rw [toInt_add_of_bounds (by rw [hmul]; omega) (by rw [hmul]; omega), hmul]

theorem Far.toInt_below (h : Far tick mid k) (htick : 0 < tick.toInt) :
    (mid - Int64.ofNat k * tick).toInt = mid.toInt - k * tick.toInt := by
  have hk : (Int64.ofNat k).toInt = k := Int64.toInt_ofNat_of_lt (h.small htick)
  have hnonneg := Far.nonneg (k := k) htick
  have hhigh := mid.toInt_lt
  obtain ⟨hbelow, habove⟩ := h
  have hmul : (Int64.ofNat k * tick).toInt = k * tick.toInt := by
    rw [toInt_mul_of_bounds (by rw [hk]; omega) (by rw [hk]; omega), hk]
  rw [toInt_sub_of_bounds (by rw [hmul]; omega) (by rw [hmul]; omega), hmul]

/-- The edit loop multiplies by `-k`. -/
theorem Far.toInt_neg (h : Far tick mid k) (htick : 0 < tick.toInt) :
    (mid + -Int64.ofNat k * tick).toInt = mid.toInt - k * tick.toInt := by
  have hk : (-Int64.ofNat k).toInt = -k := Int64.toInt_neg_ofNat_of_le (h.small htick).le
  have hnonneg := Far.nonneg (k := k) htick
  have hhigh := mid.toInt_lt
  have hneg : (-k : ℤ) * tick.toInt = -(k * tick.toInt) := Int.neg_mul _ _
  obtain ⟨hbelow, habove⟩ := h
  have hmul : (-Int64.ofNat k * tick).toInt = -(k * tick.toInt) := by
    rw [toInt_mul_of_bounds (by rw [hk, hneg]; omega) (by rw [hk, hneg]; omega), hk, hneg]
  rw [toInt_add_of_bounds (by rw [hmul]; omega) (by rw [hmul]; omega), hmul]
  omega

end prices

/-! ### The invariant -/

/-- Every bid is below every ask, with room for a tick on either side. -/
structure Spread (b : Book) : Prop where
  bid : ∀ px l, b.level? .bid px = some l →
    -2 ^ 63 < px.toInt ∧ px.toInt + b.tickSize.toInt < 2 ^ 63
  ask : ∀ px l, b.level? .ask px = some l → -2 ^ 63 < px.toInt - b.tickSize.toInt
  apart : ∀ p l q l', b.level? .bid p = some l → b.level? .ask q = some l' → p < q

/-- A price at which a level leaves the sides apart. -/
def Fits (b : Book) : Side → PriceTicks → Prop
  | .bid, px => -2 ^ 63 < px.toInt ∧ px.toInt + b.tickSize.toInt < 2 ^ 63 ∧
      ∀ q l, b.level? .ask q = some l → px < q
  | .ask, px => -2 ^ 63 < px.toInt - b.tickSize.toInt ∧ ∀ p l, b.level? .bid p = some l → p < px

section spread
variable {b : Book} {s : Side} {px : PriceTicks}

theorem Book.level?_upsertLevel_cases {qty oc : ℕ} {s' : Side} {px' : PriceTicks} {l : PriceLevel}
    (h : (b.upsertLevel s px qty oc).level? s' px' = some l) :
    s' = s ∧ px' = px ∨ b.level? s' px' = some l := by
  rw [level?_upsertLevel] at h
  split_ifs at h with hk
  · exact .inl hk
  · exact .inr h

theorem Spread.upsertLevel (h : Spread b) (hfit : Fits b s px) (qty oc : ℕ) :
    Spread (b.upsertLevel s px qty oc) where
  bid := by
    intro p l hp
    rw [Book.tickSize_upsertLevel]
    obtain ⟨rfl, rfl⟩ | hp := Book.level?_upsertLevel_cases hp
    · exact ⟨hfit.1, hfit.2.1⟩
    · exact h.bid p l hp
  ask := by
    intro q l hq
    rw [Book.tickSize_upsertLevel]
    obtain ⟨rfl, rfl⟩ | hq := Book.level?_upsertLevel_cases hq
    · exact hfit.1
    · exact h.ask q l hq
  apart := by
    intro p l q l' hp hq
    obtain ⟨rfl, rfl⟩ | hp := Book.level?_upsertLevel_cases hp
    · obtain ⟨hs, -⟩ | hq := Book.level?_upsertLevel_cases hq
      · cases hs
      · exact hfit.2.2 q l' hq
    · obtain ⟨rfl, rfl⟩ | hq := Book.level?_upsertLevel_cases hq
      · exact hfit.2 p l hp
      · exact h.apart p l q l' hp hq

/-- The best ask, if there is one. -/
theorem Book.bestAsk_cases (b : Book) :
    b.tob.bestAskPrice = kNoPrice ∧ (∀ q, b.level? .ask q = none) ∨
      ∃ l, b.level? .ask b.tob.bestAskPrice = some l ∧
        ∀ q l', b.level? .ask q = some l' → b.tob.bestAskPrice ≤ q := by
  obtain ⟨hfirst, hnone⟩ | ⟨e, hfirst, he, hle⟩ := b.asks.first?_cases
  · exact .inl ⟨by rw [tob, hfirst]; rfl, hnone⟩
  · have hbest : b.tob.bestAskPrice = e.1 := by rw [tob, hfirst]; rfl
    rw [hbest]
    refine .inr ⟨e.2, he, fun q l' hq => ?_⟩
    rcases hle q l' hq with rfl | hlt
    · exact le_rfl
    · exact hlt.le

/-- The best bid, if there is one. -/
theorem Book.bestBid_cases (b : Book) :
    b.tob.bestBidPrice = kNoPrice ∧ (∀ p, b.level? .bid p = none) ∨
      ∃ l, b.level? .bid b.tob.bestBidPrice = some l ∧
        ∀ p l', b.level? .bid p = some l' → p ≤ b.tob.bestBidPrice := by
  obtain ⟨hfirst, hnone⟩ | ⟨e, hfirst, he, hle⟩ := b.bids.first?_cases
  · exact .inl ⟨by rw [tob, hfirst]; rfl, hnone⟩
  · have hbest : b.tob.bestBidPrice = e.1 := by rw [tob, hfirst]; rfl
    rw [hbest]
    refine .inr ⟨e.2, he, fun p l' hp => ?_⟩
    rcases hle p l' hp with rfl | hlt
    · exact le_rfl
    · exact hlt.le

/-- The best ask is no sentinel, and a tick below it is no wrap. -/
theorem Spread.toInt_maxBid (h : Spread b) (htick : 0 < b.tickSize.toInt) {l : PriceLevel}
    (hl : b.level? .ask b.tob.bestAskPrice = some l) :
    b.tob.bestAskPrice ≠ kNoPrice ∧ (b.tob.bestAskPrice - b.tickSize).toInt =
      b.tob.bestAskPrice.toInt - b.tickSize.toInt := by
  have hask := h.ask _ l hl
  have hhigh := b.tob.bestAskPrice.toInt_lt
  refine ⟨fun hno => ?_, toInt_sub_of_bounds (by omega) (by omega)⟩
  have hmin : b.tob.bestAskPrice.toInt = -2 ^ 63 := by rw [hno]; rfl
  omega

theorem Spread.toInt_minAsk (h : Spread b) (htick : 0 < b.tickSize.toInt) {l : PriceLevel}
    (hl : b.level? .bid b.tob.bestBidPrice = some l) :
    b.tob.bestBidPrice ≠ kNoPrice ∧ (b.tob.bestBidPrice + b.tickSize).toInt =
      b.tob.bestBidPrice.toInt + b.tickSize.toInt := by
  obtain ⟨hlow, hhigh⟩ := h.bid _ l hl
  refine ⟨fun hno => ?_, toInt_add_of_bounds (by omega) (by omega)⟩
  have hmin : b.tob.bestBidPrice.toInt = -2 ^ 63 := by rw [hno]; rfl
  omega

/-- The clamp of a bid. -/
theorem Spread.fits_bid (h : Spread b) (htick : 0 < b.tickSize.toInt) (hlow : -2 ^ 63 < px.toInt)
    (hhigh : px.toInt + b.tickSize.toInt < 2 ^ 63) :
    Fits b .bid (if b.tob.bestAskPrice ≠ kNoPrice then
      if px ≥ b.tob.bestAskPrice - b.tickSize then b.tob.bestAskPrice - b.tickSize else px
      else px) := by
  obtain ⟨hno, hempty⟩ | ⟨l, hl, hbest⟩ := b.bestAsk_cases
  · -- Without asks the price is not clamped, and there is nothing to cross.
    rw [if_neg (not_not.mpr hno)]
    refine ⟨hlow, hhigh, fun q l hq => ?_⟩
    rw [hempty q] at hq
    cases hq
  · obtain ⟨hne, hmax⟩ := h.toInt_maxBid htick hl
    have hask := h.ask _ l hl
    have hlt := b.tob.bestAskPrice.toInt_lt
    rw [if_pos hne]
    split_ifs with hpx
    · refine ⟨by omega, by omega, fun q l' hq => lt_of_lt_of_le ?_ (hbest q l' hq)⟩
      exact Int64.lt_iff_toInt_lt.mpr (by omega)
    · rw [ge_iff_le, Int64.le_iff_toInt_le] at hpx
      refine ⟨hlow, hhigh, fun q l' hq => lt_of_lt_of_le ?_ (hbest q l' hq)⟩
      exact Int64.lt_iff_toInt_lt.mpr (by omega)

/-- The clamp of an ask. -/
theorem Spread.fits_ask (h : Spread b) (htick : 0 < b.tickSize.toInt)
    (hlow : -2 ^ 63 < px.toInt - b.tickSize.toInt) :
    Fits b .ask (if b.tob.bestBidPrice ≠ kNoPrice then
      if px ≤ b.tob.bestBidPrice + b.tickSize then b.tob.bestBidPrice + b.tickSize else px
      else px) := by
  obtain ⟨hno, hempty⟩ | ⟨l, hl, hbest⟩ := b.bestBid_cases
  · rw [if_neg (not_not.mpr hno)]
    refine ⟨hlow, fun p l hp => ?_⟩
    rw [hempty p] at hp
    cases hp
  · obtain ⟨hne, hmin⟩ := h.toInt_minAsk htick hl
    obtain ⟨hbid, -⟩ := h.bid _ l hl
    rw [if_pos hne]
    split_ifs with hpx
    · refine ⟨by omega, fun p l' hp => lt_of_le_of_lt (hbest p l' hp) ?_⟩
      exact Int64.lt_iff_toInt_lt.mpr (by omega)
    · rw [Int64.le_iff_toInt_le] at hpx
      refine ⟨hlow, fun p l' hp => lt_of_le_of_lt (hbest p l' hp) ?_⟩
      exact Int64.lt_iff_toInt_lt.mpr (by omega)

/-- **The clamped price fits**, whatever the mid price. -/
theorem Spread.fits_editPrice (h : Spread b) (htick : 0 < b.tickSize.toInt) {mid : PriceTicks}
    {e : Edit} (hfar : Far b.tickSize mid e.k) : Fits b e.side (editPrice b mid e) := by
  have hone : (1 : ℤ) * b.tickSize.toInt ≤ e.k * b.tickSize.toInt :=
    Int.mul_le_mul_of_nonneg_right (Int.ofNat_le.mpr e.k_range.1) (Int.le_of_lt htick)
  have habove := hfar.toInt_above htick
  have hbelow := hfar.toInt_neg htick
  have hmidlow := mid.le_toInt
  have hmidhigh := mid.toInt_lt
  obtain ⟨hlow, -⟩ := hfar
  obtain ⟨side, k, erase, qty, hk, hqty⟩ := e
  dsimp only at hone habove hbelow hlow
  cases side with
  | bid =>
      have hpx : -2 ^ 63 < (mid + -Int64.ofNat k * b.tickSize).toInt := by omega
      have hpx' : (mid + -Int64.ofNat k * b.tickSize).toInt + b.tickSize.toInt < 2 ^ 63 := by omega
      exact h.fits_bid htick hpx hpx'
  | ask =>
      have hpx : -2 ^ 63 < (mid + Int64.ofNat k * b.tickSize).toInt - b.tickSize.toInt := by omega
      exact h.fits_ask htick hpx

/-- **The safeguard is a no-op.** -/
theorem Spread.not_crossed (h : Spread b) : ¬ Sim.Crossed b := by
  intro hc
  obtain ⟨hbid, hask, hle⟩ := hc
  obtain ⟨hno, -⟩ | ⟨l, hl, -⟩ := b.bestBid_cases
  · exact hbid hno
  · obtain ⟨hno, -⟩ | ⟨l', hl', -⟩ := b.bestAsk_cases
    · exact hask hno
    · exact absurd (h.apart _ l _ l' hl hl') (not_lt.mpr hle)

end spread

/-! ### The process -/

namespace Sim

/-- The price of an edit does not overflow. -/
def Action.InRange (tick : PriceTicks) : Action → Prop
  | .edit mid e => Far tick mid e.k
  | .repair | .publishL1 => True

instance (tick : PriceTicks) : DecidablePred (Action.InRange tick)
  | .edit _ _ => inferInstanceAs (Decidable (Far ..))
  | .repair | .publishL1 => inferInstanceAs (Decidable True)

/-- The invariant of the process. -/
structure Tidy (tick : PriceTicks) (s : Sim) : Prop where
  tickSize : s.book.tickSize = tick
  spread : Spread s.book

section runs
variable {s : Sim} {tick mid : PriceTicks}

theorem Tidy.step (h : s.Tidy tick) (htick : 0 < tick.toInt) {a : Action}
    (ha : a.InRange tick) : (s.step a).Tidy tick := by
  obtain ⟨rfl, hspread⟩ := h
  have hm := moves_step s a
  generalize s.step a = s' at hm ⊢
  cases hm with
  | edit =>
      have hfit := hspread.fits_editPrice htick ha
      exact ⟨Book.tickSize_upsertLevel .., hspread.upsertLevel hfit ..⟩
  | repair hc => exact absurd hc hspread.not_crossed
  | sound | top | sameTop => exact ⟨rfl, hspread⟩

theorem Tidy.run (htick : 0 < tick.toInt) : ∀ (acts : List Action) {s : Sim}, s.Tidy tick →
    (∀ a ∈ acts, a.InRange tick) → (acts.foldl Sim.step s).Tidy tick
  | [], _, h, _ => h
  | a :: acts, _, h, hacts =>
      Tidy.run htick acts (h.step htick (hacts a List.mem_cons_self))
        fun a' ha => hacts a' (List.mem_cons_of_mem a ha)

/-- The seeding puts the bids below the mid price and the asks above it. -/
structure Seeded (tick mid : PriceTicks) (s : Sim) : Prop where
  tickSize : s.book.tickSize = tick
  bid : ∀ px l, s.book.level? .bid px = some l →
    -2 ^ 63 < px.toInt ∧ px.toInt + tick.toInt ≤ mid.toInt
  ask : ∀ px l, s.book.level? .ask px = some l → mid.toInt + tick.toInt ≤ px.toInt

theorem Seeded.tidy (h : s.Seeded tick mid) (htick : 0 < tick.toInt) (hmid : -2 ^ 63 < mid.toInt) :
    s.Tidy tick := by
  obtain ⟨rfl, hbid, hask⟩ := h
  have hhigh := mid.toInt_lt
  refine ⟨rfl, ?_, ?_, ?_⟩
  · intro px l hpx
    have hpx := hbid px l hpx
    omega
  · intro px l hpx
    have hpx := hask px l hpx
    omega
  · intro p l q l' hp hq
    have hp := hbid p l hp
    have hq := hask q l' hq
    exact Int64.lt_iff_toInt_lt.mpr (by omega)

theorem book_seedStep (s : Sim) (mid : PriceTicks) (i : ℕ) : (seedStep mid s i).book =
    (s.book.upsertLevel .bid (mid - Int64.ofNat i * s.book.tickSize) (10 * i) i).upsertLevel
      .ask (mid + Int64.ofNat i * s.book.tickSize) (10 * i) i := rfl

theorem Seeded.seedStep (h : s.Seeded tick mid) (htick : 0 < tick.toInt) (hfar : Far tick mid 10)
    {i : ℕ} (hi : i ∈ List.range' 1 10) : (seedStep mid s i).Seeded tick mid := by
  have hi := List.mem_range'_1.mp hi
  have hone : (1 : ℤ) * tick.toInt ≤ i * tick.toInt :=
    Int.mul_le_mul_of_nonneg_right (Int.ofNat_le.mpr hi.1) (Int.le_of_lt htick)
  have hten : (i : ℤ) * tick.toInt ≤ (10 : ℕ) * tick.toInt :=
    Int.mul_le_mul_of_nonneg_right (Int.ofNat_le.mpr (by omega)) (Int.le_of_lt htick)
  have hfari : Far tick mid i := ⟨by have := hfar.1; omega, by have := hfar.2; omega⟩
  have habove := hfari.toInt_above htick
  have hbelow := hfari.toInt_below htick
  obtain ⟨hlow, -⟩ := hfari
  obtain ⟨rfl, hbid, hask⟩ := h
  refine ⟨?_, ?_, ?_⟩
  · rw [book_seedStep, Book.tickSize_upsertLevel, Book.tickSize_upsertLevel]
  · intro px l hpx
    rw [book_seedStep] at hpx
    obtain ⟨hs, -⟩ | hpx := Book.level?_upsertLevel_cases hpx
    · cases hs
    · obtain ⟨-, rfl⟩ | hpx := Book.level?_upsertLevel_cases hpx
      · omega
      · exact hbid px l hpx
  · intro px l hpx
    rw [book_seedStep] at hpx
    obtain ⟨-, rfl⟩ | hpx := Book.level?_upsertLevel_cases hpx
    · omega
    · obtain ⟨hs, -⟩ | hpx := Book.level?_upsertLevel_cases hpx
      · cases hs
      · exact hask px l hpx

theorem tidy_start (htick : 0 < tick.toInt) (hfar : Far tick mid 10) :
    (start tick mid).Tidy tick := by
  have hseeded : (start tick mid).Seeded tick mid := by
    refine seed_invariant (P := Seeded tick mid) ?_ ?_
    · intro s i hi h
      exact h.seedStep htick hfar hi
    · exact ⟨rfl, fun px l hpx => (by cases hpx), fun px l hpx => (by cases hpx)⟩
  refine hseeded.tidy htick ?_
  have hlow := hfar.1
  omega

end runs

/-! ### What a replica is told -/

/-- The messages of a step, if there are any, tell the change of the book. -/
theorem sent_step (s : Sim) (a : Action) : ∃ evs, (s.step a).sent = s.sent ++ evs ∧
    (s.step a).book.table = replay (evs.filterMap MDEvent.change?) s.book.table := by
  have hm := moves_step s a
  generalize s.step a = s' at hm ⊢
  cases hm with
  | edit hd => exact ⟨_, rfl, s.book.table_upsertLevel_sent hd⟩
  | repair _ hd => exact ⟨_, rfl, s.book.table_upsertLevel_sent hd⟩
  | top => exact ⟨_, rfl, rfl⟩
  | sound | sameTop => exact ⟨[], (List.append_nil _).symm, rfl⟩

theorem sent_run : ∀ (acts : List Action) (s : Sim), ∃ evs,
    (acts.foldl Sim.step s).sent = s.sent ++ evs ∧
      (acts.foldl Sim.step s).book.table = replay (evs.filterMap MDEvent.change?) s.book.table
  | [], s => ⟨[], (List.append_nil _).symm, rfl⟩
  | a :: acts, s => by
      obtain ⟨evs, hsent, htable⟩ := sent_step s a
      obtain ⟨evs', hsent', htable'⟩ := sent_run acts (s.step a)
      refine ⟨evs ++ evs', ?_, ?_⟩
      · rw [List.foldl_cons, hsent', hsent, List.append_assoc]
      · rw [List.foldl_cons, htable', htable, List.filterMap_append, replay_append]

end Sim

/-- A replica that applies every message. -/
def LocalBook.follow (lb : LocalBook) : MDEvent → LocalBook
  | .l1 seqno p => lb.applyL1 p seqno
  | .l2Delta seqno d => lb.applyL2Delta d seqno

theorem LocalBook.table_follow : ∀ (evs : List MDEvent) (lb : LocalBook),
    (evs.foldl follow lb).table = replay (evs.filterMap MDEvent.change?) lb.table
  | [], _ => rfl
  | .l1 seqno p :: evs, lb => by
      rw [List.foldl_cons, table_follow evs]
      show replay _ (lb.applyL1 p seqno).table = _
      rw [table_applyL1]
      rfl
  | .l2Delta seqno d :: evs, lb => by
      rw [List.foldl_cons, table_follow evs]
      show replay _ (lb.applyL2Delta d seqno).table = _
      rw [table_applyL2Delta]
      rfl

/-- A replica that has levels of the book only still has after any further messages. -/
theorem Sim.within_follow (s : Sim) {lb : LocalBook} (h : Within lb.table s.book.table)
    (more : List Action) :
    Within (((more.foldl Sim.step s).sent.drop s.sent.length).foldl LocalBook.follow lb).table
      (more.foldl Sim.step s).book.table := by
  obtain ⟨evs, hsent, htable⟩ := sent_run more s
  rw [hsent, htable, List.drop_left, LocalBook.table_follow]
  exact h.replay _

/-! ### Never crossed -/

/-- The best bid, if there is one, is below the best ask, if there is one. -/
def Uncrossed (side : Side → List (PriceTicks × (ℕ × ℕ))) : Prop :=
  ∀ e ∈ (side .bid).head?, ∀ e' ∈ (side .ask).head?, e.1 < e'.1

theorem Spread.uncrossed {b : Book} (h : Spread b) {side : Side → List (PriceTicks × (ℕ × ℕ))}
    (hmem : ∀ s px v, (px, v) ∈ side s → b.table (s.toByte, px) = some v) : Uncrossed side := by
  have hlevel : ∀ s px v, (px, v) ∈ side s → ∃ l, b.level? s px = some l := by
    intro s px v hv
    have ht := hmem s px v hv
    rw [Book.table_toByte, Option.map_eq_some_iff] at ht
    exact ht.imp fun _ h => h.1
  intro e he e' he'
  obtain ⟨l, hl⟩ := hlevel .bid e.1 e.2 (List.mem_of_mem_head? he)
  obtain ⟨l', hl'⟩ := hlevel .ask e'.1 e'.2 (List.mem_of_mem_head? he')
  exact h.apart _ l _ l' hl hl'

/-- **No crossed book is published**: after the seeding and every further step the best bid is below
the best ask, the safeguard finds nothing to repair, and a replica that starts from a snapshot, of
whatever depth, and applies the messages published since is uncrossed. -/
theorem uncrossed_run {tick mid : PriceTicks} (htick : 0 < tick.toInt) (hseed : Far tick mid 10)
    {acts : List Sim.Action} (hacts : ∀ a ∈ acts, a.InRange tick) :
    let s := acts.foldl Sim.step (Sim.start tick mid)
    Uncrossed s.book.side ∧ ¬ Sim.Crossed s.book ∧
      ∀ (lb : LocalBook) (depth : ℕ) (more : List Sim.Action), (∀ a ∈ more, a.InRange tick) →
        Uncrossed (((more.foldl Sim.step s).sent.drop s.sent.length).foldl LocalBook.follow
          (lb.storeL2 s.book.seqno (s.book.topLevels depth))).side := by
  intro s
  have hs : s.Tidy tick := (Sim.tidy_start htick hseed).run htick acts hacts
  refine ⟨hs.spread.uncrossed fun _ _ _ => Book.mem_side_iff.mp, hs.spread.not_crossed, ?_⟩
  intro lb depth more hmore
  have hw := s.within_follow (Feed.within_storeL2 lb s.book.seqno s.book depth) more
  exact (hs.run htick more hmore).spread.uncrossed fun t px v hv =>
    hw _ _ (LocalBook.mem_side_iff.mp hv)

/-- The mid price jumps above all asks, then below all bids, and the replica has a snapshot of
depth 2. -/
theorem uncrossed_run_jump :
    let s := [Sim.Action.edit 250000 ⟨.bid, 5, false, 7, by decide, by decide⟩, .repair].foldl
      Sim.step (Sim.start 1 200000)
    let s' := [Sim.Action.edit 150000 ⟨.ask, 1, false, 9, by decide, by decide⟩, .publishL1].foldl
      Sim.step s
    Uncrossed ((s'.sent.drop s.sent.length).foldl LocalBook.follow
      (({} : LocalBook).storeL2 s.book.seqno (s.book.topLevels 2))).side :=
  (uncrossed_run (by decide) (by decide) (by decide)).2.2 {} 2 _ (by decide)

end Trading
