import Trading.Health

/-! # Prices on the tick grid

The simulator draws a mid price, rounds it with `snap_to_tick` and computes every other price from
it, from the tick size and from the best opposite price.  `snapToTick` is that rounding from the
encoded price on; the encoding itself is floating point, and the price in ticks that it gives is an
input.

`Drawn` says that the mid price of an edit has been rounded, and that nothing overflows.  In every
run whose edits are drawn, every price that is published, and every price at which the subscriber
has a level, is a multiple of the tick size (`on_grid`). -/

namespace Trading

open Replication (Within)
open Transition (run run_invariant States)

/-! ### Rounding -/

def llabs (n : PriceTicks) : PriceTicks := if n < 0 then -n else n

/-- `snap_to_tick`, for a price that has been encoded. -/
def snapToTick (tickSize ticks : PriceTicks) : PriceTicks :=
  let rem := ticks % tickSize
  if rem ≠ 0 then
    if llabs rem * 2 ≥ llabs tickSize then
      ticks + (if ticks ≥ 0 then tickSize - rem else -(tickSize + rem))
    else ticks - rem
  else ticks

section snap
variable {tick ticks mid px : PriceTicks}

theorem toInt_neg_of_bounds {n : PriceTicks} (h : -2 ^ 63 < n.toInt) : (-n).toInt = -n.toInt := by
  have hhigh := n.toInt_lt
  rw [Int64.toInt_neg]
  exact Int.bmod_eq_of_le_mul_two (by omega) (by omega)

theorem toInt_llabs {n : PriceTicks} (h : -2 ^ 63 < n.toInt) : (llabs n).toInt = |n.toInt| := by
  unfold llabs
  split_ifs with hn
  · have hn : n.toInt < 0 := Int64.lt_iff_toInt_lt.mp hn
    rw [toInt_neg_of_bounds h, abs_of_neg hn]
  · have hn : 0 ≤ n.toInt := not_lt.mp fun hlt => hn (Int64.lt_iff_toInt_lt.mpr hlt)
    rw [abs_of_nonneg hn]

/-- The remainder has the sign of the price and is less than a tick. -/
theorem rem_cases (ticks : PriceTicks) (htick : 0 < tick.toInt) :
    0 ≤ ticks.toInt ∧ 0 ≤ (ticks % tick).toInt ∧ (ticks % tick).toInt < tick.toInt ∨
      ticks.toInt < 0 ∧ (ticks % tick).toInt ≤ 0 ∧ -tick.toInt < (ticks % tick).toInt := by
  rw [Int64.toInt_mod]
  rcases le_or_gt 0 ticks.toInt with hpos | hneg
  · exact .inl ⟨hpos, Int.tmod_nonneg _ hpos, Int.tmod_lt_of_pos _ htick⟩
  · have hopp : 0 ≤ (-ticks.toInt).tmod tick.toInt := Int.tmod_nonneg _ (by omega)
    have hlt : (-ticks.toInt).tmod tick.toInt < tick.toInt := Int.tmod_lt_of_pos _ htick
    rw [Int.neg_tmod] at hopp hlt
    exact .inr ⟨hneg, by omega, by omega⟩

/-- The test for half a tick. -/
theorem half_iff (htick : 0 < tick.toInt) (h : Far tick ticks 2) :
    llabs (ticks % tick) * 2 ≥ llabs tick ↔ tick.toInt ≤ |(ticks % tick).toInt| * 2 := by
  have hrem := rem_cases ticks htick
  obtain ⟨hlow, hhigh⟩ := h
  have hmin := ticks.le_toInt
  have hmax := ticks.toInt_lt
  have habs := toInt_llabs (n := ticks % tick) (by omega)
  have hsmall : |(ticks % tick).toInt| < tick.toInt := by
    rw [abs_lt]
    omega
  have hnonneg := abs_nonneg (ticks % tick).toInt
  have htwo : (2 : PriceTicks).toInt = 2 := rfl
  rw [ge_iff_le, Int64.le_iff_toInt_le, toInt_llabs (by omega), abs_of_pos htick,
    toInt_mul_of_bounds (by rw [habs, htwo]; omega) (by rw [habs, htwo]; omega), habs, htwo]

/-- Whole ticks are left once the remainder is taken away. -/
theorem dvd_sub_rem (tick ticks : PriceTicks) :
    tick.toInt ∣ ticks.toInt - (ticks % tick).toInt := by
  refine ⟨ticks.toInt.tdiv tick.toInt, ?_⟩
  have hdiv := Int.mul_tdiv_add_tmod ticks.toInt tick.toInt
  rw [Int64.toInt_mod]
  omega

/-- `snap_to_tick` rounds to a multiple of the tick size, by at most half a tick. -/
theorem snapToTick_spec (htick : 0 < tick.toInt) (h : Far tick ticks 2) :
    tick.toInt ∣ (snapToTick tick ticks).toInt ∧
      2 * |(snapToTick tick ticks).toInt - ticks.toInt| ≤ tick.toInt := by
  have hrem := rem_cases ticks htick
  have hhalf := half_iff htick h
  have hdvd := dvd_sub_rem tick ticks
  obtain ⟨hlow, hhigh⟩ := h
  have hmin := ticks.le_toInt
  have hmax := ticks.toInt_lt
  generalize hr : ticks % tick = rem at hrem hdvd hhalf
  unfold snapToTick
  dsimp only
  rw [hr]
  have hsign : ticks ≥ 0 ↔ 0 ≤ ticks.toInt := Int64.le_iff_toInt_le
  split_ifs with hne hge hpos
  · -- Up to the next multiple.
    have hpos := hsign.mp hpos
    have hge := hhalf.mp hge
    have hgap : (tick - rem).toInt = tick.toInt - rem.toInt :=
      toInt_sub_of_bounds (by omega) (by omega)
    have hsnap : (ticks + (tick - rem)).toInt = ticks.toInt - rem.toInt + tick.toInt := by
      rw [toInt_add_of_bounds (by omega) (by omega), hgap]
      omega
    rw [hsnap]
    rw [abs_of_nonneg (show 0 ≤ rem.toInt by omega)] at hge
    refine ⟨Int.dvd_add hdvd (Int.dvd_refl _), ?_⟩
    rw [abs_of_nonneg (by omega)]
    omega
  · -- Down to the next multiple.
    have hneg : ¬ 0 ≤ ticks.toInt := fun h => hpos (hsign.mpr h)
    have hge := hhalf.mp hge
    have hgap : (tick + rem).toInt = tick.toInt + rem.toInt :=
      toInt_add_of_bounds (by omega) (by omega)
    have hopp : (-(tick + rem)).toInt = -(tick.toInt + rem.toInt) := by
      rw [toInt_neg_of_bounds (by omega), hgap]
    have hsnap : (ticks + -(tick + rem)).toInt = ticks.toInt - rem.toInt - tick.toInt := by
      rw [toInt_add_of_bounds (by omega) (by omega), hopp]
      omega
    rw [hsnap]
    rw [abs_of_nonpos (show rem.toInt ≤ 0 by omega)] at hge
    refine ⟨Int.dvd_sub hdvd (Int.dvd_refl _), ?_⟩
    rw [abs_of_nonpos (by omega)]
    omega
  · have hlt : |rem.toInt| * 2 < tick.toInt := not_le.mp fun h => hge (hhalf.mpr h)
    have hsnap : (ticks - rem).toInt = ticks.toInt - rem.toInt :=
      toInt_sub_of_bounds (by omega) (by omega)
    rw [hsnap]
    refine ⟨hdvd, ?_⟩
    rw [show ticks.toInt - rem.toInt - ticks.toInt = -rem.toInt by omega, abs_neg]
    omega
  · have hzero : rem.toInt = 0 := by
      rw [not_not.mp hne]
      rfl
    rw [hzero, Int.sub_zero] at hdvd
    refine ⟨hdvd, ?_⟩
    rw [Int.sub_self, abs_zero]
    omega

end snap

/-! ### The grid -/

/-- A multiple of the tick size. -/
def OnGrid (tick px : PriceTicks) : Prop := tick.toInt ∣ px.toInt

/-- The best prices, of the sides that are not empty. -/
def TopOfBook.OnGrid (tick : PriceTicks) (t : TopOfBook) : Prop :=
  (t.bestBidPrice = kNoPrice ∨ Trading.OnGrid tick t.bestBidPrice) ∧
    (t.bestAskPrice = kNoPrice ∨ Trading.OnGrid tick t.bestAskPrice)

def Book.OnGrid (tick : PriceTicks) (b : Book) : Prop :=
  ∀ s px l, b.level? s px = some l → Trading.OnGrid tick px

/-- The prices of a message. -/
def MDEvent.OnGrid (tick : PriceTicks) : MDEvent → Prop
  | .l1 _ p => p.tob.OnGrid tick
  | .l2Delta _ d => Trading.OnGrid tick d.price

section grid
variable {b : Book} {tick ticks mid : PriceTicks} {k : ℕ} {s : Side} {px : PriceTicks}

/-- A rounded price is on the grid, and one tick less far from the limits. -/
theorem Far.snap (h : Far tick ticks (k + 1)) (hk : 1 ≤ k) (htick : 0 < tick.toInt) :
    OnGrid tick (snapToTick tick ticks) ∧ Far tick (snapToTick tick ticks) k := by
  have hmul : ((k + 1 : ℕ) : ℤ) * tick.toInt = k * tick.toInt + tick.toInt := by
    rw [Nat.cast_succ, Int.add_mul, Int.one_mul]
  have hone : (1 : ℤ) * tick.toInt ≤ k * tick.toInt :=
    Int.mul_le_mul_of_nonneg_right (Int.ofNat_le.mpr hk) (Int.le_of_lt htick)
  obtain ⟨hlow, hhigh⟩ := h
  have htwo : Far tick ticks 2 := by
    constructor <;> push_cast <;> omega
  obtain ⟨hdvd, hnear⟩ := snapToTick_spec htick htwo
  have hle : |(snapToTick tick ticks).toInt - ticks.toInt| ≤ tick.toInt := by
    have hnonneg := abs_nonneg ((snapToTick tick ticks).toInt - ticks.toInt)
    omega
  have hbelow := neg_abs_le ((snapToTick tick ticks).toInt - ticks.toInt)
  have habove := le_abs_self ((snapToTick tick ticks).toInt - ticks.toInt)
  exact ⟨hdvd, by omega, by omega⟩

theorem Book.OnGrid.tob (h : b.OnGrid tick) : b.tob.OnGrid tick := by
  constructor
  · obtain ⟨hno, -⟩ | ⟨l, hl, -⟩ := b.bestBid_cases
    · exact .inl hno
    · exact .inr (h .bid _ l hl)
  · obtain ⟨hno, -⟩ | ⟨l, hl, -⟩ := b.bestAsk_cases
    · exact .inl hno
    · exact .inr (h .ask _ l hl)

theorem Book.OnGrid.upsertLevel (h : b.OnGrid tick) (hpx : Trading.OnGrid tick px) (s : Side)
    (qty oc : ℕ) : (b.upsertLevel s px qty oc).OnGrid tick := by
  intro s' px' l hl
  obtain ⟨-, rfl⟩ | hl := Book.level?_upsertLevel_cases hl
  · exact hpx
  · exact h s' px' l hl

/-- The offset from the mid and the clamp keep to the grid. -/
theorem onGrid_editPrice (h : Spread b) (hgrid : b.OnGrid b.tickSize) (htick : 0 < b.tickSize.toInt)
    {e : Edit} (hmid : OnGrid b.tickSize mid) (hfar : Far b.tickSize mid e.k) :
    OnGrid b.tickSize (editPrice b mid e) := by
  have hoffset : b.tickSize.toInt ∣ e.k * b.tickSize.toInt := Int.dvd_mul_left _ _
  have hbelow : OnGrid b.tickSize (mid + -Int64.ofNat e.k * b.tickSize) := by
    unfold OnGrid
    rw [hfar.toInt_neg htick]
    exact Int.dvd_sub hmid hoffset
  have habove : OnGrid b.tickSize (mid + Int64.ofNat e.k * b.tickSize) := by
    unfold OnGrid
    rw [hfar.toInt_above htick]
    exact Int.dvd_add hmid hoffset
  unfold editPrice
  dsimp only
  split
  · split_ifs with hask
    · obtain ⟨hno, -⟩ | ⟨l, hl, -⟩ := b.bestAsk_cases
      · exact absurd hno hask
      · unfold OnGrid
        rw [(h.toInt_maxBid htick hl).2]
        exact Int.dvd_sub (hgrid .ask _ l hl) (Int.dvd_refl _)
    · exact hbelow
    · exact hbelow
  · split_ifs with hbid
    · obtain ⟨hno, -⟩ | ⟨l, hl, -⟩ := b.bestBid_cases
      · exact absurd hno hbid
      · unfold OnGrid
        rw [(h.toInt_minAsk htick hl).2]
        exact Int.dvd_add (hgrid .bid _ l hl) (Int.dvd_refl _)
    · exact habove
    · exact habove

end grid

/-! ### The process -/

namespace Sim

/-- The mid price of an edit has been rounded, and no price overflows. -/
def Action.Drawn (tick : PriceTicks) : Action → Prop
  | .edit mid e => ∃ ticks, mid = snapToTick tick ticks ∧ Far tick ticks (e.k + 1)
  | .repair | .publishL1 => True

/-- Every price so far is on the grid. -/
structure OnGrid (tick : PriceTicks) (s : Sim) : Prop where
  book : s.book.OnGrid tick
  past : ∀ b ∈ s.past, b.OnGrid tick
  sent : ∀ ev ∈ s.sent, ev.OnGrid tick

section runs
variable {s : Sim} {tick ticks mid : PriceTicks} {a : Action}

theorem Action.Drawn.spec (h : a.Drawn tick) (htick : 0 < tick.toInt) :
    a.InRange tick ∧ ∀ mid e, a = .edit mid e → Trading.OnGrid tick mid := by
  cases a with
  | edit mid e =>
      obtain ⟨ticks, rfl, hfar⟩ := h
      obtain ⟨hgrid, hfar'⟩ := hfar.snap e.k_range.1 htick
      refine ⟨hfar', fun mid' e' he => ?_⟩
      obtain ⟨rfl, -⟩ := Action.edit.inj he
      exact hgrid
  | repair | publishL1 => exact ⟨trivial, fun mid e he => by cases he⟩

theorem OnGrid.upsert (h : s.OnGrid tick) {px : PriceTicks} (hpx : Trading.OnGrid tick px)
    (side : Side) (qty oc : ℕ) : (s.upsert side px qty oc).OnGrid tick where
  book := h.book.upsertLevel hpx side qty oc
  past b hb := by
    rcases List.mem_append.mp hb with hb | hb
    · exact h.past b hb
    · rw [List.mem_singleton.mp hb]
      exact h.book.upsertLevel hpx side qty oc
  sent := h.sent

theorem OnGrid.send (h : s.OnGrid tick) {ev : MDEvent} (hev : ev.OnGrid tick) (lastL1 : TopOfBook) :
    ({ s with sent := s.sent ++ [ev], lastL1 := lastL1 } : Sim).OnGrid tick where
  book := h.book
  past := h.past
  sent ev' hev' := by
    rcases List.mem_append.mp hev' with hev' | hev'
    · exact h.sent ev' hev'
    · rw [List.mem_singleton.mp hev']
      exact hev

theorem OnGrid.step (h : s.OnGrid tick) (hapart : s.Apart tick) (htick : 0 < tick.toInt)
    (ha : a.Drawn tick) : (s.step a).OnGrid tick := by
  obtain ⟨hrange, hmid⟩ := ha.spec htick
  have hm := moves_step s a
  generalize s.step a = s' at hm ⊢
  have hspread := hapart.tidy.spread
  obtain rfl := hapart.tidy.tickSize
  cases hm with
  | edit =>
      have hpx := onGrid_editPrice hspread h.book htick (hmid _ _ rfl) hrange
      refine (h.upsert hpx ..).send ?_ s.lastL1
      exact hpx
  | repair hc => exact absurd hc hspread.not_crossed
  | top =>
      refine h.send ?_ s.book.tob
      exact h.book.tob
  | sound | sameTop => exact h

theorem onGrid_start (htick : 0 < tick.toInt) (hfar : Far tick mid 10)
    (hmid : Trading.OnGrid tick mid) : (start tick mid).OnGrid tick := by
  have hseeded : (start tick mid).Seeded tick mid ∧ (start tick mid).OnGrid tick := by
    refine seed_invariant (P := fun s => s.Seeded tick mid ∧ s.OnGrid tick) ?_ ?_
    · rintro s i hi ⟨hs, hgrid⟩
      refine ⟨hs.seedStep htick hfar hi, ?_⟩
      have hi' := List.mem_range'_1.mp hi
      have hten : (i : ℤ) * tick.toInt ≤ (10 : ℕ) * tick.toInt :=
        Int.mul_le_mul_of_nonneg_right (Int.ofNat_le.mpr (by omega)) (Int.le_of_lt htick)
      have hfari : Far tick mid i := ⟨by have := hfar.1; omega, by have := hfar.2; omega⟩
      have hoffset : tick.toInt ∣ i * tick.toInt := Int.dvd_mul_left _ _
      have hbid : Trading.OnGrid tick (mid - Int64.ofNat i * tick) := by
        unfold Trading.OnGrid
        rw [hfari.toInt_below htick]
        exact Int.dvd_sub hmid hoffset
      have hask : Trading.OnGrid tick (mid + Int64.ofNat i * tick) := by
        unfold Trading.OnGrid
        rw [hfari.toInt_above htick]
        exact Int.dvd_add hmid hoffset
      obtain rfl := hs.tickSize
      exact (hgrid.upsert hbid ..).upsert hask ..
    · refine ⟨⟨rfl, fun px l hpx => (by cases hpx), fun px l hpx => (by cases hpx)⟩, ?_, ?_, ?_⟩
      · intro s px l hl
        cases s <;> cases hl
      · intro b hb s px l hl
        rw [List.mem_singleton.mp hb] at hl
        cases s <;> cases hl
      · intro ev hev
        cases hev
  exact hseeded.2

end runs
end Sim

namespace Feed

/-- The edits of the simulator are drawn. -/
def Action.Drawn (tick : PriceTicks) : Action → Prop
  | .sim a => a.Drawn tick
  | .receive _ | .serve | .store | .giveUp _ => True

/-- Every price that the simulator has published or keeps, and every price at which the subscriber
has a level or a top of book, is on the grid. -/
structure OnGrid (tick : PriceTicks) (f : Feed) : Prop where
  sim : f.sim.OnGrid tick
  levels : ∀ s, ∀ e ∈ f.sub.book.side s, Trading.OnGrid tick e.1
  tob : f.sub.book.tob.OnGrid tick

section runs
variable {f f' : Feed} {a : Action} {tick ticks : PriceTicks}

/-- What the subscriber has is the simulator's. -/
theorem onGrid_of_ok (hok : f.Ok) (h : f.sim.OnGrid tick) : f.OnGrid tick where
  sim := h
  levels s e he := by
    obtain ⟨b, hb, hw⟩ := hok.levels
    have hlevel := hw _ _ (LocalBook.mem_side_iff.mp he)
    rw [Book.table_toByte, Option.map_eq_some_iff] at hlevel
    obtain ⟨l, hl, -⟩ := hlevel
    exact h.past b (List.mem_of_getElem? hb) s e.1 l hl
  tob := by
    obtain ⟨b, hb, htob⟩ := hok.top
    rw [htob]
    exact Book.OnGrid.tob (h.past b (List.mem_of_getElem? hb))

theorem simOnGrid_step (hok : f.Ok) (hapart : f.sim.Apart tick) (h : f.sim.OnGrid tick)
    (htick : 0 < tick.toInt) (ha : a.Drawn tick) (hs : f.step a = some f') :
    f'.sim.Apart tick ∧ f'.sim.OnGrid tick := by
  cases moves_of_step hok hs with
  | sim a =>
      have ha : a.Drawn tick := ha
      exact ⟨hapart.step htick (ha.spec htick).1, h.step hapart htick ha⟩
  | stale | gap | next | top | serve | storeL2 | storeL1 | giveUp => exact ⟨hapart, h⟩

/-- **All prices are multiples of the tick size**, in every run in which the mid prices are rounded
by `snap_to_tick` and none is within a few ticks of overflow: those of the simulator's book at any
time, of every message and so of every snapshot, and those that the subscriber has. -/
theorem on_grid (htick : 0 < tick.toInt) (hseed : Far tick ticks 11) (symbol : String) (depth : ℕ)
    {acts : List Action} (hacts : ∀ a ∈ acts, a.Drawn tick) :
    States step (start tick (snapToTick tick ticks) symbol depth) (fun _ f => f.OnGrid tick)
      acts := by
  intro pre post he f hf
  obtain ⟨hmid, hfar⟩ := hseed.snap (k := 10) (by decide) htick
  have hinv : f.Ok ∧ f.sim.Apart tick ∧ f.sim.OnGrid tick := by
    refine run_invariant (G := fun _ _ a => a.Drawn tick)
      (P := fun _ f => f.Ok ∧ f.sim.Apart tick ∧ f.sim.OnGrid tick)
      ⟨ok_start tick _ symbol depth, Sim.apart_start htick hfar,
        Sim.onGrid_start htick hfar hmid⟩ ?_ ?_ hf
    · intro _ g a g' h ha hs
      exact ⟨h.1.step hs, simOnGrid_step h.1 h.2.1 h.2.2 htick ha hs⟩
    · intro p a q hp _ _
      exact hacts a (by rw [he, hp]; simp)
  exact onGrid_of_ok hinv.1 hinv.2.2

/-- A tick of 25, a mid price that is rounded down and one that is rounded up. -/
theorem on_grid_quarter : States step (start 25 (snapToTick 25 200012) "ETH-USD" 2)
    (fun _ f => f.OnGrid 25)
    [.serve, .store, .serve, .store,
      .sim (.edit (snapToTick 25 200013) ⟨.bid, 1, false, 7, by decide, by decide⟩),
      .sim .repair, .sim .publishL1, .receive 0, .receive 1] := by
  refine on_grid (by decide) (by decide) "ETH-USD" 2 fun a ha => ?_
  simp only [List.mem_cons, List.not_mem_nil, or_false] at ha
  rcases ha with rfl | rfl | rfl | rfl | rfl | rfl | rfl | rfl | rfl
  case inr.inr.inr.inr.inl => exact ⟨200013, rfl, by decide⟩
  all_goals exact trivial

end runs
end Feed

end Trading
