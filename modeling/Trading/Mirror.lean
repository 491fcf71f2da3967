import Trading.Sentinel

/-! # Buy and sell are mirror images

Mirroring exchanges the sides and negates the prices other than `kNoPrice`.  `Mirrors b m` relates
a book without a level at `kNoPrice` to its mirror image; every operation of the engine, run on
mirrored arguments, keeps it, so that `match_buy` and `match_sell`, the two comparators and the two
arms of each case distinction on the side agree.  The order of the levels enters at one place
only, the best level (`Mirrors.best?`), and this is where `kNoPrice` has to be absent: it is
its own mirror image and stays the least price. -/

namespace Trading

/-! ### Mirrored prices -/

/-- The negated price; `kNoPrice` is kept. -/
def mirrorPx (p : PriceTicks) : PriceTicks := if p = kNoPrice then kNoPrice else -p

section prices
variable {p q : PriceTicks}

@[simp] theorem mirrorPx_kNoPrice : mirrorPx kNoPrice = kNoPrice := rfl

/-- In 64 bits the least price is its own negation. -/
theorem mirrorPx_eq_neg (p : PriceTicks) : mirrorPx p = -p := by
  unfold mirrorPx
  split_ifs with h
  · rw [h]; decide
  · rfl

@[simp] theorem mirrorPx_mirrorPx (p : PriceTicks) : mirrorPx (mirrorPx p) = p := by
  rw [mirrorPx_eq_neg, mirrorPx_eq_neg, Int64.neg_neg]

@[simp] theorem mirrorPx_inj : mirrorPx p = mirrorPx q ↔ p = q := by
  rw [mirrorPx_eq_neg, mirrorPx_eq_neg, Int64.neg_inj]

@[simp] theorem mirrorPx_eq_kNoPrice_iff : mirrorPx p = kNoPrice ↔ p = kNoPrice := by
  rw [← mirrorPx_kNoPrice, mirrorPx_inj, mirrorPx_kNoPrice]

theorem toInt_mirrorPx (h : p ≠ kNoPrice) : (mirrorPx p).toInt = -p.toInt := by
  have hmin : p.toInt ≠ -2 ^ 63 := fun hp => h (Int64.toInt_inj.mp hp)
  have hle := p.le_toInt
  have hlt := p.toInt_lt
  rw [mirrorPx_eq_neg, Int64.toInt_neg, Int.bmod_def]
  omega

/-- **Mirroring reverses the order of the prices.** -/
theorem mirrorPx_lt (hp : p ≠ kNoPrice) (hq : q ≠ kNoPrice) : mirrorPx p < mirrorPx q ↔ q < p := by
  rw [Int64.lt_iff_toInt_lt, Int64.lt_iff_toInt_lt, toInt_mirrorPx hp, toInt_mirrorPx hq]
  omega

theorem mirrorPx_le (hp : p ≠ kNoPrice) (hq : q ≠ kNoPrice) : mirrorPx p ≤ mirrorPx q ↔ q ≤ p := by
  rw [← not_lt, ← not_lt, mirrorPx_lt hq hp]

end prices

/-! ### Mirrored orders, commands and reports -/

namespace Side

@[simp] theorem opp_inj {s t : Side} : s.opp = t.opp ↔ s = t := by cases s <;> cases t <;> decide

end Side

def Order.mirror (o : Order) : Order := { o with side := o.side.opp, price := mirrorPx o.price }

def Node.mirror (n : Node) : Node := { n with ord := n.ord.mirror }

def Loc.mirror (l : Loc) : Loc := { l with side := l.side.opp, px := mirrorPx l.px }

def OrderCmd.mirror : OrderCmd → OrderCmd
  | .new o => .new o.mirror
  | .cancel id => .cancel id
  | .replace id newPx newQty => .replace id (mirrorPx newPx) newQty

def ExecReport.mirror (er : ExecReport) : ExecReport := { er with lastPx := mirrorPx er.lastPx }

/-- An order that may rest has a price. -/
def OrderCmd.Priced : OrderCmd → Prop
  | .new o => o.type ≠ .market → o.price ≠ kNoPrice
  | .cancel _ | .replace .. => True

instance : DecidablePred OrderCmd.Priced
  | .new o => inferInstanceAs (Decidable (o.type ≠ .market → o.price ≠ kNoPrice))
  | .cancel _ | .replace .. => isTrue trivial

/-- The limit test of a buyer is that of a seller in the mirror. -/
theorem isLimitCross_mirror (side : Side) (p q : PriceTicks) :
    isLimitCross side.opp (mirrorPx p) (mirrorPx q) = isLimitCross side p q := by
  unfold isLimitCross
  simp only [mirrorPx_eq_kNoPrice_iff]
  split_ifs with h
  · rfl
  · obtain ⟨hp, hq⟩ := not_or.mp h
    cases side
    · simp only [Side.opp, ge_iff_le, mirrorPx_le hp hq]
    · simp only [Side.opp, ge_iff_le, mirrorPx_le hq hp]

namespace EngineBook

open Transition

/-- A replacement adjusts the mirrored order to the mirrored one. -/
theorem adjust_mirror (n : Node) (px : PriceTicks) (qty : ℕ) :
    adjust n.mirror (mirrorPx px) qty = (adjust n px qty).mirror := by
  unfold adjust Node.mirror Order.mirror
  simp only [ne_eq, mirrorPx_eq_kNoPrice_iff, mirrorPx_inj]
  congr 2
  split_ifs <;> rfl

/-! ### The mirror image of a book -/

/-- A level in the mirror. -/
def mirrorLevel (e : PriceTicks × Queue) : PriceTicks × Queue := (mirrorPx e.1, e.2.map Node.mirror)

/-- `m` is the mirror image of `b`: the sides are exchanged and their keys negated, the queues and
the index are the same up to the mirroring of what they hold, and so are the reports. -/
structure IsMirror (b m : EngineBook) : Prop where
  levels : ∀ s, m.levels s.opp = (b.levels s).map mirrorLevel
  index : ∀ id, m.loc.find? id = (b.loc.find? id).map Loc.mirror
  reports : m.sink = b.sink.map ExecReport.mirror

/-- The mirror image by lookups, of a book without a level at `kNoPrice`. -/
structure Mirrors (b m : EngineBook) : Prop where
  queues : ∀ s px, m.queue? s.opp (mirrorPx px) = (b.queue? s px).map (List.map Node.mirror)
  index : ∀ id, m.loc.find? id = (b.loc.find? id).map Loc.mirror
  reports : m.sink = b.sink.map ExecReport.mirror
  priced : ∀ s, b.queue? s kNoPrice = none

section relation
variable {b m : EngineBook} {s : Side} {px : PriceTicks} {q : Queue} {id : OrderId}

theorem Mirrors.empty : Mirrors EngineBook.empty EngineBook.empty where
  queues s px := by cases s <;> rfl
  index _ := rfl
  reports := rfl
  priced s := by cases s <;> rfl

theorem Mirrors.queueFor (h : Mirrors b m) (s : Side) (px : PriceTicks) :
    m.queueFor s.opp (mirrorPx px) = (b.queueFor s px).map Node.mirror := by
  unfold EngineBook.queueFor
  rw [h.queues]
  cases b.queue? s px <;> rfl

theorem Mirrors.ne_kNoPrice (h : Mirrors b m) (hq : b.queue? s px = some q) : px ≠ kNoPrice := by
  rintro rfl
  rw [h.priced] at hq
  cases hq

/-- The levels in the mirror are those of the other side, in the same order. -/
theorem Mirrors.levels (h : Mirrors b m) (s : Side) :
    m.levels s.opp = (b.levels s).map mirrorLevel := by
  have hmem : ∀ e, e ∈ m.levels s.opp ↔ e ∈ (b.levels s).map mirrorLevel := by
    intro e
    obtain ⟨px, q⟩ := e
    obtain ⟨px, rfl⟩ : ∃ px', mirrorPx px' = px := ⟨mirrorPx px, mirrorPx_mirrorPx px⟩
    rw [mem_levels_iff, h.queues, Option.map_eq_some_iff, List.mem_map]
    constructor
    · intro hq
      obtain ⟨q', hq', rfl⟩ := hq
      exact ⟨(px, q'), mem_levels_iff.mpr hq', rfl⟩
    · intro hq
      obtain ⟨⟨px', q'⟩, hq', he⟩ := hq
      obtain ⟨hpx, rfl⟩ := Prod.mk.inj he
      exact ⟨q', mirrorPx_inj.mp hpx ▸ mem_levels_iff.mp hq', rfl⟩
  have hne : ∀ e ∈ b.levels s, e.1 ≠ kNoPrice := fun e he => h.ne_kNoPrice (mem_levels_iff.mp he)
  -- both lists are sorted in the direction of `s.opp`, so equal members make them equal
  have hmap : ((b.levels s).map mirrorLevel).Pairwise fun e e' => Better s.opp e.1 e'.1 := by
    rw [List.pairwise_map]
    refine (b.levels_pairwise s).imp_of_mem fun {e e'} he he' hlt => ?_
    cases s
    · exact (mirrorPx_lt (hne e he) (hne e' he')).mpr hlt
    · exact (mirrorPx_lt (hne e' he') (hne e he)).mpr hlt
  have hnodup : ∀ {l : List (PriceTicks × Queue)},
      l.Pairwise (fun e e' => Better s.opp e.1 e'.1) → l.Nodup := by
    intro l hl
    refine hl.imp fun {e e'} hlt he => ?_
    exact irrefl_of (Better s.opp) e.1 (he ▸ hlt)
  have hperm : (m.levels s.opp).Perm ((b.levels s).map mirrorLevel) :=
    (List.perm_ext_iff_of_nodup (hnodup (m.levels_pairwise s.opp)) (hnodup hmap)).mpr hmem
  refine hperm.eq_of_pairwise (fun e e' _ _ h1 h2 => ?_) (m.levels_pairwise s.opp) hmap
  exact absurd h2 (asymm_of (Better s.opp) h1)

theorem Mirrors.isMirror (h : Mirrors b m) : IsMirror b m := ⟨h.levels, h.index, h.reports⟩

/-- The best level of a side is the best level of the other side in the mirror. -/
theorem Mirrors.best? (h : Mirrors b m) (s : Side) :
    m.best? s.opp = (b.best? s).map mirrorLevel := by
  rw [best?_eq_head?, best?_eq_head?, h.levels, List.head?_map]

/-! ### The updates -/

theorem Mirrors.publish (h : Mirrors b m) (er : ExecReport) :
    Mirrors (b.publish er) (m.publish er.mirror) where
  queues s px := by rw [queue?_publish, queue?_publish, h.queues]
  index := h.index
  reports := by rw [sink_publish, sink_publish, h.reports, List.map_append]; rfl
  priced s := by rw [queue?_publish, h.priced]

theorem mirrors_setQueue (h : Mirrors b m) (hpx : px ≠ kNoPrice) (s : Side) (q : Queue) :
    Mirrors (b.setQueue s px q) (m.setQueue s.opp (mirrorPx px) (q.map Node.mirror)) where
  queues s' px' := by
    rw [queue?_setQueue, queue?_setQueue, h.queues]
    simp only [Side.opp_inj, mirrorPx_inj]
    split_ifs <;> rfl
  index id := by rw [loc_setQueue, loc_setQueue, h.index]
  reports := by rw [sink_setQueue, sink_setQueue, h.reports]
  priced s' := by rw [queue?_setQueue, if_neg fun hk => hpx hk.2.symm, h.priced]

theorem mirrors_eraseLevel (h : Mirrors b m) (s : Side) (px : PriceTicks) :
    Mirrors (b.eraseLevel s px) (m.eraseLevel s.opp (mirrorPx px)) where
  queues s' px' := by
    rw [queue?_eraseLevel, queue?_eraseLevel, h.queues]
    simp only [Side.opp_inj, mirrorPx_inj]
    split_ifs <;> rfl
  index id := by rw [loc_eraseLevel, loc_eraseLevel, h.index]
  reports := by rw [sink_eraseLevel, sink_eraseLevel, h.reports]
  priced s' := by
    rw [queue?_eraseLevel, h.priced]
    split_ifs <;> rfl

theorem mirrors_eraseLoc (h : Mirrors b m) (id : OrderId) :
    Mirrors (b.eraseLoc id) (m.eraseLoc id) where
  queues s px := by rw [queue?_eraseLoc, queue?_eraseLoc, h.queues]
  index id' := by
    rw [loc_eraseLoc, loc_eraseLoc, OrdMap.find?_erase, OrdMap.find?_erase, h.index]
    split_ifs <;> rfl
  reports := h.reports
  priced s := by rw [queue?_eraseLoc, h.priced]

theorem mirrors_setLoc (h : Mirrors b m) (id : OrderId) (l : Loc) :
    Mirrors { b with loc := b.loc.set id l } { m with loc := m.loc.set id l.mirror } where
  queues s px := by rw [queue?_withLoc m, queue?_withLoc b, h.queues]
  index id' := by
    rw [OrdMap.find?_set, OrdMap.find?_set, h.index]
    split_ifs <;> rfl
  reports := h.reports
  priced s := by rw [queue?_withLoc b, h.priced]

theorem mirrors_enqueue (h : Mirrors b m) {n : Node} (hpx : n.ord.price ≠ kNoPrice) :
    Mirrors (b.enqueue n) (m.enqueue n.mirror) := by
  have hq : m.queueFor n.mirror.ord.side n.mirror.ord.price ++ [n.mirror] =
      (b.queueFor n.ord.side n.ord.price ++ [n]).map Node.mirror := by
    rw [List.map_append]
    exact congrArg (· ++ [n.mirror]) (h.queueFor n.ord.side n.ord.price)
  have h' := mirrors_setQueue h hpx n.ord.side (b.queueFor n.ord.side n.ord.price ++ [n])
  unfold enqueue
  simp only [hq, List.length_map]
  exact mirrors_setLoc h' n.ord.orderId ⟨n.ord.side, n.ord.price, _⟩

theorem mirrors_reindex (h : Mirrors b m) (id : OrderId) (i : ℕ) :
    Mirrors (b.reindex id i) (m.reindex id i) := by
  cases hl : b.loc.find? id with
  | none =>
      have hm : m.loc.find? id = none := by rw [h.index, hl]; rfl
      rwa [reindex_of_none hl, reindex_of_none hm]
  | some l =>
      have hm : m.loc.find? id = some l.mirror := by rw [h.index, hl]; rfl
      rw [reindex_of_some hl, reindex_of_some hm]
      exact mirrors_setLoc h id { l with idx := i }

theorem mirrors_putQueue (h : Mirrors b m) (hpx : px ≠ kNoPrice) (s : Side) (q : Queue) :
    Mirrors (b.putQueue s px q) (m.putQueue s.opp (mirrorPx px) (q.map Node.mirror)) := by
  unfold putQueue
  simp only [List.map_eq_nil_iff]
  split_ifs
  · exact mirrors_eraseLevel h s px
  · exact mirrors_setQueue h hpx s q

/-- The two arms of `erase_at` mirror each other. -/
theorem mirrors_eraseAt (h : Mirrors b m) {lc : Loc} (hpx : lc.px ≠ kNoPrice) :
    Mirrors (b.eraseAt lc) (m.eraseAt lc.mirror) := by
  have hq : m.queueFor lc.mirror.side lc.mirror.px = (b.queueFor lc.side lc.px).map Node.mirror :=
    h.queueFor lc.side lc.px
  cases hv : (b.queueFor lc.side lc.px)[lc.idx]? with
  | none =>
      have hv' : (m.queueFor lc.mirror.side lc.mirror.px)[lc.mirror.idx]? = none := by
        rw [hq, List.getElem?_map]
        exact congrArg (Option.map Node.mirror) hv
      rw [eraseAt_of_none hv, eraseAt_of_none hv', hq]
      exact mirrors_setQueue h hpx lc.side _
  | some v =>
      obtain ⟨l, r, hsplit, hi⟩ := queue_split hv
      have hi' : (l.map Node.mirror).length = lc.mirror.idx := by rw [List.length_map]; exact hi
      rw [hsplit] at hq
      rcases List.eq_nil_or_concat r with rfl | ⟨r, z, rfl⟩
      · rw [List.map_append] at hq
        rw [eraseAt_of_last hsplit hi, eraseAt_of_last hq hi']
        exact mirrors_eraseLoc (mirrors_putQueue h hpx lc.side l) v.ord.orderId
      · rw [List.concat_eq_append] at hsplit hq
        rw [List.map_append, List.map_cons, List.map_append] at hq
        have hput := mirrors_putQueue h hpx lc.side (l ++ z :: r)
        rw [List.map_append, List.map_cons] at hput
        rw [eraseAt_of_swap hsplit hi, eraseAt_of_swap hq hi']
        exact mirrors_reindex (mirrors_eraseLoc hput v.ord.orderId) z.ord.orderId lc.idx

end relation

/-! ### Matching -/

/-- The states of a buy and of the sell it is in the mirror. -/
structure MirrorMatching (s t : Matching) : Prop where
  book : Mirrors s.book t.book
  taker : t.taker = s.taker.mirror

section matching
variable {s t : Matching} {side : Side} {px : PriceTicks}

/-- One round of the inner loop. -/
theorem mirrors_sweepStep (h : MirrorMatching s t) (side : Side) (hpx : px ≠ kNoPrice) :
    Option.Rel MirrorMatching (sweepStep side px s) (sweepStep side.opp (mirrorPx px) t) := by
  obtain ⟨b, taker⟩ := s
  obtain ⟨m, taker'⟩ := t
  obtain ⟨hb, rfl : taker' = taker.mirror⟩ := h
  unfold sweepStep
  simp only [hb.queueFor side px]
  show Option.Rel _ _ (if 0 < taker.leaves then _ else none)
  by_cases hpos : 0 < taker.leaves
  · rw [if_pos hpos, if_pos hpos]
    cases b.queueFor side px with
    | nil => exact .none
    | cons maker rest =>
        let dq := min maker.leaves taker.leaves
        have hfill := (hb.publish (tradeReport ⟨taker.ord, taker.leaves - dq⟩ px dq)).publish
          (tradeReport ⟨maker.ord, maker.leaves - dq⟩ px dq)
        show Option.Rel _ (if maker.leaves - dq = 0 then _ else _)
          (if maker.leaves - dq = 0 then _ else _)
        split_ifs
        · exact .some ⟨mirrors_setQueue (mirrors_eraseLoc hfill maker.ord.orderId) hpx side rest, rfl⟩
        · exact .some ⟨mirrors_setQueue hfill hpx side
            (⟨maker.ord, maker.leaves - dq⟩ :: rest), rfl⟩
  · rw [if_neg hpos, if_neg hpos]
    exact .none

/-- One round of the outer loop. -/
theorem mirrors_matchStep (h : MirrorMatching s t) (side : Side) :
    Option.Rel MirrorMatching (matchStep side s) (matchStep side.opp t) := by
  have hbest := h.book.best? side.opp
  have hleaves : t.taker.leaves = s.taker.leaves := by rw [h.taker]; rfl
  have hprice : t.taker.ord.price = mirrorPx s.taker.ord.price := by rw [h.taker]; rfl
  unfold matchStep
  rw [hleaves, hbest]
  by_cases hpos : 0 < s.taker.leaves
  · rw [if_pos hpos, if_pos hpos]
    cases hb : s.book.best? side.opp with
    | none => exact .none
    | some e =>
        obtain ⟨px, q⟩ := e
        have hpx := h.book.ne_kNoPrice (queue?_of_best? hb)
        have hsw := whileLoop_simulates (fun _ _ h => mirrors_sweepStep h side.opp hpx)
          q.length s t h
        simp only [Option.map_some, mirrorLevel, hprice, isLimitCross_mirror, List.length_map,
          hsw.book.queueFor, List.isEmpty_map]
        split_ifs
        · exact .some ⟨mirrors_eraseLevel hsw.book side.opp px, hsw.taker⟩
        · exact .some hsw
        · exact .none
  · rw [if_neg hpos, if_neg hpos]
    exact .none

/-- `match_buy` and `match_sell` mirror each other. -/
theorem mirrors_matchSide (h : MirrorMatching s t) (side : Side) :
    MirrorMatching (matchSide side s) (matchSide side.opp t) := by
  unfold matchSide
  rw [h.book.levels, List.length_map]
  exact whileLoop_simulates (fun _ _ h => mirrors_matchStep h side) _ s t h

end matching

/-! ### The engine API -/

section api
variable {b m : EngineBook} {o : Order} {id : OrderId}

theorem mirrors_arrive (h : Mirrors b m) (o : Order) :
    MirrorMatching (b.arrive o) (m.arrive o.mirror) :=
  mirrors_matchSide ⟨h.publish (newReport ⟨o, o.qty⟩), rfl⟩ o.side

theorem mirrors_onNew (h : Mirrors b m) (hne : b.NoEmptyLevel)
    (hpx : o.type ≠ .market → o.price ≠ kNoPrice) : Mirrors (b.onNew o) (m.onNew o.mirror) := by
  have ha := mirrors_arrive h o
  have hleaves : (m.arrive o.mirror).taker.leaves = (b.arrive o).taker.leaves := by
    rw [ha.taker]; rfl
  obtain ⟨hpos, hm, he⟩ | ⟨h0, he⟩ | ⟨hpos, hm, he⟩ := b.onNew_cases o
  · obtain ⟨-, -, he'⟩ | ⟨h0', -⟩ | ⟨-, hm', -⟩ := m.onNew_cases o.mirror
    · rw [he, he', ha.taker]
      apply mirrors_enqueue ha.book
      rw [arrive_ord hne]
      exact hpx hm
    · omega
    · exact absurd hm' hm
  · obtain ⟨hpos', -, -⟩ | ⟨-, he'⟩ | ⟨hpos', -, -⟩ := m.onNew_cases o.mirror
    · omega
    · rw [he, he']
      exact ha.book.publish (filledReport o)
    · omega
  · obtain ⟨-, hm', -⟩ | ⟨h0', -⟩ | ⟨-, -, he'⟩ := m.onNew_cases o.mirror
    · exact absurd hm hm'
    · omega
    · rw [he, he']
      exact ha.book

theorem mirrors_onCancel (h : Mirrors b m) (hs : Sound b) (id : OrderId) :
    Mirrors (b.onCancel id) (m.onCancel id) := by
  have hm := h.index id
  cases hl : b.loc.find? id with
  | none =>
      rw [hl] at hm
      rwa [onCancel_of_none hl, onCancel_of_none hm]
  | some lc =>
      rw [hl] at hm
      obtain ⟨q, hq⟩ := exists_queue? (hs.queueFor_ne_nil hl)
      rw [onCancel_of_some hl, onCancel_of_some hm]
      exact (mirrors_eraseLoc (mirrors_eraseAt h (h.ne_kNoPrice hq)) id).publish (canceledReport id)

/-- A replacement past the end of the queue happens on both sides or on none. -/
theorem mirrors_onReplace (h : Mirrors b m) (hs : Sound b) (id : OrderId) (px : PriceTicks)
    (qty : ℕ) :
    Option.Rel Mirrors (b.onReplace id px qty) (m.onReplace id (mirrorPx px) qty) := by
  have hm := h.index id
  unfold onReplace
  cases hl : b.loc.find? id with
  | none =>
      rw [hl] at hm
      simp only [hm, Option.map_none]
      exact .some h
  | some lc =>
      rw [hl] at hm
      have hn' : (m.queueFor lc.mirror.side lc.mirror.px)[lc.mirror.idx]? =
          (b.queueFor lc.side lc.px)[lc.idx]?.map Node.mirror := by
        rw [← List.getElem?_map, ← h.queueFor]
        rfl
      simp only [hm, Option.map_some, hn']
      cases hn : (b.queueFor lc.side lc.px)[lc.idx]? with
      | none => exact .none
      | some n =>
          obtain ⟨q, hq⟩ := exists_queue? (hs.queueFor_ne_nil hl)
          have hlc := h.ne_kNoPrice hq
          have herase := mirrors_eraseLoc (mirrors_eraseAt h hlc) id
          have hnode := hs.node _ _ n (List.mem_of_getElem? hn)
          have hprice := adjust_price_ne (hnode.price.symm ▸ hlc) px qty
          have hnew := mirrors_onNew herase ((hs.eraseAt hl).eraseLoc id).noEmpty fun _ => hprice
          simp only [Option.map_some, adjust_mirror]
          exact .some (hnew.publish (replacedReport (adjust n px qty)))

/-- One command and its mirror image. -/
theorem mirrors_dispatch (h : Mirrors b m) (hs : Sound b) {c : OrderCmd} (hc : c.Priced) :
    Option.Rel Mirrors (b.dispatch c) (m.dispatch c.mirror) := by
  cases c with
  | new o => exact .some (mirrors_onNew h hs.noEmpty hc)
  | cancel id => exact .some (mirrors_onCancel h hs id)
  | replace id px qty => exact mirrors_onReplace h hs id px qty

end api

/-- Mirrored runs mirror each other, and one is undefined where the other is. -/
theorem mirrors_run {cmds : List OrderCmd} (hpriced : ∀ c ∈ cmds, c.Priced) :
    Option.Rel (fun b m => Sound b ∧ Mirrors b m) (run dispatch EngineBook.empty cmds)
      (run dispatch EngineBook.empty (cmds.map OrderCmd.mirror)) := by
  have hstep : ∀ b m (c : OrderCmd), c.Priced → Sound b ∧ Mirrors b m →
      Option.Rel (fun b m => Sound b ∧ Mirrors b m) (b.dispatch c) (m.dispatch c.mirror) := by
    intro b m c hc h
    obtain ⟨hs, hm⟩ := h
    have hd := mirrors_dispatch hm hs hc
    have hs' : ∀ b', b.dispatch c = some b' → Sound b' := fun b' hb => hs.dispatch hb
    generalize b.dispatch c = x at hd hs' ⊢
    generalize m.dispatch c.mirror = y at hd ⊢
    cases hd with
    | none => exact .none
    | some h' => exact .some ⟨hs' _ rfl, h'⟩
  exact run_simulates hstep cmds _ _ hpriced ⟨Sound.empty, Mirrors.empty⟩

/-- **Buy/sell symmetry.** When every order that may rest has a price, the mirrored commands give,
after every command, the mirrored book and the mirrored reports. -/
theorem mirror_run {cmds : List OrderCmd} (hpriced : ∀ c ∈ cmds, c.Priced) {b : EngineBook}
    (hrun : run dispatch EngineBook.empty cmds = some b) {pre : List OrderCmd} (hpre : pre <+: cmds) :
    ∃ t m, run dispatch EngineBook.empty pre = some t ∧
      run dispatch EngineBook.empty (pre.map OrderCmd.mirror) = some m ∧ IsMirror t m := by
  obtain ⟨post, rfl⟩ := hpre
  rw [run_append, Option.bind_eq_some_iff] at hrun
  obtain ⟨t, ht, -⟩ := hrun
  have hpriced' : ∀ c ∈ pre, c.Priced := fun c hc => hpriced c (List.mem_append_left post hc)
  have hrel := mirrors_run hpriced'
  rw [ht] at hrel
  generalize run dispatch EngineBook.empty (pre.map OrderCmd.mirror) = y at hrel ⊢
  cases hrel with
  | some h => exact ⟨t, _, ht, rfl, h.2.isMirror⟩

/-- A sale into two bids, one of them partly, then a replacement; and all of it on the other
side. -/
theorem mirror_run_sweep :
    ∃ t m, run dispatch EngineBook.empty
        [.new { orderId := 1, side := .bid, price := 100, qty := 5 },
          .new { orderId := 2, side := .bid, price := 101, qty := 5 },
          .new { orderId := 3, side := .ask, type := .market, qty := 7 },
          .replace 1 99 4] = some t ∧
      run dispatch EngineBook.empty
        [.new { orderId := 1, side := .ask, price := -100, qty := 5 },
          .new { orderId := 2, side := .ask, price := -101, qty := 5 },
          .new { orderId := 3, side := .bid, type := .market, qty := 7 },
          .replace 1 (-99) 4] = some m ∧ IsMirror t m := by
  have hpriced : ∀ c ∈ [OrderCmd.new { orderId := 1, side := .bid, price := 100, qty := 5 },
      .new { orderId := 2, side := .bid, price := 101, qty := 5 },
      .new { orderId := 3, side := .ask, type := .market, qty := 7 },
      .replace 1 99 4], c.Priced := by decide
  exact mirror_run hpriced rfl (List.prefix_refl _)

end EngineBook
end Trading
