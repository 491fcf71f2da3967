import Trading.Reports

/-! # At most one final report

A final report ends an order: none about it should follow.  Two sites break this.  `on_new` closes
an order without leaves by a trade report of no quantity, although `fill` has reported the last
trade as final already; and a cancel whose remembered position is stale reports an order cancelled
that stays in the book and trades later.  `finalOnce_iff` says that there are no others: the law
holds as long as every incoming order finds less than its quantity, at priced levels and in orders
that have not been reported final. -/

namespace Trading
namespace EngineBook

open Transition

/-- No report about an order follows a final one. -/
def EndsOrder (r r' : ExecReport) : Prop := r.orderId = r'.orderId → ¬ r.status.isFinal

/-- Every order has at most one final report, which is its last, and a trade report tells a
quantity and a price. -/
structure FinalOnce (rs : List ExecReport) : Prop where
  atMostOne : ∀ id, ((reportsOf rs id).filter fun r => r.status.isFinal).length ≤ 1
  last : rs.Pairwise EndsOrder
  trade : ∀ r ∈ rs, r.execType = .trade → 0 < r.lastQty ∧ r.lastPx ≠ kNoPrice

/-- Some final report about `id` has been published. -/
def Closed (b : EngineBook) (id : OrderId) : Prop := ∃ r ∈ reportsOf b.sink id, r.status.isFinal

/-- The orders with an index entry have not been reported final. -/
def IndexOpen (b : EngineBook) : Prop := ∀ id lc, b.loc.find? id = some lc → ¬ Closed b id

/-- An incoming order finds less than its quantity, at priced levels and in orders that have not
been reported final. -/
def FillsOpen (b : EngineBook) (c : OrderCmd) : Prop :=
  ∀ o, c = .new o → b.available o.side o.price < o.qty ∧
    ∀ e ∈ b.reach o.side o.price, e.1 ≠ kNoPrice ∧ ¬ Closed b e.2.ord.orderId

section lists
variable {rs rs' : List ExecReport} {o : Order} {d : ℕ} {xs : List (PriceTicks × Node)}

/-- A final report that is the last about its order is the only one. -/
theorem length_final_le (h : rs.Pairwise EndsOrder) (id : OrderId) :
    ((reportsOf rs id).filter fun r => r.status.isFinal).length ≤ 1 := by
  induction rs with
  | nil => exact Nat.zero_le _
  | cons r rs ih =>
      obtain ⟨hr, hrs⟩ := List.pairwise_cons.mp h
      rw [reportsOf_cons]
      split_ifs with hid
      · by_cases hfin : r.status.isFinal
        · have hnil : reportsOf rs id = [] := reportsOf_eq_nil fun r' hr' he =>
            hr r' hr' (hid.trans he.symm) hfin
          rw [hnil]
          exact List.length_filter_le _ _
        · simpa [hfin] using ih hrs
      · exact ih hrs

theorem finalOnce_iff_last : FinalOnce rs ↔ rs.Pairwise EndsOrder ∧
    ∀ r ∈ rs, r.execType = .trade → 0 < r.lastQty ∧ r.lastPx ≠ kNoPrice :=
  ⟨fun h => ⟨h.last, h.trade⟩, fun h => ⟨length_final_le h.1, h.1, h.2⟩⟩

/-! ### The reports of a sweep

The taker takes every order of `xs` whole and has something left. -/

/-- The reports of a taker that takes the orders `xs` whole. -/
def sweepReports (o : Order) (d : ℕ) (xs : List (PriceTicks × Node)) : List ExecReport :=
  fillReports o d (xs.map fun x => (x, openQty x))

theorem sweepReports_cons (o : Order) (d : ℕ) (x : PriceTicks × Node)
    (xs : List (PriceTicks × Node)) : sweepReports o d (x :: xs) =
      tradeReport ⟨o, d - x.2.leaves⟩ x.1 x.2.leaves ::
      tradeReport ⟨x.2.ord, 0⟩ x.1 x.2.leaves :: sweepReports o (d - x.2.leaves) xs := by
  simp [sweepReports, fillReports, openQty]

theorem mem_sweepReports {r : ExecReport} (h : r ∈ sweepReports o d xs) :
    (r.orderId = o.orderId ∨ ∃ x ∈ xs, r.orderId = x.2.ord.orderId) ∧
      ∃ x ∈ xs, r.lastQty = x.2.leaves ∧ r.lastPx = x.1 := by
  induction xs generalizing d with
  | nil => cases h
  | cons x xs ih =>
      rw [sweepReports_cons] at h
      rcases List.mem_cons.mp h with rfl | h
      · exact ⟨.inl rfl, x, List.mem_cons_self, rfl, rfl⟩
      rcases List.mem_cons.mp h with rfl | h
      · exact ⟨.inr ⟨x, List.mem_cons_self, rfl⟩, x, List.mem_cons_self, rfl, rfl⟩
      · obtain ⟨hid, y, hy, hqty⟩ := ih h
        refine ⟨hid.imp_right fun ⟨z, hz, hzid⟩ => ⟨z, List.mem_cons_of_mem _ hz, hzid⟩, y,
          List.mem_cons_of_mem _ hy, hqty⟩

/-- Every order that is taken has its final report. -/
theorem filled_mem_sweepReports {x : PriceTicks × Node} (h : x ∈ xs) :
    tradeReport ⟨x.2.ord, 0⟩ x.1 x.2.leaves ∈ sweepReports o d xs := by
  induction xs generalizing d with
  | nil => cases h
  | cons y xs ih =>
      rw [sweepReports_cons]
      rcases List.mem_cons.mp h with rfl | h
      · exact List.mem_cons_of_mem _ List.mem_cons_self
      · exact List.mem_cons_of_mem _ (List.mem_cons_of_mem _ (ih h))

/-- The final reports of a sweep are about different orders. -/
theorem sweepReports_pairwise (hd : (xs.map openQty).sum < d)
    (hnd : (xs.map fun x => x.2.ord.orderId).Nodup)
    (ho : ∀ x ∈ xs, x.2.ord.orderId ≠ o.orderId) : (sweepReports o d xs).Pairwise EndsOrder := by
  induction xs generalizing d with
  | nil => exact List.Pairwise.nil
  | cons x xs ih =>
      rw [List.map_cons, List.sum_cons] at hd
      rw [List.map_cons, List.nodup_cons] at hnd
      have hleft : x.2.leaves < d := by
        have hx : openQty x = x.2.leaves := rfl
        omega
      rw [sweepReports_cons, List.pairwise_cons, List.pairwise_cons]
      refine ⟨fun r _ _ => ?_, fun r hr he => ?_, ih ?_ hnd.2 fun y hy => ho y ?_⟩
      · have hne : ¬ d - x.2.leaves = 0 := by omega
        simp [tradeReport, hne, ExecStatus.isFinal]
      · rcases (mem_sweepReports hr).1 with hid | ⟨y, hy, hid⟩
        · exact absurd (he.trans hid) (ho x List.mem_cons_self)
        · exact absurd (List.mem_map.mpr ⟨y, hy, (he.trans hid).symm⟩) hnd.1
      · have hx : openQty x = x.2.leaves := rfl
        omega
      · exact List.mem_cons_of_mem _ hy

end lists

/-! ### One command -/

section steps
variable {b b' : EngineBook} {side : Side} {s s' : Matching} {id : OrderId} {lc : Loc} {o : Order}

theorem closed_iff_of_reportsOf (h : reportsOf b'.sink id = reportsOf b.sink id) :
    Closed b' id ↔ Closed b id := by rw [Closed, Closed, h]

/-- The orders in reach of an incoming order are open and rest. -/
theorem mem_reach (hs : Sound b) {px : PriceTicks} {x : PriceTicks × Node}
    (hx : x ∈ b.reach side px) : 0 < openQty x ∧ x.2.ord.orderId ∈ b.restingIds := by
  obtain ⟨px', n⟩ := x
  have hn := mem_restingOn_iff.mp ((List.takeWhile_prefix _).subset hx)
  exact ⟨(hs.node _ px' n hn).pos, mem_restingIds hn⟩

theorem reach_nodup (hnd : b.restingIds.Nodup) (side : Side) (px : PriceTicks) :
    ((b.reach side px).map fun x => x.2.ord.orderId).Nodup := by
  have hids : ((b.restingOn side.opp).map fun x => x.2.ord.orderId) =
      (b.nodesOn side.opp).map fun n => n.ord.orderId := by
    simp [nodesOn, restingOn, List.map_flatMap, Function.comp_def]
  refine ((List.takeWhile_prefix _).sublist.map _).nodup ?_
  rw [hids]
  rw [restingIds, nodes, List.map_append] at hnd
  cases side
  · exact hnd.of_append_right
  · exact hnd.of_append_left

/-- What `on_new` publishes when the order finds less than its quantity. -/
theorem sink_onNew_of_lt (hs : Sound b) (hq : b.available o.side o.price < o.qty) :
    (b.onNew o).sink = b.sink ++ newReport ⟨o, o.qty⟩ ::
      sweepReports o o.qty (b.reach o.side o.price) := by
  have hfills := Greedy.fills_of_sum_le (fun x hx => (mem_reach hs hx).1) hq.le
  have hleaves := hs.arrive_leaves o
  have hsink := (arrive_served hs.noEmpty (hs.openQty_pos o.side.opp)).2.1
  rw [sink_onNew, if_neg (by omega), List.append_nil, hsink, hfills]
  rfl

/-- An order that finds its quantity is closed by a trade report of no quantity. -/
theorem filledReport_mem_onNew (hs : Sound b) (hq : o.qty ≤ b.available o.side o.price) :
    filledReport o ∈ (b.onNew o).sink := by
  have hleaves := hs.arrive_leaves o
  rw [sink_onNew, if_pos (by omega)]
  exact List.mem_append_right _ (List.mem_singleton_self _)

theorem fillsOpen_of_finalOnce (hs : Sound b) (h : FinalOnce (b.onNew o).sink) :
    FillsOpen b (.new o) := by
  rintro _ ⟨⟩
  have hq : b.available o.side o.price < o.qty := by
    by_contra hq
    have := (h.trade _ (filledReport_mem_onNew hs (not_lt.mp hq)) rfl).1
    exact absurd this (Nat.lt_irrefl 0)
  have hlast := h.last
  have htrade := h.trade
  rw [sink_onNew_of_lt hs hq] at hlast htrade
  refine ⟨hq, fun e he => ?_⟩
  have hmem : tradeReport ⟨e.2.ord, 0⟩ e.1 e.2.leaves ∈ newReport ⟨o, o.qty⟩ ::
      sweepReports o o.qty (b.reach o.side o.price) :=
    List.mem_cons_of_mem _ (filled_mem_sweepReports he)
  refine ⟨(htrade _ (List.mem_append_right _ hmem) rfl).2, ?_⟩
  rintro ⟨r, hr, hfin⟩
  obtain ⟨hr, hid⟩ := mem_reportsOf_iff.mp hr
  exact (List.pairwise_append.mp hlast).2.2 r hr _ hmem hid hfin

/-- What an `on_new` reports is about the new order or about an order in its reach. -/
theorem FinalOnce.onNew (h : FinalOnce b.sink) (hs : Sound b) (hnd : b.restingIds.Nodup)
    (hfresh : o.orderId ∉ b.restingIds) (hrep : reportsOf b.sink o.orderId = [])
    (hG : FillsOpen b (.new o)) : FinalOnce (b.onNew o).sink := by
  obtain ⟨hq, hopen⟩ := hG o rfl
  have hne : ∀ x ∈ b.reach o.side o.price, x.2.ord.orderId ≠ o.orderId := fun x hx he =>
    hfresh (he ▸ (mem_reach hs hx).2)
  rw [sink_onNew_of_lt hs hq, finalOnce_iff_last]
  constructor
  · refine List.pairwise_append.mpr ⟨h.last, List.pairwise_cons.mpr ⟨fun r _ _ => ?_,
      sweepReports_pairwise hq (reach_nodup hnd o.side o.price) hne⟩, fun r hr r' hr' he hfin => ?_⟩
    · simp [newReport, ExecStatus.isFinal]
    · have hid : r'.orderId = o.orderId ∨
          ∃ x ∈ b.reach o.side o.price, r'.orderId = x.2.ord.orderId := by
        rcases List.mem_cons.mp hr' with rfl | hr'
        · exact .inl rfl
        · exact (mem_sweepReports hr').1
      rcases hid with hid | ⟨x, hx, hid⟩
      · have hmem := mem_reportsOf_iff.mpr ⟨hr, he.trans hid⟩
        rw [hrep] at hmem
        cases hmem
      · exact (hopen x hx).2 ⟨r, mem_reportsOf_iff.mpr ⟨hr, he.trans hid⟩, hfin⟩
  · intro r hr ht
    rcases List.mem_append.mp hr with hr | hr
    · exact h.trade r hr ht
    rcases List.mem_cons.mp hr with rfl | hr
    · cases ht
    · obtain ⟨-, x, hx, hqty, hpx⟩ := mem_sweepReports hr
      rw [hqty, hpx]
      exact ⟨(mem_reach hs hx).1, (hopen x hx).1⟩

/-- A cancellation is the first final report of an order with an index entry. -/
theorem FinalOnce.onCancel (h : FinalOnce b.sink) (hs : Sound b) (hopen : IndexOpen b)
    (id : OrderId) : FinalOnce (b.onCancel id).sink := by
  cases hl : b.loc.find? id with
  | none => rwa [onCancel_of_none hl]
  | some lc =>
      rw [sink_onCancel hs hl, finalOnce_iff_last]
      constructor
      · refine List.pairwise_append.mpr ⟨h.last, List.pairwise_singleton _ _,
          fun r hr r' hr' he hfin => ?_⟩
        rw [List.mem_singleton.mp hr'] at he
        exact hopen id lc hl ⟨r, mem_reportsOf_iff.mpr ⟨hr, he⟩, hfin⟩
      · intro r hr ht
        rcases List.mem_append.mp hr with hr | hr
        · exact h.trade r hr ht
        · rw [List.mem_singleton.mp hr] at ht
          cases ht

/-! ### The orders with an index entry

An order that is reported final loses its index entry in the same breath. -/

/-- The orders with an index entry are open, and so is the taker while it has something left. -/
structure OpenWhile (o : Order) (s : Matching) : Prop where
  absent : o.orderId ∉ s.book.restingIds
  index : ∀ id lc, s.book.loc.find? id = some lc → id ≠ o.orderId ∧ ¬ Closed s.book id
  taker : Closed s.book o.orderId → s.taker.leaves = 0

theorem closed_fill_iff {taker maker : Node} {px : PriceTicks} {qty : ℕ}
    (hs : b'.sink = b.sink ++ [tradeReport taker px qty, tradeReport maker px qty]) :
    Closed b' id ↔ Closed b id ∨ taker.ord.orderId = id ∧ taker.leaves = 0 ∨
      maker.ord.orderId = id ∧ maker.leaves = 0 := by
  have hfin : ∀ n : Node, (tradeReport n px qty).status.isFinal ↔ n.leaves = 0 := fun n => by
    unfold tradeReport
    by_cases h : n.leaves = 0 <;> simp [h, ExecStatus.isFinal]
  unfold Closed
  rw [hs, reportsOf_append, reportsOf_fill]
  by_cases ht : taker.ord.orderId = id <;> by_cases hm : maker.ord.orderId = id <;>
    simp [ht, hm, hfin, or_and_right, exists_or]

theorem FillStep.openWhile (h : FillStep side s s') (ho : s.taker.ord = o) (hw : OpenWhile o s) :
    OpenWhile o s' := by
  have hmaker : ∀ px maker rest, s.book.best? side.opp = some (px, maker :: rest) →
      maker.ord.orderId ≠ o.orderId := fun px maker rest hb he =>
    hw.absent (mem_restingIds_iff.mpr ⟨_, px, maker, queueFor_of_best? hb ▸ List.mem_cons_self, he⟩)
  have habsent := fun hc => hw.absent (h.restingIds_subperm.subset hc)
  cases h with
  | @whole px maker rest hb _ hpos hle =>
      have hmaker := hmaker px maker rest hb
      refine ⟨habsent, fun id lc hl => ?_, fun hc => ?_⟩
      · rw [loc_fillWhole, OrdMap.find?_erase] at hl
        split_ifs at hl with hid
        obtain ⟨hne, hopen⟩ := hw.index id lc hl
        refine ⟨hne, fun hc => ?_⟩
        rcases (closed_fill_iff sink_fillWhole).mp hc with hc | ⟨hc, -⟩ | ⟨hc, -⟩
        · exact hopen hc
        · exact hne (hc.symm.trans (by rw [ho]))
        · exact hid hc.symm
      · rcases (closed_fill_iff sink_fillWhole).mp hc with hc | ⟨-, hc⟩ | ⟨hc, -⟩
        · exact absurd (hw.taker hc) hpos.ne'
        · exact hc
        · exact absurd hc hmaker
  | @part px maker rest hb _ hpos hlt =>
      refine ⟨habsent, fun id lc hl => ?_, fun _ => rfl⟩
      rw [loc_fillPart] at hl
      obtain ⟨hne, hopen⟩ := hw.index id lc hl
      refine ⟨hne, fun hc => ?_⟩
      rcases (closed_fill_iff sink_fillPart).mp hc with hc | ⟨hc, -⟩ | ⟨-, hc⟩
      · exact hopen hc
      · exact hne (hc.symm.trans (by rw [ho]))
      · have hleft : maker.leaves - s.taker.leaves = 0 := hc
        omega

theorem openWhile_arrive (hs : Sound b) (h : IndexOpen b) (hfresh : o.orderId ∉ b.restingIds)
    (hrep : reportsOf b.sink o.orderId = []) : OpenWhile o (b.arrive o) := by
  refine arrive_invariant (J := OpenWhile o) hs.noEmpty ?_ fun _ _ ho h hs => hs.openWhile ho h
  have hne : ∀ id lc, b.loc.find? id = some lc → id ≠ o.orderId := fun id lc hl he =>
    hfresh (he ▸ hs.mem_restingIds hl)
  refine ⟨hfresh, fun id lc hl => ⟨hne id lc hl, ?_⟩, ?_⟩
  · rw [closed_iff_of_reportsOf (reportsOf_publish_ne (hne id lc hl).symm)]
    exact h id lc hl
  · have hself : (newReport ⟨o, o.qty⟩).orderId = o.orderId := rfl
    rintro ⟨r, hr, hfin⟩
    rw [reportsOf_publish_self hself, hrep, List.nil_append] at hr
    obtain rfl := List.mem_singleton.mp hr
    exact absurd hfin (by simp [newReport, ExecStatus.isFinal])

theorem IndexOpen.onNew (h : IndexOpen b) (hs : Sound b) (hfresh : o.orderId ∉ b.restingIds)
    (hrep : reportsOf b.sink o.orderId = []) : IndexOpen (b.onNew o) := by
  have hw : OpenWhile o (b.arrive o) := openWhile_arrive hs h hfresh hrep
  obtain ⟨hpos, -, he⟩ | ⟨-, he⟩ | ⟨-, -, he⟩ := b.onNew_cases o
  · intro id lc hl
    rw [he, loc_enqueue, arrive_ord hs.noEmpty, OrdMap.find?_set] at hl
    rw [he, closed_iff_of_reportsOf (b := (b.arrive o).book) (by rw [sink_enqueue])]
    split_ifs at hl with hid
    · exact fun hc => hpos.ne' (hw.taker (hid ▸ hc))
    · exact (hw.index id lc hl).2
  · intro id lc hl
    rw [he] at hl ⊢
    obtain ⟨hne, hopen⟩ := hw.index id lc hl
    rwa [closed_iff_of_reportsOf (reportsOf_publish_ne hne.symm)]
  · rw [he]
    exact fun id lc hl => (hw.index id lc hl).2

theorem IndexOpen.onCancel (h : IndexOpen b) (hs : Sound b) (id : OrderId) :
    IndexOpen (b.onCancel id) := by
  cases hl : b.loc.find? id with
  | none => rwa [onCancel_of_none hl]
  | some lc =>
      intro id' lc' hl'
      rw [onCancel_of_some hl, loc_publish, loc_eraseLoc, OrdMap.find?_erase] at hl'
      split_ifs at hl' with hid
      have hentry : ∃ l, b.loc.find? id' = some l := by
        obtain ⟨-, he⟩ | ⟨v, q', -, hr⟩ := hs.eraseAt_cases hl
        · exact ⟨lc', he ▸ hl'⟩
        · obtain ⟨-, l, hl, -⟩ := hr.loc id' lc' hl'
          exact ⟨l, hl⟩
      obtain ⟨l, hentry⟩ := hentry
      rw [closed_iff_of_reportsOf (reportsOf_onCancel hs hl (Ne.symm hid))]
      exact h id' l hentry

end steps

/-! ### Runs -/

section runs
variable {cmds : List OrderCmd}

theorem indexOpen_states (hids : (submitted cmds).Nodup) (hrep : ∀ c ∈ cmds, c.isReplace = false) :
    States dispatch EngineBook.empty (fun _ => IndexOpen) cmds := by
  refine states_of_step (known_states hids) (plain_along hids hrep) ?_ ?_
  · intro id lc hl
    cases hl
  · intro done b c b' hI hc h hd
    cases c with
    | new o =>
        obtain rfl := Option.some_inj.mp hd
        have hnew := hc.1 o.orderId List.mem_cons_self
        exact h.onNew hI.sound (fun hr => hnew (hI.resting hr)) (hI.reportsOf_eq_nil hnew)
    | cancel id => exact Option.some_inj.mp hd ▸ h.onCancel hI.sound id
    | replace id px qty => cases hc.2

/-- **Every order has at most one final report, exactly** in the runs of `on_new` and `on_cancel` in
which every incoming order finds less than its quantity, at priced levels and in orders that have
not been reported final. -/
theorem finalOnce_iff (hids : (submitted cmds).Nodup) (hrep : ∀ c ∈ cmds, c.isReplace = false) :
    States dispatch EngineBook.empty (fun _ b => FinalOnce b.sink) cmds ↔
      Along dispatch EngineBook.empty (fun _ => FillsOpen) cmds := by
  have hknown : States dispatch EngineBook.empty (fun done b => Known done b ∧ IndexOpen b) cmds :=
    fun pre post he b hb => ⟨known_states hids pre post he b hb,
      indexOpen_states hids hrep pre post he b hb⟩
  refine states_iff_along hknown (plain_along hids hrep) ?_ ?_ ?_
  · exact finalOnce_iff_last.mpr ⟨List.Pairwise.nil, fun r hr => nomatch hr⟩
  · rintro done b c - hc - hd
    cases c with
    | new o => cases hd
    | cancel id => cases hd
    | replace id px qty => cases hc.2
  · intro done b c b' hI hc h hd
    cases c with
    | new o =>
        obtain rfl := Option.some_inj.mp hd
        have hnew := hc.1 o.orderId List.mem_cons_self
        exact ⟨fillsOpen_of_finalOnce hI.1.sound, h.onNew hI.1.sound hI.1.nodup
          (fun hr => hnew (hI.1.resting hr)) (hI.1.reportsOf_eq_nil hnew)⟩
    | cancel id =>
        obtain rfl := Option.some_inj.mp hd
        refine iff_of_true (h.onCancel hI.1.sound hI.2 id) ?_
        rintro o ⟨⟩
    | replace id px qty => cases hc.2

/-- A bid that takes an ask whole and rests with the remainder until it is cancelled. -/
theorem finalOnce_iff_rest :
    let cmds : List OrderCmd :=
      [.new { orderId := 1, side := .ask, price := 100, qty := 2 },
        .new { orderId := 2, side := .bid, price := 100, qty := 5 }, .cancel 2]
    States dispatch EngineBook.empty (fun _ b => FinalOnce b.sink) cmds ↔
      Along dispatch EngineBook.empty (fun _ => FillsOpen) cmds :=
  finalOnce_iff (by decide) (by decide)

/-- A bid that is filled on arrival is reported filled twice, the second time by a trade report
without quantity and price. -/
theorem finalOnce_filled_twice :
    ¬ States dispatch EngineBook.empty (fun _ b => FinalOnce b.sink)
      [.new { orderId := 1, side := .ask, price := 100, qty := 5 },
        .new { orderId := 2, side := .bid, price := 100, qty := 5 }] := by
  intro h
  exact absurd ((h.last rfl).atMostOne 2) (by decide)

end runs

end EngineBook
end Trading
