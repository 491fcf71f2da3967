import Trading.Reports

/-! # No order disappears silently

In a run of `on_new` and `on_cancel` an order is `Accounted` for when it rests with the open
quantity of its last report, or some report has said that it is finished.  Fills keep every order
accounted for (`FillStep.accounted`).  An order is lost in two ways only, and `accounted_iff` says
that there are no others: a market order that finds less than its quantity is dropped without a
word, and a cancel takes out the order at the remembered position under another order's name. -/

namespace Trading
namespace EngineBook

open Transition

/-- `id` rests with the open quantity of its last report. -/
def RestsAsReported (b : EngineBook) (id : OrderId) : Prop :=
  ∃ s px, ∃ n ∈ b.queueFor s px, n.ord.orderId = id ∧
    (reportsOf b.sink id).getLast?.map ExecReport.leavesQty = some n.leaves

/-- Some report has said that `id` is finished. -/
def Finished (b : EngineBook) (id : OrderId) : Prop :=
  ∃ r ∈ reportsOf b.sink id, r.status.isFinal ∧ r.leavesQty = 0

def Accounted (b : EngineBook) (id : OrderId) : Prop := RestsAsReported b id ∨ Finished b id

/-- A market order finds its quantity, and a cancel takes out no other order than the one it names,
unless that one has been reported finished before. -/
def Concludes (b : EngineBook) : OrderCmd → Prop
  | .new o => o.type = .market → o.qty ≤ b.available o.side o.price
  | .cancel id => ∀ lc n, b.loc.find? id = some lc →
      (b.queueFor lc.side lc.px)[lc.idx]? = some n → n.ord.orderId = id ∨ Finished b n.ord.orderId
  | .replace _ _ _ => True

section steps
variable {b b' : EngineBook} {side : Side} {s s' : Matching} {id : OrderId} {lc : Loc} {o : Order}
  {c : OrderCmd}

theorem Accounted.mem (h : Accounted b id) : id ∈ b.restingIds ∨ Finished b id :=
  h.imp_left fun ⟨s, px, n, hn, hid, _⟩ => mem_restingIds_iff.mpr ⟨s, px, n, hn, hid⟩

/-- An order stays accounted for while nothing is reported about it and its nodes stay. -/
theorem Accounted.frame (h : Accounted b id) (hrep : reportsOf b'.sink id = reportsOf b.sink id)
    (hq : ∀ s px, ∀ n ∈ b.queueFor s px, n.ord.orderId = id → n ∈ b'.queueFor s px) :
    Accounted b' id := by
  rcases h with ⟨s, px, n, hn, hid, hlast⟩ | hfin
  · exact .inl ⟨s, px, n, hq s px n hn hid, hid, by rw [hrep]; exact hlast⟩
  · right
    rw [Finished, hrep]
    exact hfin

/-- Fills keep the other orders accounted for. -/
theorem FillStep.accounted (h : FillStep side s s') (hid : s.taker.ord.orderId ≠ id)
    (ha : Accounted s.book id) : Accounted s'.book id := by
  cases h with
  | @whole px maker rest hb =>
      have hrep : reportsOf (s.fillWhole side.opp px maker rest).book.sink id =
          reportsOf s.book.sink id ++
            if maker.ord.orderId = id then [tradeReport ⟨maker.ord, 0⟩ px maker.leaves] else [] := by
        rw [sink_fillWhole, reportsOf_append, reportsOf_fill, if_neg hid, List.nil_append]
      by_cases hm : maker.ord.orderId = id
      · rw [if_pos hm] at hrep
        exact .inr ⟨_, hrep ▸ List.mem_append_right _ (List.mem_singleton_self _), rfl, rfl⟩
      · rw [if_neg hm, List.append_nil] at hrep
        refine ha.frame hrep fun t px' n hn hnid => mem_fillWhole_of_ne hb hn ?_
        rintro rfl
        exact hm hnid
  | @part px maker rest hb =>
      have hrep : reportsOf (s.fillPart side.opp px maker rest).book.sink id =
          reportsOf s.book.sink id ++ if maker.ord.orderId = id then
            [tradeReport ⟨maker.ord, maker.leaves - s.taker.leaves⟩ px s.taker.leaves] else [] := by
        rw [sink_fillPart, reportsOf_append, reportsOf_fill, if_neg hid, List.nil_append]
      by_cases hm : maker.ord.orderId = id
      · rw [if_pos hm] at hrep
        refine .inl ⟨side.opp, px, ⟨maker.ord, maker.leaves - s.taker.leaves⟩, ?_, hm, ?_⟩
        · rw [queueFor_fillPart, if_pos ⟨rfl, rfl⟩]
          exact List.mem_cons_self
        · rw [hrep, List.getLast?_concat]
          rfl
      · rw [if_neg hm, List.append_nil] at hrep
        refine ha.frame hrep fun t px' n hn hnid => mem_fillPart_of_ne hb hn ?_
        rintro rfl
        exact hm hnid

/-- What is reported about the incoming order `o` while it is the taker. -/
structure InProgress (o : Order) (s : Matching) : Prop where
  absent : o.orderId ∉ s.book.restingIds
  last : (reportsOf s.book.sink o.orderId).getLast?.map ExecReport.leavesQty = some s.taker.leaves
  low : ∀ r ∈ reportsOf s.book.sink o.orderId, s.taker.leaves ≤ r.leavesQty

theorem FillStep.inProgress (h : FillStep side s s') (ho : s.taker.ord = o)
    (hi : InProgress o s) : InProgress o s' := by
  obtain ⟨px, maker, qty, hm, -, ht, hs⟩ := h.sink
  have hmaker : maker.ord.orderId ≠ o.orderId := fun he =>
    hi.absent (mem_restingIds_iff.mpr ⟨_, px, maker, hm, he⟩)
  have hrep : reportsOf s'.book.sink o.orderId =
      reportsOf s.book.sink o.orderId ++ [tradeReport s'.taker px qty] := by
    rw [hs, reportsOf_append, reportsOf_fill, if_neg hmaker, List.append_nil, if_pos]
    rw [ht, ho]
  refine ⟨fun hc => hi.absent (h.restingIds_subperm.subset hc), ?_, fun r hr => ?_⟩
  · rw [hrep, List.getLast?_concat]
    rfl
  · rw [hrep] at hr
    rcases List.mem_append.mp hr with hr | hr
    · have hlow := hi.low r hr
      rw [ht]
      dsimp only
      omega
    · exact List.mem_singleton.mp hr ▸ le_rfl

theorem inProgress_arrive (hne : b.NoEmptyLevel) (hfresh : o.orderId ∉ b.restingIds)
    (hrep : reportsOf b.sink o.orderId = []) : InProgress o (b.arrive o) := by
  refine arrive_invariant (J := InProgress o) hne ?_ fun _ _ ho h hs => hs.inProgress ho h
  have hstart : reportsOf (b.publish (newReport ⟨o, o.qty⟩)).sink o.orderId =
      [newReport ⟨o, o.qty⟩] := by
    have h : (newReport ⟨o, o.qty⟩).orderId = o.orderId := rfl
    rw [reportsOf_publish_self h, hrep, List.nil_append]
  refine ⟨hfresh, ?_, fun r hr => ?_⟩
  · rw [hstart]
    rfl
  · rw [hstart] at hr
    obtain rfl := List.mem_singleton.mp hr
    exact le_rfl

/-- **The step condition of an `on_new`**: the order is lost exactly when it is a market order that
finds less than its quantity. -/
theorem accounted_onNew_iff (hs : Sound b) (hfresh : o.orderId ∉ b.restingIds)
    (hrep : reportsOf b.sink o.orderId = []) : Accounted (b.onNew o) o.orderId ↔
      (o.type = .market → o.qty ≤ b.available o.side o.price) := by
  have hi : InProgress o (b.arrive o) := inProgress_arrive hs.noEmpty hfresh hrep
  have ho : (b.arrive o).taker.ord = o := arrive_ord hs.noEmpty
  have hleaves := hs.arrive_leaves o
  obtain ⟨hpos, hm, he⟩ | ⟨h0, he⟩ | ⟨hpos, hm, he⟩ := b.onNew_cases o
  · refine iff_of_true (.inl ⟨o.side, o.price, (b.arrive o).taker, ?_, by rw [ho], ?_⟩)
      fun hm' => absurd hm' hm
    · rw [he, queueFor_enqueue, ho, if_pos ⟨rfl, rfl⟩]
      exact List.mem_append_right _ (List.mem_singleton_self _)
    · rw [he, sink_enqueue]
      exact hi.last
  · refine iff_of_true (.inr ⟨filledReport o, ?_, rfl, rfl⟩) fun _ => by omega
    rw [he, mem_reportsOf_iff]
    exact ⟨List.mem_append_right _ (List.mem_singleton_self _), rfl⟩
  · refine iff_of_false ?_ fun hq => ?_
    · rw [he]
      intro ha
      rcases ha.mem with hmem | ⟨r, hr, -, hzero⟩
      · exact hi.absent hmem
      · have := hi.low r hr
        omega
    · have := hq hm
      omega

theorem Accounted.onNew (h : Accounted b id) (hne : b.NoEmptyLevel) (hid : o.orderId ≠ id) :
    Accounted (b.onNew o) id := by
  have ha : Accounted (b.arrive o).book id := by
    refine arrive_invariant (J := fun s => Accounted s.book id) hne ?_
      fun s s' ho h hs => hs.accounted (ho ▸ hid) h
    exact h.frame (reportsOf_publish_ne hid) fun s px n hn _ => by simpa using hn
  obtain ⟨-, -, he⟩ | ⟨-, he⟩ | ⟨-, -, he⟩ := b.onNew_cases o
  · rw [he]
    refine ha.frame (by rw [sink_enqueue]) fun s px n hn _ => ?_
    rw [queueFor_enqueue]
    split_ifs
    · exact List.mem_append_left _ hn
    · exact hn
  · rw [he]
    exact ha.frame (reportsOf_publish_ne hid) fun s px n hn _ => by simpa using hn
  · rwa [he]

theorem Finished.mono (h : Finished b id) {rs : List ExecReport} (hs : b'.sink = b.sink ++ rs) :
    Finished b' id := by
  obtain ⟨r, hr, hfin⟩ := h
  exact ⟨r, by rw [hs, reportsOf_append]; exact List.mem_append_left _ hr, hfin⟩

theorem Accounted.onCancel {id' : OrderId} (h : Accounted b id') (hs : Sound b)
    (hc : Concludes b (.cancel id)) : Accounted (b.onCancel id) id' := by
  cases hl : b.loc.find? id with
  | none => rwa [onCancel_of_none hl]
  | some lc =>
      by_cases hid : id = id'
      · refine .inr ⟨canceledReport id, ?_, rfl, rfl⟩
        rw [sink_onCancel hs hl, mem_reportsOf_iff]
        exact ⟨List.mem_append_right _ (List.mem_singleton_self _), hid⟩
      have hrep := reportsOf_onCancel hs hl hid
      obtain ⟨-, he⟩ | ⟨v, q', hv, hr⟩ := hs.eraseAt_cases hl
      · refine h.frame hrep fun s px n hn _ => ?_
        rwa [queueFor_onCancel hl, he]
      · by_cases hvid : v.ord.orderId = id'
        · -- the order that is taken out, under the name of another one
          rcases hc lc v hl hv with he | hfin
          · exact absurd (he.symm.trans hvid) hid
          · exact .inr (hvid ▸ hfin.mono (sink_onCancel hs hl))
        · refine h.frame hrep fun s px n hn hnid => ?_
          rw [queueFor_onCancel hl]
          refine hr.mem_of_ne hn ?_
          rintro rfl
          exact hvid hnid

/-- A cancel that takes out another order loses it. -/
theorem concludes_of_accounted (hs : Sound b) (hnd : b.restingIds.Nodup)
    (h : ∀ id' ∈ b.restingIds, Accounted (b.onCancel id) id') : Concludes b (.cancel id) := by
  intro lc n hl hn
  by_cases hid : n.ord.orderId = id
  · exact .inl hid
  have hmem := mem_restingIds (List.mem_of_getElem? hn)
  rcases (h _ hmem).mem with hrest | hfin
  · rw [restingIds_onCancel_of_some hl] at hrest
    exact absurd hrest (notMem_restingIds_eraseAt hnd hn)
  · right
    rw [Finished, ← reportsOf_onCancel hs hl (Ne.symm hid)]
    exact hfin

end steps

/-- **No order disappears silently, exactly** in the runs of `on_new` and `on_cancel` in which every
market order finds its quantity and no cancel takes out an order that it does not name and that is
still open. -/
theorem accounted_iff {cmds : List OrderCmd} (hids : (submitted cmds).Nodup)
    (hrep : ∀ c ∈ cmds, c.isReplace = false) :
    States dispatch EngineBook.empty (fun done b => ∀ id ∈ submitted done, Accounted b id) cmds ↔
      Along dispatch EngineBook.empty (fun _ => Concludes) cmds := by
  refine states_iff_along (known_states hids) (plain_along hids hrep) (fun id h => nomatch h) ?_ ?_
  · rintro done b c - hc - hd
    cases c with
    | new o => cases hd
    | cancel id => cases hd
    | replace id px qty => cases hc.2
  · intro done b c b' hI hc h hd
    rw [submitted_concat]
    cases c with
    | new o =>
        obtain rfl := Option.some_inj.mp hd
        have hnew := hc.1 o.orderId List.mem_cons_self
        have hiff := accounted_onNew_iff hI.sound (fun hr => hnew (hI.resting hr))
          (hI.reportsOf_eq_nil hnew)
        constructor
        · exact fun hall => hiff.mp (hall _ (List.mem_append_right _ List.mem_cons_self))
        · intro hG id hid
          rcases List.mem_append.mp hid with hid | hid
          · refine (h id hid).onNew hI.sound.noEmpty ?_
            rintro rfl
            exact hnew hid
          · exact List.mem_singleton.mp hid ▸ hiff.mpr hG
    | cancel id =>
        obtain rfl := Option.some_inj.mp hd
        rw [show submits (.cancel id) = [] from rfl, List.append_nil]
        constructor
        · exact fun hall => concludes_of_accounted hI.sound hI.nodup fun i hi => hall i (hI.resting hi)
        · exact fun hG i hi => (h i hi).onCancel hI.sound hG
    | replace id px qty => cases hc.2

/-- A market order that is filled by the order it finds, which is cancelled afterwards. -/
theorem accounted_iff_market :
    let cmds : List OrderCmd :=
      [.new { orderId := 1, side := .ask, price := 100, qty := 5 },
        .new { orderId := 2, side := .bid, type := .market, qty := 3 }, .cancel 1]
    States dispatch EngineBook.empty (fun done b => ∀ id ∈ submitted done, Accounted b id) cmds ↔
      Along dispatch EngineBook.empty (fun _ => Concludes) cmds :=
  accounted_iff (by decide) (by decide)

/-- A market order on the empty book is acknowledged and never heard of again. -/
theorem accounted_market_dropped :
    ¬ States dispatch EngineBook.empty (fun done b => ∀ id ∈ submitted done, Accounted b id)
      [.new { orderId := 1, side := .bid, type := .market, qty := 5 }] := by
  intro h
  rcases (h.last rfl 1 List.mem_cons_self).mem with hr | ⟨r, hr, hfin, -⟩
  · exact absurd hr (by decide)
  · have hnew : r = newReport ⟨{ orderId := 1, side := .bid, type := .market, qty := 5 }, 5⟩ :=
      List.mem_singleton.mp hr
    rw [hnew] at hfin
    exact absurd hfin (by decide)

end EngineBook
end Trading
