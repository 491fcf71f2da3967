import Trading.OrderIndex
import Trading.Priority
import Trading.Replacement

/-! # What a replace does to the order

`on_replace` takes the order out of its queue (`Detached`) and brings it in again as a new one.

* The `leaves_qty` that it reports is computed on the copy it has taken out, from what the order had
  open; `on_new` starts from the whole new quantity.  `truthful_iff` says when the two agree.
* The copy is always brought in at the back of the queue, also when the price stays, and the gap has
  been filled with the back.  `keepsPlace_iff` says when the queue stands as before. -/

namespace Trading
namespace EngineBook

/-! ### The order taken out -/

/-- `b₁` is the book from which `on_replace` brings in the order `n`, which rests in `b` at the
position `i` of `s` and `px`. -/
structure Detached (b : EngineBook) (s : Side) (px : PriceTicks) (i : ℕ) (n : Node)
    (b₁ : EngineBook) : Prop where
  sound : Sound b₁
  fresh : n.ord.orderId ∉ b₁.restingIds
  opposite : b₁.levels s.opp = b.levels s.opp
  queues : ∃ l r, b.queueFor s px = l ++ n :: r ∧ l.length = i ∧
    ∀ t q, b₁.queueFor t q = if t = s ∧ q = px then l ++ backfill r else b.queueFor t q
  replace : ∀ newPx newQty, b.onReplace n.ord.orderId newPx newQty =
    some ((b₁.onNew (adjust n newPx newQty).ord).publish (replacedReport (adjust n newPx newQty)))

section detached
variable {b b₁ : EngineBook} {s : Side} {px newPx : PriceTicks} {i newQty : ℕ} {n : Node}

theorem exists_detached (hs : Sound b) (hx : ExactIndex b) (hn : (b.queueFor s px)[i]? = some n) :
    ∃ b₁, Detached b s px i n b₁ := by
  have hl : b.loc.find? n.ord.orderId = some ⟨s, px, i⟩ := hx.position s px i n hn
  have hn' : (b.queueFor (Loc.mk s px i).side (Loc.mk s px i).px)[(Loc.mk s px i).idx]? = some n := hn
  obtain ⟨h1, h2⟩ := (exactIndex_iff_indexedFrom.mp hx).eraseAt hl
  have hfresh : n.ord.orderId ∉ (b.eraseAt ⟨s, px, i⟩).restingIds := fun hid =>
    ((exactIndex_iff_indexedFrom.mpr h1).entry n.ord.orderId).mpr hid h2
  obtain ⟨q', hr⟩ := removed_eraseAt hn'
  obtain ⟨l, r, hq, hi, rfl⟩ := hr.shape
  refine ⟨(b.eraseAt ⟨s, px, i⟩).eraseLoc n.ord.orderId, (hs.eraseAt hl).eraseLoc _, hfresh, ?_,
    ⟨l, r, hq, hi, fun t q => ?_⟩, fun newPx newQty => onReplace_of_some hl hn'⟩
  · rw [levels_eraseLoc]
    exact hr.opposite
  · rw [queueFor_eraseLoc]
    exact hr.queues t q

end detached

/-! ### The report -/

/-- The order `id` rests with `x` open, or `x` is 0 and it does not rest. -/
def RestsWith (b : EngineBook) (id : OrderId) (x : ℕ) : Prop :=
  (∀ s px, ∀ n ∈ b.queueFor s px, n.ord.orderId = id → n.leaves = x) ∧ (id ∉ b.restingIds → x = 0)

/-- The replace ends with its report, and that tells what is open. -/
def Truthful (b : EngineBook) (id : OrderId) (newPx : PriceTicks) (newQty : ℕ) : Prop :=
  ∃ b' r, b.onReplace id newPx newQty = some b' ∧ b'.sink.getLast? = some r ∧
    r.execType = .replaced ∧ r.orderId = id ∧ b'.RestsWith id r.leavesQty

section report
variable {b b₁ : EngineBook} {s : Side} {px newPx : PriceTicks} {i newQty x : ℕ} {n : Node} {o : Order}

theorem restsWith_publish {id : OrderId} (er : ExecReport) :
    (b.publish er).RestsWith id x ↔ b.RestsWith id x := by simp [RestsWith]

theorem restsWith_of_notMem (h : o.orderId ∉ b.restingIds) :
    b.RestsWith o.orderId x ↔ x = 0 := by
  refine ⟨fun hr => hr.2 h, fun hx => ⟨fun s px n hn hid => ?_, fun _ => hx⟩⟩
  exact absurd (hid ▸ mem_restingIds hn) h

/-- A fresh limit order rests with what matching has left of it. -/
theorem restsWith_onNew_iff (hs : Sound b) (hfresh : o.orderId ∉ b.restingIds)
    (hm : o.type ≠ .market) :
    (b.onNew o).RestsWith o.orderId x ↔ x = (b.arrive o).taker.leaves := by
  have hgone : o.orderId ∉ (b.arrive o).book.restingIds := fun hid =>
    hfresh ((restingIds_arrive hs.noEmpty).subset hid)
  have hord : (b.arrive o).taker.ord = o := arrive_ord hs.noEmpty
  obtain ⟨hpos, -, he⟩ | ⟨h0, he⟩ | ⟨-, hm', -⟩ := b.onNew_cases o
  · have hmem : (b.arrive o).taker ∈ (b.onNew o).queueFor o.side o.price := by
      simp [he, queueFor_enqueue, hord]
    constructor
    · intro hr
      exact (hr.1 _ _ _ hmem (by rw [hord])).symm
    · rintro rfl
      refine ⟨fun s px n hn hid => ?_, fun hout => ?_⟩
      · rw [he, queueFor_enqueue] at hn
        split_ifs at hn
        · rcases List.mem_append.mp hn with hn | hn
          · exact absurd (hid ▸ mem_restingIds hn) hgone
          · rw [List.mem_singleton.mp hn]
        · exact absurd (hid ▸ mem_restingIds hn) hgone
      · have hin := mem_restingIds hmem
        rw [hord] at hin
        exact absurd hin hout
  · rw [h0, he]
    exact restsWith_of_notMem hgone
  · exact absurd hm' hm

/-- What is open in the copy: the new quantity less what the order had executed. -/
theorem leaves_adjust (hle : n.leaves ≤ n.ord.qty) (hq : newQty < 2 ^ 64) :
    (adjust n newPx newQty).leaves = newQty - (n.ord.qty - n.leaves) := by
  unfold adjust wrap64
  dsimp only
  split_ifs
  · omega
  · omega
  · rw [Nat.mod_eq_of_lt (by omega)]
    omega
  · omega

/-- **The report of a replace is truthful** if and only if what the order has executed since it was
last brought in, and what it executes when it is brought in again, are the same within the new
quantity. -/
theorem truthful_iff (hs : Sound b) (hx : ExactIndex b) (hn : n ∈ b.queueFor s px)
    (hq : newQty < 2 ^ 64) : b.Truthful n.ord.orderId newPx newQty ↔
      min (n.ord.qty - n.leaves) newQty =
        min (b.available s (adjust n newPx newQty).ord.price) newQty := by
  obtain ⟨i, hi⟩ := List.getElem?_of_mem hn
  obtain ⟨b₁, hd⟩ := exists_detached hs hx hi
  have hrest := hs.node s px n hn
  have hside : (adjust n newPx newQty).ord.side = s := hrest.side
  have hsink : ((b₁.onNew (adjust n newPx newQty).ord).publish
      (replacedReport (adjust n newPx newQty))).sink.getLast? =
      some (replacedReport (adjust n newPx newQty)) := by simp
  have havail : b₁.available s (adjust n newPx newQty).ord.price =
      b.available s (adjust n newPx newQty).ord.price := by
    simp only [available, reach, restingOn, hd.opposite]
  have hleft : (b₁.arrive (adjust n newPx newQty).ord).taker.leaves =
      newQty - b.available s (adjust n newPx newQty).ord.price := by
    rw [hd.sound.arrive_leaves, hside, havail]
    rfl
  have hrests : b.Truthful n.ord.orderId newPx newQty ↔
      (b₁.onNew (adjust n newPx newQty).ord).RestsWith n.ord.orderId
        (adjust n newPx newQty).leaves := by
    unfold Truthful
    rw [hd.replace]
    constructor
    · rintro ⟨b', r, hb, hr, -, -, hw⟩
      obtain rfl := Option.some_inj.mp hb
      obtain rfl := Option.some_inj.mp (hsink.symm.trans hr)
      exact (restsWith_publish _).mp hw
    · intro hw
      exact ⟨_, _, rfl, hsink, rfl, rfl, (restsWith_publish _).mpr hw⟩
  have hright : (b₁.onNew (adjust n newPx newQty).ord).RestsWith n.ord.orderId
      (adjust n newPx newQty).leaves ↔ _ :=
    restsWith_onNew_iff (o := (adjust n newPx newQty).ord) hd.sound hd.fresh hrest.type
  rw [hrests, hright, hleft, leaves_adjust hrest.le hq]
  omega

/-- A bid raises its quantity, without a fill before or after. -/
theorem truthful_iff_unfilled :
    let b := empty.onNew { orderId := 1, side := .bid, price := 100, qty := 5 }
    b.Truthful 1 kNoPrice 8 ↔ min 0 8 = min (b.available .bid 100) 8 := by
  intro b
  have hs : Sound b := Sound.empty.onNew _
  have hx : ExactIndex b := .of_levels (by decide +kernel) fun s => by cases s <;> decide +kernel
  have hn : (⟨{ orderId := 1, side := .bid, price := 100, qty := 5 }, 5⟩ : Node) ∈
      b.queueFor .bid 100 := by decide +kernel
  exact truthful_iff hs hx hn (by decide)

/-- A bid of 5 that has traded 3 is replaced with nothing changed: 2 are reported and 5 rest. -/
theorem untruthful_filled :
    let b := (empty.onNew { orderId := 1, side := .bid, price := 100, qty := 5 }).onNew
      { orderId := 2, side := .ask, price := 100, qty := 3 }
    Sound b ∧ ExactIndex b ∧ 1 ∈ b.restingIds ∧ ¬ b.Truthful 1 100 5 := by
  intro b
  refine ⟨(Sound.empty.onNew _).onNew _, .of_levels (by decide +kernel) fun s => ?_, by decide +kernel,
    ?_⟩
  · cases s <;> decide +kernel
  · rintro ⟨b', r, hb, hr, -, -, hw, -⟩
    have hafter : (b.onReplace 1 100 5).map (fun b' => (b'.sink.getLast?.map ExecReport.leavesQty,
        (b'.queueFor .bid 100).map fun n => (n.ord.orderId, n.leaves))) =
        some (some 2, [(1, 5)]) := by decide +kernel
    rw [hb, Option.map_some, hr, Option.some_inj] at hafter
    obtain ⟨hreport, hqueue⟩ := Prod.mk.inj hafter
    obtain ⟨n, hq, hn⟩ := List.map_eq_singleton_iff.mp hqueue
    obtain ⟨hid, hleaves⟩ := Prod.mk.inj hn
    have hrest := hw .bid 100 n (by simp [hq]) hid
    rw [Option.map_some, Option.some_inj] at hreport
    omega

end report

/-! ### The place in the queue -/

/-- The other orders of a level. -/
def others (b : EngineBook) (id : OrderId) (s : Side) (px : PriceTicks) : Queue :=
  (b.queueFor s px).filter fun m => m.ord.orderId ≠ id

/-- The replace leaves the order of the ids at the level, and the other orders of every level. -/
def KeepsPlace (b : EngineBook) (s : Side) (px : PriceTicks) (id : OrderId) (newPx : PriceTicks)
    (newQty : ℕ) : Prop :=
  ∃ b', b.onReplace id newPx newQty = some b' ∧ b'.queueIds s px = b.queueIds s px ∧
    ∀ t q, b'.others id t q = b.others id t q

section place
variable {b b' b₁ : EngineBook} {s : Side} {px px' newPx : PriceTicks} {i newQty : ℕ} {n : Node}
  {o : Order} {q q' : Queue}

theorem others_publish {id : OrderId} (er : ExecReport) (t : Side) :
    (b.publish er).others id t px = b.others id t px := by simp [others]

/-- Sides with orders at the same prices have the same best price. -/
theorem best?_price_eq (hsub : ∀ px, b'.queueFor s px ≠ [] ↔ b.queueFor s px ≠ [])
    (hne : b.NoEmptyLevel) (hne' : b'.NoEmptyLevel) (hb : b.best? s = some (px, q))
    (hb' : b'.best? s = some (px', q')) : px' = px := by
  have hq : b.queueFor s px ≠ [] := by
    rw [queueFor_of_best? hb]
    rintro rfl
    exact hne s px (queue?_of_best? hb)
  have hq' : b'.queueFor s px' ≠ [] := by
    rw [queueFor_of_best? hb']
    rintro rfl
    exact hne' s px' (queue?_of_best? hb')
  have hle := best?_le hb ((hsub px').mp hq')
  have hle' := best?_le hb' ((hsub px).mpr hq)
  cases s
  · exact le_antisymm hle hle'
  · exact le_antisymm hle' hle

/-- An order reaches nothing exactly if it does not cross the best level. -/
theorem reach_eq_nil_iff (hne : b.NoEmptyLevel) : b.reach o.side o.price = [] ↔ b.Unreached o := by
  constructor
  · intro h px' q hb
    obtain ⟨n, es, he⟩ := restingOn_of_best? hne hb
    by_contra hc
    rw [reach_of_cons he (Bool.not_eq_false _ ▸ hc)] at h
    cases h
  · intro h
    cases hb : b.best? o.side.opp with
    | none => rw [reach, restingOn_of_best?_none hb, List.takeWhile_nil]
    | some e =>
        obtain ⟨n, es, he⟩ := restingOn_of_best? hne hb
        rw [reach, he, List.takeWhile_cons_of_neg (by simp [crosses, h _ _ hb])]

theorem Detached.reach_eq (hd : Detached b s px i n b₁) (px' : PriceTicks) :
    b₁.reach s px' = b.reach s px' := by simp only [reach, restingOn, hd.opposite]

/-- The price of a replace without a price change. -/
theorem price_adjust (hrest : RestsAt s px n) (hpx : newPx = kNoPrice ∨ newPx = px) :
    (adjust n newPx newQty).ord.price = px := by
  unfold adjust
  dsimp only
  rw [if_neg, hrest.price]
  rintro ⟨hp, hne⟩
  exact hne ((hpx.resolve_left hp).trans hrest.price.symm)

/-- At the back of its queue, an order that reaches nothing comes back to its place. -/
theorem Detached.keeps (hd : Detached b s px i n b₁) (hrest : RestsAt s px n)
    (hpx : newPx = kNoPrice ∨ newPx = px) (hpos : 0 < newQty)
    (hlast : i + 1 = (b.queueFor s px).length) (hreach : b.reach s px = []) :
    b.KeepsPlace s px n.ord.orderId newPx newQty := by
  obtain ⟨l, r, hq, hi, hqueues⟩ := hd.queues
  obtain rfl : r = [] := by
    rw [hq, List.length_append, List.length_cons] at hlast
    exact List.length_eq_zero_iff.mp (by omega)
  have hprice : (adjust n newPx newQty).ord.price = px := price_adjust hrest hpx
  have hside : (adjust n newPx newQty).ord.side = s := hrest.side
  have hunreached : b₁.Unreached (adjust n newPx newQty).ord := by
    rw [← reach_eq_nil_iff hd.sound.noEmpty, hprice, hside, hd.reach_eq, hreach]
  have hnew := onNew_of_unreached hunreached hpos hrest.type
  have hafter : ∀ t q, ((b₁.onNew (adjust n newPx newQty).ord).publish
      (replacedReport (adjust n newPx newQty))).queueFor t q = if t = s ∧ q = px then
        l ++ [⟨(adjust n newPx newQty).ord, newQty⟩] else b.queueFor t q := by
    intro t q
    rw [queueFor_publish, hnew, queueFor_enqueue, queueFor_publish, hqueues, hside, hprice]
    split_ifs
    · simp [backfill, adjust]
    · rfl
  refine ⟨_, hd.replace newPx newQty, ?_, fun t q => ?_⟩
  · unfold queueIds
    rw [hafter, if_pos ⟨rfl, rfl⟩, hq]
    simp [adjust]
  · unfold others
    rw [hafter]
    split_ifs with hk
    · simp [hk.1, hk.2, hq, adjust]
    · rfl

/-- An order with others behind it does not come back to its place. -/
theorem Detached.last_of_keeps (hd : Detached b s px i n b₁) (hrest : RestsAt s px n)
    (hids : (b₁.onNew (adjust n newPx newQty).ord).queueIds s px = b.queueIds s px) :
    i + 1 = (b.queueFor s px).length := by
  obtain ⟨l, r, hq, hi, hqueues⟩ := hd.queues
  rcases List.eq_nil_or_concat r with rfl | ⟨m, z, rfl⟩
  · simp [hq, hi]
  · rw [List.concat_eq_append] at hq hqueues
    have hback : backfill (m ++ [z]) = z :: m := by simp [backfill]
    have hq₁ : b₁.queueFor s px = l ++ z :: m := by rw [hqueues, if_pos ⟨rfl, rfl⟩, hback]
    have hside : (adjust n newPx newQty).ord.side = s := hrest.side
    obtain ⟨ids, hown⟩ :=
      exists_queueIds_onNew_own (o := (adjust n newPx newQty).ord) hd.sound.noEmpty px
    rw [hside, hids] at hown
    -- the back of the queue stands in the place of the order
    have hplace := congrArg (fun ids => ids[l.length]?) hown
    simp only [queueIds, hq, hq₁, List.map_append, List.map_cons, List.append_assoc,
      List.cons_append, List.getElem?_append_right, List.length_map, le_refl, Nat.sub_self,
      List.getElem?_cons_zero, Option.some_inj] at hplace
    have hz : z ∈ b₁.queueFor s px := by simp [hq₁]
    exact absurd (hplace ▸ mem_restingIds hz) hd.fresh

/-- An order that rests after `on_new` had something left when matching ended. -/
theorem arrive_pos (hs : Sound b) (hfresh : o.orderId ∉ b.restingIds)
    (hrests : o.orderId ∈ (b.onNew o).restingIds) : 0 < (b.arrive o).taker.leaves := by
  have hgone : o.orderId ∉ (b.arrive o).book.restingIds := fun hid =>
    hfresh ((restingIds_arrive hs.noEmpty).subset hid)
  obtain ⟨hpos, -⟩ | ⟨-, he⟩ | ⟨-, -, he⟩ := b.onNew_cases o
  · exact hpos
  · rw [he] at hrests
    exact absurd hrests hgone
  · rw [he] at hrests
    exact absurd hrests hgone

/-- A fresh order that comes to rest and leaves the other side as it was reaches nothing. -/
theorem unreached_of_others (hs : Sound b) (hfresh : o.orderId ∉ b.restingIds)
    (hrests : o.orderId ∈ (b.onNew o).restingIds)
    (hothers : ∀ q, (b.onNew o).others o.orderId o.side.opp q = b.others o.orderId o.side.opp q) :
    b.Unreached o := by
  have hne := hs.noEmpty
  have hpos := arrive_pos hs hfresh hrests
  have hkeep : ∀ px, ∀ m ∈ b.queueFor o.side.opp px, m ∈ (b.arrive o).book.queueFor o.side.opp px := by
    intro px m hm
    have hid : m.ord.orderId ≠ o.orderId := fun hid => hfresh (hid ▸ mem_restingIds hm)
    have hmem : m ∈ (b.onNew o).others o.orderId o.side.opp px := by
      rw [hothers]
      exact List.mem_filter.mpr ⟨hm, by simpa using hid⟩
    rw [← queueFor_of_levels (levels_onNew_opp hne)]
    exact List.mem_of_mem_filter hmem
  have hsub : ∀ px, (b.arrive o).book.queueFor o.side.opp px ≠ [] ↔ b.queueFor o.side.opp px ≠ [] := by
    intro px
    constructor
    · intro h hnil
      have hids := queueIds_arrive_sublist (o := o) hne o.side.opp px
      rw [queueIds, queueIds, hnil, List.map_nil, List.sublist_nil, List.map_eq_nil_iff] at hids
      exact h hids
    · intro h
      obtain ⟨m, hm⟩ := List.exists_mem_of_ne_nil _ h
      exact List.ne_nil_of_mem (hkeep px m hm)
  intro px q hb
  have hq : b.queueFor o.side.opp px ≠ [] := by
    rw [queueFor_of_best? hb]
    rintro rfl
    exact hne _ px (queue?_of_best? hb)
  obtain ⟨px', q', hb'⟩ := exists_best? ((hsub px).mpr hq)
  obtain rfl := best?_price_eq hsub hne (arrive_noEmptyLevel hne) hb hb'
  have hdone := b.arrive_done o hpos px' q' hb'
  rwa [arrive_ord hne] at hdone

/-- **A replace without a price change keeps the order in its place**, and all others, if and only
if the order stands at the back of its queue and its price reaches nothing on the other side. -/
theorem keepsPlace_iff (hs : Sound b) (hx : ExactIndex b) (hn : (b.queueFor s px)[i]? = some n)
    (hpx : newPx = kNoPrice ∨ newPx = px) (hqty : n.ord.qty - n.leaves < newQty) :
    b.KeepsPlace s px n.ord.orderId newPx newQty ↔
      i + 1 = (b.queueFor s px).length ∧ b.reach s px = [] := by
  obtain ⟨b₁, hd⟩ := exists_detached hs hx hn
  have hmem := List.mem_of_getElem? hn
  have hrest := hs.node s px n hmem
  have hside : (adjust n newPx newQty).ord.side = s := hrest.side
  have hprice : (adjust n newPx newQty).ord.price = px := price_adjust hrest hpx
  constructor
  · rintro ⟨b', hb', hids, hothers⟩
    obtain rfl := Option.some_inj.mp ((hd.replace newPx newQty).symm.trans hb')
    refine ⟨hd.last_of_keeps hrest hids, ?_⟩
    have hin : n.ord.orderId ∈ b.queueIds s px := List.mem_map_of_mem hmem
    rw [← hids] at hin
    have hopp : ∀ q, (b₁.onNew (adjust n newPx newQty).ord).others n.ord.orderId s.opp q =
        b₁.others n.ord.orderId s.opp q := by
      intro q
      rw [← others_publish (replacedReport (adjust n newPx newQty)), hothers, others, others,
        queueFor_of_levels hd.opposite]
    rw [← hside] at hopp
    have hunreached := unreached_of_others (o := (adjust n newPx newQty).ord) hd.sound hd.fresh
      (mem_restingIds_of_queueIds hin) hopp
    rw [← reach_eq_nil_iff hd.sound.noEmpty, hprice, hside, hd.reach_eq] at hunreached
    exact hunreached
  · rintro ⟨hlast, hreach⟩
    exact hd.keeps hrest hpx (by omega) hlast hreach

/-- Of two bids, the one behind takes less. -/
theorem keepsPlace_iff_back :
    let b := (empty.onNew { orderId := 1, side := .bid, price := 100, qty := 5 }).onNew
      { orderId := 2, side := .bid, price := 100, qty := 5 }
    b.KeepsPlace .bid 100 2 kNoPrice 3 ↔
      1 + 1 = (b.queueFor .bid 100).length ∧ b.reach .bid 100 = [] := by
  intro b
  have hs : Sound b := (Sound.empty.onNew _).onNew _
  have hx : ExactIndex b := .of_levels (by decide +kernel) fun s => by cases s <;> decide +kernel
  have hn : (b.queueFor .bid 100)[1]? =
      some ⟨{ orderId := 2, side := .bid, price := 100, qty := 5 }, 5⟩ := by decide +kernel
  exact keepsPlace_iff hs hx hn (.inl rfl) (by decide)

/-- Of two bids, the one in front takes less and goes behind the other. -/
theorem place_lost :
    let b := (empty.onNew { orderId := 1, side := .bid, price := 100, qty := 5 }).onNew
      { orderId := 2, side := .bid, price := 100, qty := 5 }
    Sound b ∧ ExactIndex b ∧ (b.queueFor .bid 100)[0]? =
        some ⟨{ orderId := 1, side := .bid, price := 100, qty := 5 }, 5⟩ ∧
      ¬ b.KeepsPlace .bid 100 1 100 3 := by
  intro b
  refine ⟨(Sound.empty.onNew _).onNew _, .of_levels (by decide +kernel) fun s => ?_, by decide +kernel,
    ?_⟩
  · cases s <;> decide +kernel
  · rintro ⟨b', hb, hids, -⟩
    have hafter : (b.onReplace 1 100 3).map (fun b' => b'.queueIds .bid 100) = some [2, 1] := by
      decide +kernel
    rw [hb, Option.map_some, Option.some_inj, hids] at hafter
    exact absurd hafter (by decide +kernel)

end place

end EngineBook
end Trading
