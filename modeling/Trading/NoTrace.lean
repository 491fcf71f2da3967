import Trading.Mirror
import Trading.OrderIds
import Trading.Priority

/-! # A cancelled order that nothing has touched leaves no trace

An order that rests whole, whose level no command touches and that is cancelled, might as well not
have been entered: the book afterwards is the same, and so is every report but its own two.

`Hosts` relates the run without the order to the run with it: the guest stands at the back of its
level, the index has one entry more, and the reports differ in a part that lies in the past.  Matching
is followed fill by fill, so the two runs may see levels of different number; that they end alike
(`matchSide_eq_of_fills`) needs that an order which does not accept the level of the guest accepts
none behind it, which a level at `kNoPrice` would break.  After the cancel there is no guest, and the
same simulation carries the equality of the books to the end of the run. -/

namespace Trading
namespace EngineBook

open Transition (run Along along_cons run_nil run_append run_append_of_eq_some run_concat_eq_some)
open Relation (ReflTransGen)

/-! ### Matching ends in one way -/

section unique
variable {side : Side} {s t t' : Matching}

/-- A fill is determined. -/
theorem FillStep.unique (h : FillStep side s t) (h' : FillStep side s t') : t = t' := by
  cases h with
  | whole hb _ _ hle =>
      cases h' with
      | whole hb' =>
          rw [hb, Option.some_inj, Prod.mk.injEq, List.cons.injEq] at hb'
          obtain ⟨rfl, rfl, rfl⟩ := hb'
          rfl
      | part hb' _ _ hlt =>
          rw [hb, Option.some_inj, Prod.mk.injEq, List.cons.injEq] at hb'
          obtain ⟨rfl, rfl, rfl⟩ := hb'
          omega
  | part hb _ _ hlt =>
      cases h' with
      | whole hb' _ _ hle =>
          rw [hb, Option.some_inj, Prod.mk.injEq, List.cons.injEq] at hb'
          obtain ⟨rfl, rfl, rfl⟩ := hb'
          omega
      | part hb' =>
          rw [hb, Option.some_inj, Prod.mk.injEq, List.cons.injEq] at hb'
          obtain ⟨rfl, rfl, rfl⟩ := hb'
          rfl

theorem Done.not_fillStep (h : Done side s) : ¬ FillStep side s t := by
  intro hf
  cases hf with
  | whole hb hc hpos => exact absurd (h hpos _ _ hb) (by simp [hc])
  | part hb hc hpos => exact absurd (h hpos _ _ hb) (by simp [hc])

theorem Done.eq_of_fills (h : Done side s) (hf : ReflTransGen (FillStep side) s t) : t = s := by
  obtain rfl | ⟨s', hs, -⟩ := hf.cases_head
  · rfl
  · exact absurd hs h.not_fillStep

/-- **Matching ends in one way**: where fills lead and no fill is possible, the loops lead. -/
theorem matchSide_eq_of_fills (hne : s.book.NoEmptyLevel) (h : ReflTransGen (FillStep side) s t)
    (hd : Done side t) : matchSide side s = t := by
  have hunique : Relator.RightUnique (FillStep side) := fun _ _ _ => FillStep.unique
  have hloops : ReflTransGen (FillStep side) s (matchSide side s) := matchSide_fills hne
  obtain hst | hts := hloops.total_of_right_unique hunique h
  · exact ((matchSide_done side s).eq_of_fills hst).symm
  · exact hd.eq_of_fills hts

end unique

/-! ### A guest at the back of a level -/

/-- What the book has at a level because of the guest. -/
def guest : Option Node → Side → PriceTicks → Queue
  | none, _, _ => []
  | some n, s, px => if n.ord.side = s ∧ n.ord.price = px then [n] else []

/-- `b'` is `b` with the guest `x`, if there is one; the reports of `b` began with `us` and those
of `b'` with `vs`. -/
structure Hosts (x : Option Node) (us vs : List ExecReport) (b b' : EngineBook) : Prop where
  queues : ∀ s px, b'.queueFor s px = b.queueFor s px ++ guest x s px
  index : ∀ id, (∀ n ∈ x, n.ord.orderId ≠ id) → b'.loc.find? id = b.loc.find? id
  entry : ∀ n ∈ x, b'.loc.find? n.ord.orderId =
    some ⟨n.ord.side, n.ord.price, (b.queueFor n.ord.side n.ord.price).length⟩
  sinks : ∃ rs, b.sink = us ++ rs ∧ b'.sink = vs ++ rs

section hosts
variable {x : Option Node} {us vs : List ExecReport} {b b' : EngineBook} {s : Side}
  {px : PriceTicks} {id : OrderId} {n : Node} {lc : Loc}

theorem guest_eq_nil_iff :
    guest x s px = [] ↔ ∀ n ∈ x, ¬(n.ord.side = s ∧ n.ord.price = px) := by
  cases x with
  | none => simp [guest]
  | some n => simp [guest]

theorem Hosts.queueFor_eq (h : Hosts x us vs b b') (hg : guest x s px = []) :
    b'.queueFor s px = b.queueFor s px := by
  rw [h.queues, hg, List.append_nil]

theorem hosts_publish (h : Hosts x us vs b b') (er : ExecReport) :
    Hosts x us vs (b.publish er) (b'.publish er) where
  queues s px := by rw [queueFor_publish, queueFor_publish, h.queues]
  index := h.index
  entry n hn := by rw [loc_publish, h.entry n hn, queueFor_publish]
  sinks := by
    obtain ⟨rs, hu, hv⟩ := h.sinks
    exact ⟨rs ++ [er], by rw [sink_publish, hu, List.append_assoc],
      by rw [sink_publish, hv, List.append_assoc]⟩

theorem hosts_putQueue (h : Hosts x us vs b b') (hg : guest x s px = []) (q : Queue) :
    Hosts x us vs (b.putQueue s px q) (b'.putQueue s px q) where
  queues s' px' := by
    rw [queueFor_putQueue, queueFor_putQueue, h.queues]
    split_ifs with hk
    · rw [hk.1, hk.2, hg, List.append_nil]
    · rfl
  index id hid := by rw [loc_putQueue, loc_putQueue, h.index id hid]
  entry n hn := by
    rw [loc_putQueue, h.entry n hn, queueFor_putQueue, if_neg (guest_eq_nil_iff.mp hg n hn)]
  sinks := by rw [sink_putQueue, sink_putQueue]; exact h.sinks

theorem hosts_eraseLoc (h : Hosts x us vs b b') (hid : ∀ n ∈ x, n.ord.orderId ≠ id) :
    Hosts x us vs (b.eraseLoc id) (b'.eraseLoc id) where
  queues s px := by rw [queueFor_eraseLoc, queueFor_eraseLoc, h.queues]
  index id' hid' := by
    rw [loc_eraseLoc, loc_eraseLoc, OrdMap.find?_erase, OrdMap.find?_erase, h.index id' hid']
  entry n hn := by
    rw [loc_eraseLoc, OrdMap.find?_erase, if_neg (hid n hn), h.entry n hn, queueFor_eraseLoc]
  sinks := h.sinks

theorem hosts_setLoc (h : Hosts x us vs b b') (hid : ∀ n ∈ x, n.ord.orderId ≠ id) (l : Loc) :
    Hosts x us vs { b with loc := b.loc.set id l } { b' with loc := b'.loc.set id l } where
  queues s px := by rw [queueFor_withLoc b', queueFor_withLoc b, h.queues]
  index id' hid' := by rw [OrdMap.find?_set, OrdMap.find?_set, h.index id' hid']
  entry n hn := by
    rw [OrdMap.find?_set, if_neg (hid n hn), h.entry n hn,
      queueFor_withLoc b _ _ (b.loc.set id l)]
  sinks := h.sinks

theorem hosts_reindex (h : Hosts x us vs b b') (hid : ∀ n ∈ x, n.ord.orderId ≠ id) (i : ℕ) :
    Hosts x us vs (b.reindex id i) (b'.reindex id i) := by
  have hindex := h.index id hid
  cases hl : b.loc.find? id with
  | none =>
      rw [hl] at hindex
      rwa [reindex_of_none hl, reindex_of_none hindex]
  | some l =>
      rw [hl] at hindex
      rw [reindex_of_some hl, reindex_of_some hindex]
      exact hosts_setLoc h hid _

theorem hosts_enqueue (h : Hosts x us vs b b') (hid : ∀ m ∈ x, m.ord.orderId ≠ n.ord.orderId)
    (hg : guest x n.ord.side n.ord.price = []) : Hosts x us vs (b.enqueue n) (b'.enqueue n) := by
  rw [enqueue_eq, enqueue_eq, h.queueFor_eq hg]
  have hput := hosts_setLoc (hosts_putQueue h hg (b.queueFor n.ord.side n.ord.price ++ [n])) hid
    ⟨n.ord.side, n.ord.price, (b.queueFor n.ord.side n.ord.price).length⟩
  rwa [loc_putQueue, loc_putQueue] at hput

/-- The removal of an order at another level. -/
theorem hosts_eraseAt (h : Hosts x us vs b b') (hfresh : ∀ m ∈ x, m.ord.orderId ∉ b.restingIds)
    (hg : guest x lc.side lc.px = []) (hn : (b.queueFor lc.side lc.px)[lc.idx]? = some n) :
    Hosts x us vs (b.eraseAt lc) (b'.eraseAt lc) := by
  have hid : ∀ v ∈ b.queueFor lc.side lc.px, ∀ m ∈ x, m.ord.orderId ≠ v.ord.orderId :=
    fun v hv m hm he => hfresh m hm (he ▸ mem_restingIds hv)
  obtain ⟨l, r, hq, hi⟩ := queue_split hn
  have hv := hid n (List.mem_of_getElem? hn)
  rcases List.eq_nil_or_concat r with rfl | ⟨m, z, rfl⟩
  · rw [eraseAt_of_last hq hi, eraseAt_of_last ((h.queueFor_eq hg).trans hq) hi]
    exact hosts_eraseLoc (hosts_putQueue h hg l) hv
  · rw [List.concat_eq_append] at hq
    have hz := hid z (by rw [hq]; simp)
    rw [eraseAt_of_swap hq hi, eraseAt_of_swap ((h.queueFor_eq hg).trans hq) hi]
    exact hosts_reindex (hosts_eraseLoc (hosts_putQueue h hg _) hv) hz _

end hosts

/-! ### Fills beside a guest -/

section fills
variable {x : Option Node} {us vs : List ExecReport} {b b' : EngineBook} {side : Side}
  {px : PriceTicks} {q : Queue} {s s' t t' : Matching}

/-- A level is the best one if no other level is better. -/
theorem best?_of_le (hne : b.NoEmptyLevel) (hq : b.queueFor side px ≠ [])
    (hle : ∀ px', b.queueFor side px' ≠ [] → ¬Better side px' px) :
    b.best? side = some (px, b.queueFor side px) := by
  obtain ⟨px', q', hb⟩ := exists_best? hq
  obtain ⟨hq', he⟩ := hne.queue?_eq_some_iff.mp (queue?_of_best? hb)
  have hbest := best?_le hb hq
  have hnot := hle px' (he.symm ▸ hq')
  obtain rfl : px' = px := by
    cases side with
    | bid => exact le_antisymm (not_lt.mp hnot) hbest
    | ask => exact le_antisymm hbest (not_lt.mp hnot)
  rw [hb, he]

theorem not_better_of_best? {px' : PriceTicks} (hb : b.best? side = some (px, q))
    (hq : b.queueFor side px' ≠ []) : ¬Better side px' px := by
  have hle := best?_le hb hq
  cases side with
  | bid => exact not_lt.mpr hle
  | ask => exact not_lt.mpr hle

/-- A best level without the guest is the best level of the other run. -/
theorem Hosts.best? (h : Hosts x us vs b b') (hne : b.NoEmptyLevel) (hne' : b'.NoEmptyLevel)
    (hb : b'.best? side = some (px, q)) (hg : guest x side px = []) :
    b.best? side = some (px, q) := by
  have hq : b.queueFor side px = q := (h.queueFor_eq hg).symm.trans (queueFor_of_best? hb)
  obtain ⟨hqne, -⟩ := hne'.queue?_eq_some_iff.mp (queue?_of_best? hb)
  rw [← hq]
  refine best?_of_le hne (hq ▸ hqne) fun px' hpx' => not_better_of_best? hb ?_
  rw [h.queues]
  simp [hpx']

/-- A fill that leaves the level of the guest as it is, is a fill without the guest. -/
theorem Hosts.fillStep (h : Hosts x us vs s.book s'.book) (htaker : s.taker = s'.taker)
    (hne : s.book.NoEmptyLevel) (hne' : s'.book.NoEmptyLevel)
    (hfresh : ∀ n ∈ x, n.ord.orderId ∉ s.book.restingIds) (hf : FillStep side s' t')
    (hkeep : ∀ n ∈ x, t'.book.queueFor n.ord.side n.ord.price =
      s'.book.queueFor n.ord.side n.ord.price) :
    ∃ t, FillStep side s t ∧ t.taker = t'.taker ∧ Hosts x us vs t.book t'.book := by
  cases hf with
  | @whole px maker rest hb hc hpos hle =>
      have hg : guest x side.opp px = [] := by
        refine guest_eq_nil_iff.mpr fun n hn hk => ?_
        have hkeep := hkeep n hn
        rw [hk.1, hk.2, queueFor_fillWhole, if_pos ⟨rfl, rfl⟩, queueFor_of_best? hb] at hkeep
        exact List.cons_ne_self maker rest hkeep.symm
      have hbest := h.best? hne hne' hb hg
      have hid : ∀ n ∈ x, n.ord.orderId ≠ maker.ord.orderId := fun n hn he =>
        hfresh n hn (he ▸ mem_restingIds (queueFor_of_best? hbest ▸ List.mem_cons_self))
      rw [← htaker] at hc hpos hle
      refine ⟨_, .whole hbest hc hpos hle, ?_, ?_⟩
      · simp only [Matching.fillWhole, htaker]
      · simp only [Matching.fillWhole, htaker]
        exact hosts_putQueue (hosts_eraseLoc (hosts_publish (hosts_publish h _) _) hid) hg rest
  | @part px maker rest hb hc hpos hlt =>
      have hg : guest x side.opp px = [] := by
        refine guest_eq_nil_iff.mpr fun n hn hk => ?_
        have hkeep := hkeep n hn
        rw [hk.1, hk.2, queueFor_fillPart, if_pos ⟨rfl, rfl⟩, queueFor_of_best? hb] at hkeep
        have hleaves := congrArg Node.leaves (List.cons.inj hkeep).1
        dsimp only at hleaves
        omega
      have hbest := h.best? hne hne' hb hg
      rw [← htaker] at hc hpos hlt
      refine ⟨_, .part hbest hc hpos hlt, ?_, ?_⟩
      · simp only [Matching.fillPart, htaker]
      · simp only [Matching.fillPart, htaker]
        exact hosts_putQueue (hosts_publish (hosts_publish h _) _) hg _

/-! ### A level that ends as it began -/

/-- What a queue has left to lose. -/
def weight (q : Queue) : ℕ := (q.map fun n => n.leaves + 1).sum

/-- A fill leaves a level alone or takes weight from it. -/
theorem FillStep.keeps_or_lightens (h : FillStep side s t) (σ : Side) (p : PriceTicks) :
    t.book.queueFor σ p = s.book.queueFor σ p ∨
      weight (t.book.queueFor σ p) < weight (s.book.queueFor σ p) := by
  cases h with
  | whole hb hc hpos hle =>
      rw [queueFor_fillWhole]
      split_ifs with hk
      · rw [hk.1, hk.2, queueFor_of_best? hb]
        right
        simp [weight]
      · exact .inl rfl
  | part hb hc hpos hlt =>
      rw [queueFor_fillPart]
      split_ifs with hk
      · rw [hk.1, hk.2, queueFor_of_best? hb]
        right
        simp only [weight, List.map_cons, List.sum_cons]
        omega
      · exact .inl rfl

theorem fills_keep_or_lighten (h : ReflTransGen (FillStep side) s t) (σ : Side) (p : PriceTicks) :
    t.book.queueFor σ p = s.book.queueFor σ p ∨
      weight (t.book.queueFor σ p) < weight (s.book.queueFor σ p) := by
  induction h with
  | refl => exact .inl rfl
  | tail _ hs ih =>
      obtain heq | hlt := hs.keeps_or_lightens σ p
      · rwa [heq]
      · obtain heq' | hlt' := ih
        · exact .inr (heq' ▸ hlt)
        · exact .inr (hlt.trans hlt')

/-- A level that ends as it began has never been touched. -/
theorem FillStep.keeps_of_fills (h : FillStep side s t) (hf : ReflTransGen (FillStep side) t t')
    {σ : Side} {p : PriceTicks} (hkeep : t'.book.queueFor σ p = s.book.queueFor σ p) :
    t.book.queueFor σ p = s.book.queueFor σ p := by
  refine (h.keeps_or_lightens σ p).resolve_right fun hlt => ?_
  obtain heq | hlt' := fills_keep_or_lighten hf σ p
  · rw [← heq, hkeep] at hlt
    exact lt_irrefl _ hlt
  · rw [hkeep] at hlt'
    exact lt_asymm hlt hlt'

/-- Fills that leave the level of the guest as it was are fills without the guest. -/
theorem Hosts.fills (hf : ReflTransGen (FillStep side) s' t') :
    ∀ {s : Matching}, Hosts x us vs s.book s'.book → s.taker = s'.taker → s.book.NoEmptyLevel →
      s'.book.NoEmptyLevel → (∀ n ∈ x, n.ord.orderId ∉ s.book.restingIds) →
      (∀ n ∈ x, t'.book.queueFor n.ord.side n.ord.price =
        s'.book.queueFor n.ord.side n.ord.price) →
      ∃ t, ReflTransGen (FillStep side) s t ∧ t.taker = t'.taker ∧ Hosts x us vs t.book t'.book := by
  induction hf using ReflTransGen.head_induction_on with
  | refl => exact fun {s} h htaker _ _ _ _ => ⟨s, .refl, htaker, h⟩
  | @head s' m' hs hm ih =>
      intro s h htaker hne hne' hfresh hkeep
      have hkeep' := fun n hn => hs.keeps_of_fills hm (hkeep n hn)
      obtain ⟨m, hsm, htaker', h'⟩ := h.fillStep htaker hne hne' hfresh hs hkeep'
      have hfresh' : ∀ n ∈ x, n.ord.orderId ∉ m.book.restingIds :=
        fun n hn hmem => hfresh n hn (hsm.restingIds_subperm.subset hmem)
      obtain ⟨t, hmt, ht⟩ := ih h' htaker' (hsm.noEmptyLevel hne) (hs.noEmptyLevel hne') hfresh'
        fun n hn => (hkeep n hn).trans (hkeep' n hn).symm
      exact ⟨t, hmt.head hsm, ht⟩

theorem isLimitCross_eq_false_iff {p p' : PriceTicks} : isLimitCross side p p' = false ↔
    p ≠ kNoPrice ∧ p' ≠ kNoPrice ∧ (side = .bid → p < p') ∧ (side = .ask → p' < p) := by
  unfold isLimitCross
  split_ifs with h
  · simp only [false_iff]
    intro hne
    exact h.elim hne.1 hne.2.1
  · obtain ⟨hp, hp'⟩ := not_or.mp h
    cases side <;> simp [hp, hp']

/-- Where matching ends with the guest, it ends without it. -/
theorem Hosts.done (h : Hosts x us vs s.book s'.book) (htaker : s.taker = s'.taker)
    (hne : s.book.NoEmptyLevel) (hne' : s'.book.NoEmptyLevel)
    (hpriced : x ≠ none → NoSentinel s.book) (hd : Done side s') : Done side s := by
  intro hpos px q hb
  have hpos' : 0 < s'.taker.leaves := htaker ▸ hpos
  have hq' : s'.book.queueFor side.opp px ≠ [] := by
    obtain ⟨hq, he⟩ := hne.queue?_eq_some_iff.mp (queue?_of_best? hb)
    rw [h.queues, he]
    simp [hq]
  obtain ⟨px', q', hb'⟩ := exists_best? hq'
  have hc := hd hpos' px' q' hb'
  rw [htaker]
  by_cases hg : guest x side.opp px' = []
  · have hbest := h.best? hne hne' hb' hg
    obtain ⟨rfl, -⟩ := Prod.mk.inj (Option.some_inj.mp (hbest.symm.trans hb))
    exact hc
  · -- the taker stops at the guest, and what is behind it is further away
    have hx : x ≠ none := fun hx => hg (by rw [hx]; rfl)
    have hpx := (hpriced hx).best_ne hb
    have hout := hd.out_of_reach hpos' hq'
    exact isLimitCross_eq_false_iff.mpr ⟨(isLimitCross_eq_false_iff.mp hc).1, hpx, hout⟩

end fills

/-! ### Commands beside a guest -/

/-- The id under which a command looks up an order. -/
def addressed : OrderCmd → Option OrderId
  | .new _ => none
  | .cancel id | .replace id _ _ => some id

/-- The command leaves the level of the order `n` alone: it neither takes the id of `n` nor is it
about an order of that level, and the level is afterwards what it was. -/
structure Spares (n : Node) (b : EngineBook) (c : OrderCmd) : Prop where
  entered : n.ord.orderId ∉ submits c
  addressed : ∀ id ∈ addressed c, ∀ lc ∈ b.loc.find? id,
    ¬(n.ord.side = lc.side ∧ n.ord.price = lc.px)
  level : ∀ b' ∈ b.dispatch c,
    b'.queueFor n.ord.side n.ord.price = b.queueFor n.ord.side n.ord.price

instance (n : Node) (b : EngineBook) (c : OrderCmd) : Decidable (Spares n b c) :=
  decidable_of_iff (n.ord.orderId ∉ submits c ∧ (∀ id ∈ EngineBook.addressed c,
      ∀ lc ∈ b.loc.find? id, ¬(n.ord.side = lc.side ∧ n.ord.price = lc.px)) ∧
    ∀ b' ∈ b.dispatch c, b'.queueFor n.ord.side n.ord.price = b.queueFor n.ord.side n.ord.price)
    ⟨fun ⟨h, h', h''⟩ => ⟨h, h', h''⟩, fun h => ⟨h.entered, h.addressed, h.level⟩⟩

/-- Two sound books, one with a guest whose id the other does not have. -/
structure HostsOk (x : Option Node) (us vs : List ExecReport) (b b' : EngineBook) : Prop where
  hosts : Hosts x us vs b b'
  sound : Sound b
  sound' : Sound b'
  fresh : ∀ n ∈ x, n.ord.orderId ∉ b.restingIds
  priced : x ≠ none → NoSentinel b

section commands
variable {x : Option Node} {us vs : List ExecReport} {b b' : EngineBook} {o : Order}
  {id : OrderId} {lc : Loc} {c : OrderCmd}

/-- `on_new` by what matching leaves of the order. -/
theorem onNew_eq (b : EngineBook) (o : Order) : b.onNew o =
    if (b.arrive o).taker.leaves = 0 then (b.arrive o).book.publish (filledReport o)
    else if o.type = .market then (b.arrive o).book
    else (b.arrive o).book.enqueue (b.arrive o).taker := by
  obtain ⟨hpos, hm, he⟩ | ⟨h0, he⟩ | ⟨hpos, hm, he⟩ := b.onNew_cases o
  · rw [he, if_neg hpos.ne', if_neg hm]
  · rw [he, if_pos h0]
  · rw [he, if_neg hpos.ne', if_pos hm]

/-- An `on_new` that leaves a level as it is neither trades nor rests there. -/
theorem arrive_of_onNew_keeps (hne : b.NoEmptyLevel) {n : Node}
    (hkeep : (b.onNew o).queueFor n.ord.side n.ord.price = b.queueFor n.ord.side n.ord.price) :
    (b.arrive o).book.queueFor n.ord.side n.ord.price = b.queueFor n.ord.side n.ord.price ∧
      ((b.arrive o).taker.leaves ≠ 0 → o.type ≠ .market →
        ¬(n.ord.side = o.side ∧ n.ord.price = o.price)) := by
  obtain ⟨-, -, he⟩ | ⟨h0, he⟩ | ⟨-, hm, he⟩ := b.onNew_cases o
  · rw [he, queueFor_enqueue, arrive_ord hne] at hkeep
    split_ifs at hkeep with hk
    · rw [hk.1, hk.2, queueFor_arrive_own hne] at hkeep
      simp at hkeep
    · exact ⟨hkeep, fun _ _ => hk⟩
  · rw [he, queueFor_publish] at hkeep
    exact ⟨hkeep, fun h => absurd h0 h⟩
  · rw [he] at hkeep
    exact ⟨hkeep, fun _ h => absurd hm h⟩

theorem HostsOk.arrive (h : HostsOk x us vs b b')
    (hkeep : ∀ n ∈ x, (b'.arrive o).book.queueFor n.ord.side n.ord.price =
      b'.queueFor n.ord.side n.ord.price) :
    Hosts x us vs (b.arrive o).book (b'.arrive o).book ∧
      (b.arrive o).taker = (b'.arrive o).taker := by
  have hpub := hosts_publish h.hosts (newReport ⟨o, o.qty⟩)
  have hs := h.sound.publish (newReport ⟨o, o.qty⟩)
  have hs' := h.sound'.publish (newReport ⟨o, o.qty⟩)
  obtain ⟨t, hfills, htaker, ht⟩ := Hosts.fills (arrive_fills h.sound'.noEmpty)
    (s := ⟨b.publish (newReport ⟨o, o.qty⟩), ⟨o, o.qty⟩⟩) hpub rfl hs.noEmpty hs'.noEmpty
    (fun n hn => by rw [restingIds_publish]; exact h.fresh n hn)
    (fun n hn => by rw [hkeep n hn, queueFor_publish])
  have hne : t.book.NoEmptyLevel :=
    fills_invariant (fun _ _ hne hf => hf.noEmptyLevel hne) hfills hs.noEmpty
  have hpriced : x ≠ none → NoSentinel t.book := fun hx =>
    fills_invariant (fun _ _ hp hf => hf.noSentinel hp) hfills
      ((h.priced hx).publish fun htrade => by cases htrade)
  have hdone : Done o.side t :=
    ht.done htaker hne (arrive_noEmptyLevel h.sound'.noEmpty) hpriced (b'.arrive_done o)
  have harrive : b.arrive o = t := matchSide_eq_of_fills hs.noEmpty hfills hdone
  rw [harrive]
  exact ⟨ht, htaker⟩

theorem HostsOk.onNew (h : HostsOk x us vs b b') (hid : ∀ n ∈ x, n.ord.orderId ≠ o.orderId)
    (hkeep : ∀ n ∈ x, (b'.onNew o).queueFor n.ord.side n.ord.price =
      b'.queueFor n.ord.side n.ord.price) :
    Hosts x us vs (b.onNew o) (b'.onNew o) := by
  have hkeeps := fun n hn => arrive_of_onNew_keeps h.sound'.noEmpty (hkeep n hn)
  obtain ⟨ha, htaker⟩ := h.arrive fun n hn => (hkeeps n hn).1
  rw [onNew_eq, onNew_eq, htaker]
  split_ifs with h0 hm
  · exact hosts_publish ha _
  · exact ha
  · have hord := arrive_ord (o := o) h.sound'.noEmpty
    refine hosts_enqueue ha (by rwa [hord]) ?_
    rw [hord]
    exact guest_eq_nil_iff.mpr fun n hn => (hkeeps n hn).2 h0 hm

theorem HostsOk.publish (h : HostsOk x us vs b b') {er : ExecReport} (her : er.execType ≠ .trade) :
    HostsOk x us vs (b.publish er) (b'.publish er) where
  hosts := hosts_publish h.hosts er
  sound := h.sound.publish er
  sound' := h.sound'.publish er
  fresh := h.fresh
  priced hx := (h.priced hx).publish fun htrade => absurd htrade her

theorem HostsOk.eraseLoc (h : HostsOk x us vs b b') (hid : ∀ n ∈ x, n.ord.orderId ≠ id) :
    HostsOk x us vs (b.eraseLoc id) (b'.eraseLoc id) where
  hosts := hosts_eraseLoc h.hosts hid
  sound := h.sound.eraseLoc id
  sound' := h.sound'.eraseLoc id
  fresh := h.fresh
  priced hx := noSentinel_eraseLoc (h.priced hx) id

theorem HostsOk.eraseAt (h : HostsOk x us vs b b') (hl : b.loc.find? id = some lc)
    (hl' : b'.loc.find? id = some lc) (hg : guest x lc.side lc.px = []) :
    HostsOk x us vs (b.eraseAt lc) (b'.eraseAt lc) where
  hosts := by
    have hq := h.hosts.queueFor_eq hg
    obtain ⟨hnone, he⟩ | ⟨v, q', hv, -⟩ := h.sound.eraseAt_cases hl
    · obtain ⟨-, he'⟩ | ⟨v, q', hv, -⟩ := h.sound'.eraseAt_cases hl'
      · rw [he, he']
        exact h.hosts
      · rw [hq, hnone] at hv
        cases hv
    · exact hosts_eraseAt h.hosts h.fresh hg hv
  sound := h.sound.eraseAt hl
  sound' := h.sound'.eraseAt hl'
  fresh n hn hmem := h.fresh n hn ((restingIds_eraseAt h.sound hl).subset hmem)
  priced hx := (h.priced hx).eraseAt h.sound hl

theorem HostsOk.dispatch_new (h : HostsOk x us vs b b')
    (hid : ∀ n ∈ x, n.ord.orderId ≠ o.orderId)
    (hkeep : ∀ n ∈ x, (b'.onNew o).queueFor n.ord.side n.ord.price =
      b'.queueFor n.ord.side n.ord.price)
    (hpriced : x ≠ none → o.type ≠ .market → o.price ≠ kNoPrice) :
    HostsOk x us vs (b.onNew o) (b'.onNew o) where
  hosts := h.onNew hid hkeep
  sound := h.sound.onNew o
  sound' := h.sound'.onNew o
  fresh n hn hmem := by
    obtain he | hmem := List.mem_cons.mp ((restingIds_onNew h.sound.noEmpty).subset hmem)
    · exact hid n hn he
    · exact h.fresh n hn hmem
  priced hx := (noSentinel_onNew_iff h.sound (h.priced hx)).mpr fun hm hpx =>
    absurd hpx (hpriced hx hm)

theorem HostsOk.dispatch_cancel (h : HostsOk x us vs b b') (hid : ∀ n ∈ x, n.ord.orderId ≠ id)
    (haway : ∀ lc, b'.loc.find? id = some lc → guest x lc.side lc.px = []) :
    HostsOk x us vs (b.onCancel id) (b'.onCancel id) := by
  have hindex := h.hosts.index id hid
  cases hl : b.loc.find? id with
  | none =>
      rw [hl] at hindex
      rwa [onCancel_of_none hl, onCancel_of_none hindex]
  | some lc =>
      rw [hl] at hindex
      rw [onCancel_of_some hl, onCancel_of_some hindex]
      exact ((h.eraseAt hl hindex (haway lc hindex)).eraseLoc hid).publish (by simp [canceledReport])

theorem HostsOk.dispatch_replace {px : PriceTicks} {qty : ℕ} (h : HostsOk x us vs b b')
    (hid : ∀ n ∈ x, n.ord.orderId ≠ id)
    (haway : ∀ lc, b'.loc.find? id = some lc → guest x lc.side lc.px = [])
    (hkeep : ∀ n ∈ x, ∀ t', b'.onReplace id px qty = some t' →
      t'.queueFor n.ord.side n.ord.price = b'.queueFor n.ord.side n.ord.price) :
    Option.Rel (HostsOk x us vs) (b.onReplace id px qty) (b'.onReplace id px qty) := by
  have hindex := h.hosts.index id hid
  cases hl : b.loc.find? id with
  | none =>
      rw [hl] at hindex
      simp only [onReplace, hl, hindex]
      exact .some h
  | some lc =>
      rw [hl] at hindex
      have hg := haway lc hindex
      have hq := h.hosts.queueFor_eq hg
      cases hn : (b.queueFor lc.side lc.px)[lc.idx]? with
      | none =>
          simp only [onReplace, hl, hindex, hq, hn]
          exact .none
      | some v =>
          have htaken := (h.eraseAt hl hindex hg).eraseLoc hid
          have hnode := h.sound.node _ _ v (List.mem_of_getElem? hn)
          simp only [onReplace, hl, hindex, hq, hn] at hkeep ⊢
          refine .some ((htaken.dispatch_new ?_ ?_ ?_).publish (by simp [replacedReport]))
          · intro n hm he
            have hv : n.ord.orderId = v.ord.orderId := he
            exact h.fresh n hm (hv ▸ mem_restingIds (List.mem_of_getElem? hn))
          · intro n hm
            -- the order comes from another level, so its removal does not show at the guest's
            have hk := hkeep n hm _ rfl
            rw [queueFor_publish] at hk
            obtain ⟨q', hr⟩ := removed_eraseAt (hq ▸ hn)
            rw [hk, queueFor_eraseLoc, hr.queues, if_neg (guest_eq_nil_iff.mp hg n hm)]
          · intro hx _
            refine adjust_price_ne (fun hpx => h.sound.queueFor_ne_nil hl ?_) px qty
            rw [← hnode.price, hpx]
            exact h.sound.noEmpty.queue?_eq_none_iff.mp ((h.priced hx).level lc.side)

/-- **One command keeps the two books together.** -/
theorem HostsOk.dispatch (h : HostsOk x us vs b b') (hc : ∀ n ∈ x, Spares n b' c)
    (hpriced : x ≠ none → c.Priced) :
    Option.Rel (HostsOk x us vs) (b.dispatch c) (b'.dispatch c) := by
  have haway : ∀ id ∈ addressed c, (∀ n ∈ x, n.ord.orderId ≠ id) ∧
      ∀ lc, b'.loc.find? id = some lc → guest x lc.side lc.px = [] := by
    intro id hid
    refine ⟨fun n hn he => ?_, fun lc hl => ?_⟩
    · exact (hc n hn).addressed id hid _ (he ▸ h.hosts.entry n hn) ⟨rfl, rfl⟩
    · exact guest_eq_nil_iff.mpr fun n hn => (hc n hn).addressed id hid lc hl
  cases c with
  | new o =>
      refine .some (h.dispatch_new (fun n hn he => ?_) (fun n hn => ?_) hpriced)
      · exact (hc n hn).entered (he ▸ List.mem_cons_self)
      · exact (hc n hn).level _ rfl
  | cancel id =>
      obtain ⟨hid, hlevel⟩ := haway id rfl
      exact .some (h.dispatch_cancel hid hlevel)
  | replace id px qty =>
      obtain ⟨hid, hlevel⟩ := haway id rfl
      exact h.dispatch_replace hid hlevel fun n hn t' ht => (hc n hn).level t' ht

end commands

/-! ### From the entry to the end of the run -/

section runs
variable {x : Option Node} {us vs : List ExecReport} {b b' : EngineBook} {o : Order} {n : Node}

/-- An order that reaches nothing becomes the guest. -/
theorem hostsOk_onNew (hs : Sound b) (hp : NoSentinel b) (hfresh : o.orderId ∉ b.restingIds)
    (hrest : b.Unreached o) (hqty : 0 < o.qty) (htype : o.type ≠ .market) :
    HostsOk (some ⟨o, o.qty⟩) b.sink (b.sink ++ [newReport ⟨o, o.qty⟩]) b (b.onNew o) where
  hosts := by
    rw [onNew_of_unreached hrest hqty htype]
    refine ⟨fun s px => ?_, fun id hid => ?_, fun n hn => ?_, [], ?_, ?_⟩
    · rw [queueFor_enqueue, queueFor_publish]
      simp only [guest, eq_comm]
      split_ifs
      · rfl
      · rw [List.append_nil]
    · rw [loc_enqueue, loc_publish, OrdMap.find?_set, if_neg fun he => hid _ rfl he.symm]
    · obtain rfl := Option.some_inj.mp hn
      rw [loc_enqueue, OrdMap.find?_set_self, queueFor_publish]
    · rw [List.append_nil]
    · rw [sink_enqueue, sink_publish, List.append_nil]
  sound := hs
  sound' := hs.onNew o
  fresh n hn := by
    obtain rfl := Option.some_inj.mp hn
    exact hfresh
  priced _ := hp

/-- The cancel of the guest. -/
theorem hosts_onCancel (h : HostsOk (some n) us vs b b') :
    Hosts none b.sink (b'.sink ++ [canceledReport n.ord.orderId]) b
      (b'.onCancel n.ord.orderId) := by
  have hentry := h.hosts.entry n rfl
  have hq := h.hosts.queues n.ord.side n.ord.price
  rw [guest, if_pos ⟨rfl, rfl⟩] at hq
  have hlast : b'.eraseAt ⟨n.ord.side, n.ord.price, (b.queueFor n.ord.side n.ord.price).length⟩ =
      (b'.putQueue n.ord.side n.ord.price (b.queueFor n.ord.side n.ord.price)).eraseLoc
        n.ord.orderId := eraseAt_of_last hq rfl
  refine ⟨fun s px => ?_, fun id _ => ?_, by rintro _ ⟨⟩, [], ?_, ?_⟩
  · rw [queueFor_onCancel hentry, hlast, queueFor_eraseLoc, queueFor_putQueue]
    split_ifs with hk
    · rw [hk.1, hk.2, guest, List.append_nil]
    · have hg : guest (some n) s px = [] := if_neg fun hk' => hk ⟨hk'.1.symm, hk'.2.symm⟩
      rw [h.hosts.queueFor_eq hg, guest, List.append_nil]
  · rw [onCancel_of_some hentry, loc_publish, loc_eraseLoc, OrdMap.find?_erase, hlast, loc_eraseLoc,
      OrdMap.find?_erase, loc_putQueue]
    split_ifs with hid
    · -- without the guest the index has no entry for its id
      cases hl : b.loc.find? id with
      | none => rfl
      | some lc => exact absurd (h.sound.mem_restingIds hl) (hid ▸ h.fresh n rfl)
    · exact h.hosts.index id fun m hm he => hid (Option.some_inj.mp hm ▸ he.symm)
  · rw [List.append_nil]
  · rw [onCancel_of_some hentry, sink_publish, sink_eraseLoc, hlast, sink_eraseLoc, sink_putQueue,
      List.append_nil]

theorem HostsOk.leave (h : HostsOk (some n) us vs b b') :
    HostsOk none b.sink (b'.sink ++ [canceledReport n.ord.orderId]) b
      (b'.onCancel n.ord.orderId) where
  hosts := hosts_onCancel h
  sound := h.sound
  sound' := h.sound'.onCancel _
  fresh := by rintro _ ⟨⟩
  priced hx := absurd rfl hx

/-- Without a guest the books are equal. -/
theorem HostsOk.eq_of_none (h : HostsOk none us vs b b') : b' = { b with sink := b'.sink } := by
  have hq : ∀ s px, b'.queue? s px = b.queue? s px := by
    intro s px
    refine Option.ext fun q => ?_
    rw [h.sound'.noEmpty.queue?_eq_some_iff, h.sound.noEmpty.queue?_eq_some_iff,
      h.hosts.queueFor_eq rfl]
  have hloc : b'.loc = b.loc := OrdMap.ext_find? fun id => h.hosts.index id (by rintro _ ⟨⟩)
  refine ext_queue? (fun s px => (hq s px).trans ?_) hloc rfl
  cases s <;> rfl

/-- Commands that spare the guest keep the two books together. -/
theorem HostsOk.run (h : HostsOk x us vs b b') (cmds : List OrderCmd)
    (hpriced : x ≠ none → ∀ c ∈ cmds, c.Priced)
    (hspares : ∀ n ∈ x, Along EngineBook.dispatch b' (fun _ => Spares n) cmds) :
    Option.Rel (HostsOk x us vs) (Transition.run EngineBook.dispatch b cmds)
      (Transition.run EngineBook.dispatch b' cmds) := by
  induction cmds generalizing b b' with
  | nil => exact .some h
  | cons c cmds ih =>
      have hstep := h.dispatch (fun n hn => (along_cons.mp (hspares n hn)).1)
        fun hx => hpriced hx c List.mem_cons_self
      have hrest : ∀ n ∈ x, ∀ t', b'.dispatch c = some t' →
          Along EngineBook.dispatch t' (fun _ => Spares n) cmds :=
        fun n hn => (along_cons.mp (hspares n hn)).2
      show Option.Rel _ ((b.dispatch c).bind _) ((b'.dispatch c).bind _)
      generalize b.dispatch c = t at hstep
      generalize b'.dispatch c = t' at hstep hrest
      cases hstep with
      | none => exact .none
      | some ht =>
          exact ih ht (fun hx c hc => hpriced hx c (List.mem_cons_of_mem _ hc))
            fun n hn => hrest n hn _ rfl

theorem NoSentinel.dispatch {c : OrderCmd} (h : NoSentinel b) (hs : Sound b) (hc : c.Priced)
    (hd : b.dispatch c = some b') : NoSentinel b' := by
  cases c with
  | new o =>
      obtain rfl := Option.some_inj.mp hd
      exact (noSentinel_onNew_iff hs h).mpr fun hm hpx => absurd hpx (hc hm)
  | cancel id =>
      obtain rfl := Option.some_inj.mp hd
      exact h.onCancel hs id
  | replace id px qty => exact h.onReplace hs hd

/-- No run of priced orders brings in a level at `kNoPrice`. -/
theorem noSentinel_run {cmds : List OrderCmd} (hpriced : ∀ c ∈ cmds, c.Priced)
    (hrun : Transition.run EngineBook.dispatch .empty cmds = some b) : NoSentinel b := by
  induction cmds using List.reverseRecOn generalizing b with
  | nil =>
      rw [run_nil, Option.some_inj] at hrun
      rw [← hrun]
      exact ⟨fun s => by cases s <;> rfl, by simp [EngineBook.empty]⟩
  | append_singleton cmds c ih =>
      obtain ⟨t, ht, hd⟩ := run_concat_eq_some.mp hrun
      have hp := ih (fun c hc => hpriced c (List.mem_append_left _ hc)) ht
      exact hp.dispatch (sound_run ht) (hpriced c (by simp)) hd

end runs

/-- `t'` is `t` with the report `er` after the reports `us` and the report `er'` after the reports
`rs` that follow these. -/
def ReportsMore (us rs : List ExecReport) (er er' : ExecReport) (t t' : EngineBook) : Prop :=
  ∃ after, t.sink = us ++ rs ++ after ∧ t' = { t with sink := us ++ er :: rs ++ er' :: after }

theorem reportsMore_of_hosts {us rs : List ExecReport} {er er' : ExecReport} {t t' : EngineBook}
    (h : HostsOk none (us ++ rs) (us ++ [er] ++ rs ++ [er']) t t') :
    ReportsMore us rs er er' t t' := by
  obtain ⟨after, hsink, hsink'⟩ := h.hosts.sinks
  refine ⟨after, hsink, ?_⟩
  rw [h.eq_of_none, hsink']
  simp

/-- **A cancelled order that nothing has touched leaves no trace**: with it or without it the run
ends in the same book, and has the same reports but for the two of that order. -/
theorem leaves_no_trace {pre mid : List OrderCmd} (post : List OrderCmd) {o : Order}
    {b : EngineBook} (hpre : run dispatch .empty pre = some b)
    (hpriced : ∀ c ∈ pre ++ mid, c.Priced) (hfresh : o.orderId ∉ b.restingIds)
    (hrest : b.Unreached o) (hqty : 0 < o.qty) (htype : o.type ≠ .market)
    (hmid : Along dispatch (b.onNew o) (fun _ => Spares ⟨o, o.qty⟩) mid) :
    ∃ rs, (∀ m, run dispatch .empty (pre ++ mid) = some m → m.sink = b.sink ++ rs) ∧
      Option.Rel (ReportsMore b.sink rs (newReport ⟨o, o.qty⟩) (canceledReport o.orderId))
        (run dispatch .empty (pre ++ (mid ++ post)))
        (run dispatch .empty (pre ++ .new o :: (mid ++ .cancel o.orderId :: post))) := by
  have hp := noSentinel_run (fun c hc => hpriced c (List.mem_append_left mid hc)) hpre
  have henter := hostsOk_onNew (sound_run hpre) hp hfresh hrest hqty htype
  have hstay := henter.run mid (fun _ c hc => hpriced c (List.mem_append_right pre hc))
    (fun n hn => Option.some_inj.mp hn ▸ hmid)
  have hwith : run dispatch .empty (pre ++ .new o :: (mid ++ .cancel o.orderId :: post)) =
      (run dispatch (b.onNew o) mid).bind fun m => run dispatch (m.onCancel o.orderId) post := by
    rw [run_append_of_eq_some hpre]
    exact run_append mid _
  have hwithout : run dispatch .empty (pre ++ (mid ++ post)) =
      (run dispatch b mid).bind fun m => run dispatch m post := by
    rw [run_append_of_eq_some hpre]
    exact run_append mid post
  rw [hwith, hwithout, run_append_of_eq_some hpre]
  generalize run dispatch b mid = m at hstay ⊢
  generalize run dispatch (b.onNew o) mid = m' at hstay ⊢
  cases hstay with
  | none => exact ⟨[], by rintro _ ⟨⟩, .none⟩
  | @some m m' hm =>
      obtain ⟨rs, hsink, hsink'⟩ := hm.hosts.sinks
      have hpost := hm.leave.run post (fun hx => absurd rfl hx) (by rintro _ ⟨⟩)
      rw [hsink, hsink'] at hpost
      refine ⟨rs, fun m₁ h => Option.some_inj.mp h ▸ hsink, ?_⟩
      simp only [Option.bind_some]
      generalize run dispatch m post = t at hpost ⊢
      generalize run dispatch (m'.onCancel o.orderId) post = t' at hpost ⊢
      cases hpost with
      | none => exact .none
      | some ht => exact .some (reportsMore_of_hosts ht)

/-- While the bid of order 3 rests, order 4 is replaced and traded with and order 2 is cancelled. -/
theorem leaves_no_trace_swept :
    let o : Order := { orderId := 3, side := .bid, price := 100, qty := 7 }
    let pre : List OrderCmd := [.new { orderId := 1, side := .ask, price := 105, qty := 5 },
      .new { orderId := 2, side := .bid, price := 95, qty := 5 }]
    let mid : List OrderCmd := [.new { orderId := 4, side := .ask, price := 103, qty := 2 },
      .replace 4 102 3, .cancel 2, .new { orderId := 5, side := .bid, price := 105, qty := 4 }]
    let post : List OrderCmd := [.new { orderId := 6, side := .ask, price := 90, qty := 1 }]
    ∃ b, run dispatch .empty pre = some b ∧
      ∃ rs, (∀ m, run dispatch .empty (pre ++ mid) = some m → m.sink = b.sink ++ rs) ∧
        Option.Rel (ReportsMore b.sink rs (newReport ⟨o, o.qty⟩) (canceledReport o.orderId))
          (run dispatch .empty (pre ++ (mid ++ post)))
          (run dispatch .empty (pre ++ .new o :: (mid ++ .cancel o.orderId :: post))) := by
  intro o pre mid post
  obtain ⟨b, hb, hpriced, hfresh, hrest, hmid⟩ : ∃ b ∈ run dispatch .empty pre,
      (∀ c ∈ pre ++ mid, c.Priced) ∧ o.orderId ∉ b.restingIds ∧
      (∀ e ∈ b.best? o.side.opp, isLimitCross o.side o.price e.1 = false) ∧
      Along dispatch (b.onNew o) (fun _ => Spares ⟨o, o.qty⟩) mid := by decide +kernel
  exact ⟨b, hb, leaves_no_trace post hb hpriced hfresh (fun px q => hrest (px, q)) (by decide)
    (by decide) hmid⟩

end EngineBook
end Trading
