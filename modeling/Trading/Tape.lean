import Trading.OrderIndex
import Trading.Reports

/-! # The tape of trades

A fill reports twice, first to the taker and then to the maker.  The reports of executed quantity
that a command makes are the reports of a list of trades, pair by pair.  The taker of each is the
order that the command brings in, whose open quantity runs down from trade to trade, and the makers
are different orders that rest in the book before it.  Every trade is fair: it is made at the
maker's own price, which the taker accepts, and fills no party beyond its quantity (`fills_paired`).

A trade takes a maker out of the book or exhausts the taker, and a command enters one order at
most.  With the resting orders as potential this bounds the trades of a run by the orders entered,
and the reports by the commands (`reports_amortised`), however many orders a single one sweeps. -/

namespace Trading

/-- A report of an executed quantity. -/
def ExecReport.isFill (r : ExecReport) : Bool := r.execType = .trade ∧ 0 < r.lastQty

/-- The orders that a command enters. -/
def OrderCmd.entries : OrderCmd → ℕ
  | .new _ | .replace _ _ _ => 1
  | .cancel _ => 0

/-- The reports of a command beside those of its trades. -/
def OrderCmd.notices : OrderCmd → ℕ
  | .new _ => 2
  | .cancel _ => 1
  | .replace _ _ _ => 3

/-- The reports that a command pays for: its own, and two for the trade of each order it enters. -/
def OrderCmd.cost (c : OrderCmd) : ℕ := 2 * c.entries + c.notices

namespace EngineBook

open Transition (run run_concat_eq_some)

/-- A trade, with the two parties as it leaves them. -/
structure Trade where
  taker : Node
  maker : Node
  px : PriceTicks
  qty : ℕ

/-- What a trade reports. -/
def Trade.reports (t : Trade) : List ExecReport :=
  [tradeReport t.taker t.px t.qty, tradeReport t.maker t.px t.qty]

/-- The trade is one between opposite sides, at the maker's price and within the taker's, for no
more than either party had open, and one of them has nothing left. -/
structure Trade.Fair (t : Trade) : Prop where
  pos : 0 < t.qty
  side : t.maker.ord.side = t.taker.ord.side.opp
  price : t.maker.ord.price = t.px
  limit : isLimitCross t.taker.ord.side t.taker.ord.price t.px = true
  taker_le : t.taker.leaves + t.qty ≤ t.taker.ord.qty
  maker_le : t.maker.leaves + t.qty ≤ t.maker.ord.qty
  exhausted : t.taker.leaves = 0 ∨ t.maker.leaves = 0

/-- The maker as it rested before the trade. -/
def Trade.rested (t : Trade) : Node := ⟨t.maker.ord, t.maker.leaves + t.qty⟩

/-- The trades of an incoming order, one after the other; its open quantity runs down from all of it
to `q`. -/
inductive RunsDown (o : Order) : List Trade → ℕ → Prop
  | start : RunsDown o [] o.qty
  | trade {ts : List Trade} {t : Trade} : RunsDown o ts (t.taker.leaves + t.qty) →
      t.taker.ord = o → RunsDown o (ts ++ [t]) t.taker.leaves

/-- The trades are those of order `o` with different orders that rest in `b`. -/
structure Sweeps (b : EngineBook) (o : Order) (ts : List Trade) : Prop where
  taker : ∃ q, RunsDown o ts q
  makers : (ts.map Trade.rested).Subperm b.nodes

/-- Command `c` leads from `b` to `b'` by the trades `ts`: they are fair, and theirs are the reports
of executed quantity. -/
structure Taped (b : EngineBook) (c : OrderCmd) (b' : EngineBook) (ts : List Trade) : Prop where
  step : b.dispatch c = some b'
  swept : ts ≠ [] → ∃ o, incoming b c = some o ∧ Sweeps b o ts
  fair : ∀ t ∈ ts, t.Fair
  reports : (published b b').filter ExecReport.isFill = ts.flatMap Trade.reports

/-- From `b` to `b'` the trades `ts` are made, with `k` other reports and `n` orders entered at
most. -/
structure Traded (b b' : EngineBook) (ts : List Trade) (n k : ℕ) : Prop where
  fair : ∀ t ∈ ts, t.Fair
  sink : ∃ rs, b'.sink = b.sink ++ rs ∧
    rs.filter ExecReport.isFill = ts.flatMap Trade.reports ∧ rs.length ≤ 2 * ts.length + k
  nodes : ts.length + b'.nodes.length ≤ b.nodes.length + n

theorem length_reports (ts : List Trade) : (ts.flatMap Trade.reports).length = 2 * ts.length := by
  induction ts with
  | nil => rfl
  | cons t ts ih =>
      rw [List.flatMap_cons, List.length_append, ih, List.length_cons]
      show 2 + 2 * ts.length = _
      omega

/-- Both reports of a trade carry its quantity. -/
theorem Trade.Fair.filter_reports {t : Trade} (h : t.Fair) :
    t.reports.filter ExecReport.isFill = t.reports := by
  rw [List.filter_eq_self]
  intro r hr
  obtain rfl | rfl : r = tradeReport t.taker t.px t.qty ∨ r = tradeReport t.maker t.px t.qty := by
    simpa [Trade.reports] using hr
  · simpa [ExecReport.isFill, tradeReport] using h.pos
  · simpa [ExecReport.isFill, tradeReport] using h.pos

/-! ### Composition -/

section composition
variable {b b' b'' : EngineBook} {ts ts' : List Trade} {n n' k k' : ℕ}

/-- Nothing is reported and nothing enters. -/
theorem Traded.of_quiet (hs : b'.sink = b.sink) (hn : b'.nodes.length ≤ b.nodes.length) :
    Traded b b' [] 0 0 where
  fair := fun _ h => nomatch h
  sink := ⟨[], by rw [hs, List.append_nil], rfl, le_rfl⟩
  nodes := by simpa using hn

/-- One trade, with its reports. -/
theorem Traded.single {t : Trade} (ht : t.Fair) (hs : b'.sink = b.sink ++ t.reports)
    (hn : b'.nodes.length + 1 ≤ b.nodes.length + n) : Traded b b' [t] n 0 where
  fair := fun _ h => List.mem_singleton.mp h ▸ ht
  sink := ⟨t.reports, hs, ht.filter_reports.trans (List.append_nil _).symm, le_rfl⟩
  nodes := by rw [List.length_singleton]; omega

theorem Traded.refl (b : EngineBook) : Traded b b [] 0 0 := .of_quiet rfl le_rfl

theorem Traded.trans (h : Traded b b' ts n k) (h' : Traded b' b'' ts' n' k') :
    Traded b b'' (ts ++ ts') (n + n') (k + k') where
  fair t ht := (List.mem_append.mp ht).elim (h.fair t) (h'.fair t)
  sink := by
    obtain ⟨rs, hs, hf, hl⟩ := h.sink
    obtain ⟨rs', hs', hf', hl'⟩ := h'.sink
    refine ⟨rs ++ rs', by rw [hs', hs, List.append_assoc], ?_, ?_⟩
    · rw [List.filter_append, hf, hf', List.flatMap_append]
    · rw [List.length_append, List.length_append]
      omega
  nodes := by
    have hn := h.nodes
    have hn' := h'.nodes
    rw [List.length_append]
    omega

theorem Traded.mono (h : Traded b b' ts n k) (hn : n ≤ n') (hk : k ≤ k') :
    Traded b b' ts n' k' where
  fair := h.fair
  sink := by
    obtain ⟨rs, hs, hf, hl⟩ := h.sink
    exact ⟨rs, hs, hf, by omega⟩
  nodes := h.nodes.trans (by omega)

/-- A report without quantity makes no trade. -/
theorem Traded.publish (h : Traded b b' ts n k) {er : ExecReport} (he : er.isFill = false) :
    Traded b (b'.publish er) ts n (k + 1) where
  fair := h.fair
  sink := by
    obtain ⟨rs, hs, hf, hl⟩ := h.sink
    refine ⟨rs ++ [er], by rw [sink_publish, hs, List.append_assoc], ?_, ?_⟩
    · rw [List.filter_append, hf, List.filter_cons_of_neg (by simp [he]), List.filter_nil,
        List.append_nil]
    · rw [List.length_append, List.length_singleton]
      omega
  nodes := by rw [nodes_publish]; exact h.nodes

theorem Traded.enqueue (h : Traded b b' ts n k) (v : Node) :
    Traded b (b'.enqueue v) ts (n + 1) k where
  fair := h.fair
  sink := by
    obtain ⟨rs, hs, hf, hl⟩ := h.sink
    exact ⟨rs, by rw [sink_enqueue, hs], hf, hl⟩
  nodes := by
    have hn := h.nodes
    rw [(b'.nodes_enqueue_perm v).length_eq, List.length_cons]
    omega

theorem Sweeps.mono {o : Order} (h : Sweeps b o ts) (hsub : b.nodes.Subperm b'.nodes) :
    Sweeps b' o ts := ⟨h.taker, h.makers.trans hsub⟩

end composition

/-! ### Steps -/

section steps
variable {b b' : EngineBook} {side : Side} {s s' : Matching} {id : OrderId} {lc : Loc} {o : Order}

/-- The trade of a fill, paid for by the maker that leaves the book or by the taker that is
exhausted. -/
theorem FillStep.traded (h : FillStep side s s') (hs : Sound s.book)
    (hside : s.taker.ord.side = side) (hle : s.taker.leaves ≤ s.taker.ord.qty) : ∃ t,
    Traded s.book s'.book [t] (if s'.taker.leaves = 0 then 1 else 0) 0 ∧
      t.taker = s'.taker ∧ t.taker.leaves + t.qty = s.taker.leaves ∧
      ∃ ns, s.book.nodes.Perm (t.rested :: ns) ∧ (0 < s'.taker.leaves → s'.book.nodes = ns) := by
  cases h with
  | @whole px maker rest hb hc hpos hmle =>
      have hq := queueFor_of_best? hb
      have hm := hs.node _ _ maker (hq ▸ List.mem_cons_self)
      have hperm := nodes_fillWhole_perm hq
      have hrested : (⟨maker.ord, 0 + maker.leaves⟩ : Node) = maker := by rw [Nat.zero_add]
      refine ⟨⟨⟨s.taker.ord, s.taker.leaves - maker.leaves⟩, ⟨maker.ord, 0⟩, px, maker.leaves⟩,
        .single ?_ sink_fillWhole ?_, rfl, Nat.sub_add_cancel hmle, _, ?_, fun _ => rfl⟩
      · exact
          { pos := hm.pos
            side := hm.side.trans (by rw [hside])
            price := hm.price
            limit := by rw [hside]; exact hc
            taker_le := by dsimp only; omega
            maker_le := by dsimp only; rw [Nat.zero_add]; exact hm.le
            exhausted := .inr rfl }
      · rw [hperm.length_eq, List.length_cons]
        omega
      · rw [Trade.rested, hrested]
        exact hperm
  | @part px maker rest hb hc hpos hlt =>
      have hq := queueFor_of_best? hb
      have hm := hs.node _ _ maker (hq ▸ List.mem_cons_self)
      obtain ⟨ns, hperm, hperm'⟩ := nodes_fillPart_perm hq
      have hrested : (⟨maker.ord, maker.leaves - s.taker.leaves + s.taker.leaves⟩ : Node) =
          maker := by rw [Nat.sub_add_cancel hlt.le]
      refine ⟨⟨⟨s.taker.ord, 0⟩, ⟨maker.ord, maker.leaves - s.taker.leaves⟩, px, s.taker.leaves⟩,
        .single ?_ sink_fillPart ?_, rfl, Nat.zero_add _, ns, ?_,
        fun hpos' => absurd hpos' (lt_irrefl 0)⟩
      · exact
          { pos := hpos
            side := hm.side.trans (by rw [hside])
            price := hm.price
            limit := by rw [hside]; exact hc
            taker_le := by dsimp only; omega
            maker_le := by have := hm.le; dsimp only; omega
            exhausted := .inl rfl }
      · rw [hperm.length_eq, hperm'.length_eq, List.length_cons, List.length_cons]
        exact le_rfl
      · rw [Trade.rested, hrested]
        exact hperm

/-- What the matching loops have traded so far. -/
structure Swept (b : EngineBook) (o : Order) (ts : List Trade) (s : Matching) : Prop where
  traded : Traded b s.book ts (if s.taker.leaves = 0 then 1 else 0) 1
  taker : RunsDown o ts s.taker.leaves
  makers : (ts.map Trade.rested).Subperm b.nodes
  /-- As long as the taker is open, each maker has left the book. -/
  rest : 0 < s.taker.leaves → b.nodes.Perm (ts.map Trade.rested ++ s.book.nodes)

theorem Swept.start (b : EngineBook) (o : Order) :
    Swept b o [] ⟨b.publish (newReport ⟨o, o.qty⟩), ⟨o, o.qty⟩⟩ where
  traded := ((Traded.refl b).publish rfl).mono (Nat.zero_le _) le_rfl
  taker := .start
  makers := List.nil_subperm
  rest := fun _ => by
    rw [nodes_publish]
    exact List.Perm.refl _

theorem Swept.fill {ts : List Trade} (h : Swept b o ts s) (hf : FillStep side s s')
    (hs : Sound s.book) (ho : s.taker.ord = o) (hside : o.side = side)
    (hle : s.taker.leaves ≤ o.qty) : ∃ t, Swept b o (ts ++ [t]) s' := by
  have hpos : 0 < s.taker.leaves := by cases hf <;> assumption
  obtain ⟨t, htr, htaker, hqty, ns, hperm, hrest⟩ := hf.traded hs (ho ▸ hside) (ho ▸ hle)
  have hnodes : b.nodes.Perm ((ts ++ [t]).map Trade.rested ++ ns) := by
    rw [List.map_append, List.append_assoc]
    exact (h.rest hpos).trans (hperm.append_left _)
  have htraded := h.traded
  rw [if_neg hpos.ne'] at htraded
  have hord : t.taker.ord = o := by
    rw [htaker]
    cases hf <;> exact ho
  refine ⟨t, (htraded.trans htr).mono (Nat.zero_add _).le le_rfl, ?_, ?_, fun hpos' => ?_⟩
  · rw [← htaker]
    exact .trade (hqty ▸ h.taker) hord
  · exact (List.sublist_append_left _ ns).subperm.trans hnodes.symm.subperm
  · rw [hrest hpos']
    exact hnodes

/-- The matching loops of `on_new`. -/
theorem Sound.traded_arrive (h : Sound b) (o : Order) : ∃ ts, Swept b o ts (b.arrive o) := by
  have key : Sound (b.arrive o).book ∧ (b.arrive o).taker.leaves ≤ o.qty ∧
      ∃ ts, Swept b o ts (b.arrive o) := by
    refine arrive_invariant (J := fun s => Sound s.book ∧ s.taker.leaves ≤ o.qty ∧
      ∃ ts, Swept b o ts s) h.noEmpty ⟨h.publish _, le_rfl, [], .start b o⟩ ?_
    rintro s s' ho ⟨hs, hle, ts, ht⟩ hf
    obtain ⟨t, ht'⟩ := ht.fill hf hs ho rfl hle
    refine ⟨hf.sound hs, ?_, ts ++ [t], ht'⟩
    cases hf with
    | whole => exact (Nat.sub_le _ _).trans hle
    | part => exact Nat.zero_le _
  exact key.2.2

theorem Sound.traded_onNew (h : Sound b) (o : Order) : ∃ ts,
    Traded b (b.onNew o) ts 1 2 ∧ Sweeps b o ts := by
  obtain ⟨ts, ht⟩ := h.traded_arrive o
  have htr := ht.traded
  refine ⟨ts, ?_, ⟨_, ht.taker⟩, ht.makers⟩
  obtain ⟨hpos, -, he⟩ | ⟨h0, he⟩ | ⟨hpos, -, he⟩ := b.onNew_cases o
  · rw [if_neg hpos.ne'] at htr
    rw [he]
    exact (htr.enqueue _).mono le_rfl (Nat.le_succ 1)
  · rw [if_pos h0] at htr
    rw [he]
    exact htr.publish rfl
  · rw [if_neg hpos.ne'] at htr
    rw [he]
    exact htr.mono (Nat.zero_le 1) (Nat.le_succ 1)

theorem Sound.traded_eraseAt (h : Sound b) (hl : b.loc.find? id = some lc) :
    Traded b ((b.eraseAt lc).eraseLoc id) [] 0 0 ∧
      ((b.eraseAt lc).eraseLoc id).nodes.Subperm b.nodes := by
  obtain ⟨-, he⟩ | ⟨v, q', -, hr⟩ := h.eraseAt_cases hl
  · rw [he]
    exact ⟨.of_quiet rfl le_rfl, List.Subperm.refl _⟩
  · have hperm : b.nodes.Perm (v :: ((b.eraseAt lc).eraseLoc id).nodes) := hr.nodes
    refine ⟨.of_quiet hr.sink ?_, (List.sublist_cons_self v _).subperm.trans hperm.symm.subperm⟩
    rw [hperm.length_eq, List.length_cons]
    exact Nat.le_succ _

/-- What a command trades. -/
theorem Sound.traded_dispatch {c : OrderCmd} (h : Sound b) (hd : b.dispatch c = some b') :
    ∃ ts, Traded b b' ts c.entries c.notices ∧
      (ts ≠ [] → ∃ o, incoming b c = some o ∧ Sweeps b o ts) := by
  cases c with
  | new o =>
      obtain ⟨ts, ht, hsweeps⟩ := h.traded_onNew o
      exact ⟨ts, Option.some_inj.mp hd ▸ ht, fun _ => ⟨o, rfl, hsweeps⟩⟩
  | cancel id =>
      obtain rfl := Option.some_inj.mp hd
      refine ⟨[], ?_, fun hne => absurd rfl hne⟩
      cases hl : b.loc.find? id with
      | none =>
          rw [onCancel_of_none hl]
          exact (Traded.refl b).mono le_rfl (Nat.zero_le _)
      | some lc =>
          rw [onCancel_of_some hl]
          exact (h.traded_eraseAt hl).1.publish rfl
  | replace id px qty =>
      obtain ⟨-, rfl⟩ | ⟨lc, n, hl, hn, rfl⟩ := onReplace_cases hd
      · exact ⟨[], (Traded.refl _).mono (Nat.zero_le _) (Nat.zero_le _), fun hne => absurd rfl hne⟩
      · obtain ⟨ts, ht, hsweeps⟩ :=
          ((h.eraseAt hl).eraseLoc id).traded_onNew (adjust n px qty).ord
        have hout := h.traded_eraseAt hl
        exact ⟨ts, ((hout.1.trans ht).publish rfl).mono le_rfl le_rfl,
          fun _ => ⟨_, incoming_replace hl hn, hsweeps.mono hout.2⟩⟩

theorem Sound.taped_dispatch {c : OrderCmd} (h : Sound b) (hd : b.dispatch c = some b') :
    ∃ ts, Taped b c b' ts := by
  obtain ⟨ts, ht, hswept⟩ := h.traded_dispatch hd
  obtain ⟨rs, hs, hf, -⟩ := ht.sink
  exact ⟨ts, hd, hswept, ht.fair, by rw [published_of_sink hs, hf]⟩

end steps

/-- The step of the potential: the reports of a command are paid for by its cost and by the orders
that it takes out of the book. -/
theorem Sound.length_published {b b' : EngineBook} {c : OrderCmd} (h : Sound b)
    (hd : b.dispatch c = some b') :
    (published b b').length + 2 * b'.nodes.length ≤ c.cost + 2 * b.nodes.length := by
  obtain ⟨ts, ht, -⟩ := h.traded_dispatch hd
  obtain ⟨rs, hs, -, hl⟩ := ht.sink
  have hn := ht.nodes
  rw [published_of_sink hs]
  unfold OrderCmd.cost
  omega

/-! ### Runs -/

section runs
variable {cmds : List OrderCmd} {b : EngineBook}

/-- What a run trades. -/
theorem traded_run (h : run dispatch EngineBook.empty cmds = some b) : ∃ ts,
    Traded EngineBook.empty b ts (cmds.map OrderCmd.entries).sum
      (cmds.map OrderCmd.notices).sum := by
  induction cmds using List.reverseRecOn generalizing b with
  | nil => exact ⟨[], Option.some_inj.mp h ▸ Traded.refl _⟩
  | append_singleton cmds c ih =>
      obtain ⟨b', hb', hc⟩ := run_concat_eq_some.mp h
      obtain ⟨ts, ht⟩ := ih hb'
      obtain ⟨ts', ht', -⟩ := (sound_run hb').traded_dispatch hc
      refine ⟨ts ++ ts', ?_⟩
      simpa using ht.trans ht'

/-- The tape of a run: the trades of each command, from the book that the command meets. -/
def Tape (cmds : List OrderCmd) (tape : List (List Trade)) : Prop :=
  tape.length = cmds.length ∧ ∀ k c ts, cmds[k]? = some c → tape[k]? = some ts →
    ∃ b b', run dispatch EngineBook.empty (cmds.take k) = some b ∧ Taped b c b' ts

theorem Tape.concat {c : OrderCmd} {b' : EngineBook} {tape : List (List Trade)} {ts : List Trade}
    (h : Tape cmds tape) (hb : run dispatch EngineBook.empty cmds = some b)
    (hc : Taped b c b' ts) : Tape (cmds ++ [c]) (tape ++ [ts]) := by
  obtain ⟨hlen, htaped⟩ := h
  refine ⟨by simp [hlen], fun k c' ts' hk hts => ?_⟩
  rcases Nat.lt_or_ge k cmds.length with hlt | hge
  · rw [List.getElem?_append_left hlt] at hk
    rw [List.getElem?_append_left (hlen ▸ hlt)] at hts
    rw [List.take_append_of_le_length hlt.le]
    exact htaped k c' ts' hk hts
  · rw [List.getElem?_append_right hge, List.getElem?_singleton] at hk
    rw [List.getElem?_append_right (hlen ▸ hge), List.getElem?_singleton] at hts
    split_ifs at hk hts with hk0
    obtain rfl := Option.some_inj.mp hk
    obtain rfl := Option.some_inj.mp hts
    rw [List.take_left' (by omega)]
    exact ⟨b, b', hb, hc⟩

/-- **The reports of executed quantity are those of fair trades**, pair by pair and in order, in
every run: the trades of a command are those of the order that it brings in with different orders
that rest in the book before it. -/
theorem fills_paired (h : run dispatch EngineBook.empty cmds = some b) :
    ∃ tape : List (List Trade), Tape cmds tape ∧
      b.sink.filter ExecReport.isFill = tape.flatten.flatMap Trade.reports := by
  induction cmds using List.reverseRecOn generalizing b with
  | nil =>
      refine ⟨[], ⟨rfl, fun k c ts hk => by cases hk⟩, ?_⟩
      rw [← Option.some_inj.mp h]
      rfl
  | append_singleton cmds c ih =>
      obtain ⟨b', hb', hc⟩ := run_concat_eq_some.mp h
      obtain ⟨tape, htape, hfills⟩ := ih hb'
      obtain ⟨ts, ht⟩ := (sound_run hb').taped_dispatch hc
      obtain ⟨rs, hs, -⟩ := reporting_dispatch (sound_run hb') hc
      have hrs := ht.reports
      rw [published_of_sink hs] at hrs
      refine ⟨tape ++ [ts], htape.concat hb' ht, ?_⟩
      rw [hs, List.filter_append, hfills, hrs, List.flatten_append, List.flatten_singleton,
        List.flatMap_append]

/-- An order that sweeps two levels and rests, a cancel of one that is filled, and an order that takes
what rests. -/
theorem fills_paired_sweep :
    let cmds : List OrderCmd := [.new { orderId := 1, side := .ask, price := 100, qty := 2 },
      .new { orderId := 2, side := .ask, price := 101, qty := 3 },
      .new { orderId := 3, side := .bid, price := 101, qty := 9 }, .cancel 1,
      .new { orderId := 4, side := .ask, price := 101, qty := 6 }]
    ∃ b, run dispatch EngineBook.empty cmds = some b ∧
      (b.sink.filter ExecReport.isFill).length = 6 ∧
      ∃ tape : List (List Trade), Tape cmds tape ∧
        b.sink.filter ExecReport.isFill = tape.flatten.flatMap Trade.reports := by
  intro cmds
  obtain ⟨b, hb, hlen⟩ : ∃ b ∈ run dispatch EngineBook.empty cmds,
      (b.sink.filter ExecReport.isFill).length = 6 := by decide +kernel
  exact ⟨b, hb, hlen, fills_paired hb⟩

/-- The orders entered pay for the trades and for the resting orders. -/
theorem length_fills_le (h : run dispatch EngineBook.empty cmds = some b) :
    (b.sink.filter ExecReport.isFill).length + 2 * b.nodes.length ≤
      2 * (cmds.map OrderCmd.entries).sum := by
  obtain ⟨ts, ht⟩ := traded_run h
  obtain ⟨rs, hs, hf, -⟩ := ht.sink
  have hempty : EngineBook.empty.nodes = [] := rfl
  have hn := ht.nodes
  rw [hempty, List.length_nil, Nat.zero_add] at hn
  have hsink : b.sink = rs := hs
  rw [hsink, hf, length_reports]
  omega

/-- The commands pay for the reports and for the resting orders. -/
theorem length_sink_le (h : run dispatch EngineBook.empty cmds = some b) :
    b.sink.length + 2 * b.nodes.length ≤ (cmds.map OrderCmd.cost).sum := by
  induction cmds using List.reverseRecOn generalizing b with
  | nil => exact Option.some_inj.mp h ▸ Nat.le_refl 0
  | append_singleton cmds c ih =>
      obtain ⟨b', hb', hc⟩ := run_concat_eq_some.mp h
      obtain ⟨rs, hs, -⟩ := reporting_dispatch (sound_run hb') hc
      have hstep := (sound_run hb').length_published hc
      have hle := ih hb'
      rw [published_of_sink hs] at hstep
      rw [hs, List.length_append, List.map_append, List.sum_append, List.map_singleton,
        List.sum_singleton]
      omega

/-- **Matching is amortised**: in every run the reports of executed quantity and the resting orders
are paid for by the orders entered, two reports each, and all reports by the commands. -/
theorem reports_amortised (h : run dispatch EngineBook.empty cmds = some b) :
    (b.sink.filter ExecReport.isFill).length + 2 * b.nodes.length ≤
      2 * (cmds.map OrderCmd.entries).sum ∧
    b.sink.length + 2 * b.nodes.length ≤ (cmds.map OrderCmd.cost).sum :=
  ⟨length_fills_le h, length_sink_le h⟩

/-- Two makers that go and a taker that rests: seven reports and one resting order for twelve. -/
theorem reports_amortised_sweep : ∃ b,
    run dispatch EngineBook.empty
      [.new { orderId := 1, side := .ask, price := 100, qty := 2 },
        .new { orderId := 2, side := .ask, price := 101, qty := 3 },
        .new { orderId := 3, side := .bid, price := 101, qty := 9 }] = some b ∧
    b.sink.length = 7 ∧ b.nodes.length = 1 ∧ b.sink.length + 2 * b.nodes.length ≤ 12 := by
  obtain ⟨b, hb, hsink, hnodes⟩ : ∃ b ∈ run dispatch EngineBook.empty
      [.new { orderId := 1, side := .ask, price := 100, qty := 2 },
        .new { orderId := 2, side := .ask, price := 101, qty := 3 },
        .new { orderId := 3, side := .bid, price := 101, qty := 9 }],
      b.sink.length = 7 ∧ b.nodes.length = 1 := by decide +kernel
  exact ⟨b, hb, hsink, hnodes, (reports_amortised hb).2⟩

end runs

end EngineBook
end Trading
