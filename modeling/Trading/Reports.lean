import Mathlib.Algebra.BigOperators.Group.List.Basic
import Trading.OrderIds

/-! # The reports about one order

The sink only grows, and a command publishes reports about the order it submits and about resting
orders (`reporting_dispatch`).  So nothing is ever reported about an order that is neither resting
nor submitted again.

The account of an order is what it has executed together with what it has resting.  A fill moves
quantity from the open part of an order to its executed part and nothing else (`FillStep.total`),
so `on_new` credits the submitted order with its quantity, and no other order with anything. -/

namespace Trading

/-- The statuses that end an order. -/
def ExecStatus.isFinal : ExecStatus → Bool
  | .filled | .canceled | .rejected | .expired => true
  | .new | .partiallyFilled | .replaced => false

def OrderCmd.isReplace : OrderCmd → Bool
  | .new _ | .cancel _ => false
  | .replace _ _ _ => true

namespace EngineBook

open Transition

/-- The reports about the order `id`, in order. -/
def reportsOf (rs : List ExecReport) (id : OrderId) : List ExecReport :=
  rs.filter fun r => r.orderId = id

/-- The executed quantity of `id`: the sum of `last_qty` over its trade reports. -/
def executed (rs : List ExecReport) (id : OrderId) : ℕ :=
  (((reportsOf rs id).filter fun r => r.execType = .trade).map ExecReport.lastQty).sum

/-- The open quantity of the nodes of `id`. -/
def restingQty (ns : List Node) (id : OrderId) : ℕ :=
  ((ns.filter fun n => n.ord.orderId = id).map Node.leaves).sum

/-- What `id` has executed and has resting. -/
def account (b : EngineBook) (id : OrderId) : ℕ := executed b.sink id + restingQty b.nodes id

/-- The reports published from `b` to `b'`. -/
def published (b b' : EngineBook) : List ExecReport := b'.sink.drop b.sink.length

/-- From `b` to `b'` the sink grows by reports about the orders `ids`. -/
def Reporting (ids : List OrderId) (b b' : EngineBook) : Prop :=
  ∃ rs, b'.sink = b.sink ++ rs ∧ ∀ r ∈ rs, r.orderId ∈ ids

section lists
variable {id : OrderId} {rs rs' : List ExecReport} {r : ExecReport} {n : Node} {ns ns' : List Node}

@[simp] theorem reportsOf_append (rs rs' : List ExecReport) (id : OrderId) :
    reportsOf (rs ++ rs') id = reportsOf rs id ++ reportsOf rs' id := List.filter_append ..

theorem mem_reportsOf_iff : r ∈ reportsOf rs id ↔ r ∈ rs ∧ r.orderId = id := by simp [reportsOf]

theorem reportsOf_eq_nil (h : ∀ r ∈ rs, r.orderId ≠ id) : reportsOf rs id = [] :=
  List.filter_eq_nil_iff.mpr fun r hr => by simpa using h r hr

theorem reportsOf_cons (r : ExecReport) (rs : List ExecReport) (id : OrderId) :
    reportsOf (r :: rs) id = if r.orderId = id then r :: reportsOf rs id else reportsOf rs id := by
  unfold reportsOf
  split_ifs with h
  · exact List.filter_cons_of_pos (by simpa using h)
  · exact List.filter_cons_of_neg (by simpa using h)

/-- What the two parties of a fill are reported. -/
theorem reportsOf_fill (taker maker : Node) (px : PriceTicks) (qty : ℕ) (id : OrderId) :
    reportsOf [tradeReport taker px qty, tradeReport maker px qty] id =
      (if taker.ord.orderId = id then [tradeReport taker px qty] else []) ++
        if maker.ord.orderId = id then [tradeReport maker px qty] else [] := by
  by_cases ht : taker.ord.orderId = id <;> by_cases hm : maker.ord.orderId = id <;>
    simp [reportsOf, tradeReport, ht, hm]

@[simp] theorem executed_nil (id : OrderId) : executed [] id = 0 := rfl

@[simp] theorem executed_append (rs rs' : List ExecReport) (id : OrderId) :
    executed (rs ++ rs') id = executed rs id + executed rs' id := by simp [executed]

theorem executed_cons (r : ExecReport) (rs : List ExecReport) (id : OrderId) :
    executed (r :: rs) id =
      (if r.orderId = id ∧ r.execType = .trade then r.lastQty else 0) + executed rs id := by
  unfold executed
  rw [reportsOf_cons]
  by_cases hid : r.orderId = id <;> by_cases ht : r.execType = .trade <;> simp [hid, ht]

theorem restingQty_cons (n : Node) (ns : List Node) (id : OrderId) :
    restingQty (n :: ns) id = (if n.ord.orderId = id then n.leaves else 0) + restingQty ns id := by
  unfold restingQty
  by_cases hid : n.ord.orderId = id <;> simp [hid]

theorem restingQty_perm (h : ns.Perm ns') (id : OrderId) : restingQty ns id = restingQty ns' id :=
  ((h.filter _).map _).sum_eq

theorem restingQty_eq_zero (h : id ∉ ns.map fun n => n.ord.orderId) : restingQty ns id = 0 := by
  have hnil : (ns.filter fun n => n.ord.orderId = id) = [] := by
    rw [List.filter_eq_nil_iff]
    intro n hn hid
    exact h (List.mem_map.mpr ⟨n, hn, by simpa using hid⟩)
  rw [restingQty, hnil, List.map_nil, List.sum_nil]

end lists

/-! ### What is reported -/

section reporting
variable {b b' b'' : EngineBook} {ids ids' : List OrderId} {id : OrderId} {lc : Loc} {o : Order}

theorem Reporting.refl (ids : List OrderId) (b : EngineBook) : Reporting ids b b :=
  ⟨[], (List.append_nil _).symm, by simp⟩

theorem Reporting.of_sink_eq (h : Reporting ids b b') (he : b''.sink = b'.sink) :
    Reporting ids b b'' := by
  obtain ⟨rs, hs, hr⟩ := h
  exact ⟨rs, he.trans hs, hr⟩

theorem Reporting.trans (h : Reporting ids b b') (h' : Reporting ids b' b'') :
    Reporting ids b b'' := by
  obtain ⟨rs, hs, hr⟩ := h
  obtain ⟨rs', hs', hr'⟩ := h'
  refine ⟨rs ++ rs', by rw [hs', hs, List.append_assoc], fun r hm => ?_⟩
  exact (List.mem_append.mp hm).elim (hr r) (hr' r)

theorem Reporting.mono (h : Reporting ids b b') (hsub : ids ⊆ ids') : Reporting ids' b b' := by
  obtain ⟨rs, hs, hr⟩ := h
  exact ⟨rs, hs, fun r hm => hsub (hr r hm)⟩

theorem reporting_publish {er : ExecReport} (h : er.orderId ∈ ids) :
    Reporting ids b (b.publish er) :=
  ⟨[er], rfl, fun _ hr => List.mem_singleton.mp hr ▸ h⟩

theorem published_of_sink {rs : List ExecReport} (h : b'.sink = b.sink ++ rs) :
    published b b' = rs := by rw [published, h, List.drop_left]

theorem Reporting.published (h : Reporting ids b b') : ∀ r ∈ published b b', r.orderId ∈ ids := by
  obtain ⟨rs, hs, hr⟩ := h
  rwa [published_of_sink hs]

theorem reportsOf_publish_self {er : ExecReport} (h : er.orderId = id) :
    reportsOf (b.publish er).sink id = reportsOf b.sink id ++ [er] := by
  rw [sink_publish, reportsOf_append, reportsOf_cons, if_pos h]
  rfl

theorem reportsOf_publish_ne {er : ExecReport} (h : er.orderId ≠ id) :
    reportsOf (b.publish er).sink id = reportsOf b.sink id := by
  rw [sink_publish, reportsOf_append, reportsOf_cons, if_neg h]
  exact List.append_nil _

/-- A fill is reported to the taker and to a resting order. -/
theorem FillStep.reporting {side : Side} {s s' : Matching} (h : FillStep side s s') :
    Reporting (s.taker.ord.orderId :: s.book.restingIds) s.book s'.book := by
  obtain ⟨px, maker, qty, hm, -, ht, hs⟩ := h.sink
  refine ⟨_, hs, fun r hr => ?_⟩
  rcases List.mem_cons.mp hr with rfl | hr
  · rw [ht]
    exact List.mem_cons_self
  · have hmem := mem_restingIds hm
    exact List.mem_singleton.mp hr ▸ List.mem_cons_of_mem _ hmem

theorem reporting_arrive (hne : b.NoEmptyLevel) :
    Reporting (o.orderId :: b.restingIds) b (b.arrive o).book := by
  refine (arrive_invariant (J := fun s => s.book.restingIds ⊆ b.restingIds ∧
    Reporting (o.orderId :: b.restingIds) b s.book) hne
    ⟨List.Subset.refl _, reporting_publish List.mem_cons_self⟩ ?_).2
  rintro s s' ho ⟨hsub, hr⟩ hs
  refine ⟨fun _ hi => hsub (hs.restingIds_subperm.subset hi), hr.trans (hs.reporting.mono ?_)⟩
  rw [ho]
  exact List.cons_subset_cons _ hsub

theorem reporting_onNew (hne : b.NoEmptyLevel) :
    Reporting (o.orderId :: b.restingIds) b (b.onNew o) := by
  have h := reporting_arrive (o := o) hne
  obtain ⟨-, -, he⟩ | ⟨-, he⟩ | ⟨-, -, he⟩ := b.onNew_cases o
  · rw [he]
    exact h.of_sink_eq (sink_enqueue _ _)
  · rw [he]
    exact h.trans (reporting_publish List.mem_cons_self)
  · rwa [he]

theorem sink_eraseAt (h : Sound b) (hl : b.loc.find? id = some lc) :
    (b.eraseAt lc).sink = b.sink := by
  obtain ⟨-, he⟩ | ⟨v, q', -, hr⟩ := h.eraseAt_cases hl
  · rw [he]
  · exact hr.sink

theorem sink_onCancel (h : Sound b) (hl : b.loc.find? id = some lc) :
    (b.onCancel id).sink = b.sink ++ [canceledReport id] := by
  rw [onCancel_of_some hl, sink_publish, sink_eraseLoc, sink_eraseAt h hl]

theorem reportsOf_onCancel {id' : OrderId} (hs : Sound b) (hl : b.loc.find? id = some lc)
    (hne : id ≠ id') : reportsOf (b.onCancel id).sink id' = reportsOf b.sink id' := by
  rw [onCancel_of_some hl, reportsOf_publish_ne hne, sink_eraseLoc, sink_eraseAt hs hl]

/-- **A command reports about the order it submits and about resting orders.** -/
theorem reporting_dispatch {c : OrderCmd} (h : Sound b) (hd : b.dispatch c = some b') :
    Reporting (submits c ++ b.restingIds) b b' := by
  cases c with
  | new o => exact Option.some_inj.mp hd ▸ reporting_onNew h.noEmpty
  | cancel id =>
      obtain rfl := Option.some_inj.mp hd
      cases hl : b.loc.find? id with
      | none => exact (onCancel_of_none hl).symm ▸ Reporting.refl _ b
      | some lc =>
          refine ⟨_, sink_onCancel h hl, fun r hr => ?_⟩
          exact List.mem_singleton.mp hr ▸ h.mem_restingIds hl
  | replace id px qty =>
      obtain ⟨-, rfl⟩ | ⟨lc, n, hl, hn, rfl⟩ := onReplace_cases hd
      · exact Reporting.refl _ _
      · have hmem : n.ord.orderId ∈ b.restingIds := mem_restingIds (List.mem_of_getElem? hn)
        have hnew : Reporting b.restingIds ((b.eraseAt lc).eraseLoc id)
            (((b.eraseAt lc).eraseLoc id).onNew (adjust n px qty).ord) :=
          (reporting_onNew ((h.eraseAt hl).eraseLoc id).noEmpty).mono
            (List.cons_subset.mpr ⟨hmem, (restingIds_eraseAt h hl).subset⟩)
        have herase : Reporting b.restingIds b ((b.eraseAt lc).eraseLoc id) :=
          (Reporting.refl _ b).of_sink_eq (sink_eraseAt h hl)
        exact herase.trans (hnew.trans (reporting_publish hmem))

/-- A run reports about the orders it submits and the orders resting at its start. -/
theorem reporting_run {cmds : List OrderCmd} (h : Sound b) (hr : run dispatch b cmds = some b') :
    Reporting (submitted cmds ++ b.restingIds) b b' := by
  induction cmds using List.reverseRecOn generalizing b' with
  | nil => exact Option.some_inj.mp hr ▸ Reporting.refl _ _
  | append_singleton cmds c ih =>
      obtain ⟨t, ht, hd⟩ := run_concat_eq_some.mp hr
      have hsub := restingIds_run h ht
      rw [submitted_concat]
      refine ((ih ht).mono ?_).trans ((reporting_dispatch (h.run ht) hd).mono ?_)
      · intro i hi
        rw [List.append_assoc, List.mem_append, List.mem_append]
        exact (List.mem_append.mp hi).imp_right .inr
      · intro i hi
        rw [List.append_assoc, List.mem_append, List.mem_append]
        rcases List.mem_append.mp hi with hc | hc
        · exact .inr (.inl hc)
        · exact (List.mem_append.mp (hsub hc)).imp_right .inr

end reporting

/-! ### The account of an order -/

section accounts
variable {b b' : EngineBook} {side : Side} {s s' : Matching} {id : OrderId} {lc : Loc} {o : Order}

/-- A report without quantity does not move an account. -/
theorem account_publish {er : ExecReport} (h : er.execType = .trade → er.lastQty = 0) :
    (b.publish er).account id = b.account id := by
  have hzero : (if er.orderId = id ∧ er.execType = .trade then er.lastQty else 0) = 0 := by
    split_ifs with hc
    · exact h hc.2
    · rfl
  simp [account, executed_cons, hzero]

/-- The account of `id`, together with what `id` has open as the taker. -/
def Matching.total (s : Matching) (id : OrderId) : ℕ :=
  s.book.account id + if s.taker.ord.orderId = id then s.taker.leaves else 0

theorem executed_fill (taker maker : Node) (px : PriceTicks) (qty : ℕ) :
    executed [tradeReport taker px qty, tradeReport maker px qty] id =
      (if taker.ord.orderId = id then qty else 0) + if maker.ord.orderId = id then qty else 0 := by
  simp [executed_cons, tradeReport]

/-- **A fill moves quantity within the account of every order.** -/
theorem FillStep.total (h : FillStep side s s') : s'.total id = s.total id := by
  cases h with
  | @whole px maker rest hb _ _ hle =>
      have hn := restingQty_perm (nodes_fillWhole_perm (queueFor_of_best? hb)) id
      rw [restingQty_cons] at hn
      show executed (s.fillWhole side.opp px maker rest).book.sink id + _ +
        (if s.taker.ord.orderId = id then s.taker.leaves - maker.leaves else 0) =
        executed s.book.sink id + _ + _
      rw [sink_fillWhole, executed_append, executed_fill]
      dsimp only
      split_ifs at hn ⊢ <;> omega
  | @part px maker rest hb _ _ hlt =>
      obtain ⟨ns, h1, h2⟩ := nodes_fillPart_perm (queueFor_of_best? hb)
      have hn := restingQty_perm h1 id
      have hn' := restingQty_perm h2 id
      rw [restingQty_cons] at hn hn'
      show executed (s.fillPart side.opp px maker rest).book.sink id + _ +
        (if s.taker.ord.orderId = id then 0 else 0) = executed s.book.sink id + _ + _
      rw [sink_fillPart, executed_append, executed_fill]
      dsimp only at hn' ⊢
      split_ifs at hn hn' ⊢ <;> omega

theorem total_arrive (hne : b.NoEmptyLevel) (id : OrderId) : (b.arrive o).total id =
    b.account id + if o.orderId = id then o.qty else 0 := by
  refine arrive_invariant (J := fun s => s.total id = b.account id +
    if o.orderId = id then o.qty else 0) hne ?_ fun s s' _ h hs => hs.total.trans h
  rw [Matching.total, account_publish (by simp [newReport])]

/-- `on_new` credits the submitted order with its quantity at most. -/
theorem account_onNew_le (hne : b.NoEmptyLevel) (id : OrderId) : (b.onNew o).account id ≤
    b.account id + if o.orderId = id then o.qty else 0 := by
  have h := total_arrive (o := o) hne id
  unfold Matching.total at h
  obtain ⟨-, -, he⟩ | ⟨h0, he⟩ | ⟨-, -, he⟩ := b.onNew_cases o
  · have hn := restingQty_perm ((b.arrive o).book.nodes_enqueue_perm (b.arrive o).taker) id
    rw [restingQty_cons] at hn
    rw [he, account, sink_enqueue]
    rw [account] at h
    omega
  · rw [he, account_publish fun _ => rfl]
    omega
  · rw [he]
    omega

theorem Removed.account {v : Node} {q' : Queue} (hr : Removed b lc v q' b') (id : OrderId) :
    b.account id = b'.account id + if v.ord.orderId = id then v.leaves else 0 := by
  have hn := restingQty_perm hr.nodes id
  rw [restingQty_cons] at hn
  unfold EngineBook.account
  rw [hr.sink]
  omega

theorem account_eraseAt_le (h : Sound b) {id' : OrderId} (hl : b.loc.find? id' = some lc)
    (id : OrderId) : (b.eraseAt lc).account id ≤ b.account id := by
  obtain ⟨-, he⟩ | ⟨v, q', -, hr⟩ := h.eraseAt_cases hl
  · rw [he]
  · have := hr.account id
    omega

end accounts

/-! ### Runs that submit every id once -/

section runs
variable {cmds : List OrderCmd} {b : EngineBook} {id : OrderId}

/-- What is known of the book after the commands `done`, when they submit every id once. -/
structure Known (done : List OrderCmd) (b : EngineBook) : Prop where
  sound : Sound b
  nodup : b.restingIds.Nodup
  resting : b.restingIds ⊆ submitted done
  reported : ∀ r ∈ b.sink, r.orderId ∈ submitted done

/-- The command submits no id again and replaces nothing. -/
def Plain (done : List OrderCmd) (c : OrderCmd) : Prop :=
  (∀ id ∈ submits c, id ∉ submitted done) ∧ c.isReplace = false

theorem known_states (hids : (submitted cmds).Nodup) :
    States dispatch EngineBook.empty Known cmds := by
  intro pre post he b hb
  refine ⟨sound_run hb, nodup_of_run (he ▸ freshIds_of_nodup hids).left hb,
    restingIds_subset_submitted hb, ?_⟩
  obtain ⟨rs, hs, hr⟩ := reporting_run Sound.empty hb
  intro r hmem
  rw [hs] at hmem
  simpa [show EngineBook.empty.restingIds = [] from rfl] using hr r hmem

theorem plain_along (hids : (submitted cmds).Nodup) (hrep : ∀ c ∈ cmds, c.isReplace = false) :
    Along dispatch EngineBook.empty (fun done _ => Plain done) cmds := by
  intro pre c post he b _
  subst he
  exact ⟨fun id hid hpre => (notMem_submitted hids hpre).1 hid, hrep c (by simp)⟩

/-- Nothing has been reported about an id that has not been submitted. -/
theorem Known.reportsOf_eq_nil {done : List OrderCmd} (h : Known done b)
    (hid : id ∉ submitted done) : reportsOf b.sink id = [] :=
  EngineBook.reportsOf_eq_nil fun r hr he => hid (he ▸ h.reported r hr)

end runs

end EngineBook
end Trading
