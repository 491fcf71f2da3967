import Trading.OrderIndex
import Trading.Reports

/-! # Replacing an order

`on_replace` hands the order it has pulled out to `on_new`, which enters matching with the whole of
the new quantity; the open quantity that `on_replace` has computed is used for its own report only.
So what the order has executed before is open once more.  `Reentered` is what a replace owes: the
new quantity less the executed one re-enters, and executed and resting quantity together stay
within the new quantity up to the next replace. -/

namespace Trading
namespace EngineBook

open Transition

/-- What a replace of `id` to the quantity `qty` owes, from the book `b` before it to the book `b'`
after it and through the commands `later`.  The first report of a replace is the one that `on_new`
opens with; its `leaves_qty` is the open quantity that enters matching. -/
structure Reentered (id : OrderId) (qty : ℕ) (b b' : EngineBook) (later : List OrderCmd) :
    Prop where
  openQty : ∃ r, (published b b').head? = some r ∧ r.execType = .new ∧ r.orderId = id ∧
    r.leavesQty = qty - executed b.sink id
  bound : ∀ mid post, later = mid ++ post → (∀ px q, .replace id px q ∉ mid) →
    ∀ b'', run dispatch b' mid = some b'' →
      executed b''.sink id + restingQty b''.nodes id ≤ max (executed b.sink id) qty

/-- A replace of a resting order finds that order, and the order has executed nothing or is to have
no quantity. -/
def ReplacesUnfilled (b : EngineBook) (c : OrderCmd) : Prop :=
  ∀ id px qty, c = .replace id px qty → id ∈ b.restingIds →
    b.loc.find? id ≠ none ∧ Named b id ∧ (executed b.sink id = 0 ∨ qty = 0)

section step
variable {b b' : EngineBook} {id id' : OrderId} {lc : Loc} {o : Order} {n : Node} {px : PriceTicks}
  {qty : ℕ} {c : OrderCmd}

/-- The first report of `on_new` tells the quantity of the order. -/
theorem exists_sink_onNew (hne : b.NoEmptyLevel) :
    ∃ rs, (b.onNew o).sink = b.sink ++ newReport ⟨o, o.qty⟩ :: rs := by
  have ha : ∃ rs, (b.arrive o).book.sink = b.sink ++ newReport ⟨o, o.qty⟩ :: rs := by
    refine arrive_invariant (J := fun s => ∃ rs, s.book.sink = b.sink ++
      newReport ⟨o, o.qty⟩ :: rs) hne ⟨[], rfl⟩ ?_
    rintro s s' - ⟨rs, h⟩ hs
    obtain ⟨rs', h', -⟩ := hs.reporting
    exact ⟨rs ++ rs', by rw [h', h, List.append_assoc, List.cons_append]⟩
  obtain ⟨rs, h⟩ := ha
  rw [sink_onNew, h]
  exact ⟨rs ++ _, by rw [List.append_assoc, List.cons_append]⟩

theorem onReplace_of_some (hl : b.loc.find? id = some lc)
    (hn : (b.queueFor lc.side lc.px)[lc.idx]? = some n) : b.onReplace id px qty =
      some ((((b.eraseAt lc).eraseLoc id).onNew (adjust n px qty).ord).publish
        (replacedReport (adjust n px qty))) := by
  simp [onReplace, hl, hn]

/-- A replace opens with the whole new quantity of the order it finds. -/
theorem head?_onReplace (hs : Sound b) (hl : b.loc.find? id = some lc)
    (hn : (b.queueFor lc.side lc.px)[lc.idx]? = some n) (hr : b.onReplace id px qty = some b') :
    (published b b').head? = some (newReport ⟨(adjust n px qty).ord, qty⟩) := by
  obtain rfl := Option.some_inj.mp ((onReplace_of_some hl hn).symm.trans hr)
  obtain ⟨rs, h⟩ := exists_sink_onNew (o := (adjust n px qty).ord) ((hs.eraseAt hl).eraseLoc id).noEmpty
  rw [sink_eraseLoc, sink_eraseAt hs hl] at h
  have hsink : ((((b.eraseAt lc).eraseLoc id).onNew (adjust n px qty).ord).publish
      (replacedReport (adjust n px qty))).sink =
      b.sink ++ newReport ⟨(adjust n px qty).ord, qty⟩ :: (rs ++ [replacedReport (adjust n px qty)]) := by
    rw [sink_publish, h, List.append_assoc]
    rfl
  rw [published_of_sink hsink, List.head?_cons]

/-- A replaced order is taken out with all it has resting. -/
theorem executed_eraseAt (hs : Sound b) (hnd : b.restingIds.Nodup) (hl : b.loc.find? id = some lc)
    (hn : (b.queueFor lc.side lc.px)[lc.idx]? = some n) :
    (b.eraseAt lc).account n.ord.orderId = executed b.sink n.ord.orderId := by
  rw [account, sink_eraseAt hs hl, restingQty_eq_zero (notMem_restingIds_eraseAt hnd hn),
    Nat.add_zero]

/-- A replace credits the order that it finds with the new quantity, and no other order. -/
theorem account_onReplace_le (hs : Sound b) (hl : b.loc.find? id = some lc)
    (hn : (b.queueFor lc.side lc.px)[lc.idx]? = some n) (hr : b.onReplace id px qty = some b')
    (id' : OrderId) :
    b'.account id' ≤ (b.eraseAt lc).account id' + if n.ord.orderId = id' then qty else 0 := by
  obtain rfl := Option.some_inj.mp ((onReplace_of_some hl hn).symm.trans hr)
  rw [account_publish (by simp [replacedReport])]
  exact account_onNew_le ((hs.eraseAt hl).eraseLoc id).noEmpty id'

/-- The account of an order does not grow by the other commands, as long as every replace finds the
order it names. -/
theorem account_dispatch_le (hs : Sound b) (hc : ReplacesUnfilled b c) (hsub : id ∉ submits c)
    (hrep : ∀ px q, c ≠ .replace id px q) (hd : b.dispatch c = some b') :
    b'.account id ≤ b.account id := by
  cases c with
  | new o =>
      obtain rfl := Option.some_inj.mp hd
      have hne : o.orderId ≠ id := fun he => hsub (he ▸ List.mem_cons_self)
      have h := account_onNew_le (o := o) hs.noEmpty id
      rwa [if_neg hne, Nat.add_zero] at h
  | cancel id' =>
      obtain rfl := Option.some_inj.mp hd
      cases hl : b.loc.find? id' with
      | none => rw [onCancel_of_none hl]
      | some lc =>
          rw [onCancel_of_some hl, account_publish (by simp [canceledReport])]
          exact account_eraseAt_le hs hl id
  | replace id' px qty =>
      obtain ⟨-, rfl⟩ | ⟨lc, n, hl, hn, -⟩ := onReplace_cases hd
      · exact le_rfl
      · obtain ⟨-, hnamed, -⟩ := hc id' px qty rfl (hs.mem_restingIds hl)
        obtain ⟨n', hn', hid'⟩ := hnamed lc hl
        obtain rfl := Option.some_inj.mp (hn.symm.trans hn')
        have hne : n.ord.orderId ≠ id := by
          rw [hid']
          rintro rfl
          exact hrep px qty rfl
        have h := account_onReplace_le hs hl hn hd id
        rw [if_neg hne, Nat.add_zero] at h
        exact h.trans (account_eraseAt_le hs hl id)

/-- What a replace must find to re-enter the right quantity. -/
theorem openQty_iff (hs : Sound b) (hid : id ∈ b.restingIds) :
    (∃ b', b.onReplace id px qty = some b' ∧ ∃ r, (published b b').head? = some r ∧
      r.execType = .new ∧ r.orderId = id ∧ r.leavesQty = qty - executed b.sink id) ↔
    b.loc.find? id ≠ none ∧ Named b id ∧ (executed b.sink id = 0 ∨ qty = 0) := by
  constructor
  · rintro ⟨b', hr, r, hhead, -, hrid, hleaves⟩
    obtain ⟨hnone, rfl⟩ | ⟨lc, n, hl, hn, -⟩ := onReplace_cases hr
    · rw [published, List.drop_length] at hhead
      cases hhead
    · have hr' := Option.some_inj.mp (hhead.symm.trans (head?_onReplace hs hl hn hr))
      rw [hr'] at hrid hleaves
      refine ⟨by simp [hl], fun lc' hl' => ?_, ?_⟩
      · obtain rfl := Option.some_inj.mp (hl.symm.trans hl')
        exact ⟨n, hn, hrid⟩
      · have hq : qty = qty - executed b.sink id := hleaves
        omega
  · rintro ⟨hsome, hnamed, hzero⟩
    obtain ⟨lc, hl⟩ := Option.ne_none_iff_exists'.mp hsome
    obtain ⟨n, hn, hnid⟩ := hnamed lc hl
    refine ⟨_, onReplace_of_some hl hn, _, head?_onReplace hs hl hn (onReplace_of_some hl hn), rfl,
      hnid, ?_⟩
    show qty = qty - executed b.sink id
    omega

end step

/-! ### Runs -/

section runs
variable {b b' : EngineBook} {id : OrderId} {cmds : List OrderCmd}

theorem account_run_le (hs : Sound b) (hG : Along dispatch b (fun _ => ReplacesUnfilled) cmds)
    (hsub : id ∉ submitted cmds) (hrep : ∀ px q, .replace id px q ∉ cmds)
    (hr : run dispatch b cmds = some b') : b'.account id ≤ b.account id := by
  have halong : Along dispatch b (fun _ t c => ReplacesUnfilled t c ∧ id ∉ submits c ∧
      ∀ px q, c ≠ .replace id px q) cmds := by
    intro pre c post he t ht
    refine ⟨hG pre c post he t ht, fun hc => hsub ?_, fun px q hc => hrep px q ?_⟩
    · exact List.mem_flatMap.mpr ⟨c, by simp [he], hc⟩
    · simp [he, hc]
  refine (run_invariant (P := fun _ t => Sound t ∧ t.account id ≤ b.account id) ⟨hs, le_rfl⟩ ?_
    halong hr).2
  rintro - t c t' ⟨ht, hle⟩ ⟨hc, hsub, hrep⟩ hd
  exact ⟨ht.dispatch hd, (account_dispatch_le ht hc hsub hrep hd).trans hle⟩

/-- **Every replace of a resting order re-enters its open quantity and never over-executes,
exactly** in the runs in which every replace of a resting order finds it, and finds it unfilled or
asks for no quantity. -/
theorem reentered_run_iff (hids : (submitted cmds).Nodup) :
    (∀ pre id px qty post, cmds = pre ++ .replace id px qty :: post →
      ∀ b, run dispatch EngineBook.empty pre = some b → id ∈ b.restingIds →
        ∃ b', b.onReplace id px qty = some b' ∧ Reentered id qty b b' post) ↔
    Along dispatch EngineBook.empty (fun _ => ReplacesUnfilled) cmds := by
  have hf := freshIds_of_nodup hids
  constructor
  · rintro h pre _ post he b hb id px qty rfl hid
    obtain ⟨b', hr, hre⟩ := h pre id px qty post he b hb hid
    exact (openQty_iff (sound_run hb) hid).mp ⟨b', hr, hre.openQty⟩
  · intro hG pre id px qty post he b hb hid
    subst he
    have hs := sound_run hb
    have hcond := hG pre _ post rfl b hb id px qty rfl hid
    obtain ⟨b', hr, hopen⟩ := (openQty_iff hs hid).mpr hcond
    refine ⟨b', hr, hopen, fun mid post' hpost hrep b'' hr' => ?_⟩
    obtain ⟨hsome, hnamed, hzero⟩ := hcond
    obtain ⟨lc, hl⟩ := Option.ne_none_iff_exists'.mp hsome
    obtain ⟨n, hn, rfl⟩ := hnamed lc hl
    -- right after the replace
    have hafter := account_onReplace_le hs hl hn hr n.ord.orderId
    rw [if_pos rfl, executed_eraseAt hs (nodup_of_run hf.left hb) hl hn] at hafter
    -- and up to the next one
    have hsub : n.ord.orderId ∉ submitted mid := fun hmid => by
      refine (notMem_submitted hids (restingIds_subset_submitted hb hid)).2 ?_
      rw [hpost, submitted, List.flatMap_append]
      exact List.mem_append_left _ hmid
    have hmid : Along dispatch b' (fun _ => ReplacesUnfilled) mid := by
      have hrun : run dispatch EngineBook.empty (pre ++ [.replace n.ord.orderId px qty]) = some b' :=
        run_concat_eq_some.mpr ⟨b, hb, hr⟩
      rw [hpost, List.append_cons] at hG
      exact (hG.right hrun).left
    have hle : b''.account n.ord.orderId ≤ b'.account n.ord.orderId :=
      account_run_le (hs.onReplace hr) hmid hsub hrep hr'
    refine hle.trans (hafter.trans ?_)
    rcases hzero with h0 | h0
    · rw [h0, Nat.zero_add]
      exact le_max_right _ _
    · rw [h0, Nat.add_zero]
      exact le_max_left _ _

/-- An order that is replaced twice before it trades. -/
theorem reentered_run_iff_unfilled :
    let cmds : List OrderCmd :=
      [.new { orderId := 1, side := .ask, price := 100, qty := 10 }, .replace 1 101 6,
        .replace 1 kNoPrice 8, .new { orderId := 2, side := .bid, price := 101, qty := 4 }]
    (∀ pre id px qty post, cmds = pre ++ .replace id px qty :: post →
      ∀ b, run dispatch EngineBook.empty pre = some b → id ∈ b.restingIds →
        ∃ b', b.onReplace id px qty = some b' ∧ Reentered id qty b b' post) ↔
    Along dispatch EngineBook.empty (fun _ => ReplacesUnfilled) cmds :=
  reentered_run_iff (by decide)

/-- An ask of 10 that has traded 4 is replaced with its own quantity: all 10 are open again. -/
theorem reentered_filled :
    ¬ ∀ pre id px qty post, [.new { orderId := 1, side := .ask, price := 100, qty := 10 },
        .new { orderId := 2, side := .bid, price := 100, qty := 4 }, .replace 1 100 10] =
          pre ++ .replace id px qty :: post →
      ∀ b, run dispatch EngineBook.empty pre = some b → id ∈ b.restingIds →
        ∃ b', b.onReplace id px qty = some b' ∧ Reentered id qty b b' post := by
  intro h
  obtain ⟨b', hr, hre⟩ := h [.new { orderId := 1, side := .ask, price := 100, qty := 10 },
    .new { orderId := 2, side := .bid, price := 100, qty := 4 }] 1 100 10 [] rfl _ rfl (by decide)
  obtain rfl := Option.some_inj.mp hr
  exact absurd (hre.bound [] [] rfl (by simp) _ rfl) (by decide)

end runs

end EngineBook
end Trading
