import Trading.OrderIndex
import Trading.Reports

/-! # Cancelling an order

`on_cancel` reports that the order is gone, but what it takes out is the order at the remembered
position.  `Cancelled` is what the report promises, over the rest of the run: the order is out of
the book, the others are untouched, and nothing trades under its id any more.  The promise is kept
exactly when the order at the position is the one that the command names (`cancelled_iff`). -/

namespace Trading
namespace EngineBook

open Transition

/-- What the cancellation of `id` promises, from the book `b` before it to the book `b'` after it
and through the commands `later`. -/
structure Cancelled (id : OrderId) (b b' : EngineBook) (later : List OrderCmd) : Prop where
  gone : id ∉ b'.restingIds
  others : ∀ s px, ∀ n ∈ b.queueFor s px, n.ord.orderId ≠ id → n ∈ b'.queueFor s px
  silent : ∀ mid post, later = mid ++ post → ∀ b'', run dispatch b' mid = some b'' →
    ∀ r ∈ published b' b'', r.orderId = id → r.execType ≠ .trade

section step
variable {b : EngineBook} {id : OrderId} {lc : Loc} {later : List OrderCmd}

/-- `on_cancel` reports a cancellation exactly when the id has an index entry. -/
theorem canceled_published_iff (hs : Sound b) :
    canceledReport id ∈ published b (b.onCancel id) ↔ ∃ lc, b.loc.find? id = some lc := by
  constructor
  · intro h
    cases hl : b.loc.find? id with
    | none =>
        rw [onCancel_of_none hl, published, List.drop_length] at h
        cases h
    | some lc => exact ⟨lc, rfl⟩
  · rintro ⟨lc, hl⟩
    rw [published_of_sink (sink_onCancel hs hl)]
    exact List.mem_singleton_self _

/-- **A cancellation keeps its promise if and only if the remembered position holds the order.** -/
theorem cancelled_iff (hs : Sound b) (hnd : b.restingIds.Nodup) (hl : b.loc.find? id = some lc)
    (hlater : id ∉ submitted later) : Cancelled id b (b.onCancel id) later ↔ Named b id := by
  constructor
  · intro h lc' hl'
    obtain rfl := Option.some_inj.mp (hl.symm.trans hl')
    obtain ⟨-, he⟩ | ⟨v, q', hv, -⟩ := hs.eraseAt_cases hl
    · -- past the end of the queue nothing is taken out
      have hgone := h.gone
      rw [restingIds_onCancel_of_some hl, he] at hgone
      exact absurd (hs.mem_restingIds hl) hgone
    · refine ⟨v, hv, ?_⟩
      by_contra hid
      have hmem := h.others lc.side lc.px v (List.mem_of_getElem? hv) hid
      rw [queueFor_onCancel hl] at hmem
      exact notMem_restingIds_eraseAt hnd hv (mem_restingIds hmem)
  · intro h
    obtain ⟨v, hv, hid⟩ := h lc hl
    have hgone : id ∉ (b.onCancel id).restingIds := by
      rw [restingIds_onCancel_of_some hl, ← hid]
      exact notMem_restingIds_eraseAt hnd hv
    refine ⟨hgone, fun s px n hn hne => ?_, fun mid post he b'' hr r hrep hrid => ?_⟩
    · obtain ⟨q', hr⟩ := removed_eraseAt hv
      rw [queueFor_onCancel hl]
      refine hr.mem_of_ne hn ?_
      rintro rfl
      exact hne hid
    · -- the id is neither resting nor submitted again, so nothing at all is reported about it
      have hmid : id ∉ submitted mid := by
        rw [he, submitted, List.flatMap_append, List.mem_append, not_or] at hlater
        exact hlater.1
      have hmem := (reporting_run (hs.onCancel id) hr).published r hrep
      rw [hrid] at hmem
      exact absurd hmem (by simp [hmid, hgone])

end step

/-- **Every reported cancellation keeps its promise, exactly** in the runs in which every cancel of
an order with an index entry finds that order at the remembered position. -/
theorem cancelled_run_iff {cmds : List OrderCmd} (hids : (submitted cmds).Nodup) :
    (∀ pre id post, cmds = pre ++ .cancel id :: post →
      ∀ b, run dispatch EngineBook.empty pre = some b →
        canceledReport id ∈ published b (b.onCancel id) → Cancelled id b (b.onCancel id) post) ↔
    Along dispatch EngineBook.empty (fun _ b c => ∀ id, c = .cancel id → Named b id) cmds := by
  have hf := freshIds_of_nodup hids
  -- an order that rests before the cancel is not submitted after it
  have hkey : ∀ pre id post, cmds = pre ++ .cancel id :: post →
      ∀ b, run dispatch EngineBook.empty pre = some b → ∀ lc, b.loc.find? id = some lc →
        (Cancelled id b (b.onCancel id) post ↔ Named b id) := by
    intro pre id post he b hb lc hl
    subst he
    have hs := sound_run hb
    have hpre := restingIds_subset_submitted hb (hs.mem_restingIds hl)
    exact cancelled_iff hs (nodup_of_run hf.left hb) hl (notMem_submitted hids hpre).2
  constructor
  · rintro h pre _ post he b hb id rfl lc hl
    have hp := (canceled_published_iff (sound_run hb)).mpr ⟨lc, hl⟩
    exact (hkey pre id post he b hb lc hl).mp (h pre id post he b hb hp) lc hl
  · intro h pre id post he b hb hp
    obtain ⟨lc, hl⟩ := (canceled_published_iff (sound_run hb)).mp hp
    exact (hkey pre id post he b hb lc hl).mpr (h pre _ post he b hb id rfl)

/-- A run in which the position of the cancelled order is up to date. -/
theorem cancelled_run_iff_back :
    let cmds : List OrderCmd :=
      [.new { orderId := 1, side := .ask, price := 100, qty := 5 },
        .new { orderId := 2, side := .ask, price := 100, qty := 5 },
        .new { orderId := 3, side := .bid, price := 100, qty := 2 }, .cancel 2,
        .new { orderId := 4, side := .bid, price := 100, qty := 8 }]
    (∀ pre id post, cmds = pre ++ .cancel id :: post →
      ∀ b, run dispatch EngineBook.empty pre = some b →
        canceledReport id ∈ published b (b.onCancel id) → Cancelled id b (b.onCancel id) post) ↔
    Along dispatch EngineBook.empty (fun _ b c => ∀ id, c = .cancel id → Named b id) cmds :=
  cancelled_run_iff (by decide)

/-- Three asks on a level of which a bid takes the first: the cancel of the second takes out the
third, and the second trades afterwards. -/
theorem cancelled_wrong_order :
    ¬ ∀ pre id post, [.new { orderId := 1, side := .ask, price := 100, qty := 1 },
        .new { orderId := 2, side := .ask, price := 100, qty := 1 },
        .new { orderId := 3, side := .ask, price := 100, qty := 1 },
        .new { orderId := 4, side := .bid, price := 100, qty := 1 }, .cancel 2,
        .new { orderId := 5, side := .bid, price := 100, qty := 1 }] = pre ++ .cancel id :: post →
      ∀ b, run dispatch EngineBook.empty pre = some b →
        canceledReport id ∈ published b (b.onCancel id) →
          Cancelled id b (b.onCancel id) post := by
  intro h
  have hc := h [.new { orderId := 1, side := .ask, price := 100, qty := 1 },
    .new { orderId := 2, side := .ask, price := 100, qty := 1 },
    .new { orderId := 3, side := .ask, price := 100, qty := 1 },
    .new { orderId := 4, side := .bid, price := 100, qty := 1 }] 2
    [.new { orderId := 5, side := .bid, price := 100, qty := 1 }] rfl _ rfl (by decide)
  exact absurd hc.gone (by decide)

end EngineBook
end Trading
