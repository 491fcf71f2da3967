import Trading.Consumers
import Trading.WireBytes

/-! # Joining late

`md_replay` and `md_record` subscribe to the deltas of a feed that is already running.  Neither asks
for a snapshot and neither looks at a sequence number, so the subscription is taken to lose nothing
from the moment of joining; what is lost before or after that moment they cannot tell.

* `md_replay` starts from an empty `OrderBook` and applies what it reads.  Its printing is left out.
* `md_record` appends the payload of each message to a file, with no header, and may be killed in
  the middle of a write.
* The clock of a header is an input, by sequence number.

`Joined` is what a late joiner has: levels of the simulator's book only, all of them as soon as every
level that stood when it joined has been changed, and a file that holds the same deltas. -/

namespace Trading

open Packed (Layout)
open Replication (Change replay Within replay_eq_iff)

/-- A delta, with its sequence number. -/
def MDEvent.delta? : MDEvent → Option (ℕ × L2DeltaPayload)
  | .l2Delta n d => some (n, d)
  | .l1 .. => none

/-- The messages on the topic of the deltas. -/
def deltas (evs : List MDEvent) : List (ℕ × L2DeltaPayload) := evs.filterMap MDEvent.delta?

/-! ### `md_replay` -/

/-- The book of `md_replay`, and the number of deltas it has applied. -/
structure Replay where
  book : OrderBook
  applied : ℕ
deriving DecidableEq

namespace Replay

def start : Replay := ⟨.empty, 0⟩

def receive (r : Replay) (d : L2DeltaPayload) : Replay := ⟨r.book.replayDelta d, r.applied + 1⟩

/-- One round of the loop, from the header and payload frames; `none` if it throws. -/
def receiveBytes (r : Replay) (h p : Bytes) : Option Replay :=
  (mdHeader.read? h).bind fun head =>
    if head.kind ≠ StreamKind.l2Delta.toByte then some r
    else (L2DeltaPayload.ofBytes? p).map r.receive

/-- The loop, on the messages as they are sent. -/
def run (time : ℕ → Int64) (r : Replay) (ds : List (ℕ × L2DeltaPayload)) : Option Replay :=
  ds.foldlM (fun r x =>
    let frames := (MDEvent.l2Delta x.1 x.2).bytes (time x.1)
    r.receiveBytes frames.1 frames.2) r

variable {r : Replay} {n : ℕ} {d : L2DeltaPayload} {ds : List L2DeltaPayload}

/-- A delta that the simulator sends is applied as it says. -/
theorem table_receive (hd : d.Sent) : (r.receive d).book.table = d.change.apply r.book.table := by
  obtain ⟨⟨s, hs⟩, hd⟩ := hd
  have hkey : d.key = d.change.key := by
    show ((sideOf d.side).toByte, d.price) = (d.side, d.price)
    rw [hs, sideOf_toByte]
  show (r.book.replayDelta d).table = _
  rw [OrderBook.table_replayDelta, Change.apply_eq_iff hkey]
  unfold L2DeltaPayload.change L2DeltaPayload.level
  dsimp only
  obtain ⟨ha, -⟩ | ⟨ha, hq, hc⟩ := hd
  · rw [if_pos ha, if_neg (by rw [ha]; decide)]
  · rw [if_pos ha, if_neg (by omega), if_neg (by rw [ha]; decide)]

theorem table_foldl (hsent : ∀ d ∈ ds, d.Sent) :
    (ds.foldl receive r).book.table = replay (ds.map L2DeltaPayload.change) r.book.table := by
  induction ds generalizing r with
  | nil => rfl
  | cons d ds ih =>
      rw [List.foldl_cons, ih fun d hd => hsent d (List.mem_cons_of_mem _ hd),
        table_receive (hsent d List.mem_cons_self)]
      rfl

theorem applied_foldl : (ds.foldl receive r).applied = r.applied + ds.length := by
  induction ds generalizing r with
  | nil => rfl
  | cons d ds ih =>
      rw [List.foldl_cons, ih, List.length_cons]
      show r.applied + 1 + ds.length = _
      omega

theorem receiveBytes_bytes (hn : n < 2 ^ 64) (hd : d.Fits) (time : Int64) :
    r.receiveBytes ((MDEvent.l2Delta n d).bytes time).1 ((MDEvent.l2Delta n d).bytes time).2 =
      some (r.receive d) := by
  obtain ⟨head, hread, hkind, -⟩ := read?_header_append hn .l2Delta time []
  rw [List.append_nil] at hread
  have hpay := L2DeltaPayload.ofBytes?_bytes_append hd []
  rw [List.append_nil] at hpay
  unfold receiveBytes MDEvent.bytes
  dsimp only
  rw [hread, Option.bind_some, hkind, if_neg (not_not.mpr rfl), hpay, Option.map_some]

/-- The loop reads what has been sent. -/
theorem run_eq (time : ℕ → Int64) {ds : List (ℕ × L2DeltaPayload)}
    (hfits : ∀ x ∈ ds, x.1 < 2 ^ 64 ∧ x.2.Fits) :
    run time r ds = some ((ds.map Prod.snd).foldl receive r) := by
  unfold run
  induction ds generalizing r with
  | nil => rfl
  | cons x ds ih =>
      obtain ⟨hn, hd⟩ := hfits x List.mem_cons_self
      rw [List.foldlM_cons]
      dsimp only
      rw [receiveBytes_bytes hn hd]
      exact ih fun y hy => hfits y (List.mem_cons_of_mem _ hy)

end Replay

/-! ### `md_record` -/

/-- The file of `md_record`, on the messages as they are sent. -/
def record (time : ℕ → Int64) (file : Bytes) (ds : List (ℕ × L2DeltaPayload)) : Bytes :=
  ds.foldl (fun file x => file ++ ((MDEvent.l2Delta x.1 x.2).bytes (time x.1)).2) file

theorem record_eq (time : ℕ → Int64) (file : Bytes) (ds : List (ℕ × L2DeltaPayload)) :
    record time file ds = file ++ (ds.map Prod.snd).flatMap L2DeltaPayload.bytes := by
  unfold record
  induction ds generalizing file with
  | nil => exact (List.append_nil _).symm
  | cons x ds ih =>
      rw [List.foldl_cons, ih, List.map_cons, List.flatMap_cons, List.append_assoc]
      rfl

namespace L2DeltaPayload

/-- The payloads in a file. -/
def arrayOf (file : Bytes) : List L2DeltaPayload :=
  (l2DeltaPayload.rows file).map fun (action, side, price, qty, oc) =>
    ⟨action, side, price, qty.toNat, oc.toNat⟩

/-- A file of payloads that ends anywhere holds those that are whole. -/
theorem arrayOf_take {ds : List L2DeltaPayload} (hfits : ∀ d ∈ ds, d.Fits) (m : ℕ) :
    arrayOf ((ds.flatMap bytes).take m) = ds.take (m / 22) := by
  have hput : ds.flatMap bytes = (ds.map fun d => (d.action, d.side, d.price,
      UInt64.ofNat d.aggQty, UInt32.ofNat d.orderCount)).flatMap l2DeltaPayload.put := by
    rw [List.flatMap_map]
    rfl
  unfold arrayOf
  rw [hput, Layout.rows_take _ (by decide), ← List.map_take, List.map_map]
  conv_rhs => rw [← List.map_id (ds.take _)]
  refine List.map_congr_left fun d hd => ?_
  obtain ⟨hq, hc⟩ := hfits d (List.mem_of_mem_take hd)
  show (⟨d.action, d.side, d.price, _, _⟩ : L2DeltaPayload) = d
  rw [UInt64.toNat_ofNat_of_lt' hq, UInt32.toNat_ofNat_of_lt' hc]

end L2DeltaPayload

/-! ### Both, joining a run -/

/-- What `md_replay` has in `r` and `md_record` in `file`, if they have joined at `s₀` and the
simulator is at `s`, the deltas between being `ds`. -/
structure Joined (s₀ s : Sim) (ds : List L2DeltaPayload) (r : Replay) (file : Bytes) : Prop where
  applied : s₀.book.seqno + r.applied = s.book.seqno
  /-- Every level that is shown is one of the simulator's. -/
  within : Within r.book.table s.book.table
  /-- The book is complete when every level that stood at the start has been changed. -/
  complete : r.book.table = s.book.table ↔
    ∀ k, s₀.book.table k ≠ none → k ∈ ds.map fun d => d.change.key
  bid : ∀ e, r.book.bids.first? = some e → ∃ e', s.book.bids.first? = some e' ∧ e.1 ≤ e'.1
  ask : ∀ e, r.book.asks.first? = some e → ∃ e', s.book.asks.first? = some e' ∧ e'.1 ≤ e.1
  /-- A file that ends anywhere holds the deltas that are whole. -/
  recorded : ∀ m, L2DeltaPayload.arrayOf (file.take m) = ds.take (m / 22)
  /-- The whole file holds what the book has been made of. -/
  replayed : (L2DeltaPayload.arrayOf file).foldl Replay.receive .start = r

theorem map_change_deltas (evs : List MDEvent) :
    ((deltas evs).map Prod.snd).map L2DeltaPayload.change = evs.filterMap MDEvent.change? := by
  unfold deltas
  rw [List.map_filterMap, List.map_filterMap]
  congr 1
  funext ev
  cases ev with
  | l1 | l2Delta => rfl

/-- The best price of a book that has levels of another only is no better. -/
theorem first?_le_of_within {b : OrderBook} {b' : Book} (h : Within b.table b'.table) :
    (∀ e, b.bids.first? = some e → ∃ e', b'.bids.first? = some e' ∧ e.1 ≤ e'.1) ∧
    ∀ e, b.asks.first? = some e → ∃ e', b'.asks.first? = some e' ∧ e'.1 ≤ e.1 := by
  have hlevel : ∀ s px l, b.level? s px = some l → ∃ l', b'.level? s px = some l' := by
    intro s px l hl
    have hk := h (s.toByte, px) l.pair (by rw [OrderBook.table, twoSided_toByte, hl]; rfl)
    rw [Book.table_toByte, Option.map_eq_some_iff] at hk
    exact hk.imp fun _ h => h.1
  constructor
  · intro e he
    obtain ⟨hnone, -⟩ | ⟨x, hx, hfind, -⟩ := b.bids.first?_cases
    · cases hnone.symm.trans he
    obtain rfl := Option.some_inj.mp (hx.symm.trans he)
    obtain ⟨l', hl'⟩ := hlevel .bid x.1 x.2 hfind
    obtain ⟨-, hnone⟩ | ⟨e', he', -, hbest⟩ := b'.bids.first?_cases
    · cases (hnone x.1).symm.trans hl'
    exact ⟨e', he', (hbest x.1 l' hl').elim (fun h => h.le) fun h => h.le⟩
  · intro e he
    obtain ⟨hnone, -⟩ | ⟨x, hx, hfind, -⟩ := b.asks.first?_cases
    · cases hnone.symm.trans he
    obtain rfl := Option.some_inj.mp (hx.symm.trans he)
    obtain ⟨l', hl'⟩ := hlevel .ask x.1 x.2 hfind
    obtain ⟨-, hnone⟩ | ⟨e', he', -, hbest⟩ := b'.asks.first?_cases
    · cases (hnone x.1).symm.trans hl'
    exact ⟨e', he', (hbest x.1 l' hl').elim (fun h => h.ge) fun h => h.le⟩

namespace Sim

/-- Every delta has a sequence number of its own. -/
theorem seqno_step (s : Sim) (a : Action) : ∃ evs, (s.step a).sent = s.sent ++ evs ∧
    (s.step a).book.seqno = s.book.seqno + (deltas evs).length := by
  have hm := moves_step s a
  generalize s.step a = s' at hm ⊢
  cases hm with
  | edit => exact ⟨_, rfl, Book.seqno_upsertLevel ..⟩
  | repair => exact ⟨_, rfl, Book.seqno_upsertLevel ..⟩
  | top => exact ⟨_, rfl, rfl⟩
  | sound | sameTop => exact ⟨[], (List.append_nil _).symm, rfl⟩

theorem seqno_run (acts : List Action) (s : Sim) : ∃ evs,
    (acts.foldl Sim.step s).sent = s.sent ++ evs ∧
      (acts.foldl Sim.step s).book.seqno = s.book.seqno + (deltas evs).length := by
  induction acts generalizing s with
  | nil => exact ⟨[], (List.append_nil _).symm, rfl⟩
  | cons a acts ih =>
      obtain ⟨evs, hsent, hseq⟩ := seqno_step s a
      obtain ⟨evs', hsent', hseq'⟩ := ih (s.step a)
      refine ⟨evs ++ evs', ?_, ?_⟩
      · rw [List.foldl_cons, hsent', hsent, List.append_assoc]
      · unfold deltas at hseq hseq' ⊢
        rw [List.foldl_cons, hseq', hseq, List.filterMap_append, List.length_append,
          Nat.add_assoc]

/-- What every run keeps, and how far its sequence numbers get. -/
theorem sane_run (tick mid : PriceTicks) (acts : List Action) :
    (acts.foldl Sim.step (start tick mid)).Ok ∧ (acts.foldl Sim.step (start tick mid)).Small ∧
      (acts.foldl Sim.step (start tick mid)).book.seqno ≤ 20 + acts.length := by
  induction acts using List.reverseRecOn with
  | nil =>
      rw [List.foldl_nil, seqno_start]
      exact ⟨ok_start tick mid, small_start tick mid, Nat.le_add_right 20 _⟩
  | append_singleton acts a ih =>
      obtain ⟨hok, hsmall, hseq⟩ := ih
      rw [List.foldl_append, List.length_append, List.length_singleton]
      have hstep := hsmall.step a
      exact ⟨hok.step a, hstep.1, hstep.2.trans (by omega)⟩

/-- The deltas since some moment of a run are as the simulator sends them, fit their fields and tell
the change of the book. -/
theorem told_since (tick mid : PriceTicks) (acts more : List Action)
    (hlen : acts.length + more.length + 20 < 2 ^ 64) :
    let s₀ := acts.foldl Sim.step (start tick mid)
    let s := more.foldl Sim.step s₀
    let ds := deltas (s.sent.drop s₀.sent.length)
    (∀ x ∈ ds, (x.1 < 2 ^ 64 ∧ x.2.Fits) ∧ x.2.Sent) ∧
    s.book.seqno = s₀.book.seqno + ds.length ∧
    s.book.table = replay ((ds.map Prod.snd).map L2DeltaPayload.change) s₀.book.table := by
  intro s₀ s ds
  obtain ⟨hok, hsmall, hseq⟩ : s.Ok ∧ s.Small ∧ s.book.seqno ≤ 20 + (acts ++ more).length := by
    have h := sane_run tick mid (acts ++ more)
    rwa [List.foldl_append] at h
  rw [List.length_append] at hseq
  obtain ⟨evs, hsent, htable⟩ := sent_run more s₀
  obtain ⟨evs', hsent', hcount⟩ := seqno_run more s₀
  obtain rfl : evs' = evs := List.append_cancel_left (hsent'.symm.trans hsent)
  have hsent : s.sent = s₀.sent ++ evs' := hsent
  have hds : ds = deltas evs' := by
    show deltas (s.sent.drop _) = _
    rw [hsent, List.drop_left]
  refine ⟨fun x hx => ?_, hds ▸ hcount, ?_⟩
  · rw [hds] at hx
    obtain ⟨ev, hev, hx⟩ := List.mem_filterMap.mp hx
    have hmem : ev ∈ s.sent := hsent ▸ List.mem_append_right _ hev
    cases ev with
    | l1 => cases hx
    | l2Delta n d =>
        obtain rfl := Option.some_inj.mp hx
        exact ⟨(hsmall.sent _ hmem).fits (by omega), (hok.deltas n d hmem).1⟩
  · rw [hds, map_change_deltas]
    exact htable

end Sim

/-- A joiner that is told the change of the book. -/
theorem joined_of_told {s₀ s : Sim} {ds : List L2DeltaPayload}
    (hds : ∀ d ∈ ds, d.Fits ∧ d.Sent) (hseq : s.book.seqno = s₀.book.seqno + ds.length)
    (htable : s.book.table = replay (ds.map L2DeltaPayload.change) s₀.book.table) :
    Joined s₀ s ds (ds.foldl Replay.receive .start) (ds.flatMap L2DeltaPayload.bytes) := by
  have hempty : Replay.start.book.table = fun _ => none := OrderBook.table_empty
  have hbook := Replay.table_foldl (r := .start) fun d hd => (hds d hd).2
  rw [hempty] at hbook
  have hwithin : Within (ds.foldl Replay.receive .start).book.table s.book.table := by
    rw [hbook, htable]
    exact Within.replay (fun _ _ h => by cases h) _
  have hfile := L2DeltaPayload.arrayOf_take fun d hd => (hds d hd).1
  obtain ⟨hbid, hask⟩ := first?_le_of_within hwithin
  refine ⟨?_, hwithin, ?_, hbid, hask, hfile, ?_⟩
  · rw [Replay.applied_foldl, hseq]
    show _ + (0 + _) = _
    rw [Nat.zero_add]
  · rw [hbook, htable, replay_eq_iff, List.map_map]
    simp only [ne_comm]
    rfl
  · have hall := hfile (max (ds.flatMap L2DeltaPayload.bytes).length (22 * ds.length))
    have hrows : ds.length ≤ max (ds.flatMap L2DeltaPayload.bytes).length (22 * ds.length) / 22 := by
      omega
    rw [List.take_of_length_le (Nat.le_max_left _ _), List.take_of_length_le hrows] at hall
    rw [hall]

/-- **A late joiner is never wrong, and complete once every old level has been changed**: for every
run of the simulator, wherever in it the programs join. -/
theorem late_joiner (tick mid : PriceTicks) (acts more : List Sim.Action) (time : ℕ → Int64)
    (hlen : acts.length + more.length + 20 < 2 ^ 64) :
    let s₀ := acts.foldl Sim.step (Sim.start tick mid)
    let s := more.foldl Sim.step s₀
    let ds := deltas (s.sent.drop s₀.sent.length)
    ∃ r, Replay.run time .start ds = some r ∧
      Joined s₀ s (ds.map Prod.snd) r (record time [] ds) := by
  intro s₀ s ds
  obtain ⟨hds, hseq, htable⟩ := Sim.told_since tick mid acts more hlen
  refine ⟨_, Replay.run_eq time fun x hx => (hds x hx).1, ?_⟩
  rw [record_eq, List.nil_append]
  refine joined_of_told (fun d hd => ?_) (by rw [List.length_map]; exact hseq) htable
  obtain ⟨x, hx, rfl⟩ := List.mem_map.mp hd
  exact ⟨(hds x hx).1.2, (hds x hx).2⟩

/-- One edit is missed, and two more and a top of book are published afterwards. -/
theorem late_joiner_two :
    let s₀ := [Sim.Action.edit 200000 ⟨.bid, 1, false, 7, by decide, by decide⟩].foldl Sim.step
      (Sim.start 1 200000)
    let s := [Sim.Action.edit 200000 ⟨.bid, 2, false, 9, by decide, by decide⟩,
      .edit 200000 ⟨.ask, 1, true, 5, by decide, by decide⟩, .repair, .publishL1].foldl Sim.step s₀
    let ds := deltas (s.sent.drop s₀.sent.length)
    ∃ r, Replay.run (fun n => .ofNat (1000 * n)) .start ds = some r ∧
      Joined s₀ s (ds.map Prod.snd) r (record (fun n => .ofNat (1000 * n)) [] ds) :=
  late_joiner 1 200000 _ _ _ (by decide)

end Trading
