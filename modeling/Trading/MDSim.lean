import Trading.OrdMap
import Trading.Transition
import Trading.Wire

/-! # The market data simulator

The book of `feed/MDSim.cpp`, the steps of its main loop and its snapshot service.

* One action is one pass through the body of the edit loop, the call of `repair_cross_and_emit`
  after that loop, or the conflated L1 message; `Iteration.actions` is how the main loop orders
  them.  The random choices and the mid price, which the process draws, are inputs.
* `sent` records the messages published so far, and `past` the book at each sequence number:
  every mutation goes through `upsert_level`, which increments `seqno` by one.
* Prices are 64-bit and their arithmetic wraps.

`Sim.Moves` says once what a step can do.  `Sim.Ok` is the invariant: `past` is indexed by sequence
number, every published delta is the change that led to its sequence number, and every published
top of book is that of its sequence number. -/

namespace Trading

structure PriceLevel where
  qty : ℕ
  orderCount : ℕ
deriving DecidableEq, Repr

def PriceLevel.pair (l : PriceLevel) : ℕ × ℕ := (l.qty, l.orderCount)

structure Book where
  tickSize : PriceTicks
  bids : OrdMap (fun p q : PriceTicks => p > q) PriceLevel
  asks : OrdMap (fun p q : PriceTicks => p < q) PriceLevel
  seqno : ℕ
deriving DecidableEq

namespace Book

def empty (tickSize : PriceTicks) : Book := ⟨tickSize, .empty, .empty, 0⟩

/-- The levels of a side, best first. -/
def levels (b : Book) : Side → List (PriceTicks × PriceLevel)
  | .bid => b.bids.entries
  | .ask => b.asks.entries

def level? (b : Book) : Side → PriceTicks → Option PriceLevel
  | .bid, px => b.bids.find? px
  | .ask, px => b.asks.find? px

def tob (b : Book) : TopOfBook :=
  let bid := b.bids.first?
  let ask := b.asks.first?
  { bestBidPrice := (bid.map Prod.fst).getD kNoPrice
    bestBidQty := (bid.map fun e => e.2.qty).getD 0
    bestAskPrice := (ask.map Prod.fst).getD kNoPrice
    bestAskQty := (ask.map fun e => e.2.qty).getD 0 }

/-- `upsert_level`: no quantity erases. -/
def upsertLevel (b : Book) (s : Side) (px : PriceTicks) (qty oc : ℕ) : Book :=
  let b := match s with
    | .bid =>
        { b with bids := if qty = 0 then b.bids.erase px else b.bids.set px ⟨qty, oc⟩ }
    | .ask =>
        { b with asks := if qty = 0 then b.asks.erase px else b.asks.set px ⟨qty, oc⟩ }
  { b with seqno := b.seqno + 1 }

/-- A level as a row of a snapshot. -/
def row (s : Side) (e : PriceTicks × PriceLevel) : LevelSummary :=
  ⟨s.toByte, e.1, e.2.qty, e.2.orderCount⟩

/-- `top_levels`: the best `depth` bids, then the best `depth` asks. -/
def topLevels (b : Book) (depth : ℕ) : List LevelSummary :=
  (b.bids.entries.take depth).map (row .bid) ++ (b.asks.entries.take depth).map (row .ask)

/-- The reply of the snapshot service. -/
def reply (b : Book) (r : SnapRequest) : SnapReply :=
  let depth := max 1 r.depth
  if r.stream = "L1" then .l1 b.seqno b.tob.toPayload else .l2 b.seqno depth (b.topLevels depth)

/-- The book as a table. -/
def table (b : Book) : LevelTable := twoSided fun s px => (b.level? s px).map PriceLevel.pair

end Book

/-! ### The process -/

structure Sim where
  book : Book
  lastL1 : TopOfBook
  sent : List MDEvent
  past : List Book
deriving DecidableEq

/-- The random choices of one edit: the side, the offset from the mid in ticks, whether to erase,
and the quantity otherwise. -/
structure Edit where
  side : Side
  k : ℕ
  erase : Bool
  qty : ℕ
  k_range : 1 ≤ k ∧ k ≤ 5
  qty_range : 1 ≤ qty ∧ qty ≤ 25
deriving DecidableEq

/-- The price of an edit, clamped so that it does not cross. -/
def editPrice (b : Book) (mid : PriceTicks) (e : Edit) : PriceTicks :=
  let t := b.tob
  match e.side with
  | .bid =>
      let px := mid + -Int64.ofNat e.k * b.tickSize
      if t.bestAskPrice ≠ kNoPrice then
        let maxBid := t.bestAskPrice - b.tickSize
        if px ≥ maxBid then maxBid else px
      else px
  | .ask =>
      let px := mid + Int64.ofNat e.k * b.tickSize
      if t.bestBidPrice ≠ kNoPrice then
        let minAsk := t.bestBidPrice + b.tickSize
        if px ≤ minAsk then minAsk else px
      else px

namespace Sim

def upsert (s : Sim) (side : Side) (px : PriceTicks) (qty oc : ℕ) : Sim :=
  let book := s.book.upsertLevel side px qty oc
  { s with book := book, past := s.past ++ [book] }

def sendL2Delta (s : Sim) (a : Byte) (side : Side) (px : PriceTicks) (qty oc : ℕ) : Sim :=
  { s with sent := s.sent ++ [.l2Delta s.book.seqno ⟨a, side.toByte, px, qty, oc⟩] }

def sendL1 (s : Sim) : Sim :=
  { s with sent := s.sent ++ [.l1 s.book.seqno s.book.tob.toPayload] }

/-- One level on each side, `i` ticks from the mid. -/
def seedStep (mid : PriceTicks) (s : Sim) (i : ℕ) : Sim :=
  (s.upsert .bid (mid - Int64.ofNat i * s.book.tickSize) (10 * i) i).upsert
    .ask (mid + Int64.ofNat i * s.book.tickSize) (10 * i) i

/-- The process after the initial seeding. -/
def start (tickSize mid : PriceTicks) : Sim :=
  (List.range' 1 10).foldl (seedStep mid)
    ⟨.empty tickSize, {}, [], [.empty tickSize]⟩

/-- The body of the edit loop. -/
def edit (s : Sim) (mid : PriceTicks) (e : Edit) : Sim :=
  let px := editPrice s.book mid e
  if e.erase then (s.upsert e.side px 0 0).sendL2Delta kErase e.side px 0 0
  else
    let oc := 1 + e.qty % 5
    (s.upsert e.side px e.qty oc).sendL2Delta kUpsert e.side px e.qty oc

/-- The condition of `repair_cross_and_emit`. -/
def Crossed (b : Book) : Prop :=
  let t := b.tob
  t.bestBidPrice ≠ kNoPrice ∧ t.bestAskPrice ≠ kNoPrice ∧ t.bestBidPrice ≥ t.bestAskPrice

instance (b : Book) : Decidable (Crossed b) := by unfold Crossed; infer_instance

def repairCrossAndEmit (s : Sim) : Sim :=
  if Crossed s.book then
    let t := s.book.tob
    let newAsk := t.bestBidPrice + s.book.tickSize
    let q := if t.bestAskQty > 0 then t.bestAskQty else 1
    (s.upsert .ask newAsk q 1).sendL2Delta kUpsert .ask newAsk q 1
  else s

/-- The L1 message, if the top of book has changed. -/
def publishL1 (s : Sim) : Sim :=
  let tob := s.book.tob
  if tob ≠ s.lastL1 then { s.sendL1 with lastL1 := tob } else s

inductive Action where
  | edit (mid : PriceTicks) (e : Edit)
  | repair
  | publishL1
deriving DecidableEq

def step (s : Sim) : Action → Sim
  | .edit mid e => s.edit mid e
  | .repair => s.repairCrossAndEmit
  | .publishL1 => s.publishL1

/-- One iteration of the main loop. -/
structure Iteration where
  mid : PriceTicks
  edits : List Edit
  edits_range : 1 ≤ edits.length ∧ edits.length ≤ 3

def Iteration.actions (it : Iteration) : List Action :=
  it.edits.map (.edit it.mid) ++ [.repair, .publishL1]

end Sim

/-! ### The book after an update -/

namespace Book
variable (b : Book) (s s' : Side) (px px' : PriceTicks) (qty oc : ℕ)

theorem level?_upsertLevel : (b.upsertLevel s px qty oc).level? s' px' =
    if s' = s ∧ px' = px then (if qty = 0 then none else some ⟨qty, oc⟩) else b.level? s' px' := by
  by_cases hq : qty = 0
  · cases s <;> cases s' <;> simp [upsertLevel, level?, hq, OrdMap.find?_erase]
  · cases s <;> cases s' <;> simp [upsertLevel, level?, hq, OrdMap.find?_set]

@[simp] theorem seqno_upsertLevel : (b.upsertLevel s px qty oc).seqno = b.seqno + 1 := by
  cases s <;> rfl

@[simp] theorem tickSize_upsertLevel : (b.upsertLevel s px qty oc).tickSize = b.tickSize := by
  cases s <;> rfl

theorem mem_levels_iff {l : PriceLevel} : (px, l) ∈ b.levels s ↔ b.level? s px = some l := by
  cases s
  · exact b.bids.mem_entries_iff
  · exact b.asks.mem_entries_iff

@[simp] theorem table_toByte : b.table (s.toByte, px) = (b.level? s px).map PriceLevel.pair :=
  twoSided_toByte

/-- `upsert_level` is a change of the table. -/
theorem table_upsertLevel : (b.upsertLevel s px qty oc).table =
    Replication.Change.apply ⟨(s.toByte, px), if qty = 0 then none else some (qty, oc)⟩ b.table := by
  refine twoSided_update fun t q => ?_
  rw [level?_upsertLevel]
  split_ifs <;> rfl

theorem mem_topLevels_iff {b : Book} {depth : ℕ} {r : LevelSummary} :
    r ∈ b.topLevels depth ↔ ∃ s e, e ∈ (b.levels s).take depth ∧ row s e = r := by
  unfold topLevels
  rw [List.mem_append, List.mem_map, List.mem_map]
  constructor
  · intro h
    obtain ⟨e, he, hr⟩ | ⟨e, he, hr⟩ := h
    · exact ⟨.bid, e, he, hr⟩
    · exact ⟨.ask, e, he, hr⟩
  · intro h
    obtain ⟨s, e, he, hr⟩ := h
    cases s
    · exact .inl ⟨e, he, hr⟩
    · exact .inr ⟨e, he, hr⟩

/-- No level is without quantity. -/
def Stocked (b : Book) : Prop := ∀ s px l, b.level? s px = some l → 0 < l.qty

theorem Stocked.upsertLevel {b : Book} (h : b.Stocked) (s : Side) (px : PriceTicks) (qty oc : ℕ) :
    (b.upsertLevel s px qty oc).Stocked := by
  intro s' px' l hl
  rw [level?_upsertLevel] at hl
  split_ifs at hl with hk hq
  · obtain rfl := Option.some_inj.mp hl
    exact Nat.pos_of_ne_zero hq
  · exact h s' px' l hl

end Book

/-! ### What is published -/

/-- A delta as the simulator sends them: an erasure, or a level with quantity and orders. -/
def L2DeltaPayload.Sent (d : L2DeltaPayload) : Prop :=
  (∃ s : Side, d.side = s.toByte) ∧
    (d.action = kErase ∧ d.aggQty = 0 ∧ d.orderCount = 0 ∨
      d.action = kUpsert ∧ 0 < d.aggQty ∧ 0 < d.orderCount)

/-- An update of the book is the change that the delta sent with it says. -/
theorem Book.table_upsertLevel_sent (b : Book) {side : Side} {px : PriceTicks} {a : Byte}
    {qty oc : ℕ} (hd : (⟨a, side.toByte, px, qty, oc⟩ : L2DeltaPayload).Sent) :
    (b.upsertLevel side px qty oc).table =
      (⟨a, side.toByte, px, qty, oc⟩ : L2DeltaPayload).change.apply b.table := by
  rw [table_upsertLevel]
  unfold L2DeltaPayload.change
  obtain ⟨-, ⟨ha, hq, -⟩ | ⟨ha, hq, -⟩⟩ := hd
  · dsimp only at ha hq ⊢
    rw [if_pos ha, if_pos hq]
  · dsimp only at ha hq ⊢
    rw [if_neg hq.ne', if_neg (show ¬ a = kErase by rw [ha]; decide)]

namespace Sim

/-- The steps of the process, each with the state it leads to. -/
inductive Moves (s : Sim) : Action → Sim → Prop
  | edit {mid : PriceTicks} {e : Edit} {a : Byte} {qty oc : ℕ} :
      (⟨a, e.side.toByte, editPrice s.book mid e, qty, oc⟩ : L2DeltaPayload).Sent →
      Moves s (.edit mid e) ((s.upsert e.side (editPrice s.book mid e) qty oc).sendL2Delta
        a e.side (editPrice s.book mid e) qty oc)
  | repair {px : PriceTicks} {qty : ℕ} : Crossed s.book →
      (⟨kUpsert, Side.ask.toByte, px, qty, 1⟩ : L2DeltaPayload).Sent →
      Moves s .repair ((s.upsert .ask px qty 1).sendL2Delta kUpsert .ask px qty 1)
  | sound : ¬ Crossed s.book → Moves s .repair s
  | top : s.book.tob ≠ s.lastL1 → Moves s .publishL1 { s.sendL1 with lastL1 := s.book.tob }
  | sameTop : s.book.tob = s.lastL1 → Moves s .publishL1 s

theorem moves_step (s : Sim) (a : Action) : Moves s a (s.step a) := by
  cases a with
  | edit mid e =>
      show Moves s _ (s.edit mid e)
      unfold edit
      dsimp only
      split_ifs
      · exact .edit ⟨⟨e.side, rfl⟩, .inl ⟨rfl, rfl, rfl⟩⟩
      · exact .edit ⟨⟨e.side, rfl⟩, .inr ⟨rfl, e.qty_range.1, Nat.le_add_right 1 (e.qty % 5)⟩⟩
  | repair =>
      show Moves s _ s.repairCrossAndEmit
      unfold repairCrossAndEmit
      dsimp only
      split_ifs with hc hq
      · exact .repair hc ⟨⟨.ask, rfl⟩, .inr ⟨rfl, hq, Nat.one_pos⟩⟩
      · exact .repair hc ⟨⟨.ask, rfl⟩, .inr ⟨rfl, Nat.one_pos, Nat.one_pos⟩⟩
      · exact .sound hc
  | publishL1 =>
      show Moves s _ s.publishL1
      unfold publishL1
      dsimp only
      split_ifs with htob
      · exact .top htob
      · exact .sameTop (not_not.mp htob)

/-- What the past of a process says about its messages. -/
structure Ok (s : Sim) : Prop where
  length : s.past.length = s.book.seqno + 1
  now : s.past[s.book.seqno]? = some s.book
  seqno : ∀ (n : ℕ) (b : Book), s.past[n]? = some b → b.seqno = n
  stocked : ∀ (n : ℕ) (b : Book), s.past[n]? = some b → b.Stocked
  deltas : ∀ n d, .l2Delta n d ∈ s.sent → d.Sent ∧ ∃ (k : ℕ) (b b' : Book), n = k + 1 ∧
    s.past[k]? = some b ∧ s.past[k + 1]? = some b' ∧ b'.table = d.change.apply b.table
  tops : ∀ n p, .l1 n p ∈ s.sent → ∃ b : Book, s.past[n]? = some b ∧ p = b.tob.toPayload

section ok
variable {s : Sim}

theorem getElem?_past_upsert {n : ℕ} {b : Book} (h : s.past[n]? = some b) (side : Side)
    (px : PriceTicks) (qty oc : ℕ) : (s.upsert side px qty oc).past[n]? = some b := by
  have hlt := (List.getElem?_eq_some_iff.mp h).1
  show (s.past ++ [_])[n]? = some b
  rw [List.getElem?_append_left hlt, h]

/-- The past is only extended. -/
theorem getElem?_past_step {n : ℕ} {b : Book} (h : s.past[n]? = some b) (a : Action) :
    (s.step a).past[n]? = some b := by
  have hm := moves_step s a
  generalize s.step a = s' at hm ⊢
  cases hm with
  | edit | repair => exact getElem?_past_upsert h ..
  | sound | top | sameTop => exact h

theorem Ok.upsert (h : s.Ok) (side : Side) (px : PriceTicks) (qty oc : ℕ) :
    (s.upsert side px qty oc).Ok := by
  have hcases : ∀ n b, (s.upsert side px qty oc).past[n]? = some b →
      s.past[n]? = some b ∨ n = s.book.seqno + 1 ∧ b = s.book.upsertLevel side px qty oc := by
    intro n b hn
    change (s.past ++ [s.book.upsertLevel side px qty oc])[n]? = some b at hn
    rcases Nat.lt_trichotomy n s.past.length with hlt | heq | hgt
    · rw [List.getElem?_append_left hlt] at hn
      exact .inl hn
    · rw [heq, List.getElem?_concat_length, Option.some_inj] at hn
      exact .inr ⟨heq.trans h.length, hn.symm⟩
    · rw [List.getElem?_eq_none (by rw [List.length_append, List.length_singleton]; omega)] at hn
      cases hn
  have hnow : (s.upsert side px qty oc).past[s.book.seqno + 1]? =
      some (s.book.upsertLevel side px qty oc) := by
    show (s.past ++ [_])[s.book.seqno + 1]? = _
    rw [← h.length, List.getElem?_concat_length]
  refine ⟨?_, ?_, ?_, ?_, ?_, ?_⟩
  · show (s.past ++ [_]).length = (s.book.upsertLevel side px qty oc).seqno + 1
    rw [List.length_append, h.length, Book.seqno_upsertLevel]
    rfl
  · show _ = some (s.book.upsertLevel side px qty oc)
    rw [← hnow]
    congr 1
    exact Book.seqno_upsertLevel _ _ _ _ _
  · intro n b hn
    obtain hn | ⟨rfl, rfl⟩ := hcases n b hn
    · exact h.seqno n b hn
    · exact Book.seqno_upsertLevel _ _ _ _ _
  · intro n b hn
    obtain hn | ⟨rfl, rfl⟩ := hcases n b hn
    · exact h.stocked n b hn
    · exact (h.stocked _ _ h.now).upsertLevel side px qty oc
  · intro n d hd
    obtain ⟨hsent, k, b, b', hn, hb, hb', ht⟩ := h.deltas n d hd
    exact ⟨hsent, k, b, b', hn, getElem?_past_upsert hb .., getElem?_past_upsert hb' .., ht⟩
  · intro n p hp
    obtain ⟨b, hb, rfl⟩ := h.tops n p hp
    exact ⟨b, getElem?_past_upsert hb .., rfl⟩

/-- An update of the book and its delta. -/
theorem Ok.change {a : Byte} {side : Side} {px : PriceTicks} {qty oc : ℕ} (h : s.Ok)
    (hd : (⟨a, side.toByte, px, qty, oc⟩ : L2DeltaPayload).Sent) :
    ((s.upsert side px qty oc).sendL2Delta a side px qty oc).Ok := by
  have hu := h.upsert side px qty oc
  refine ⟨hu.length, hu.now, hu.seqno, hu.stocked, ?_, ?_⟩
  · intro n d hmem
    rcases List.mem_append.mp hmem with hmem | hmem
    · exact hu.deltas n d hmem
    · obtain ⟨rfl, rfl⟩ := MDEvent.l2Delta.inj (List.mem_singleton.mp hmem)
      refine ⟨hd, s.book.seqno, s.book, s.book.upsertLevel side px qty oc,
        Book.seqno_upsertLevel _ _ _ _ _, getElem?_past_upsert h.now .., ?_,
        s.book.table_upsertLevel_sent hd⟩
      have hnow := hu.now
      rwa [show (s.upsert side px qty oc).book.seqno = s.book.seqno + 1 from
        Book.seqno_upsertLevel _ _ _ _ _] at hnow
  · intro n p hp
    rcases List.mem_append.mp hp with hp | hp
    · exact hu.tops n p hp
    · cases List.mem_singleton.mp hp

theorem Ok.step (h : s.Ok) (a : Action) : (s.step a).Ok := by
  have hm := moves_step s a
  generalize s.step a = s' at hm ⊢
  cases hm with
  | edit hd => exact h.change hd
  | repair _ hd => exact h.change hd
  | sound | sameTop => exact h
  | top =>
      refine ⟨h.length, h.now, h.seqno, h.stocked, ?_, ?_⟩
      · intro n d hd
        rcases List.mem_append.mp hd with hd | hd
        · exact h.deltas n d hd
        · cases List.mem_singleton.mp hd
      · intro n p hp
        rcases List.mem_append.mp hp with hp | hp
        · exact h.tops n p hp
        · obtain ⟨rfl, rfl⟩ := MDEvent.l1.inj (List.mem_singleton.mp hp)
          exact ⟨s.book, h.now, rfl⟩

theorem ok_empty (tickSize : PriceTicks) :
    Ok ⟨.empty tickSize, {}, [], [.empty tickSize]⟩ := by
  have hsingle : ∀ n b, [Book.empty tickSize][n]? = some b → n = 0 ∧ b = .empty tickSize := by
    intro n b hn
    cases n with
    | zero => exact ⟨rfl, (Option.some_inj.mp hn).symm⟩
    | succ n => cases hn
  refine ⟨rfl, rfl, ?_, ?_, ?_, ?_⟩
  · intro n b hn
    obtain ⟨rfl, rfl⟩ := hsingle n b hn
    rfl
  · intro n b hn s px l hl
    obtain ⟨rfl, rfl⟩ := hsingle n b hn
    cases s <;> cases hl
  · intro n d hd
    cases hd
  · intro n p hp
    cases hp

/-- The seeding only updates the book. -/
theorem seed_invariant {P : Sim → Prop} {mid : PriceTicks}
    (hstep : ∀ s i, i ∈ List.range' 1 10 → P s → P (seedStep mid s i)) {tickSize : PriceTicks}
    (h0 : P ⟨.empty tickSize, {}, [], [.empty tickSize]⟩) : P (start tickSize mid) :=
  List.foldlRecOn _ _ h0 fun s hs i hi => hstep s i hi hs

theorem ok_start (tickSize mid : PriceTicks) : (start tickSize mid).Ok :=
  seed_invariant (fun _ _ _ h => (h.upsert ..).upsert ..) (ok_empty tickSize)

/-- The process starts from the empty book. -/
theorem past_start (tickSize mid : PriceTicks) :
    (start tickSize mid).past[0]? = some (.empty tickSize) := by
  have hstep : ∀ (s : Sim) (i : ℕ), i ∈ List.range' 1 10 →
      s.past[0]? = some (Book.empty tickSize) →
      (seedStep mid s i).past[0]? = some (Book.empty tickSize) := by
    intro s i _ h
    exact getElem?_past_upsert (getElem?_past_upsert h ..) ..
  exact seed_invariant (P := fun s => s.past[0]? = some (Book.empty tickSize)) hstep rfl

end ok

end Sim

end Trading
