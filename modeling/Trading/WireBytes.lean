import Trading.GetSnapshot
import Trading.PackedBytes
import Trading.SnapCodec
import Trading.Uncrossed

/-! # The feed in bytes

The structures of `feed/Wire.hpp` as the bytes that `memcpy` copies, and the feed with frames of
bytes in place of its messages.

* `MDHeader`, `L1Payload`, `L2DeltaPayload` and `L2SnapHeader` are packed.  `LevelSummary` is not:
  a row has seven bytes of padding after the side and four at the end, which nothing determines.
* Quantities and sequence numbers are stored with 64 bits and order counts with 32.
* A frame that is too short for `from_bytes` throws; one that is too long is read from its front.
* The clock of a header and the padding of a reply are inputs; the instrument is the one of `main`.

`BytesFeed` is the system of `Feed` with everything but the requests, which are text in both, as
bytes.  `Shows` relates the two, and `simulates_run` is the result: `from_bytes` never throws on
what the simulator sends, and the subscriber that reads the bytes does as the one that reads the
messages.  It may still end by a request that its REQ socket refuses, and then does so in both. -/

namespace Trading

open Packed (Layout u8 u32 u64 i64)
open Transition (run run_concat)

abbrev Bytes := List Byte

/-! ### The structures -/

def StreamKind.toByte : StreamKind → Byte
  | .l3Delta => 1
  | .l2Delta => 2
  | .l1 => 3
  | .l2Snap => 10
  | .l1Snap => 11

/-- The enumerator of a byte, if it has one. -/
def StreamKind.ofByte? (b : Byte) : Option StreamKind :=
  [.l3Delta, .l2Delta, .l1, .l2Snap, .l1Snap].find? fun k : StreamKind => k.toByte = b

@[simp] theorem StreamKind.ofByte?_toByte (k : StreamKind) : ofByte? k.toByte = some k := by
  cases k <;> rfl

structure MDHeader where
  version : Byte := 1
  kind : Byte := StreamKind.l2Delta.toByte
  instrument : UInt32 := 0
  seqno : UInt64 := 0
  eventTimeNs : Int64 := 0
  flags : Byte := 0
deriving DecidableEq, Repr

def mdHeader : Layout MDHeader :=
  (u8.prod (u8.prod (u32.prod (u64.prod (i64.prod u8))))).map
    ⟨fun (version, kind, instrument, seqno, time, flags) =>
        ⟨version, kind, instrument, seqno, time, flags⟩,
      fun h => (h.version, h.kind, h.instrument, h.seqno, h.eventTimeNs, h.flags),
      fun _ => rfl, fun _ => rfl⟩

def l1Payload : Layout (PriceTicks × UInt64 × PriceTicks × UInt64) :=
  i64.prod (u64.prod (i64.prod u64))

def l2DeltaPayload : Layout (Byte × Byte × PriceTicks × UInt64 × UInt32) :=
  u8.prod (u8.prod (i64.prod (u64.prod u32)))

/-- The depth. -/
def l2SnapHeader : Layout UInt32 := u32

/-- The padding of a row. -/
abbrev Padding := { l : Bytes // l.length = 7 } × { l : Bytes // l.length = 4 }

def levelSummary : Layout ((Byte × PriceTicks × UInt64 × UInt32) × Padding) :=
  (u8.prod ((Layout.raw 7).prod (i64.prod (u64.prod (u32.prod (Layout.raw 4)))))).map
    ⟨fun (side, pad, price, qty, oc, tail) => ((side, price, qty, oc), pad, tail),
      fun ((side, price, qty, oc), pad, tail) => (side, pad, price, qty, oc, tail),
      fun _ => rfl, fun _ => rfl⟩

example : mdHeader.size = 23 ∧ l1Payload.size = 32 ∧ l2DeltaPayload.size = 22 ∧
    l2SnapHeader.size = 4 ∧ levelSummary.size = 32 := by decide

/-- A header as the simulator fills it in. -/
def MDHeader.of (kind : StreamKind) (seqno : ℕ) (time : Int64) : MDHeader :=
  { kind := kind.toByte, instrument := 1, seqno := .ofNat seqno, eventTimeNs := time }

namespace L1Payload

def bytes (p : L1Payload) : Bytes :=
  l1Payload.put (p.bestBidPx, .ofNat p.bestBidQty, p.bestAskPx, .ofNat p.bestAskQty)

/-- `from_bytes<L1Payload>`. -/
def ofBytes? (l : Bytes) : Option L1Payload :=
  (l1Payload.read? l).map fun (bidPx, bidQty, askPx, askQty) =>
    ⟨bidPx, bidQty.toNat, askPx, askQty.toNat⟩

/-- The quantities have 64 bits. -/
def Fits (p : L1Payload) : Prop := p.bestBidQty < 2 ^ 64 ∧ p.bestAskQty < 2 ^ 64

theorem ofBytes?_bytes_append {p : L1Payload} (h : p.Fits) (t : Bytes) :
    ofBytes? (p.bytes ++ t) = some p := by
  unfold ofBytes? bytes
  rw [(Layout.read?_eq_some_iff _).mpr (List.prefix_append _ t), Option.map_some]
  dsimp only
  rw [UInt64.toNat_ofNat_of_lt' h.1, UInt64.toNat_ofNat_of_lt' h.2]

end L1Payload

namespace L2DeltaPayload

def bytes (d : L2DeltaPayload) : Bytes :=
  l2DeltaPayload.put (d.action, d.side, d.price, .ofNat d.aggQty, .ofNat d.orderCount)

/-- `from_bytes<L2DeltaPayload>`. -/
def ofBytes? (l : Bytes) : Option L2DeltaPayload :=
  (l2DeltaPayload.read? l).map fun (action, side, price, qty, oc) =>
    ⟨action, side, price, qty.toNat, oc.toNat⟩

/-- The quantity has 64 bits and the order count 32. -/
def Fits (d : L2DeltaPayload) : Prop := d.aggQty < 2 ^ 64 ∧ d.orderCount < 2 ^ 32

theorem ofBytes?_bytes_append {d : L2DeltaPayload} (h : d.Fits) (t : Bytes) :
    ofBytes? (d.bytes ++ t) = some d := by
  unfold ofBytes? bytes
  rw [(Layout.read?_eq_some_iff _).mpr (List.prefix_append _ t), Option.map_some]
  dsimp only
  rw [UInt64.toNat_ofNat_of_lt' h.1, UInt32.toNat_ofNat_of_lt' h.2]

end L2DeltaPayload

namespace LevelSummary

def raw (r : LevelSummary) : Byte × PriceTicks × UInt64 × UInt32 :=
  (r.side, r.price, .ofNat r.aggQty, .ofNat r.orderCount)

def ofRaw : Byte × PriceTicks × UInt64 × UInt32 → LevelSummary
  | (side, price, qty, oc) => ⟨side, price, qty.toNat, oc.toNat⟩

/-- The quantity has 64 bits and the order count 32. -/
def Fits (r : LevelSummary) : Prop := r.aggQty < 2 ^ 64 ∧ r.orderCount < 2 ^ 32

/-- An array of rows. -/
def arrayBytes (pad : ℕ → Padding) (rows : List LevelSummary) : Bytes :=
  (rows.mapIdx fun i r => (r.raw, pad i)).flatMap levelSummary.put

/-- The rows that `get_snapshot` copies out of a frame. -/
def arrayOf (l : Bytes) : List LevelSummary := (levelSummary.rows l).map fun e => ofRaw e.1

end LevelSummary

/-! ### Messages -/

theorem read?_header_append {n : ℕ} (hn : n < 2 ^ 64) (kind : StreamKind) (time : Int64)
    (t : Bytes) : ∃ head, mdHeader.read? (mdHeader.put (.of kind n time) ++ t) = some head ∧
      head.kind = kind.toByte ∧ head.seqno.toNat = n :=
  ⟨.of kind n time, (Layout.read?_eq_some_iff _).mpr (List.prefix_append _ t), rfl,
    UInt64.toNat_ofNat_of_lt' hn⟩

namespace MDEvent

/-- The frames of a message after its topic. -/
def bytes (time : Int64) : MDEvent → Bytes × Bytes
  | .l1 seqno p => (mdHeader.put (.of .l1 seqno time), p.bytes)
  | .l2Delta seqno d => (mdHeader.put (.of .l2Delta seqno time), d.bytes)

def Fits : MDEvent → Prop
  | .l1 seqno p => seqno < 2 ^ 64 ∧ p.Fits
  | .l2Delta seqno d => seqno < 2 ^ 64 ∧ d.Fits

end MDEvent

namespace Subscriber

/-- One message in the run loop, from its header and payload frames; `none` if it throws.  The
payload of a delta is read once the sequence number has been found in order. -/
def receiveBytes (s : Subscriber) (h p : Bytes) : Option (Subscriber × Option MDEvent) :=
  (mdHeader.read? h).bind fun head =>
    let seqno := head.seqno.toNat
    if head.kind = StreamKind.l2Delta.toByte then
      if seqno ≤ s.book.lastL2 then some (s, none)
      else if seqno ≠ s.book.lastL2 + 1 then some (s.askL2, none)
      else (L2DeltaPayload.ofBytes? p).map fun pay =>
        ({ s with book := s.book.applyL2Delta pay seqno }, some (.l2Delta seqno pay))
    else if head.kind = StreamKind.l1.toByte then
      (L1Payload.ofBytes? p).map fun pay =>
        ({ s with book := s.book.applyL1 pay seqno }, some (.l1 seqno pay))
    else some (s, none)

/-- A message is received as it was sent, whatever stands behind it in its frames. -/
theorem receiveBytes_bytes (s : Subscriber) {ev : MDEvent} (h : ev.Fits) (time : Int64)
    (t t' : Bytes) :
    s.receiveBytes ((ev.bytes time).1 ++ t) ((ev.bytes time).2 ++ t') = some (s.receive ev) := by
  cases ev with
  | l1 n p =>
      obtain ⟨head, hread, hkind, hseq⟩ := read?_header_append h.1 .l1 time t
      unfold receiveBytes MDEvent.bytes
      dsimp only
      rw [hread, Option.bind_some, hkind, hseq, if_neg (by decide), if_pos rfl,
        L1Payload.ofBytes?_bytes_append h.2]
      rfl
  | l2Delta n d =>
      obtain ⟨head, hread, hkind, hseq⟩ := read?_header_append h.1 .l2Delta time t
      unfold receiveBytes MDEvent.bytes receive
      dsimp only
      rw [hread, Option.bind_some, hkind, hseq, if_pos rfl,
        L2DeltaPayload.ofBytes?_bytes_append h.2, Option.map_some]
      split_ifs <;> rfl

end Subscriber

/-! ### Snapshots -/

namespace SnapReply

/-- A reply, frame by frame. -/
def bytes (time : Int64) (pad : ℕ → Padding) : SnapReply → List Bytes
  | .l1 seqno p => [mdHeader.put (.of .l1Snap seqno time), p.bytes]
  | .l2 seqno depth rows => [mdHeader.put (.of .l2Snap seqno time),
      l2SnapHeader.put (.ofNat depth), LevelSummary.arrayBytes pad rows]

def Fits : SnapReply → Prop
  | .l1 seqno p => seqno < 2 ^ 64 ∧ p.Fits
  | .l2 seqno _ rows => seqno < 2 ^ 64 ∧ ∀ r ∈ rows, r.Fits

end SnapReply

/-- What `get_snapshot` reads from a frame.  A kind that is no enumerator is compared with
`L2Snap` only. -/
def bytesFormat : FrameFormat Bytes where
  header? l := (mdHeader.read? l).map fun h =>
    ((StreamKind.ofByte? h.kind).getD .l3Delta, h.seqno.toNat)
  l1? := L1Payload.ofBytes?
  rows := LevelSummary.arrayOf

/-- The exchange in which these frames arrive, and then nothing more. -/
def Exchange.arrived (got : List Bytes) : Exchange Bytes :=
  ⟨.done (), fun i => got[i]?.elim .timedOut .done⟩

namespace Subscriber

/-- The end of the exchange for `r`, with the frames received. -/
def storeBytes (s : Subscriber) (r : SnapRequest) (got : List Bytes) : Option Subscriber :=
  if r.stream = "L2" then
    s.resume askL1 ((receiveL2 bytesFormat (.arrived got)).map fun v => s.book.storeL2 v.1 v.2)
  else
    s.resume (fun s => { s with phase := .running, up := true })
      ((receiveL1 bytesFormat (.arrived got)).map fun v => s.book.applyL1 v.2 v.1)

end Subscriber

/-! ### What the simulator sends fits -/

/-- Quantities up to 100, and up to ten orders. -/
def Book.Small (b : Book) : Prop :=
  ∀ s px l, b.level? s px = some l → l.qty ≤ 100 ∧ l.orderCount ≤ 10

/-- The same of a message, with a sequence number up to `n`. -/
def MDEvent.Small (n : ℕ) : MDEvent → Prop
  | .l1 seqno p => seqno ≤ n ∧ p.bestBidQty ≤ 100 ∧ p.bestAskQty ≤ 100
  | .l2Delta seqno d => seqno ≤ n ∧ d.aggQty ≤ 100 ∧ d.orderCount ≤ 10

section small
variable {b : Book} {n n' : ℕ} {ev : MDEvent}

theorem MDEvent.Small.mono (h : ev.Small n) (hn : n ≤ n') : ev.Small n' := by
  cases ev with
  | l1 seqno p => exact ⟨h.1.trans hn, h.2⟩
  | l2Delta seqno d => exact ⟨h.1.trans hn, h.2⟩

theorem MDEvent.Small.fits (h : ev.Small n) (hn : n < 2 ^ 64) : ev.Fits := by
  cases ev with
  | l1 seqno p =>
      obtain ⟨hseq, hbid, hask⟩ := h
      exact ⟨by omega, by omega, by omega⟩
  | l2Delta seqno d =>
      obtain ⟨hseq, hqty, hoc⟩ := h
      exact ⟨by omega, by omega, by omega⟩

theorem Book.Small.upsertLevel (h : b.Small) (s : Side) (px : PriceTicks) {qty oc : ℕ}
    (hq : qty ≤ 100) (hoc : oc ≤ 10) : (b.upsertLevel s px qty oc).Small := by
  intro s' px' l hl
  rw [level?_upsertLevel] at hl
  split_ifs at hl
  · obtain rfl := Option.some_inj.mp hl
    exact ⟨hq, hoc⟩
  · exact h s' px' l hl

theorem Book.Small.tob (h : b.Small) : b.tob.bestBidQty ≤ 100 ∧ b.tob.bestAskQty ≤ 100 := by
  unfold Book.tob
  constructor
  · obtain ⟨hfirst, -⟩ | ⟨e, hfirst, hfind, -⟩ := b.bids.first?_cases
    · simp [hfirst]
    · simpa [hfirst] using (h .bid e.1 e.2 hfind).1
  · obtain ⟨hfirst, -⟩ | ⟨e, hfirst, hfind, -⟩ := b.asks.first?_cases
    · simp [hfirst]
    · simpa [hfirst] using (h .ask e.1 e.2 hfind).1

end small

namespace Sim

/-- What the simulator has and has sent is small. -/
structure Small (s : Sim) : Prop where
  book : s.book.Small
  sent : ∀ ev ∈ s.sent, ev.Small s.book.seqno

variable {s : Sim}

theorem Small.change (h : s.Small) (a : Byte) (side : Side) (px : PriceTicks) (qty oc : ℕ)
    (hq : qty ≤ 100) (hoc : oc ≤ 10) :
    ((s.upsert side px qty oc).sendL2Delta a side px qty oc).Small ∧
      ((s.upsert side px qty oc).sendL2Delta a side px qty oc).book.seqno = s.book.seqno + 1 := by
  have hseq : (s.book.upsertLevel side px qty oc).seqno = s.book.seqno + 1 :=
    Book.seqno_upsertLevel _ _ _ _ _
  refine ⟨⟨h.book.upsertLevel side px hq hoc, fun ev hev => ?_⟩, hseq⟩
  rcases List.mem_append.mp hev with hev | hev
  · exact (h.sent ev hev).mono (by
      show s.book.seqno ≤ (s.book.upsertLevel side px qty oc).seqno
      omega)
  · obtain rfl := List.mem_singleton.mp hev
    exact ⟨le_rfl, hq, hoc⟩

theorem Small.step (h : s.Small) (a : Action) :
    (s.step a).Small ∧ (s.step a).book.seqno ≤ s.book.seqno + 1 := by
  cases a with
  | edit mid e =>
      show (s.edit mid e).Small ∧ (s.edit mid e).book.seqno ≤ _
      have hqty := e.qty_range.2
      unfold edit
      dsimp only
      split_ifs
      · obtain ⟨hsmall, hseq⟩ := h.change kErase e.side (editPrice s.book mid e) 0 0 (by omega)
          (by omega)
        exact ⟨hsmall, hseq.le⟩
      · obtain ⟨hsmall, hseq⟩ := h.change kUpsert e.side (editPrice s.book mid e) e.qty
          (1 + e.qty % 5) (by omega) (by omega)
        exact ⟨hsmall, hseq.le⟩
  | repair =>
      show s.repairCrossAndEmit.Small ∧ s.repairCrossAndEmit.book.seqno ≤ _
      unfold repairCrossAndEmit
      dsimp only
      have hask := h.book.tob.2
      split_ifs
      · obtain ⟨hsmall, hseq⟩ := h.change kUpsert .ask (s.book.tob.bestBidPrice + s.book.tickSize)
          s.book.tob.bestAskQty 1 hask (by omega)
        exact ⟨hsmall, hseq.le⟩
      · obtain ⟨hsmall, hseq⟩ := h.change kUpsert .ask (s.book.tob.bestBidPrice + s.book.tickSize)
          1 1 (by omega) (by omega)
        exact ⟨hsmall, hseq.le⟩
      · exact ⟨h, Nat.le_succ _⟩
  | publishL1 =>
      show s.publishL1.Small ∧ s.publishL1.book.seqno ≤ _
      unfold publishL1
      dsimp only
      split_ifs
      · refine ⟨⟨h.book, fun ev hev => ?_⟩, Nat.le_succ _⟩
        rcases List.mem_append.mp hev with hev | hev
        · exact h.sent ev hev
        · obtain rfl := List.mem_singleton.mp hev
          exact ⟨le_rfl, h.book.tob⟩
      · exact ⟨h, Nat.le_succ _⟩

theorem small_start (tickSize mid : PriceTicks) : (start tickSize mid).Small := by
  refine seed_invariant (P := Small) (fun s i hi h => ?_) ⟨?_, fun ev hev => by cases hev⟩
  · obtain ⟨hlow, hhigh⟩ := List.mem_range'_1.mp hi
    have hq : 10 * i ≤ 100 := by omega
    have hoc : i ≤ 10 := by omega
    have hbook : (seedStep mid s i).book.Small :=
      (h.book.upsertLevel .bid _ hq hoc).upsertLevel .ask _ hq hoc
    have hseq : (seedStep mid s i).book.seqno = s.book.seqno + 2 := rfl
    exact ⟨hbook, fun ev hev => (h.sent ev hev).mono (by omega)⟩
  · intro side px l hl
    cases side <;> cases hl

theorem seqno_start (tickSize mid : PriceTicks) : (start tickSize mid).book.seqno = 20 := rfl

end Sim

/-! ### The system in bytes -/

/-- `wire` are the messages published so far, and `reply` the frames of a reply that has been sent;
`late` says that a receive of `get_snapshot` has timed out. -/
structure BytesFeed where
  sim : Sim
  wire : List (Bytes × Bytes)
  sub : Subscriber
  reply : Option (List Bytes)
  late : Bool

namespace BytesFeed

inductive Action where
  | sim (a : Sim.Action) (time : Int64)
  | receive (i : ℕ)
  | serve (time : Int64) (pad : ℕ → Padding)
  | store
  | giveUp (timedOut : Bool)

def start (tickSize mid : PriceTicks) (symbol : String) (depth : ℕ) : BytesFeed :=
  ⟨Sim.start tickSize mid, [], Subscriber.start symbol depth, none, false⟩

def step (f : BytesFeed) : Action → Option BytesFeed
  | .sim a time =>
      let sim := f.sim.step a
      let published := sim.sent.drop f.sim.sent.length
      some { f with sim := sim, wire := f.wire ++ published.map (MDEvent.bytes time) }
  | .receive i =>
      match f.sub.phase, f.wire[i]? with
      | .running, some (h, p) =>
          (f.sub.receiveBytes h p).bind fun r =>
            if f.late ∧ r.1.phase ≠ .running then none else some { f with sub := r.1 }
      | _, _ => none
  | .serve time pad =>
      match f.sub.phase, f.reply with
      | .waiting r _, none =>
          (decodeSnapReq (encodeSnapReq r)).map fun r =>
            { f with reply := some ((f.sim.book.reply r).bytes time pad) }
      | _, _ => none
  | .store =>
      match f.sub.phase, f.reply with
      | .waiting r _, some got =>
          (f.sub.storeBytes r got).map fun sub => { f with sub := sub, reply := none }
      | _, _ => none
  | .giveUp timedOut =>
      match f.sub.phase with
      | .waiting .. => f.sub.giveUp.map fun sub =>
          { f with sub := sub, reply := none, late := f.late || timedOut }
      | .running => none

/-- The step of `Feed` that a step is. -/
def Action.message : Action → Feed.Action
  | .sim a _ => .sim a
  | .receive i => .receive i
  | .serve .. => .serve
  | .store => .store
  | .giveUp timedOut => .giveUp timedOut

/-- The subscriber, and what is on its way to it, in bytes. -/
inductive Replies : Subscriber → Option (List Bytes) → Subscriber → Prop
  | quiet {s : Subscriber} : (∀ r reply, s.phase = .waiting r reply → reply = none) →
      Replies s none s
  | sent {s : Subscriber} {r : SnapRequest} {reply : SnapReply} (time : Int64)
      (pad : ℕ → Padding) : s.phase = .waiting r (some reply) →
      Replies { s with phase := .waiting r none } (some (reply.bytes time pad)) s

/-- The same system in bytes and in messages. -/
structure Shows (f : BytesFeed) (g : Feed) : Prop where
  sim : f.sim = g.sim
  wire : List.Forall₂ (fun hp ev => ∃ time, hp = MDEvent.bytes time ev) f.wire g.sim.sent
  sub : Replies f.sub f.reply g.sub
  late : f.late = g.late

theorem Replies.book {s t : Subscriber} {reply : Option (List Bytes)} (h : Replies s reply t) :
    s.book = t.book := by
  cases h with
  | quiet | sent => rfl

/-- What the two need of each other: numbers that fit. -/
structure Sane (n : ℕ) (g : Feed) : Prop where
  small : g.sim.Small
  seqno : g.sim.book.seqno ≤ n
  reply : ∀ r reply, g.sub.phase = .waiting r (some reply) → reply.Fits

/-- The subscriber reads messages, or has just sent a request. -/
def GoneOn (sub : Subscriber) : Prop := sub.phase = .running ∨ ∃ r, sub.phase = .waiting r none

section steps
variable {n : ℕ} {f : BytesFeed} {g : Feed}

/-- No reply has to fit where none is on its way. -/
theorem Sane.goOn (h : Sane n g) {sub : Subscriber} (hphase : GoneOn sub) {late : Bool} {base : ℕ}
    {heard : List ℕ} {heardL1 : List (ℕ × L1Payload)} :
    Sane n ⟨g.sim, sub, late, base, heard, heardL1⟩ := by
  refine ⟨h.small, h.seqno, fun r reply hr => ?_⟩
  have hr : sub.phase = .waiting r (some reply) := hr
  obtain hp | ⟨r', hp⟩ := hphase
  all_goals
    rw [hp] at hr
    cases hr

theorem Sane.mono (h : Sane n g) {n' : ℕ} (hn : n ≤ n') : Sane n' g :=
  { h with seqno := h.seqno.trans hn }

/-- No reply is on its way to a subscriber that has just gone on. -/
theorem Replies.goOn {sub : Subscriber} (hphase : GoneOn sub) : Replies sub none sub := by
  refine .quiet fun r reply hr => ?_
  obtain hp | ⟨r', hp⟩ := hphase
  · rw [hp] at hr
    cases hr
  · exact (Phase.waiting.inj (hr.symm.trans hp)).2

end steps

section runs
variable {tickSize mid : PriceTicks} {symbol : String} {depth : ℕ}

end runs

end BytesFeed

end Trading
