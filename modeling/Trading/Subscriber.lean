import Mathlib.Data.List.Induction
import Trading.OrdMap
import Trading.Wire

/-! # The feed subscriber

`LocalBook` and `ZmqFeedSubscriber` of `feed/ZMQFeedSubscriber.cpp`.

* `levels` is keyed by the side byte as it came off the wire and the price.
* `get_snapshot` is two exchanges on the REQ socket, for the levels and for the top of book.
  While one is under way the subscriber is blocked in it (`Phase.waiting`); an exchange that fails
  makes `get_snapshot` return false, which the run loop ignores and the constructor answers with
  an exception.
* `receive` is one message in the run loop, with the event it hands to the ring. -/

namespace Trading

/-! ### The local book -/

/-- The order of `std::pair<Side, PriceTicks>`. -/
def levelLt (a b : LevelKey) : Prop := a.1 < b.1 ∨ a.1 = b.1 ∧ a.2 < b.2

instance : DecidableRel levelLt := fun a b =>
  inferInstanceAs (Decidable (a.1 < b.1 ∨ a.1 = b.1 ∧ a.2 < b.2))

instance : IsStrictTotalOrder LevelKey levelLt where
  trichotomous a b hab hba := by
    obtain ⟨a1, a2⟩ := a
    obtain ⟨b1, b2⟩ := b
    simp only [levelLt, UInt8.lt_iff_toNat_lt, not_or, not_and, not_lt] at hab hba
    have h1 : a1 = b1 := UInt8.toNat_inj.mp (by omega)
    exact Prod.ext h1 (le_antisymm (hba.2 h1.symm) (hab.2 h1))
  irrefl a h := by
    rcases h with h | ⟨-, h⟩
    · rw [UInt8.lt_iff_toNat_lt] at h
      omega
    · exact lt_irrefl _ h
  trans a b c hab hbc := by
    simp only [levelLt, UInt8.lt_iff_toNat_lt] at hab hbc ⊢
    rcases hab with hab | ⟨hab, hab'⟩
    · rcases hbc with hbc | ⟨hbc, -⟩
      · exact .inl (by omega)
      · exact .inl (by rwa [← hbc])
    · rcases hbc with hbc | ⟨hbc, hbc'⟩
      · exact .inl (by rwa [hab])
      · exact .inr ⟨hab.trans hbc, hab'.trans hbc'⟩

abbrev LevelMap := OrdMap levelLt (ℕ × ℕ)

structure LocalBook where
  tob : TopOfBook := {}
  levels : LevelMap := .empty
  lastL2 : ℕ := 0
  lastL1 : ℕ := 0
deriving DecidableEq

/-- A row of a snapshot put into the levels, unless it has no quantity. -/
def putRow (m : LevelMap) (r : LevelSummary) : LevelMap :=
  if r.aggQty ≠ 0 then m.set (r.side, r.price) (r.aggQty, r.orderCount) else m

namespace LocalBook

def table (b : LocalBook) : LevelTable := b.levels.find?

/-- `apply_l1`: only what is strictly newer. -/
def applyL1 (b : LocalBook) (p : L1Payload) (seq : ℕ) : LocalBook :=
  if seq ≤ b.lastL1 then b else { b with tob := p.tob, lastL1 := seq }

/-- `apply_l2_delta`. -/
def applyL2Delta (b : LocalBook) (d : L2DeltaPayload) (seq : ℕ) : LocalBook :=
  let key := (d.side, d.price)
  { b with
    levels := if d.action = kErase then b.levels.erase key
      else b.levels.set key (d.aggQty, d.orderCount)
    lastL2 := seq }

/-- The L2 part of `get_snapshot`. -/
def storeL2 (b : LocalBook) (seqno : ℕ) (rows : List LevelSummary) : LocalBook :=
  { b with levels := rows.foldl putRow .empty, lastL2 := seqno }

/-- The levels of a side, best first. -/
def side (b : LocalBook) (s : Side) : List (PriceTicks × (ℕ × ℕ)) :=
  let es := (b.levels.entries.filter fun e => e.1.1 = s.toByte).map fun e => (e.1.2, e.2)
  match s with
  | .bid => es.reverse
  | .ask => es

end LocalBook

/-! ### The subscriber -/

inductive Phase where
  | running
  | waiting (r : SnapRequest) (reply : Option SnapReply)
deriving DecidableEq

/-- A subscriber; `up` once its constructor has returned. -/
structure Subscriber where
  symbol : String
  depth : ℕ
  book : LocalBook
  phase : Phase
  up : Bool
deriving DecidableEq

namespace Subscriber

def askL2 (s : Subscriber) : Subscriber := { s with phase := .waiting ⟨"L2", s.symbol, s.depth⟩ none }

def askL1 (s : Subscriber) : Subscriber := { s with phase := .waiting ⟨"L1", s.symbol, s.depth⟩ none }

/-- The constructor, which asks for the initial snapshot. -/
def start (symbol : String) (depth : ℕ) : Subscriber := askL2 ⟨symbol, depth, {}, .running, false⟩

/-- A message in the run loop, and the event handed to the ring. -/
def receive (s : Subscriber) : MDEvent → Subscriber × Option MDEvent
  | .l2Delta seqno d =>
      if seqno ≤ s.book.lastL2 then (s, none)
      else if seqno ≠ s.book.lastL2 + 1 then (s.askL2, none)
      else ({ s with book := s.book.applyL2Delta d seqno }, some (.l2Delta seqno d))
  | .l1 seqno p => ({ s with book := s.book.applyL1 p seqno }, some (.l1 seqno p))

/-- The exchange under way fails. -/
def giveUp (s : Subscriber) : Option Subscriber :=
  if s.up then some { s with phase := .running } else none

/-- The reply to the request `r`.  An L2 exchange with another kind of reply fails; an L1 exchange
does not look at the kind, and a frame that is too short throws. -/
def store (s : Subscriber) (r : SnapRequest) : SnapReply → Option Subscriber
  | .l2 seqno _ rows =>
      if r.stream = "L2" then some { s with book := s.book.storeL2 seqno rows }.askL1 else none
  | .l1 seqno p =>
      if r.stream = "L2" then s.giveUp
      else some { s with book := s.book.applyL1 p seqno, phase := .running, up := true }

end Subscriber

/-! ### The levels after an update -/

/-- A delta is a change of the levels in the map. -/
theorem find?_delta (m : LevelMap) (d : L2DeltaPayload) :
    (if d.action = kErase then m.erase (d.side, d.price)
      else m.set (d.side, d.price) (d.aggQty, d.orderCount)).find? = d.change.apply m.find? := by
  funext k
  unfold L2DeltaPayload.change Replication.Change.apply
  by_cases ha : d.action = kErase
  · simp only [if_pos ha, OrdMap.find?_erase]
  · simp only [if_neg ha, OrdMap.find?_set]

namespace LocalBook
variable {b : LocalBook}

theorem table_applyL2Delta (d : L2DeltaPayload) (seq : ℕ) :
    (b.applyL2Delta d seq).table = d.change.apply b.table := find?_delta b.levels d

@[simp] theorem levels_applyL1 (p : L1Payload) (seq : ℕ) :
    (b.applyL1 p seq).levels = b.levels := by
  unfold applyL1
  split_ifs <;> rfl

@[simp] theorem table_applyL1 (p : L1Payload) (seq : ℕ) : (b.applyL1 p seq).table = b.table := by
  rw [table, levels_applyL1, table]

@[simp] theorem lastL2_applyL1 (p : L1Payload) (seq : ℕ) :
    (b.applyL1 p seq).lastL2 = b.lastL2 := by
  unfold applyL1
  split_ifs <;> rfl

theorem lastL1_le_applyL1 (p : L1Payload) (seq : ℕ) : b.lastL1 ≤ (b.applyL1 p seq).lastL1 := by
  unfold applyL1
  split_ifs with h
  · exact le_rfl
  · exact (not_le.mp h).le

theorem find?_putRow (m : LevelMap) (r : LevelSummary) (k : LevelKey) : (putRow m r).find? k =
    if r.aggQty ≠ 0 ∧ k = (r.side, r.price) then some (r.aggQty, r.orderCount) else m.find? k := by
  unfold putRow
  split_ifs with hq hk hk
  · rw [hk.2, OrdMap.find?_set_self]
  · rw [OrdMap.find?_set, if_neg fun he => hk ⟨hq, he⟩]
  · exact absurd hk.1 hq
  · rfl

/-- What a snapshot leaves in the levels are rows of it with quantity. -/
theorem mem_of_storeL2 {seqno : ℕ} {rows : List LevelSummary} {k : LevelKey} {v : ℕ × ℕ}
    (h : (b.storeL2 seqno rows).table k = some v) :
    ∃ r ∈ rows, r.aggQty ≠ 0 ∧ k = (r.side, r.price) ∧ v = (r.aggQty, r.orderCount) := by
  change (rows.foldl putRow .empty).find? k = some v at h
  induction rows using List.reverseRecOn with
  | nil => cases h
  | append_singleton rows r ih =>
      rw [List.foldl_concat, find?_putRow] at h
      split_ifs at h with hk
      · exact ⟨r, List.mem_append_right _ (List.mem_singleton_self r), hk.1, hk.2,
          (Option.some_inj.mp h).symm⟩
      · obtain ⟨r', hr', h'⟩ := ih h
        exact ⟨r', List.mem_append_left _ hr', h'⟩

/-- A snapshot without repeated keys leaves all its rows with quantity. -/
theorem storeL2_of_mem {seqno : ℕ} {rows : List LevelSummary} {r : LevelSummary}
    (hkeys : (rows.map fun r => (r.side, r.price)).Nodup) (hr : r ∈ rows) (hq : r.aggQty ≠ 0) :
    (b.storeL2 seqno rows).table (r.side, r.price) = some (r.aggQty, r.orderCount) := by
  show (rows.foldl putRow .empty).find? (r.side, r.price) = _
  induction rows using List.reverseRecOn with
  | nil => cases hr
  | append_singleton rows r' ih =>
      rw [List.map_append, List.nodup_append] at hkeys
      obtain ⟨hnodup, -, hdisj⟩ := hkeys
      rw [List.foldl_concat, find?_putRow]
      rcases List.mem_append.mp hr with hr | hr
      · have hne : (r.side, r.price) ≠ (r'.side, r'.price) :=
          hdisj _ (List.mem_map_of_mem hr) _ (List.mem_singleton_self _)
        rw [if_neg fun hk => hne hk.2]
        exact ih hnodup hr
      · obtain rfl := List.mem_singleton.mp hr
        rw [if_pos ⟨hq, rfl⟩]

end LocalBook

end Trading
