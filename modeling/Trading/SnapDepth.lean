import Trading.CrossValidation
import Trading.SnapCodec

/-! # The depth of a comparison

A depth on its way through one round of the cross-validator: printed into the request, read and
clamped by the snapshot service, which serves and echoes it, and limited by the depth asked for
before the validator cuts its own book with it.  Both cuts are of one book here, so that the round
should find no mismatch; `agrees_iff` says at which depths it does. -/

namespace Trading

open Transition (run run_append_of_eq_some)

/-! ### Two cuts of one book -/

namespace Book
variable (b : Book) {d d' : ℕ}

theorem length_topLevels (d : ℕ) : (b.topLevels d).length =
    min d (b.levels .bid).length + min d (b.levels .ask).length := by
  rw [topLevels, List.length_append, List.length_map, List.length_map, List.length_take,
    List.length_take]
  rfl

/-- A deeper cut has the same rows if there is nothing below. -/
theorem topLevels_same_iff (hd : d ≤ d') : (∀ r, r ∈ b.topLevels d' ↔ r ∈ b.topLevels d) ↔
    d' ≤ d ∨ ∀ s, (b.levels s).length ≤ d := by
  constructor
  · intro h
    have hperm := (List.perm_ext_iff_of_nodup (b.keys_topLevels_nodup d').of_map
      (b.keys_topLevels_nodup d).of_map).mpr h
    have hlen := hperm.length_eq
    rw [length_topLevels, length_topLevels] at hlen
    by_cases hle : d' ≤ d
    · exact .inl hle
    · refine .inr fun s => ?_
      cases s <;> omega
  · rintro (hle | hshort) r
    · rw [Nat.le_antisymm hle hd]
    · rw [mem_topLevels_iff, mem_topLevels_iff]
      simp only [List.take_of_length_le ((hshort _).trans hd), List.take_of_length_le (hshort _)]

end Book

/-! ### A round -/

namespace CrossValidator

/-- Between two rounds, with no reply outstanding. -/
structure Ready (v : CrossValidator) : Prop where
  head : v.phase = .head
  accepts : v.socket.refused = false
  settled : v.socket.pending = 0

/-- The inputs of a round: the reply arrives, the consumer is found to have applied `n`, and the book
is then `ob`. -/
def wholeRound (frames : List Frame) (n : ℕ) (ob : OrderBook) : List Input :=
  .send :: (frames.map fun f => .recv (some f)) ++ [.poll n, .snapshot ob]

/-- A round finds no mismatch between the reply from `b` and the book `ob`. -/
def Agrees (v : CrossValidator) (b : Book) (ob : OrderBook) : Prop :=
  ∀ r n v', decodeSnapReq (encodeSnapReq v.request) = some r → b.seqno ≤ n →
    run step v (wholeRound (b.reply r).frames n ob) = some v' → v'.xvalMismatchLevels = 0

section rounds
variable {v : CrossValidator} {b : Book} {ob : OrderBook} {r : SnapRequest} {n : ℕ}

theorem run_wholeRound (hv : v.Ready) (hr : r.stream = "L2") (hn : b.seqno ≤ n) :
    run step v (wholeRound (b.reply r).frames n ob) = some { v with
      xvalRuns := v.xvalRuns + 1
      xvalMismatchLevels := (diffLevels (b.topLevels (max 1 r.depth))
        (ob.snapshotL2 (min v.depth (max 1 r.depth))) (some []) 3).mismatches } := by
  obtain ⟨symbol, depth, ⟨pending, refused⟩, phase, runs, levels⟩ := v
  obtain ⟨rfl, rfl, rfl⟩ := hv
  have hframes : (b.reply r).frames = [.header .l2Snap b.seqno, .snapHeader (max 1 r.depth),
      .levels (b.topLevels (max 1 r.depth))] := by
    rw [Book.reply, if_neg (by rw [hr]; decide)]
    rfl
  have hreceived : run step ⟨symbol, depth, {}, .head, runs, levels⟩
      (.send :: (b.reply r).frames.map fun f => .recv (some f)) =
        some ⟨symbol, depth, {},
          .wait b.seqno (max 1 r.depth) (b.topLevels (max 1 r.depth)), runs, levels⟩ := by
    rw [hframes]
    rfl
  have hpoll : step ⟨symbol, depth, {},
      .wait b.seqno (max 1 r.depth) (b.topLevels (max 1 r.depth)), runs, levels⟩ (.poll n) =
        some ⟨symbol, depth, {},
          .look b.seqno (max 1 r.depth) (b.topLevels (max 1 r.depth)), runs, levels⟩ := by
    have hwait : ¬ Waits n b.seqno := not_lt.mpr hn
    simp [step, hwait]
  rw [wholeRound, run_append_of_eq_some hreceived]
  show (step _ _).bind _ = _
  rw [hpoll]
  rfl

/-- The mismatches of a round of like books are what the deeper cut has more. -/
theorem mismatches_wholeRound_iff (hbooks : ob.table = b.table) (depth served : ℕ) :
    (diffLevels (b.topLevels served) (ob.snapshotL2 (min depth served)) (some []) 3).mismatches = 0 ↔
      served ≤ depth ∨ ∀ s, (b.levels s).length ≤ depth := by
  rw [OrderBook.snapshotL2_eq_topLevels hbooks,
    mismatches_eq_zero_iff (b.keys_topLevels_nodup _),
    b.topLevels_same_iff (Nat.min_le_right depth served)]
  rcases le_total served depth with hle | hle
  · rw [Nat.min_eq_right hle]
    exact iff_of_true (.inl le_rfl) (.inl hle)
  · rw [Nat.min_eq_left hle]

/-- The cuts agree if the service reads no greater depth than the one asked for, or there is nothing
below it. -/
theorem agrees_iff_of_decode (hv : v.Ready) (hbooks : ob.table = b.table) : v.Agrees b ob ↔
    ∀ r, decodeSnapReq (encodeSnapReq v.request) = some r →
      max 1 r.depth ≤ v.depth ∨ ∀ s, (b.levels s).length ≤ v.depth := by
  have hL2 : ∀ r, decodeSnapReq (encodeSnapReq v.request) = some r → r.stream = "L2" := fun r hr =>
    stream_decode_encode (show ' ' ∉ "L2".toList by decide) hr
  refine forall_congr' fun r => ?_
  constructor
  · intro h hr
    exact (mismatches_wholeRound_iff hbooks _ _).mp
      (h _ _ hr le_rfl (run_wholeRound hv (hL2 r hr) le_rfl))
  · intro h n v' hr hn hrun
    rw [run_wholeRound hv (hL2 r hr) hn, Option.some_inj] at hrun
    rw [← hrun]
    exact (mismatches_wholeRound_iff hbooks _ _).mpr (h hr)

/-- **The depths at which a round of like books finds no mismatch**: for a symbol without a space all
but 0, at which the service serves a level and the validator looks at none. -/
theorem agrees_iff (hv : v.Ready) (hdepth : v.depth < 2 ^ 32) (hbooks : ob.table = b.table) :
    (v.Agrees b ob ↔ ∀ r, decodeSnapReq (encodeSnapReq v.request) = some r →
      max 1 r.depth ≤ v.depth ∨ ∀ s, (b.levels s).length ≤ v.depth) ∧
    (' ' ∉ v.symbol.toList → (v.Agrees b ob ↔ 1 ≤ v.depth ∨ ∀ s, b.levels s = [])) := by
  refine ⟨agrees_iff_of_decode hv hbooks, fun hsymbol => ?_⟩
  have hdecode : decodeSnapReq (encodeSnapReq v.request) = some v.request :=
    decode_encode v.request (show ' ' ∉ "L2".toList by decide) hsymbol hdepth
  rw [agrees_iff_of_decode hv hbooks, hdecode]
  constructor
  · intro h
    obtain hle | hshort := h _ rfl
    · exact .inl ((Nat.le_max_left 1 _).trans hle)
    · rcases Nat.eq_zero_or_pos v.depth with h0 | hpos
      · exact .inr fun s => List.length_eq_zero_iff.mp (Nat.le_zero.mp (h0 ▸ hshort s))
      · exact .inl hpos
  · rintro h r hr
    obtain rfl := Option.some_inj.mp hr
    obtain hpos | hempty := h
    · exact .inl (max_le hpos le_rfl)
    · exact .inr fun s => by rw [hempty s]; exact Nat.zero_le _

/-- A bid at 100. -/
def oneBid : Book := (Book.empty 1).upsertLevel .bid 100 5 1

theorem agrees_two : (start "ETH-USD" 2).Agrees oneBid oneBid.mirror :=
  ((agrees_iff ⟨rfl, rfl, rfl⟩ (by decide) oneBid.table_mirror).2 (by decide)).mpr (.inl (by decide))

/-- Depth 0. -/
theorem not_agrees_zero : ¬ (start "ETH-USD" 0).Agrees oneBid oneBid.mirror := by
  intro h
  have hmismatches := h ⟨"L2", "ETH-USD", 0⟩ 1 _ (by decide) (by decide) rfl
  exact absurd hmismatches (by decide)

end rounds
end CrossValidator
end Trading
