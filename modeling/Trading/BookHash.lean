import Trading.L2Book
import Trading.Lists

/-! # What the book hash is fed

The words that `hashL2(0)` mixes in, as a reading of the L2 levels: three for a level, the bids and
then the asks, with nothing between the sides.  The bids descend and the asks ascend, so that only
the level where one turns into the other can be on either side (`hashedWords_ne_iff`). -/

namespace Trading
namespace OrderBook

/-- The words that `hashL2(0)` feeds to `mix`. -/
def hashedWords (b : OrderBook) : List UInt64 :=
  hashWords 0 b.bids.entries ++ hashWords 0 b.asks.entries

theorem hashL2_zero (b : OrderBook) :
    b.hashL2 0 = b.hashedWords.foldl mix 0xcbf29ce484222325 := rfl

/-- The levels of a book. -/
def levelSet (b : OrderBook) : Set (Side × PriceTicks × (ℕ × ℕ)) :=
  {x | (b.level? x.1 x.2.1).map Level.pair = some x.2.2}

/-- The arguments of the operation fit their types, `Qty` and `std::uint32_t`. -/
def L2Op.Fits : L2Op → Prop
  | .upsertLevel _ _ qty cnt => qty < 2 ^ 64 ∧ cnt < 2 ^ 32
  | .eraseLevel .. => True

/-- `b'` is `b` with the lowest bid as the best ask. -/
def Moved (b b' : OrderBook) : Prop :=
  ∃ e, b.ladder .bid = b'.ladder .bid ++ [e] ∧ b'.ladder .ask = e :: b.ladder .ask

/-- The words of a level. -/
def levelWords (e : PriceTicks × (ℕ × ℕ)) : List UInt64 :=
  [e.1.toUInt64, UInt64.ofNat e.2.1, UInt64.ofNat e.2.2]

section words
variable {b b' : OrderBook} {t : LevelFun} {s : Side} {es es' : List (PriceTicks × (ℕ × ℕ))}

theorem hashedWords_eq (b : OrderBook) :
    b.hashedWords = (b.ladder .bid ++ b.ladder .ask).flatMap levelWords := by
  rw [List.flatMap_append, ladder, ladder, List.flatMap_map, List.flatMap_map]
  rfl

/-- Levels that fit are told apart by their words. -/
theorem levelWords_inj {e e' : PriceTicks × (ℕ × ℕ)} (he : e.2.1 < 2 ^ 64 ∧ e.2.2 < 2 ^ 32)
    (he' : e'.2.1 < 2 ^ 64 ∧ e'.2.2 < 2 ^ 32) (h : levelWords e = levelWords e') : e = e' := by
  obtain ⟨px, qty, cnt⟩ := e
  obtain ⟨px', qty', cnt'⟩ := e'
  obtain ⟨hpx, hrest⟩ := List.cons.inj h
  obtain ⟨hqty, hrest⟩ := List.cons.inj hrest
  obtain ⟨hcnt, -⟩ := List.cons.inj hrest
  dsimp only at hpx hqty hcnt he he'
  have hq := congrArg UInt64.toNat hqty
  have hc := congrArg UInt64.toNat hcnt
  rw [UInt64.toNat_ofNat_of_lt' he.1, UInt64.toNat_ofNat_of_lt' he'.1] at hq
  rw [UInt64.toNat_ofNat_of_lt' (he.2.trans (by decide)),
    UInt64.toNat_ofNat_of_lt' (he'.2.trans (by decide))] at hc
  have hp : px = px' := congrArg Int64.ofUInt64 hpx
  rw [hp, hq, hc]

/-- The levels of a side are those of one list only. -/
theorem Ladder.unique (h : Ladder t s es) (h' : Ladder t s es') : es = es' := by
  have hfind : ∀ {es} (h : Ladder t s es) px,
      (⟨es, h.sorted⟩ : OrdMap (Better s) (ℕ × ℕ)).find? px = t s px := fun h px =>
    Option.ext fun v => ((OrdMap.mem_entries_iff _).symm.trans (h.mem px v))
  exact congrArg OrdMap.entries (OrdMap.ext_find? fun px => (hfind h px).trans (hfind h' px).symm)

theorem levelSet_eq_iff : b.levelSet = b'.levelSet ↔ ∀ s, b.ladder s = b'.ladder s := by
  constructor
  · intro h s
    have hlevel : ∀ s px, (b'.level? s px).map Level.pair = (b.level? s px).map Level.pair :=
      fun s px => Option.ext fun v => (Set.ext_iff.mp h (s, px, v)).symm
    exact (ladder_of_level (fun _ _ => rfl) s).unique (ladder_of_level hlevel s)
  · intro h
    ext ⟨s, px, v⟩
    have hb := (ladder_of_level (b := b) (fun _ _ => rfl) s).mem px v
    have hb' := (ladder_of_level (b := b') (fun _ _ => rfl) s).mem px v
    rw [h s] at hb
    exact hb.symm.trans hb'

/-- The levels of a book fit if the arguments of its operations do. -/
theorem fits_ladder {ops : List L2Op} (hops : ∀ op ∈ ops, op.Fits) {e : PriceTicks × (ℕ × ℕ)}
    (he : e ∈ (ops.foldl applyL2 empty).ladder s) : e.2.1 < 2 ^ 64 ∧ e.2.2 < 2 ^ 32 := by
  have hlast := ((ladder_of_level (level?_foldl ops) s).mem e.1 e.2).mp he
  exact hops _ (exists_upsert_of_lastWrite hlast).1

theorem hashedWords_of_moved (h : Moved b b') : b.hashedWords = b'.hashedWords := by
  obtain ⟨e, hbid, hask⟩ := h
  rw [hashedWords_eq, hashedWords_eq, hbid, hask, List.append_assoc, List.singleton_append]

theorem levelSet_ne_of_moved (h : Moved b b') : b.levelSet ≠ b'.levelSet := by
  obtain ⟨e, hbid, -⟩ := h
  intro hset
  have hlen := congrArg List.length (levelSet_eq_iff.mp hset .bid)
  rw [hbid, List.length_append, List.length_singleton] at hlen
  omega

/-- Different levels are fed differently, unless one level has changed sides at the touch. -/
theorem hashedWords_ne_iff (ops ops' : List L2Op) (hops : ∀ op ∈ ops, op.Fits)
    (hops' : ∀ op ∈ ops', op.Fits) :
    let b := ops.foldl applyL2 empty
    let b' := ops'.foldl applyL2 empty
    (b.levelSet ≠ b'.levelSet → b.hashedWords ≠ b'.hashedWords) ↔
      ¬ Moved b b' ∧ ¬ Moved b' b := by
  intro b b'
  constructor
  · intro h
    exact ⟨fun hm => h (levelSet_ne_of_moved hm) (hashedWords_of_moved hm),
      fun hm => h (levelSet_ne_of_moved hm).symm (hashedWords_of_moved hm).symm⟩
  · rintro ⟨hno, hno'⟩ hset hwords
    have hfits : ∀ e ∈ b.ladder .bid ++ b.ladder .ask, e.2.1 < 2 ^ 64 ∧ e.2.2 < 2 ^ 32 :=
      fun e he => (List.mem_append.mp he).elim (fits_ladder hops) (fits_ladder hops)
    have hfits' : ∀ e ∈ b'.ladder .bid ++ b'.ladder .ask, e.2.1 < 2 ^ 64 ∧ e.2.2 < 2 ^ 32 :=
      fun e he => (List.mem_append.mp he).elim (fits_ladder hops') (fits_ladder hops')
    rw [hashedWords_eq, hashedWords_eq] at hwords
    have hlevels := Lists.flatMap_inj (f := levelWords) (n := 3) (by decide) (fun _ => rfl)
      (fun e he e' he' => levelWords_inj (hfits e he) (hfits' e' he')) hwords
    have hsorted : ∀ (b : OrderBook) s, Ladder (fun s px => (b.level? s px).map Level.pair) s
        (b.ladder s) := fun b s => ladder_of_level (fun _ _ => rfl) s
    obtain ⟨hbid, hask⟩ | ⟨e, hbid, hask⟩ | ⟨e, hbid, hask⟩ := Lists.eq_or_shifted
      (fun e e' => not_lt_of_gt) (hsorted b .bid).sorted (hsorted b' .bid).sorted
      (hsorted b .ask).sorted (hsorted b' .ask).sorted hlevels
    · exact hset (levelSet_eq_iff.mpr fun s => by cases s <;> assumption)
    · exact hno' ⟨e, hbid, hask⟩
    · exact hno ⟨e, hbid, hask⟩

/-- Another quantity is another sequence of words. -/
theorem hashedWords_ne_iff_qty :
    ([L2Op.upsertLevel .bid 100 5 1].foldl applyL2 empty).hashedWords ≠
      ([L2Op.upsertLevel .bid 100 6 1].foldl applyL2 empty).hashedWords := by
  have hasks : ∀ qty ∈ [5, 6],
      ([L2Op.upsertLevel .bid 100 qty 1].foldl applyL2 empty).ladder .ask = [] := by decide
  refine (hashedWords_ne_iff [.upsertLevel .bid 100 5 1] [.upsertLevel .bid 100 6 1]
    (by simp [L2Op.Fits]) (by simp [L2Op.Fits])).mpr ⟨?_, ?_⟩ ?_
  · rintro ⟨e, -, hask⟩
    exact absurd ((hasks 6 (by decide)).symm.trans hask) (by simp)
  · rintro ⟨e, -, hask⟩
    exact absurd ((hasks 5 (by decide)).symm.trans hask) (by simp)
  · intro h
    exact absurd (levelSet_eq_iff.mp h .bid) (by decide)

/-- A bid, and an ask at the same price. -/
theorem hashedWords_bid_ask :
    ¬ (([L2Op.upsertLevel .bid 100 5 1].foldl applyL2 empty).levelSet ≠
        ([L2Op.upsertLevel .ask 100 5 1].foldl applyL2 empty).levelSet →
      ([L2Op.upsertLevel .bid 100 5 1].foldl applyL2 empty).hashedWords ≠
        ([L2Op.upsertLevel .ask 100 5 1].foldl applyL2 empty).hashedWords) := by
  intro h
  refine h (fun hset => ?_) (by decide)
  exact absurd (levelSet_eq_iff.mp hset .bid) (by decide)

end words

end OrderBook
end Trading
