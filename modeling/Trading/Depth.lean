import Trading.Feed

/-! # The best levels of the replica

A snapshot has the best `depth` levels of each side, and deltas address any level.  Every update
keeps the best levels of the replica and of the simulator's book at `last_l2` alike, but one: the
erasure of one of them moves up the next level, which the subscriber has only if a delta has told it
about that level.  A snapshot makes them alike if it is as deep as the subscriber wants it, which a
request under a symbol with a space may not be decoded to.  `complete_iff` says that this is exactly
when the replica is complete to its depth; `fathoms_of_decode` that the request of any other symbol
is served at its depth. -/

namespace Trading

open Replication (Change)
open Transition (run_preserves States Along states_iff_along_state)

/-! ### One side of a book -/

/-- The levels of a side, best first, with their quantities and order counts. -/
def Book.side (b : Book) (s : Side) : List (PriceTicks × (ℕ × ℕ)) :=
  (b.levels s).map fun e => (e.1, e.2.pair)

abbrev SideMap (s : Side) := OrdMap (Better s) (ℕ × ℕ)

section sides
variable {s : Side} {px : PriceTicks} {v : ℕ × ℕ}

theorem Book.mem_side_iff {b : Book} : (px, v) ∈ b.side s ↔ b.table (s.toByte, px) = some v := by
  rw [table_toByte, Option.map_eq_some_iff]
  constructor
  · intro h
    obtain ⟨⟨px', l⟩, hl, he⟩ := List.mem_map.mp h
    obtain ⟨rfl, rfl⟩ := Prod.mk.inj he
    exact ⟨l, (b.mem_levels_iff s px').mp hl, rfl⟩
  · intro h
    obtain ⟨l, hl, rfl⟩ := h
    exact List.mem_map.mpr ⟨(px, l), (b.mem_levels_iff s px).mpr hl, rfl⟩

theorem Book.side_sorted (b : Book) (s : Side) :
    (b.side s).Pairwise fun e e' => Better s e.1 e'.1 := by
  cases s
  · exact List.pairwise_map.mpr b.bids.sorted
  · exact List.pairwise_map.mpr b.asks.sorted

theorem LocalBook.mem_side_iff {b : LocalBook} :
    (px, v) ∈ b.side s ↔ b.table (s.toByte, px) = some v := by
  have hmem : (px, v) ∈ b.side s ↔
      (px, v) ∈ (b.levels.entries.filter fun e => e.1.1 = s.toByte).map fun e => (e.1.2, e.2) := by
    cases s
    · exact List.mem_reverse
    · exact Iff.rfl
  rw [hmem, table, ← b.levels.mem_entries_iff]
  constructor
  · intro h
    obtain ⟨⟨⟨t, px'⟩, v'⟩, he, heq⟩ := List.mem_map.mp h
    obtain ⟨rfl, rfl⟩ := Prod.mk.inj heq
    obtain ⟨he, ht⟩ := List.mem_filter.mp he
    obtain rfl := of_decide_eq_true ht
    exact he
  · intro h
    exact List.mem_map.mpr ⟨((s.toByte, px), v), List.mem_filter.mpr ⟨h, decide_eq_true rfl⟩, rfl⟩

theorem LocalBook.side_sorted (b : LocalBook) (s : Side) :
    (b.side s).Pairwise fun e e' => Better s e.1 e'.1 := by
  have hasc : ((b.levels.entries.filter fun e => e.1.1 = s.toByte).map
      fun e => (e.1.2, e.2)).Pairwise fun e e' => e.1 < e'.1 := by
    refine List.pairwise_map.mpr ((b.levels.sorted.filter _).imp_of_mem ?_)
    intro x y hx hy hxy
    have hx' : x.1.1 = s.toByte := of_decide_eq_true (List.mem_filter.mp hx).2
    have hy' : y.1.1 = s.toByte := of_decide_eq_true (List.mem_filter.mp hy).2
    rcases hxy with h | ⟨-, h⟩
    · rw [hx', hy', UInt8.lt_iff_toNat_lt] at h
      omega
    · exact h
  cases s
  · exact List.pairwise_reverse.mpr hasc
  · exact hasc

/-- The levels of a side as a map. -/
def Book.sideMap (b : Book) (s : Side) : SideMap s := ⟨b.side s, b.side_sorted s⟩

def LocalBook.sideMap (b : LocalBook) (s : Side) : SideMap s := ⟨b.side s, b.side_sorted s⟩

/-- `m` has the levels of a side of `t`. -/
def IsSide (m : SideMap s) (t : LevelTable) : Prop := ∀ px, m.find? px = t (s.toByte, px)

theorem isSide_of_mem {m : SideMap s} {t : LevelTable}
    (h : ∀ px v, (px, v) ∈ m.entries ↔ t (s.toByte, px) = some v) : IsSide m t := by
  intro px
  apply Option.ext
  intro v
  rw [← h px v, m.mem_entries_iff]

theorem Book.isSide (b : Book) (s : Side) : IsSide (b.sideMap s) b.table :=
  isSide_of_mem fun _ _ => mem_side_iff

theorem LocalBook.isSide (b : LocalBook) (s : Side) : IsSide (b.sideMap s) b.table :=
  isSide_of_mem fun _ _ => mem_side_iff

/-- What a change does to one side. -/
theorem IsSide.change {m n : SideMap s} {t : LevelTable} {c : Change LevelKey (ℕ × ℕ)}
    (hm : IsSide m t) (hn : IsSide n (c.apply t)) :
    n = if c.key.1 = s.toByte then
        match c.value with
        | none => m.erase c.key.2
        | some v => m.set c.key.2 v
      else m := by
  apply OrdMap.ext_find?
  intro px
  rw [hn px]
  by_cases hs : c.key.1 = s.toByte
  · rw [if_pos hs]
    by_cases hpx : px = c.key.2
    · have hk : (s.toByte, px) = c.key := Prod.ext hs.symm hpx
      rw [hk, Change.apply_self]
      cases c.value with
      | none => rw [hpx, OrdMap.find?_erase_self]
      | some v => rw [hpx, OrdMap.find?_set_self]
    · have hk : (s.toByte, px) ≠ c.key := fun hk => hpx (congrArg Prod.snd hk)
      rw [Change.apply_ne hk]
      cases c.value with
      | none => rw [OrdMap.find?_erase, if_neg hpx, hm px]
      | some v => rw [OrdMap.find?_set, if_neg hpx, hm px]
  · have hk : (s.toByte, px) ≠ c.key := fun hk => hs (congrArg Prod.fst hk).symm
    rw [if_neg hs, Change.apply_ne hk, hm px]

/-- Two sides with the same best levels, after a common change: only an erasure among the best
levels matters, and then the next level. -/
theorem take_change_iff {m m' n n' : SideMap s} {t t' : LevelTable} {c : Change LevelKey (ℕ × ℕ)}
    {d : ℕ} (h : m.entries.take d = m'.entries.take d) (hm : IsSide m t) (hm' : IsSide m' t')
    (hn : IsSide n (c.apply t)) (hn' : IsSide n' (c.apply t')) :
    n.entries.take d = n'.entries.take d ↔
      (c.key.1 = s.toByte → c.value = none → (∃ e ∈ m.entries.take d, e.1 = c.key.2) →
        m.entries[d]? = m'.entries[d]?) := by
  rw [hm.change hn, hm'.change hn']
  by_cases hs : c.key.1 = s.toByte
  · rw [if_pos hs, if_pos hs]
    cases c.value with
    | none =>
        dsimp only
        rw [OrdMap.take_erase_iff h]
        exact ⟨fun hf _ _ => hf, fun hf => hf hs rfl⟩
    | some v => exact ⟨fun _ _ hv => (by cases hv), fun _ => OrdMap.take_set h _ _⟩
  · rw [if_neg hs, if_neg hs]
    exact ⟨fun _ hs' => absurd hs' hs, fun _ => h⟩

theorem IsSide.unique {m n : SideMap s} {t : LevelTable} (hm : IsSide m t) (hn : IsSide n t) :
    m = n := OrdMap.ext_find? fun px => (hm px).trans (hn px).symm

end sides

/-! ### A snapshot -/

theorem Book.keys_topLevels_nodup (b : Book) (depth : ℕ) :
    ((b.topLevels depth).map fun r => (r.side, r.price)).Nodup := by
  have hside : ∀ s, (((b.levels s).take depth).map fun e => (Side.toByte s, e.1)).Nodup := by
    intro s
    refine List.pairwise_map.mpr (List.Pairwise.take ?_)
    have hkeys := List.pairwise_map.mp (b.sideMap s).keys_nodup
    refine (List.pairwise_map.mp hkeys).imp fun hne he => hne (Prod.mk.inj he).2
  unfold topLevels
  rw [List.map_append, List.map_map, List.map_map, List.nodup_append]
  refine ⟨hside .bid, hside .ask, ?_⟩
  intro x hx y hy he
  obtain ⟨e, -, rfl⟩ := List.mem_map.mp hx
  obtain ⟨e', -, rfl⟩ := List.mem_map.mp hy
  have hbyte : Side.toByte .bid = Side.toByte .ask := (Prod.mk.inj he).1
  cases Side.toByte_inj.mp hbyte

/-- A snapshot leaves exactly the best levels. -/
theorem side_storeL2 {b : Book} (hb : b.Stocked) (lb : LocalBook) (n depth : ℕ) (s : Side) :
    (lb.storeL2 n (b.topLevels depth)).side s = (b.side s).take depth := by
  let best : SideMap s := ⟨(b.side s).take depth, (b.side_sorted s).take⟩
  have hbest : IsSide best (lb.storeL2 n (b.topLevels depth)).table := by
    refine isSide_of_mem fun px v => ?_
    show (px, v) ∈ ((b.levels s).map fun e => (e.1, e.2.pair)).take depth ↔ _
    rw [← List.map_take, List.mem_map]
    constructor
    · intro h
      obtain ⟨e, he, heq⟩ := h
      obtain ⟨rfl, rfl⟩ := Prod.mk.inj heq
      have hlevel := (b.mem_levels_iff s e.1).mp (List.mem_of_mem_take he)
      have hrow : Book.row s e ∈ b.topLevels depth := Book.mem_topLevels_iff.mpr ⟨s, e, he, rfl⟩
      exact LocalBook.storeL2_of_mem (b.keys_topLevels_nodup depth) hrow (hb s e.1 e.2 hlevel).ne'
    · intro h
      obtain ⟨r, hr, -, hk, rfl⟩ := LocalBook.mem_of_storeL2 h
      obtain ⟨t, e, he, rfl⟩ := Book.mem_topLevels_iff.mp hr
      obtain ⟨ht, rfl⟩ := Prod.mk.inj hk
      obtain rfl := Side.toByte_inj.mp ht
      exact ⟨e, he, rfl⟩
  exact congrArg OrdMap.entries (((lb.storeL2 n (b.topLevels depth)).isSide s).unique hbest)

namespace Feed

/-! ### Completeness over runs -/

/-- The best `depth` levels of the simulator's book at `last_l2` are those held. -/
def Complete (depth : ℕ) (f : Feed) : Prop :=
  ∃ b : Book, f.sim.past[f.sub.book.lastL2]? = some b ∧
    ∀ s, (f.sub.book.side s).take depth = (b.side s).take depth

/-- If the step erases one of the best `depth` levels of a side, the level after these is held. -/
def Refills (depth : ℕ) (f : Feed) (a : Action) : Prop :=
  ∀ i n d s, ∀ b : Book, a = .receive i → f.sub.phase = .running →
    f.sim.sent[i]? = some (.l2Delta n d) → n = f.sub.book.lastL2 + 1 →
    f.sim.past[f.sub.book.lastL2]? = some b → d.action = kErase → d.side = Side.toByte s →
    (∃ e ∈ (f.sub.book.side s).take depth, e.1 = d.price) →
    (f.sub.book.side s)[depth]? = (b.side s)[depth]?

/-- If the step stores the levels of a snapshot, these go down to `depth` or to the last level of
each side. -/
def Fathoms (depth : ℕ) (f : Feed) (a : Action) : Prop :=
  ∀ r n d rows, ∀ b : Book, a = .store → f.sub.phase = .waiting r (some (.l2 n d rows)) →
    f.sim.past[n]? = some b → depth ≤ d ∨ ∀ s, (b.side s).length ≤ d

/-- Every snapshot is asked for under the subscriber's symbol and at its depth. -/
structure Asks (symbol : String) (depth : ℕ) (f : Feed) : Prop where
  sameSymbol : f.sub.symbol = symbol
  sameDepth : f.sub.depth = depth
  request : ∀ r reply, f.sub.phase = .waiting r reply → r.symbol = symbol ∧ r.depth = depth

section complete
variable {f f' : Feed} {a : Action} {symbol : String} {depth : ℕ}

theorem Asks.step (h : f.Asks symbol depth) (hok : f.Ok) (hs : f.step a = some f') :
    f'.Asks symbol depth := by
  cases moves_of_step hok hs with
  | sim | stale | next | top => exact ⟨h.sameSymbol, h.sameDepth, h.request⟩
  | gap | storeL2 =>
      refine ⟨h.sameSymbol, h.sameDepth, fun r reply hphase => ?_⟩
      obtain ⟨rfl, -⟩ := Phase.waiting.inj hphase
      exact ⟨h.sameSymbol, h.sameDepth⟩
  | @serve r _ hphase =>
      refine ⟨h.sameSymbol, h.sameDepth, fun r' reply hphase' => ?_⟩
      obtain ⟨rfl, -⟩ := Phase.waiting.inj hphase'
      exact h.request r none hphase
  | storeL1 | giveUp => exact ⟨h.sameSymbol, h.sameDepth, fun r reply hphase => by cases hphase⟩

theorem asks_start (tickSize mid : PriceTicks) (symbol : String) (depth : ℕ) :
    (start tickSize mid symbol depth).Asks symbol depth where
  sameSymbol := rfl
  sameDepth := rfl
  request r reply hphase := by
    obtain ⟨rfl, -⟩ := Phase.waiting.inj hphase
    exact ⟨rfl, rfl⟩

/-- A step that leaves the levels alone. -/
theorem complete_congr (hlevels : f'.sub.book.levels = f.sub.book.levels)
    (hlast : f'.sub.book.lastL2 = f.sub.book.lastL2)
    (hpast : ∀ b : Book, f.sim.past[f.sub.book.lastL2]? = some b →
      f'.sim.past[f.sub.book.lastL2]? = some b) (h : f.Complete depth) : f'.Complete depth := by
  obtain ⟨b, hb, hside⟩ := h
  refine ⟨b, by rw [hlast, hpast b hb], fun s => ?_⟩
  rw [← hside s]
  unfold LocalBook.side
  rw [hlevels]

/-- A step that applies no delta meets the condition. -/
theorem refills_of_ne (h : ∀ i n d, a = .receive i → f.sub.phase = .running →
    f.sim.sent[i]? = some (.l2Delta n d) → n ≠ f.sub.book.lastL2 + 1) : f.Refills depth a := by
  intro i n d s b ha hphase hev hn
  exact absurd hn (h i n d ha hphase hev)

/-- What the next delta does to the best levels. -/
theorem complete_next_iff {i n : ℕ} {d : L2DeltaPayload} (h : f.Ok) (hc : f.Complete depth)
    (hphase : f.sub.phase = .running) (hev : f.sim.sent[i]? = some (.l2Delta n d))
    (hn : n = f.sub.book.lastL2 + 1) (heard : List ℕ) :
    Complete depth { f with
      sub := { f.sub with book := f.sub.book.applyL2Delta d n }, heard := heard } ↔
      f.Refills depth (.receive i) := by
  obtain ⟨-, k, b, b', hk, hb, hb', htable⟩ := h.sim.deltas n d (List.mem_of_getElem? hev)
  obtain ⟨b₀, hb₀, hside⟩ := hc
  obtain rfl : k = f.sub.book.lastL2 := by omega
  obtain rfl : b = b₀ := Option.some_inj.mp (hb.symm.trans hb₀)
  have hnow : f.sim.past[n]? = some b' := by rw [hn, hb']
  have hiff : ∀ s, ((f.sub.book.applyL2Delta d n).side s).take depth = (b'.side s).take depth ↔
      (d.change.key.1 = Side.toByte s → d.change.value = none →
        (∃ e ∈ (f.sub.book.side s).take depth, e.1 = d.change.key.2) →
        (f.sub.book.side s)[depth]? = (b.side s)[depth]?) := by
    intro s
    have hbest : (f.sub.book.sideMap s).entries.take depth = (b.sideMap s).entries.take depth :=
      hside s
    have hlb : IsSide ((f.sub.book.applyL2Delta d n).sideMap s) (d.change.apply f.sub.book.table) :=
      LocalBook.table_applyL2Delta d n ▸ LocalBook.isSide _ s
    have hb' : IsSide (b'.sideMap s) (d.change.apply b.table) := htable ▸ b'.isSide s
    exact take_change_iff hbest (f.sub.book.isSide s) (b.isSide s) hlb hb'
  constructor
  · intro h'
    obtain ⟨b₁, hb₁, hside'⟩ := h'
    obtain rfl : b' = b₁ := Option.some_inj.mp (hnow.symm.trans hb₁)
    intro i' n' d' s b₂ ha _ hev' _ hb₂ herase hs hmem
    obtain rfl := Action.receive.inj ha
    obtain ⟨rfl, rfl⟩ := MDEvent.l2Delta.inj (Option.some_inj.mp (hev.symm.trans hev'))
    obtain rfl : b = b₂ := Option.some_inj.mp (hb.symm.trans hb₂)
    exact (hiff s).mp (hside' s) hs (if_pos herase) hmem
  · intro hG
    refine ⟨b', hnow, fun s => (hiff s).mpr fun hs hv hmem => ?_⟩
    refine hG i n d s b rfl hphase hev hn hb ?_ hs hmem
    by_contra hne
    rw [show d.change.value = _ from if_neg hne] at hv
    cases hv

/-- Only messages can erase a level. -/
theorem refills_of_ne_receive (h : ∀ i, a ≠ .receive i) : f.Refills depth a :=
  refills_of_ne fun i _ _ ha => absurd ha (h i)

/-- Only snapshots can be too shallow. -/
theorem fathoms_of_ne (h : a ≠ .store) : f.Fathoms depth a :=
  fun _ _ _ _ _ ha => absurd ha h

/-- A prefix of a side is as good as the side down to its own length. -/
theorem take_take_eq_iff {α : Type*} {l : List α} {d e : ℕ} :
    (l.take e).take d = l.take d ↔ d ≤ e ∨ l.length ≤ e := by
  rw [List.take_take]
  constructor
  · intro h
    have hlen := congrArg List.length h
    rw [List.length_take, List.length_take] at hlen
    omega
  · intro h
    rcases h with hd | hl
    · rw [Nat.min_eq_left hd]
    · rcases Nat.le_total d e with hd | he
      · rw [Nat.min_eq_left hd]
      · rw [Nat.min_eq_right he, List.take_of_length_le hl, List.take_of_length_le (hl.trans he)]

/-- What a snapshot does to the best levels. -/
theorem complete_storeL2_iff {r : SnapRequest} {n d : ℕ} {rows : List LevelSummary} (h : f.Ok)
    (hphase : f.sub.phase = .waiting r (some (.l2 n d rows))) (heard : List ℕ) :
    Complete depth { f with
      sub := { f.sub with book := f.sub.book.storeL2 n rows }.askL1, base := n, heard := heard } ↔
      f.Fathoms depth .store := by
  obtain ⟨b, hb, -, rfl⟩ := h.reply_l2 hphase
  have hside : ∀ s, ((f.sub.book.storeL2 n (b.topLevels d)).side s).take depth =
      (b.side s).take depth ↔ depth ≤ d ∨ (b.side s).length ≤ d := by
    intro s
    rw [side_storeL2 (h.sim.stocked n b hb), take_take_eq_iff]
  constructor
  · intro h' r' n' d' rows' b' _ hphase' hb'
    obtain ⟨-, hreply⟩ := Phase.waiting.inj (hphase.symm.trans hphase')
    obtain ⟨rfl, rfl, -⟩ := SnapReply.l2.inj (Option.some_inj.mp hreply)
    obtain rfl := Option.some_inj.mp (hb.symm.trans hb')
    obtain ⟨b₁, hb₁, hall⟩ := h'
    obtain rfl : b = b₁ := Option.some_inj.mp (hb.symm.trans hb₁)
    by_cases hd : depth ≤ d
    · exact .inl hd
    · exact .inr fun s => ((hside s).mp (hall s)).resolve_left hd
  · intro hF
    exact ⟨b, hb, fun s => (hside s).mpr ((hF r n d _ b rfl hphase hb).imp_right fun hl => hl s)⟩

theorem complete_step_iff (h : f.Ok) (hc : f.Complete depth) (hs : f.step a = some f') :
    f'.Complete depth ↔ f.Refills depth a ∧ f.Fathoms depth a := by
  cases moves_of_step h hs with
  | sim a =>
      refine iff_of_true ?_ ⟨refills_of_ne_receive (by simp), fathoms_of_ne (by simp)⟩
      exact complete_congr (f := f) rfl rfl (fun b hb => Sim.getElem?_past_step hb a) hc
  | @stale i n d hphase hev hle =>
      refine iff_of_true hc ⟨refills_of_ne fun i' n' d' ha _ hev' hn => ?_, fathoms_of_ne (by simp)⟩
      obtain rfl := Action.receive.inj ha
      obtain ⟨rfl, -⟩ := MDEvent.l2Delta.inj (Option.some_inj.mp (hev.symm.trans hev'))
      omega
  | @gap i n d hphase hev hlt =>
      refine iff_of_true hc ⟨refills_of_ne fun i' n' d' ha _ hev' hn => ?_, fathoms_of_ne (by simp)⟩
      obtain rfl := Action.receive.inj ha
      obtain ⟨rfl, -⟩ := MDEvent.l2Delta.inj (Option.some_inj.mp (hev.symm.trans hev'))
      omega
  | next hphase hev hn =>
      rw [complete_next_iff h hc hphase hev hn, and_iff_left (fathoms_of_ne (by simp))]
  | @top i n p hphase hev =>
      refine iff_of_true ?_ ⟨refills_of_ne fun i' n' d' ha _ hev' => ?_, fathoms_of_ne (by simp)⟩
      · exact complete_congr (LocalBook.levels_applyL1 p n) (LocalBook.lastL2_applyL1 p n)
          (fun _ hb => hb) hc
      · obtain rfl := Action.receive.inj ha
        cases hev.symm.trans hev'
  | serve => exact iff_of_true hc ⟨refills_of_ne_receive (by simp), fathoms_of_ne (by simp)⟩
  | storeL2 hphase =>
      rw [complete_storeL2_iff h hphase, and_iff_right (refills_of_ne_receive (by simp))]
  | @storeL1 r n p hphase =>
      refine iff_of_true ?_ ⟨refills_of_ne_receive (by simp), fun r' n' d' rows' b _ hphase' => ?_⟩
      · exact complete_congr (LocalBook.levels_applyL1 p n) (LocalBook.lastL2_applyL1 p n)
          (fun _ hb => hb) hc
      · cases hphase.symm.trans hphase'
  | giveUp => exact iff_of_true hc ⟨refills_of_ne_receive (by simp), fathoms_of_ne (by simp)⟩

/-- A step that is impossible meets the conditions. -/
theorem refills_of_none (h : f.Ok) (hs : f.step a = none) :
    f.Refills depth a ∧ f.Fathoms depth a := by
  refine ⟨refills_of_ne fun i n d ha hphase hev hn => ?_, fun r n d rows b ha hphase => ?_⟩
  · rw [ha, step_next hphase hev hn] at hs
    cases hs
  · rw [ha, step_storeL2 (h.stream_l2 hphase) hphase] at hs
    cases hs

end complete

/-- **The replica is complete to its depth** in every state of a run if and only if every erasure of
one of its best `depth` levels finds the level after these held, and every snapshot stored goes down
to `depth` or to the last level of each side. -/
theorem complete_iff (tickSize mid : PriceTicks) (symbol : String) (depth : ℕ)
    (acts : List Action) :
    States step (start tickSize mid symbol depth) (fun _ f => f.Complete depth) acts ↔
      Along step (start tickSize mid symbol depth)
        (fun _ f a => f.Refills depth a ∧ f.Fathoms depth a) acts := by
  have hinv : States step (start tickSize mid symbol depth) (fun _ f => f.Ok) acts :=
    fun _ _ _ _ hf => ok_run hf
  refine states_iff_along_state hinv ?_ (fun f a h _ hs => refills_of_none h hs)
    (fun f a f' h hP hs => complete_step_iff h hP hs)
  exact ⟨_, Sim.past_start tickSize mid, fun s => by cases s <;> rfl⟩

/-- A symbol without a space: every snapshot goes down to the depth that the subscriber wants. -/
theorem fathoms_of_decode (tickSize mid : PriceTicks) {symbol : String} {depth : ℕ}
    (hsymbol : ' ' ∉ symbol.toList) (hdepth : depth < 2 ^ 32) (acts : List Action) :
    Along step (start tickSize mid symbol depth) (fun _ f a => f.Fathoms depth a) acts := by
  intro pre a post _ f hf r n d rows b _ hphase _
  have hinv : f.Ok ∧ f.Asks symbol depth :=
    run_preserves (P := fun f => f.Ok ∧ f.Asks symbol depth) ⟨ok_start .., asks_start ..⟩
      (fun _ _ _ h hs => ⟨h.1.step hs, h.2.step h.1 hs⟩) hf
  obtain ⟨hsym, hdep⟩ := hinv.2.request r _ hphase
  obtain ⟨c, r', -, -, hdecode, hreply⟩ := hinv.1.reply r _ hphase
  rw [decode_encode r (hinv.1.stream_noSpace hphase) (hsym ▸ hsymbol) (hdep ▸ hdepth)] at hdecode
  obtain rfl := Option.some_inj.mp hdecode
  unfold Book.reply at hreply
  dsimp only at hreply
  split_ifs at hreply
  obtain ⟨-, rfl, -⟩ := SnapReply.l2.inj hreply
  exact .inl (hdep ▸ le_max_right 1 r.depth)

/-- Under the symbol of this feed the depth is read as 3, and the best ten levels are not there. -/
example : ¬ States step (start 1 200000 "ETH 3" 10) (fun _ f => f.Complete 10)
    [.serve, .store] := by
  intro h
  obtain ⟨b, hb, hside⟩ := h.last rfl
  have hbest := (congrArg (Option.map fun b : Book => (b.side .bid).take 10) hb).trans
    (congrArg some (hside .bid).symm)
  exact absurd hbest (by decide +kernel)

/-- Every delta published after the latest snapshot has been received. -/
def NoneLost (f : Feed) : Prop :=
  ∀ n ∈ f.sim.sent.filterMap MDEvent.deltaSeqno?, f.base < n → n ∈ f.heard

instance (f : Feed) : Decidable f.NoneLost := by unfold NoneLost; infer_instance

/-- Depth one, no message lost, and the best bid is erased: the subscriber has no bid, the
simulator's book still has nine. -/
theorem incomplete_erased :
    ¬ States step (start 1 200000 "ETH-USD" 1) (fun _ f => f.NoneLost → f.Complete 1)
      [.serve, .store, .serve, .store,
        .sim (.edit 200000 ⟨.bid, 1, true, 1, by decide, by decide⟩), .receive 0] := by
  intro h
  obtain ⟨b, hb, hside⟩ := h.last rfl (by decide +kernel)
  have hbest := (congrArg (Option.map fun b : Book => (b.side .bid).take 1) hb).trans
    (congrArg some (hside .bid).symm)
  exact absurd hbest (by decide +kernel)

end Feed
end Trading
