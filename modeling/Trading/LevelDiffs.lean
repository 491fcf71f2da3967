import Trading.CrossValidator
import Trading.Lists

/-! # What `diff_levels` counts

The two passes of `diff_levels` over lists in which no side and price occurs twice: together they
count every key on which the lists differ, once. -/

namespace Trading

/-- The quantity and the order count of the level with a key. -/
def levelAt (rows : List LevelSummary) (k : LevelKey) : Option (ℕ × ℕ) :=
  (Lists.row? LevelSummary.key rows k).map fun r => (r.aggQty, r.orderCount)

/-- The keys of either list at which a level is missing in the other one, or has another quantity or
order count there. -/
def differingLevels (sim mine : List LevelSummary) : Finset LevelKey :=
  ((sim.map LevelSummary.key).toFinset ∪ (mine.map LevelSummary.key).toFinset).filter fun k =>
    levelAt sim k ≠ levelAt mine k

section counts
variable {sim mine : List LevelSummary}

theorem LevelSummary.eq_of_key_of_level {l r : LevelSummary} (hk : l.key = r.key)
    (hv : (l.aggQty, l.orderCount) = (r.aggQty, r.orderCount)) : l = r := by
  obtain ⟨hside, hpx⟩ := Prod.mk.inj hk
  obtain ⟨hqty, hcnt⟩ := Prod.mk.inj hv
  obtain ⟨side, px, qty, cnt⟩ := l
  obtain rfl : side = r.side := hside
  obtain rfl : px = r.price := hpx
  obtain rfl : qty = r.aggQty := hqty
  obtain rfl : cnt = r.orderCount := hcnt
  rfl

/-- A key and its level make the row. -/
theorem levelAt_eq_iff (k : LevelKey) : levelAt sim k = levelAt mine k ↔
    Lists.row? LevelSummary.key sim k = Lists.row? LevelSummary.key mine k := by
  refine ⟨fun h => ?_, fun h => by rw [levelAt, levelAt, h]⟩
  unfold levelAt at h
  cases hl : Lists.row? LevelSummary.key sim k with
  | none =>
      rw [hl, Option.map_none, eq_comm, Option.map_eq_none_iff] at h
      exact h.symm
  | some l =>
      rw [hl, Option.map_some, eq_comm, Option.map_eq_some_iff] at h
      obtain ⟨r, hr, hv⟩ := h
      have hlk : l.key = k := by simpa using List.find?_some hl
      have hrk : r.key = k := by simpa using List.find?_some hr
      rw [hr, LevelSummary.eq_of_key_of_level (hrk.trans hlk.symm) hv]

theorem differingLevels_eq : differingLevels sim mine =
    Lists.differing LevelSummary.key sim mine :=
  Finset.filter_congr fun k _ => (levelAt_eq_iff k).not

/-- The first pass counts the levels that the second list does not have, and the second pass the
keys that the first list does not have. -/
theorem mismatches_eq_card (hsim : (sim.map LevelSummary.key).Nodup)
    (hmine : (mine.map LevelSummary.key).Nodup) (examples : Option (List LevelSummary))
    (maxExamples : ℕ) : (diffLevels sim mine examples maxExamples).mismatches =
      (differingLevels sim mine).card := by
  have hfirst : ∀ l, diffFirst mine l = true ↔ l ∉ mine := by
    intro l
    rw [← diffFirst_eq_false_iff hmine, Bool.not_eq_false]
  have hsecond : ∀ r, diffSecond sim r = true ↔ r.key ∉ sim.map LevelSummary.key := by
    intro r
    rw [List.mem_map, ← diffSecond_eq_false_iff, Bool.not_eq_false]
  rw [mismatches_diffLevels, differingLevels_eq, Lists.card_differing hsim hmine hfirst hsecond]

/-- No more examples are collected than there is room for. -/
theorem length_examples_foldl (p : LevelSummary → Bool) {maxExamples : ℕ}
    (rows : List LevelSummary) {d : LevelDiff}
    (h : ∀ es, d.examples = some es → es.length ≤ maxExamples) :
    ∀ es, (rows.foldl (fun d l => if p l then d.add maxExamples l else d) d).examples = some es →
      es.length ≤ maxExamples := by
  induction rows generalizing d with
  | nil => exact h
  | cons l rows ih =>
      rw [List.foldl_cons]
      refine ih ?_
      split_ifs
      · intro es hes
        obtain ⟨es', hes', rfl⟩ := Option.map_eq_some_iff.mp hes
        split_ifs with hlt
        · rw [List.length_append, List.length_singleton]
          exact hlt
        · exact h es' hes'
      · exact h

theorem length_examples_diffLevels {examples : Option (List LevelSummary)} {maxExamples : ℕ}
    (h : ∀ es, examples = some es → es.length ≤ maxExamples) :
    ∀ es, (diffLevels sim mine examples maxExamples).examples = some es →
      es.length ≤ maxExamples :=
  length_examples_foldl _ _ (length_examples_foldl _ _ h)

/-- **The count is exact**, it does not depend on the order of the arguments or on the examples, and
the examples stay within their bound. -/
theorem diffLevels_counts (sim mine : List LevelSummary) (examples : Option (List LevelSummary))
    (maxExamples : ℕ) (hsim : (sim.map LevelSummary.key).Nodup)
    (hmine : (mine.map LevelSummary.key).Nodup) :
    (diffLevels sim mine examples maxExamples).mismatches = (differingLevels sim mine).card ∧
    ((diffLevels sim mine examples maxExamples).mismatches = 0 ↔ ∀ r, r ∈ sim ↔ r ∈ mine) ∧
    (diffLevels mine sim examples maxExamples).mismatches =
      (diffLevels sim mine examples maxExamples).mismatches ∧
    (diffLevels sim mine none maxExamples).mismatches =
      (diffLevels sim mine examples maxExamples).mismatches ∧
    ((∀ es, examples = some es → es.length ≤ maxExamples) →
      ∀ es, (diffLevels sim mine examples maxExamples).examples = some es →
        es.length ≤ maxExamples) := by
  refine ⟨mismatches_eq_card hsim hmine _ _, mismatches_eq_zero_iff hmine _ _, ?_, ?_,
    length_examples_diffLevels⟩
  · rw [mismatches_eq_card hmine hsim, mismatches_eq_card hsim hmine, differingLevels_eq,
      differingLevels_eq, Lists.differing_comm]
  · rw [mismatches_eq_card hsim hmine, mismatches_eq_card hsim hmine]

/-- A level on one side only, one that differs, and one that does not, in different orders. -/
theorem diffLevels_counts_three :
    (diffLevels [⟨0, 100, 5, 1⟩, ⟨1, 102, 7, 2⟩, ⟨0, 99, 4, 1⟩] [⟨0, 99, 4, 1⟩, ⟨0, 100, 6, 1⟩]
      (some []) 1).mismatches = 2 ∧
    (diffLevels [⟨0, 100, 5, 1⟩, ⟨1, 102, 7, 2⟩, ⟨0, 99, 4, 1⟩] [⟨0, 99, 4, 1⟩, ⟨0, 100, 6, 1⟩]
      none 1).mismatches = 2 := by
  obtain ⟨hcount, -, -, hnone, -⟩ := diffLevels_counts
    [⟨0, 100, 5, 1⟩, ⟨1, 102, 7, 2⟩, ⟨0, 99, 4, 1⟩] [⟨0, 99, 4, 1⟩, ⟨0, 100, 6, 1⟩] (some []) 1
    (by decide) (by decide)
  have htwo : (differingLevels [⟨0, 100, 5, 1⟩, ⟨1, 102, 7, 2⟩, ⟨0, 99, 4, 1⟩]
      [⟨0, 99, 4, 1⟩, ⟨0, 100, 6, 1⟩]).card = 2 := by decide
  exact ⟨hcount.trans htwo, hnone.trans (hcount.trans htwo)⟩

end counts

end Trading
