import Mathlib.Logic.Relation
import Trading.Levels

/-! # Matching as a sequence of fills

The two nested loops of `match_buy` and `match_sell`, with their shared mutable state, run
through a sequence of single fills of the front order of the best level (`FillStep`): either
the whole maker goes, together with its index entry and with the level it was the last order
of, or the taker is exhausted and the maker stays with less.  `matchSide_fills` says so and
`matchSide_exits` that the loops end by their own tests.  Every property of matching in this
development is an invariant of `FillStep`, read at a state where the loop has ended. -/

namespace Trading
namespace EngineBook

open Transition
open Relation (ReflTransGen)

/-! ### One fill -/

/-- The state after the front order of the level at `px` has been filled completely. -/
def Matching.fillWhole (s : Matching) (opp : Side) (px : PriceTicks) (maker : Node)
    (rest : Queue) : Matching :=
  let taker := { s.taker with leaves := s.taker.leaves - maker.leaves }
  let book := (s.book.publish (tradeReport taker px maker.leaves)).publish
    (tradeReport { maker with leaves := 0 } px maker.leaves)
  ⟨(book.eraseLoc maker.ord.orderId).putQueue opp px rest, taker⟩

/-- The state after the front order of the level at `px` has absorbed all of the taker. -/
def Matching.fillPart (s : Matching) (opp : Side) (px : PriceTicks) (maker : Node)
    (rest : Queue) : Matching :=
  let taker := { s.taker with leaves := 0 }
  let maker := { maker with leaves := maker.leaves - s.taker.leaves }
  let book := (s.book.publish (tradeReport taker px s.taker.leaves)).publish
    (tradeReport maker px s.taker.leaves)
  ⟨book.putQueue opp px (maker :: rest), taker⟩

/-- One fill of the front order of the best level opposite to the taker. -/
inductive FillStep (side : Side) : Matching → Matching → Prop
  | whole {s : Matching} {px : PriceTicks} {maker : Node} {rest : Queue} :
      s.book.best? side.opp = some (px, maker :: rest) →
      isLimitCross side s.taker.ord.price px = true →
      0 < s.taker.leaves → maker.leaves ≤ s.taker.leaves →
      FillStep side s (s.fillWhole side.opp px maker rest)
  | part {s : Matching} {px : PriceTicks} {maker : Node} {rest : Queue} :
      s.book.best? side.opp = some (px, maker :: rest) →
      isLimitCross side s.taker.ord.price px = true →
      0 < s.taker.leaves → s.taker.leaves < maker.leaves →
      FillStep side s (s.fillPart side.opp px maker rest)

section effects
variable {s : Matching} {opp : Side} {px : PriceTicks} {maker : Node} {rest : Queue}

@[simp] theorem queueFor_fillWhole (s' : Side) (px' : PriceTicks) :
    (s.fillWhole opp px maker rest).book.queueFor s' px' =
      if s' = opp ∧ px' = px then rest else s.book.queueFor s' px' := by
  simp [Matching.fillWhole, queueFor_putQueue]

@[simp] theorem queueFor_fillPart (s' : Side) (px' : PriceTicks) :
    (s.fillPart opp px maker rest).book.queueFor s' px' =
      if s' = opp ∧ px' = px then { maker with leaves := maker.leaves - s.taker.leaves } :: rest
      else s.book.queueFor s' px' := by
  simp [Matching.fillPart, queueFor_putQueue]

@[simp] theorem loc_fillWhole :
    (s.fillWhole opp px maker rest).book.loc = s.book.loc.erase maker.ord.orderId := by
  simp [Matching.fillWhole]

@[simp] theorem loc_fillPart : (s.fillPart opp px maker rest).book.loc = s.book.loc := by
  simp [Matching.fillPart]

@[simp] theorem sink_fillWhole : (s.fillWhole opp px maker rest).book.sink = s.book.sink ++
    [tradeReport ⟨s.taker.ord, s.taker.leaves - maker.leaves⟩ px maker.leaves,
      tradeReport ⟨maker.ord, 0⟩ px maker.leaves] := by
  simp [Matching.fillWhole]

@[simp] theorem sink_fillPart : (s.fillPart opp px maker rest).book.sink = s.book.sink ++
    [tradeReport ⟨s.taker.ord, 0⟩ px s.taker.leaves,
      tradeReport ⟨maker.ord, maker.leaves - s.taker.leaves⟩ px s.taker.leaves] := by
  simp [Matching.fillPart]

/-- The other orders stay where they stand. -/
theorem mem_fillWhole_of_ne {t : Side} {px' : PriceTicks} {n : Node}
    (hb : s.book.best? opp = some (px, maker :: rest)) (hn : n ∈ s.book.queueFor t px')
    (hne : n ≠ maker) : n ∈ (s.fillWhole opp px maker rest).book.queueFor t px' := by
  rw [queueFor_fillWhole]
  split_ifs with hk
  · rw [hk.1, hk.2, queueFor_of_best? hb] at hn
    exact (List.mem_cons.mp hn).resolve_left hne
  · exact hn

theorem mem_fillPart_of_ne {t : Side} {px' : PriceTicks} {n : Node}
    (hb : s.book.best? opp = some (px, maker :: rest)) (hn : n ∈ s.book.queueFor t px')
    (hne : n ≠ maker) : n ∈ (s.fillPart opp px maker rest).book.queueFor t px' := by
  rw [queueFor_fillPart]
  split_ifs with hk
  · rw [hk.1, hk.2, queueFor_of_best? hb] at hn
    exact List.mem_cons_of_mem _ ((List.mem_cons.mp hn).resolve_left hne)
  · exact hn

/-- A complete fill takes the maker out of the book. -/
theorem nodes_fillWhole_perm (hq : s.book.queueFor opp px = maker :: rest) :
    s.book.nodes.Perm (maker :: (s.fillWhole opp px maker rest).book.nodes) := by
  have h := s.book.nodes_perm_queueFor opp px
  rw [hq] at h
  refine h.trans (List.Perm.cons maker ?_)
  unfold Matching.fillWhole
  refine List.Perm.trans ?_ (nodes_putQueue_perm _ opp px rest).symm
  simp

/-- A partial fill reduces the maker. -/
theorem nodes_fillPart_perm (hq : s.book.queueFor opp px = maker :: rest) : ∃ ns,
    s.book.nodes.Perm (maker :: ns) ∧ (s.fillPart opp px maker rest).book.nodes.Perm
      ({ maker with leaves := maker.leaves - s.taker.leaves } :: ns) := by
  have h := s.book.nodes_perm_queueFor opp px
  rw [hq] at h
  refine ⟨_, h, ?_⟩
  unfold Matching.fillPart
  refine (nodes_putQueue_perm _ opp px (_ :: rest)).trans ?_
  simp

/-- What a fill publishes: the taker's report first, then the maker's, both after the fill. -/
theorem FillStep.sink {side : Side} {s' : Matching} (h : FillStep side s s') : ∃ px maker qty,
    maker ∈ s.book.queueFor side.opp px ∧ qty ≤ maker.leaves ∧
    s'.taker = ⟨s.taker.ord, s.taker.leaves - qty⟩ ∧
    s'.book.sink = s.book.sink ++
      [tradeReport s'.taker px qty, tradeReport ⟨maker.ord, maker.leaves - qty⟩ px qty] := by
  cases h with
  | @whole px maker rest hb =>
      refine ⟨px, maker, maker.leaves, queueFor_of_best? hb ▸ List.mem_cons_self, le_rfl, rfl, ?_⟩
      rw [sink_fillWhole, Nat.sub_self]
      rfl
  | @part px maker rest hb _ _ hlt =>
      refine ⟨px, maker, s.taker.leaves, queueFor_of_best? hb ▸ List.mem_cons_self, hlt.le, ?_,
        sink_fillPart⟩
      rw [Nat.sub_self]
      rfl

end effects

/-- Matching has ended: the taker is exhausted, or no level is left that it accepts. -/
def Done (side : Side) (s : Matching) : Prop :=
  0 < s.taker.leaves →
    ∀ px q, s.book.best? side.opp = some (px, q) → isLimitCross side s.taker.ord.price px = false

/-- When matching has ended with something left, the opposite side is out of reach. -/
theorem Done.out_of_reach {side : Side} {s : Matching} (h : Done side s) (hpos : 0 < s.taker.leaves)
    {px : PriceTicks} (hq : s.book.queueFor side.opp px ≠ []) :
    (side = .bid → s.taker.ord.price < px) ∧ (side = .ask → px < s.taker.ord.price) := by
  obtain ⟨px', q', hb⟩ := exists_best? hq
  have hc := h hpos px' q' hb
  have hle := best?_le hb hq
  unfold isLimitCross at hc
  split_ifs at hc
  constructor
  · rintro rfl
    simp only [ge_iff_le, decide_eq_false_iff_not, not_le] at hc
    exact hc.trans_le hle
  · rintro rfl
    simp only [decide_eq_false_iff_not, not_le] at hc
    exact hle.trans_lt hc

theorem done_of_matchStep_eq_none {side : Side} {s : Matching} (h : matchStep side s = none) :
    Done side s := by
  intro hpos px q hb
  simp only [matchStep, if_pos hpos, hb] at h
  by_cases hc : isLimitCross side s.taker.ord.price px = true
  · rw [if_pos hc] at h
    split at h <;> cases h
  · simpa using hc

/-! ### One round of the inner loop -/

section sweep
variable {opp : Side} {px : PriceTicks} {s s' : Matching} {maker : Node} {rest : Queue}

theorem sweepStep_eq_none_iff :
    sweepStep opp px s = none ↔ s.taker.leaves = 0 ∨ s.book.queueFor opp px = [] := by
  unfold sweepStep
  by_cases hpos : 0 < s.taker.leaves
  · rw [if_pos hpos]
    cases hq : s.book.queueFor opp px with
    | nil => simp
    | cons maker rest =>
        dsimp only
        split_ifs <;> simp [hpos.ne']
  · simp [Nat.eq_zero_of_not_pos hpos]

/-- What one round of the inner loop does. -/
theorem sweepStep_cases (h : sweepStep opp px s = some s') :
    ∃ maker rest, 0 < s.taker.leaves ∧ s.book.queueFor opp px = maker :: rest ∧
      (maker.leaves ≤ s.taker.leaves ∧
          s' = ⟨(((s.book.publish (tradeReport
              { s.taker with leaves := s.taker.leaves - maker.leaves } px maker.leaves)).publish
              (tradeReport { maker with leaves := 0 } px maker.leaves)).eraseLoc
              maker.ord.orderId).setQueue opp px rest,
            { s.taker with leaves := s.taker.leaves - maker.leaves }⟩ ∨
        s.taker.leaves < maker.leaves ∧
          s' = ⟨((s.book.publish (tradeReport
              { s.taker with leaves := 0 } px s.taker.leaves)).publish
              (tradeReport { maker with leaves := maker.leaves - s.taker.leaves } px
                s.taker.leaves)).setQueue opp px
              ({ maker with leaves := maker.leaves - s.taker.leaves } :: rest),
            { s.taker with leaves := 0 }⟩) := by
  have hne : ¬ (s.taker.leaves = 0 ∨ s.book.queueFor opp px = []) := by
    rw [← sweepStep_eq_none_iff, h]
    simp
  obtain ⟨h0, hq⟩ := not_or.mp hne
  obtain ⟨maker, rest, hq⟩ := List.exists_cons_of_ne_nil hq
  have hpos : 0 < s.taker.leaves := by omega
  refine ⟨maker, rest, hpos, hq, ?_⟩
  rcases Nat.lt_or_ge s.taker.leaves maker.leaves with hlt | hle
  · have hne : ¬ maker.leaves - s.taker.leaves = 0 := by omega
    exact .inr ⟨hlt, by simpa [sweepStep, fill, hpos, hq, min_eq_right hlt.le, hne] using h.symm⟩
  · exact .inl ⟨hle, by simpa [sweepStep, fill, hpos, hq, min_eq_left hle] using h.symm⟩

/-- Rounds the inner loop may still take. -/
def sweepMeasure (opp : Side) (px : PriceTicks) (s : Matching) : ℕ :=
  if s.taker.leaves = 0 then 0 else (s.book.queueFor opp px).length

/-- Each round pops the front order or exhausts the taker. -/
theorem sweepStep_measure (h : sweepStep opp px s = some s') :
    sweepMeasure opp px s' < sweepMeasure opp px s := by
  obtain ⟨maker, rest, hpos, hq, ⟨-, rfl⟩ | ⟨-, rfl⟩⟩ := sweepStep_cases h
  · have hrest : ∀ b : EngineBook, ((b.setQueue opp px rest).queueFor opp px).length = rest.length :=
      fun b => by rw [queueFor_setQueue, if_pos ⟨rfl, rfl⟩]
    unfold sweepMeasure
    rw [if_neg hpos.ne', hq, hrest, List.length_cons]
    split_ifs <;> omega
  · simp [sweepMeasure, hq, hpos.ne']

/-- The inner loop ends by its own test. -/
theorem sweep_exits {n : ℕ} (h : (s.book.queueFor opp px).length ≤ n) :
    sweepStep opp px (whileLoop (sweepStep opp px) n s) = none := by
  have hμ : ∀ s s', sweepStep opp px s = some s' →
      sweepMeasure opp px s' < sweepMeasure opp px s := fun _ _ hs => sweepStep_measure hs
  refine whileLoop_exits _ hμ n s (le_trans ?_ h)
  unfold sweepMeasure
  split_ifs <;> omega

/-- The state of the inner loop with the level at `px` dropped once its queue is empty, which
is what the outer loop makes of it. -/
def Matching.settle (s : Matching) (opp : Side) (px : PriceTicks) : Matching :=
  { s with book := s.book.putQueue opp px (s.book.queueFor opp px) }

theorem settle_of_best? {q : Queue} (h : s.book.best? opp = some (px, q)) (hq : q ≠ []) :
    s.settle opp px = s := by
  have h' := queue?_of_best? h
  unfold Matching.settle
  rw [putQueue_queueFor]
  rw [h', ne_eq, Option.some_inj]
  exact hq

/-- What the inner loop keeps: it stands at the best level until that is empty. -/
structure Sweeping (side : Side) (px : PriceTicks) (s₀ s : Matching) : Prop where
  best : s.book.queueFor side.opp px ≠ [] →
    s.book.best? side.opp = some (px, s.book.queueFor side.opp px)
  crosses : isLimitCross side s.taker.ord.price px = true
  fills : ReflTransGen (FillStep side) s₀ (s.settle side.opp px)

variable {side : Side} {s₀ : Matching}

theorem best?_setQueue {b : EngineBook} {q q' : Queue} (h : b.best? opp = some (px, q)) :
    (b.setQueue opp px q').best? opp = some (px, q') := by
  obtain ⟨es, he⟩ := best?_eq_some_iff.mp h
  exact best?_eq_some_iff.mpr ⟨es, levels_setQueue_best he⟩

theorem Sweeping.step (h : Sweeping side px s₀ s) (hs : sweepStep side.opp px s = some s') :
    Sweeping side px s₀ s' := by
  obtain ⟨maker, rest, hpos, hq, hcases⟩ := sweepStep_cases hs
  have hne : s.book.queueFor side.opp px ≠ [] := by simp [hq]
  have hb := h.best hne
  have hfills := h.fills
  rw [settle_of_best? hb hne] at hfills
  rw [hq] at hb
  have hb' : ∀ b : EngineBook, b.levels side.opp = s.book.levels side.opp →
      b.best? side.opp = some (px, maker :: rest) := fun b hl => by
    rwa [best?_eq_head?, hl, ← best?_eq_head?]
  rcases hcases with ⟨hle, rfl⟩ | ⟨hlt, rfl⟩
  · refine ⟨fun _ => ?_, h.crosses, hfills.tail ?_⟩
    · rw [queueFor_setQueue, if_pos ⟨rfl, rfl⟩]
      exact best?_setQueue (hb' _ (by simp))
    · simpa [Matching.settle, Matching.fillWhole, queueFor_setQueue, putQueue_setQueue] using
        FillStep.whole hb h.crosses hpos hle
  · refine ⟨fun _ => ?_, h.crosses, hfills.tail ?_⟩
    · rw [queueFor_setQueue, if_pos ⟨rfl, rfl⟩]
      exact best?_setQueue (hb' _ (by simp))
    · simpa [Matching.settle, Matching.fillPart, queueFor_setQueue, putQueue_setQueue] using
        FillStep.part hb h.crosses hpos hlt

end sweep

/-! ### The outer loop -/

section outer
variable {side : Side} {s s' : Matching} {px : PriceTicks} {q : Queue}

theorem Sweeping.start (hb : s.book.best? side.opp = some (px, q)) (hq : q ≠ [])
    (hc : isLimitCross side s.taker.ord.price px = true) : Sweeping side px s s where
  best := fun _ => by rw [queueFor_of_best? hb]; exact hb
  crosses := hc
  fills := by rw [settle_of_best? hb hq]

/-- A round of the outer loop settles the level the inner loop has swept. -/
theorem matchStep_eq_settle (hb : s.book.best? side.opp = some (px, q)) (hq : q ≠ [])
    (h : matchStep side s = some s') :
    s' = (whileLoop (sweepStep side.opp px) q.length s).settle side.opp px ∧
      Sweeping side px s (whileLoop (sweepStep side.opp px) q.length s) := by
  unfold matchStep at h
  split_ifs at h with hpos
  simp only [hb] at h
  split_ifs at h with hc he
  · have hsw := whileLoop_invariant (P := Sweeping side px s) (fun _ _ hP hs => hP.step hs)
      q.length s (Sweeping.start hb hq hc)
    refine ⟨?_, hsw⟩
    rw [← Option.some_inj.mp h, Matching.settle, List.isEmpty_iff.mp he, putQueue, if_pos rfl]
  · have hsw := whileLoop_invariant (P := Sweeping side px s) (fun _ _ hP hs => hP.step hs)
      q.length s (Sweeping.start hb hq hc)
    refine ⟨?_, hsw⟩
    have hne := fun h' => he (List.isEmpty_iff.mpr h')
    rw [← Option.some_inj.mp h, settle_of_best? (hsw.best hne) hne]

theorem matchStep_fills (hne : s.book.NoEmptyLevel) (h : matchStep side s = some s') :
    ReflTransGen (FillStep side) s s' := by
  cases hb : s.book.best? side.opp with
  | none =>
      unfold matchStep at h
      split_ifs at h
      simp [hb] at h
  | some e =>
      obtain ⟨px, q⟩ := e
      have hq : q ≠ [] := by
        rintro rfl
        exact hne _ _ (queue?_of_best? hb)
      obtain ⟨he, hsw⟩ := matchStep_eq_settle hb hq h
      exact he ▸ hsw.fills

theorem FillStep.noEmptyLevel (h : FillStep side s s') (hne : s.book.NoEmptyLevel) :
    s'.book.NoEmptyLevel := by
  cases h with
  | whole =>
      apply NoEmptyLevel.putQueue
      intro s px
      simpa using hne s px
  | part =>
      apply NoEmptyLevel.putQueue
      intro s px
      simpa using hne s px

/-- An invariant of fills is an invariant of matching. -/
theorem fills_invariant {P : Matching → Prop} (hstep : ∀ s s', P s → FillStep side s s' → P s')
    (h : ReflTransGen (FillStep side) s s') (h0 : P s) : P s' := by
  induction h with
  | refl => exact h0
  | tail _ hs ih => exact hstep _ _ ih hs

/-- **The matching loops perform a sequence of fills.** -/
theorem matchSide_fills (hne : s.book.NoEmptyLevel) :
    ReflTransGen (FillStep side) s (matchSide side s) := by
  have hstep : ∀ t t', (t.book.NoEmptyLevel ∧ ReflTransGen (FillStep side) s t) →
      matchStep side t = some t' → t'.book.NoEmptyLevel ∧ ReflTransGen (FillStep side) s t' := by
    rintro t t' ⟨ht, hst⟩ hs
    have hfills := matchStep_fills ht hs
    exact ⟨fills_invariant (fun _ _ h hs => hs.noEmptyLevel h) hfills ht, hst.trans hfills⟩
  exact (whileLoop_invariant hstep (s.book.levels side.opp).length s ⟨hne, .refl⟩).2

/-- Rounds the outer loop may still take. -/
def matchMeasure (side : Side) (s : Matching) : ℕ :=
  if s.taker.leaves = 0 then 0 else (s.book.levels side.opp).length

/-- The inner loop rewrites the queue of its level and leaves the other levels alone. -/
theorem levels_sweepStep {opp : Side} {es : List (PriceTicks × Queue)}
    (hl : s.book.levels opp = (px, q) :: es) (h : sweepStep opp px s = some s') :
    ∃ q', s'.book.levels opp = (px, q') :: es := by
  obtain ⟨maker, rest, -, -, ⟨-, rfl⟩ | ⟨-, rfl⟩⟩ := sweepStep_cases h
  · exact ⟨rest, levels_setQueue_best (by simpa using hl)⟩
  · exact ⟨_, levels_setQueue_best (by simpa using hl)⟩

/-- Each round drops a level or exhausts the taker. -/
theorem matchStep_measure (h : matchStep side s = some s') :
    matchMeasure side s' < matchMeasure side s := by
  unfold matchStep at h
  split_ifs at h with hpos
  cases hb : s.book.best? side.opp with
  | none => simp [hb] at h
  | some e =>
      obtain ⟨px, q⟩ := e
      obtain ⟨es, hl⟩ := best?_eq_some_iff.mp hb
      simp only [hb] at h
      split_ifs at h with hc he
      · obtain ⟨q', hl'⟩ := whileLoop_invariant
          (P := fun t : Matching => ∃ q', t.book.levels side.opp = (px, q') :: es)
          (fun _ _ ⟨_, ht⟩ hs => levels_sweepStep ht hs) q.length s ⟨q, hl⟩
        rw [← Option.some_inj.mp h]
        unfold matchMeasure
        rw [if_neg hpos.ne', hl, levels_eraseLevel_best hl', List.length_cons]
        split_ifs <;> omega
      · obtain ⟨q', hl'⟩ := whileLoop_invariant
          (P := fun t : Matching => ∃ q', t.book.levels side.opp = (px, q') :: es)
          (fun _ _ ⟨_, ht⟩ hs => levels_sweepStep ht hs) q.length s ⟨q, hl⟩
        have hexit := sweep_exits (n := q.length) (by rw [queueFor_of_best? hb])
        have hq := fun h' => he (List.isEmpty_iff.mpr h')
        rw [← Option.some_inj.mp h]
        unfold matchMeasure
        rw [if_pos ((sweepStep_eq_none_iff.mp hexit).resolve_right hq), if_neg hpos.ne', hl]
        exact Nat.succ_pos _

/-- **The outer loop ends by its own test**, in every book. -/
theorem matchSide_exits (side : Side) (s : Matching) :
    matchStep side (matchSide side s) = none := by
  have hμ : ∀ s s', matchStep side s = some s' → matchMeasure side s' < matchMeasure side s :=
    fun _ _ hs => matchStep_measure hs
  refine whileLoop_exits _ hμ _ s ?_
  unfold matchMeasure
  split_ifs <;> omega

theorem matchSide_done (side : Side) (s : Matching) : Done side (matchSide side s) :=
  done_of_matchStep_eq_none (matchSide_exits side s)

end outer

/-! ### The incoming order -/

section arrival

/-- Where the matching loops leave the incoming order `o`. -/
def arrive (b : EngineBook) (o : Order) : Matching :=
  matchSide o.side ⟨b.publish (newReport ⟨o, o.qty⟩), ⟨o, o.qty⟩⟩

/-- The three exits of `on_new`: the remainder rests, nothing remains, or the remainder of a
market order is dropped. -/
theorem onNew_cases (b : EngineBook) (o : Order) :
    (0 < (b.arrive o).taker.leaves ∧ o.type ≠ .market ∧
      b.onNew o = (b.arrive o).book.enqueue (b.arrive o).taker) ∨
    ((b.arrive o).taker.leaves = 0 ∧ b.onNew o = (b.arrive o).book.publish (filledReport o)) ∨
    (0 < (b.arrive o).taker.leaves ∧ o.type = .market ∧ b.onNew o = (b.arrive o).book) := by
  have hs : (if o.side = .bid then matchBuy ⟨b.publish (newReport ⟨o, o.qty⟩), ⟨o, o.qty⟩⟩
      else matchSell ⟨b.publish (newReport ⟨o, o.qty⟩), ⟨o, o.qty⟩⟩) = b.arrive o := by
    unfold arrive matchBuy matchSell
    cases o.side <;> rfl
  simp only [onNew, hs, isMarket, decide_eq_true_eq]
  rcases Nat.eq_zero_or_pos (b.arrive o).taker.leaves with h0 | hpos
  · exact .inr (.inl ⟨h0, by simp [h0]⟩)
  · by_cases hm : o.type = .market
    · exact .inr (.inr ⟨hpos, hm, by simp [hm, hpos.ne']⟩)
    · exact .inl ⟨hpos, hm, by simp [hm, hpos]⟩

variable {b : EngineBook} {o : Order}

theorem arrive_fills (hne : b.NoEmptyLevel) : ReflTransGen (FillStep o.side)
    ⟨b.publish (newReport ⟨o, o.qty⟩), ⟨o, o.qty⟩⟩ (b.arrive o) :=
  matchSide_fills fun s px => by simpa using hne s px

/-- The rule for the matching loops of `on_new`. -/
theorem arrive_invariant {J : Matching → Prop} (hne : b.NoEmptyLevel)
    (hstart : J ⟨b.publish (newReport ⟨o, o.qty⟩), ⟨o, o.qty⟩⟩)
    (hfill : ∀ s s', s.taker.ord = o → J s → FillStep o.side s s' → J s') : J (b.arrive o) := by
  have hstep : ∀ s s', (s.taker.ord = o ∧ J s) → FillStep o.side s s' →
      s'.taker.ord = o ∧ J s' := by
    rintro s s' ⟨ho, hJ⟩ hs
    refine ⟨?_, hfill s s' ho hJ hs⟩
    cases hs <;> exact ho
  exact (fills_invariant hstep (arrive_fills hne) ⟨rfl, hstart⟩).2

theorem arrive_ord (hne : b.NoEmptyLevel) : (b.arrive o).taker.ord = o :=
  arrive_invariant (J := fun s => s.taker.ord = o) hne rfl fun s s' _ h hs => by
    cases hs <;> exact h

theorem arrive_leaves_le (hne : b.NoEmptyLevel) : (b.arrive o).taker.leaves ≤ o.qty :=
  arrive_invariant (J := fun s => s.taker.leaves ≤ o.qty) hne le_rfl fun s s' _ h hs => by
    cases hs with
    | whole => exact (Nat.sub_le _ _).trans h
    | part => exact Nat.zero_le _

theorem arrive_noEmptyLevel (hne : b.NoEmptyLevel) : (b.arrive o).book.NoEmptyLevel :=
  arrive_invariant (J := fun s => s.book.NoEmptyLevel) hne (fun s px => by simpa using hne s px)
    fun _ _ _ h hs => hs.noEmptyLevel h

theorem NoEmptyLevel.onNew (hne : b.NoEmptyLevel) : (b.onNew o).NoEmptyLevel := by
  have h := arrive_noEmptyLevel (o := o) hne
  obtain ⟨-, -, he⟩ | ⟨-, he⟩ | ⟨-, -, he⟩ := b.onNew_cases o
  · rw [he]
    exact h.enqueue
  · rw [he]
    intro s px
    simpa using h s px
  · rwa [he]

theorem sink_onNew (b : EngineBook) (o : Order) : (b.onNew o).sink =
    (b.arrive o).book.sink ++ if (b.arrive o).taker.leaves = 0 then [filledReport o] else [] := by
  obtain ⟨hpos, -, he⟩ | ⟨h0, he⟩ | ⟨hpos, -, he⟩ := b.onNew_cases o
  · rw [he, sink_enqueue, if_neg hpos.ne', List.append_nil]
  · rw [he, if_pos h0, sink_publish]
  · rw [he, if_neg hpos.ne', List.append_nil]

/-- After the matching loops `on_new` leaves the opposite side alone. -/
theorem levels_onNew_opp (hne : b.NoEmptyLevel) :
    (b.onNew o).levels o.side.opp = (b.arrive o).book.levels o.side.opp := by
  obtain ⟨-, -, he⟩ | ⟨-, he⟩ | ⟨-, -, he⟩ := b.onNew_cases o
  · have h := (b.arrive o).book.levels_enqueue_opp (b.arrive o).taker
    rwa [arrive_ord hne, ← he] at h
  · rw [he, levels_publish]
  · rw [he]

/-- What `on_cancel` does to an order with an index entry. -/
theorem onCancel_of_some {id : OrderId} {lc : Loc} (h : b.loc.find? id = some lc) :
    b.onCancel id = ((b.eraseAt lc).eraseLoc id).publish (canceledReport id) := by
  simp [onCancel, h]

theorem onCancel_of_none {id : OrderId} (h : b.loc.find? id = none) : b.onCancel id = b := by
  simp [onCancel, h]

/-- `on_replace` re-enters the order it finds at the remembered position. -/
theorem onReplace_cases {id : OrderId} {px : PriceTicks} {qty : ℕ} {b' : EngineBook}
    (h : b.onReplace id px qty = some b') : b.loc.find? id = none ∧ b' = b ∨
    ∃ lc n, b.loc.find? id = some lc ∧ (b.queueFor lc.side lc.px)[lc.idx]? = some n ∧
      b' = (((b.eraseAt lc).eraseLoc id).onNew (adjust n px qty).ord).publish
        (replacedReport (adjust n px qty)) := by
  unfold onReplace at h
  cases hl : b.loc.find? id with
  | none =>
      simp only [hl, Option.some_inj] at h
      exact .inl ⟨rfl, h.symm⟩
  | some lc =>
      cases hn : (b.queueFor lc.side lc.px)[lc.idx]? with
      | none => simp [hl, hn] at h
      | some n =>
          simp only [hl, hn, Option.some_inj] at h
          exact .inr ⟨lc, n, rfl, hn, h.symm⟩

theorem arrive_done (b : EngineBook) (o : Order) : Done o.side (b.arrive o) := matchSide_done _ _

/-! ### An order that reaches nothing -/

/-- No level of the other side is acceptable. -/
def Unreached (b : EngineBook) (o : Order) : Prop :=
  ∀ px q, b.best? o.side.opp = some (px, q) → isLimitCross o.side o.price px = false

theorem arrive_of_unreached (h : b.Unreached o) :
    b.arrive o = ⟨b.publish (newReport ⟨o, o.qty⟩), ⟨o, o.qty⟩⟩ := by
  have hnone : matchStep o.side ⟨b.publish (newReport ⟨o, o.qty⟩), ⟨o, o.qty⟩⟩ = none := by
    have hbest : (b.publish (newReport ⟨o, o.qty⟩)).best? o.side.opp = b.best? o.side.opp := by
      rw [best?_eq_head?, best?_eq_head?, levels_publish]
    unfold matchStep
    split_ifs
    · rw [hbest]
      cases hb : b.best? o.side.opp with
      | none => rfl
      | some e => simp [h e.1 e.2 hb]
    · rfl
  exact whileLoop_of_none hnone _

/-- An order that reaches nothing rests whole. -/
theorem onNew_of_unreached (h : b.Unreached o) (hpos : 0 < o.qty) (htype : o.type ≠ .market) :
    b.onNew o = (b.publish (newReport ⟨o, o.qty⟩)).enqueue ⟨o, o.qty⟩ := by
  have ha := arrive_of_unreached h
  obtain ⟨-, -, he⟩ | ⟨h0, -⟩ | ⟨-, hm, -⟩ := b.onNew_cases o
  · rw [he, ha]
  · rw [ha] at h0
    exact absurd h0 hpos.ne'
  · exact absurd hm htype

end arrival

end EngineBook
end Trading
