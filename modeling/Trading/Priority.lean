import Trading.Chronology
import Trading.OrderIds

/-! # Time priority

Within a level the orders should stand in the order in which they were last enqueued there.
`entryLog` is the chronicle of a run, every enqueueing with its side, price and id;
`TimePriority` compares the queues with it.

`enqueue` and the matching loops keep time priority.  `erase_at` fills the gap with the back of
the queue, so it keeps it exactly when at most one order stands behind the gap
(`timePriority_iff`). -/

namespace Trading
namespace EngineBook

open Transition
open Chronology

/-- An order at a level. -/
abbrev Spot := Side × PriceTicks × OrderId

/-- The ids in the queue of a level, front first. -/
def queueIds (b : EngineBook) (s : Side) (px : PriceTicks) : List OrderId :=
  (b.queueFor s px).map fun n => n.ord.orderId

/-- The enqueueing that `on_new` ends with, if it does. -/
def rests (b : EngineBook) (o : Order) : List Spot :=
  if 0 < (b.arrive o).taker.leaves ∧ o.type ≠ .market then [(o.side, o.price, o.orderId)] else []

/-- The enqueueings of a command. -/
def enters (b : EngineBook) : OrderCmd → List Spot
  | .new o => b.rests o
  | .cancel _ => []
  | .replace id newPx newQty =>
      match b.loc.find? id with
      | none => []
      | some lc =>
          match (b.queueFor lc.side lc.px)[lc.idx]? with
          | none => []
          | some n => ((b.eraseAt lc).eraseLoc id).rests (adjust n newPx newQty).ord

/-- The enqueueings of a run, oldest first. -/
def entryLog : EngineBook → List OrderCmd → List Spot
  | _, [] => []
  | b, c :: cmds =>
      b.enters c ++
        match b.dispatch c with
        | none => []
        | some b' => entryLog b' cmds

/-- Every level stands in the order of the last entries. -/
def TimePriority (log : List Spot) (b : EngineBook) : Prop :=
  ∀ s px, (b.queueIds s px).Pairwise fun i j => LastBefore log (s, px, i) (s, px, j)

/-- Every resting order has been entered where it rests. -/
def Entered (log : List Spot) (b : EngineBook) : Prop :=
  ∀ s px, ∀ i ∈ b.queueIds s px, (s, px, i) ∈ log

/-- The orders that a command names. -/
def names : OrderCmd → List OrderId
  | .new _ => []
  | .cancel id => [id]
  | .replace id _ _ => [id]

/-- Behind the position remembered for an order that the command names stands at most one order. -/
def AtBack (b : EngineBook) (c : OrderCmd) : Prop :=
  ∀ id ∈ names c, ∀ lc, b.loc.find? id = some lc →
    (b.queueFor lc.side lc.px).length ≤ lc.idx + 2

section steps
variable {b b' : EngineBook} {log : List Spot} {side : Side} {s s' : Matching} {o : Order}
  {lc : Loc} {id : OrderId} {v : Node} {q' : Queue}

theorem mem_restingIds_of_queueIds {t : Side} {px : PriceTicks} (h : id ∈ b.queueIds t px) :
    id ∈ b.restingIds := by
  obtain ⟨n, hn, hid⟩ := List.mem_map.mp h
  exact mem_restingIds_iff.mpr ⟨t, px, n, hn, hid⟩

/-! ### Queues that only lose orders -/

theorem TimePriority.mono (h : TimePriority log b)
    (hsub : ∀ t px, (b'.queueIds t px).Sublist (b.queueIds t px)) : TimePriority log b' :=
  fun t px => (h t px).sublist (hsub t px)

theorem Entered.mono (h : Entered log b)
    (hsub : ∀ t px, (b'.queueIds t px).Sublist (b.queueIds t px)) : Entered log b' :=
  fun t px i hi => h t px i ((hsub t px).subset hi)

/-- A fill takes at most the front of a queue. -/
theorem FillStep.queueIds_sublist (h : FillStep side s s') (t : Side) (px : PriceTicks) :
    (s'.book.queueIds t px).Sublist (s.book.queueIds t px) := by
  cases h with
  | whole hb =>
      have hq := queueFor_of_best? hb
      unfold queueIds
      rw [queueFor_fillWhole]
      split_ifs with hk
      · rw [hk.1, hk.2, hq, List.map_cons]
        exact List.sublist_cons_self _ _
      · exact List.Sublist.refl _
  | part hb =>
      have hq := queueFor_of_best? hb
      unfold queueIds
      rw [queueFor_fillPart]
      split_ifs with hk
      · rw [hk.1, hk.2, hq, List.map_cons, List.map_cons]
      · exact List.Sublist.refl _

theorem queueIds_arrive_sublist (hne : b.NoEmptyLevel) (t : Side) (px : PriceTicks) :
    ((b.arrive o).book.queueIds t px).Sublist (b.queueIds t px) := by
  refine arrive_invariant (J := fun s => (s.book.queueIds t px).Sublist (b.queueIds t px)) hne ?_ ?_
  · unfold queueIds
    rw [queueFor_publish]
  · exact fun _ _ _ h hs => (hs.queueIds_sublist t px).trans h

/-- Matching leaves the taker's own side alone. -/
theorem queueFor_arrive_own (hne : b.NoEmptyLevel) (px : PriceTicks) :
    (b.arrive o).book.queueFor o.side px = b.queueFor o.side px := by
  refine arrive_invariant (J := fun s => s.book.queueFor o.side px = b.queueFor o.side px) hne
    (queueFor_publish ..) ?_
  intro s s' _ h hs
  cases hs with
  | whole => rw [queueFor_fillWhole, if_neg fun hk => Side.ne_opp _ hk.1, h]
  | part => rw [queueFor_fillPart, if_neg fun hk => Side.ne_opp _ hk.1, h]

/-! ### The incoming order -/

/-- `on_new` enqueues what `rests` says. -/
theorem onNew_rests_cases (b : EngineBook) (o : Order) :
    (b.rests o = [(o.side, o.price, o.orderId)] ∧
      b.onNew o = (b.arrive o).book.enqueue (b.arrive o).taker) ∨
    (b.rests o = [] ∧ ∀ t px, (b.onNew o).queueFor t px = (b.arrive o).book.queueFor t px) := by
  unfold rests
  obtain ⟨hpos, hm, he⟩ | ⟨h0, he⟩ | ⟨-, hm, he⟩ := b.onNew_cases o
  · exact .inl ⟨if_pos ⟨hpos, hm⟩, he⟩
  · exact .inr ⟨if_neg fun h => by omega, fun t px => by rw [he, queueFor_publish]⟩
  · exact .inr ⟨if_neg fun h => h.2 hm, fun t px => by rw [he]⟩

theorem queueIds_enqueue (b : EngineBook) (n : Node) (t : Side) (px : PriceTicks) :
    (b.enqueue n).queueIds t px = if t = n.ord.side ∧ px = n.ord.price then
      b.queueIds t px ++ [n.ord.orderId] else b.queueIds t px := by
  unfold queueIds
  rw [queueFor_enqueue]
  split_ifs
  · rw [List.map_append, List.map_singleton]
  · rfl

/-- What `on_new` enqueues is entered. -/
theorem Entered.onNew (he : Entered log b) (hne : b.NoEmptyLevel) :
    Entered (log ++ b.rests o) (b.onNew o) := by
  have hent := he.mono (queueIds_arrive_sublist (o := o) hne)
  obtain ⟨hr, hnew⟩ | ⟨hr, hnew⟩ := b.onNew_rests_cases o
  · rw [hr, hnew]
    intro t px i hi
    rw [queueIds_enqueue, arrive_ord hne] at hi
    split_ifs at hi with hk
    · rcases List.mem_append.mp hi with hi | hi
      · exact List.mem_append_left _ (hent t px i hi)
      · rw [List.mem_singleton.mp hi, hk.1, hk.2]
        exact List.mem_append_right _ List.mem_cons_self
    · exact List.mem_append_left _ (hent t px i hi)
  · rw [hr, List.append_nil]
    exact hent.mono fun t px => by rw [queueIds, queueIds, hnew]

/-- A fresh order enters behind all others. -/
theorem TimePriority.onNew (h : TimePriority log b) (he : Entered log b) (hne : b.NoEmptyLevel)
    (hfresh : o.orderId ∉ b.restingIds) : TimePriority (log ++ b.rests o) (b.onNew o) := by
  have hsub := queueIds_arrive_sublist (o := o) hne
  have hprio := h.mono hsub
  have hent := he.mono hsub
  obtain ⟨hr, hnew⟩ | ⟨hr, hnew⟩ := b.onNew_rests_cases o
  · -- the new entry is not one of a resting order
    have hspot : ∀ t px, ∀ i ∈ (b.arrive o).book.queueIds t px,
        (t, px, i) ≠ (o.side, o.price, o.orderId) := by
      rintro t px i hi ⟨⟩
      exact hfresh (mem_restingIds_of_queueIds ((hsub _ _).subset hi))
    rw [hr, hnew]
    intro t px
    have hold : ((b.arrive o).book.queueIds t px).Pairwise fun i j =>
        LastBefore (log ++ [(o.side, o.price, o.orderId)]) (t, px, i) (t, px, j) :=
      (hprio t px).imp_of_mem fun hi _ hij =>
        hij.append fun hc => hspot t px _ hi (List.mem_singleton.mp hc)
    rw [queueIds_enqueue, arrive_ord hne]
    split_ifs with hk
    · obtain ⟨rfl, rfl⟩ := hk
      refine List.pairwise_append.mpr ⟨hold, List.pairwise_singleton _ _, ?_⟩
      intro i hi j hj
      rw [List.mem_singleton.mp hj]
      exact lastBefore_concat (hent _ _ i hi) (hspot _ _ i hi)
    · exact hold
  · rw [hr, List.append_nil]
    exact hprio.mono fun t px => by rw [queueIds, queueIds, hnew]

/-- The own side keeps its queues as prefixes. -/
theorem exists_queueIds_onNew_own (hne : b.NoEmptyLevel) (px : PriceTicks) :
    ∃ ids, (b.onNew o).queueIds o.side px = b.queueIds o.side px ++ ids := by
  have hown : (b.arrive o).book.queueIds o.side px = b.queueIds o.side px := by
    rw [queueIds, queueIds, queueFor_arrive_own hne]
  obtain ⟨-, hnew⟩ | ⟨-, hnew⟩ := b.onNew_rests_cases o
  · rw [hnew, queueIds_enqueue, hown]
    split_ifs
    · exact ⟨_, rfl⟩
    · exact ⟨[], (List.append_nil _).symm⟩
  · exact ⟨[], by rw [List.append_nil, ← hown, queueIds, queueIds, hnew]⟩

theorem queueIds_onNew_own (hne : b.NoEmptyLevel) (px : PriceTicks) :
    (b.queueIds o.side px).Sublist ((b.onNew o).queueIds o.side px) := by
  obtain ⟨ids, h⟩ := exists_queueIds_onNew_own (o := o) hne px
  rw [h]
  exact List.sublist_append_left _ _

/-! ### Removal -/

theorem Removed.queueIds_eq (hr : Removed b lc v q' b') (t : Side) (px : PriceTicks) :
    b'.queueIds t px = if t = lc.side ∧ px = lc.px then q'.map fun n => n.ord.orderId
      else b.queueIds t px := by
  unfold queueIds
  rw [hr.queues]
  split_ifs <;> rfl

/-- With at most one order behind the gap no order overtakes another. -/
theorem Removed.queueIds_sublist (hr : Removed b lc v q' b')
    (hback : (b.queueFor lc.side lc.px).length ≤ lc.idx + 2) (t : Side) (px : PriceTicks) :
    (b'.queueIds t px).Sublist (b.queueIds t px) := by
  rw [hr.queueIds_eq]
  split_ifs with hk
  · rw [hk.1, hk.2]
    obtain ⟨l, r, hq, hi, rfl⟩ := hr.shape
    refine List.Sublist.map _ ?_
    rw [hq] at hback ⊢
    rw [List.length_append, List.length_cons] at hback
    have hr1 : backfill r = r := by
      cases r with
      | nil => rfl
      | cons z r =>
          rw [List.length_cons] at hback
          have hnil : r = [] := List.length_eq_zero_iff.mp (by omega)
          rw [hnil]
          rfl
    rw [hr1]
    exact (List.sublist_cons_self v r).append_left l
  · exact List.Sublist.refl _

/-- With more than one order behind the gap the last one overtakes the next one. -/
theorem Removed.overtakes (hr : Removed b lc v q' b')
    (hfar : lc.idx + 2 < (b.queueFor lc.side lc.px).length) : ∃ i j,
    [i, j].Sublist (b.queueIds lc.side lc.px) ∧ [j, i].Sublist (b'.queueIds lc.side lc.px) := by
  rw [hr.queueIds_eq, if_pos ⟨rfl, rfl⟩]
  obtain ⟨l, r, hq, hi, rfl⟩ := hr.shape
  rw [hq, List.length_append, List.length_cons] at hfar
  rcases List.eq_nil_or_concat r with rfl | ⟨m, z, rfl⟩
  · rw [List.length_nil] at hfar
    omega
  rw [List.concat_eq_append] at hq hfar ⊢
  cases m with
  | nil =>
      rw [List.nil_append, List.length_singleton] at hfar
      omega
  | cons n m =>
      have hback : backfill (n :: m ++ [z]) = z :: n :: m := by
        simp only [backfill, List.getLast?_concat, List.dropLast_concat]
      refine ⟨n.ord.orderId, z.ord.orderId, ?_, ?_⟩
      · have hsub : [n, z].Sublist (l ++ v :: (n :: m ++ [z])) := by
          refine List.Sublist.trans ?_ (List.sublist_append_right l _)
          refine List.Sublist.trans ?_ (List.sublist_cons_self v _)
          exact (List.sublist_append_right m [z]).cons_cons n
        rw [queueIds, hq]
        exact hsub.map fun n => n.ord.orderId
      · have hsub : [z, n].Sublist (l ++ z :: n :: m) := by
          refine List.Sublist.trans ?_ (List.sublist_append_right l _)
          exact ((List.nil_sublist m).cons_cons n).cons_cons z
        rw [hback]
        exact hsub.map fun n => n.ord.orderId

/-- Orders that have changed places break time priority, whatever is entered beside them. -/
theorem not_timePriority_of_overtaken {ext : List Spot} {i j : OrderId} {t : Side} {px : PriceTicks}
    (h : TimePriority log b) (hij : [i, j].Sublist (b.queueIds t px))
    (hji : [j, i].Sublist (b'.queueIds t px)) (hi : (t, px, i) ∉ ext) :
    ¬ TimePriority (log ++ ext) b' := by
  intro h'
  have h1 : LastBefore log (t, px, i) (t, px, j) := by
    simpa using List.Pairwise.sublist hij (h t px)
  have h2 : LastBefore (log ++ ext) (t, px, j) (t, px, i) := by
    simpa using List.Pairwise.sublist hji (h' t px)
  exact (h1.append hi).asymm h2

theorem Entered.eraseAt (he : Entered log b) (hs : Sound b) (hl : b.loc.find? id = some lc) :
    Entered log (b.eraseAt lc) := by
  obtain ⟨-, hb⟩ | ⟨v, q', -, hr⟩ := hs.eraseAt_cases hl
  · rwa [hb]
  · intro t px i hi
    rw [hr.queueIds_eq] at hi
    split_ifs at hi with hk
    · rw [hk.1, hk.2]
      refine he lc.side lc.px i ((hr.perm.symm.map fun n => n.ord.orderId).subset ?_)
      exact List.mem_cons_of_mem _ hi
    · exact he t px i hi

/-- A replacement enqueues what the order it re-enters does. -/
theorem enters_replace {px : PriceTicks} {qty : ℕ} {n : Node} (hl : b.loc.find? id = some lc)
    (hn : (b.queueFor lc.side lc.px)[lc.idx]? = some n) : b.enters (.replace id px qty) =
      ((b.eraseAt lc).eraseLoc id).rests (adjust n px qty).ord := by
  simp only [enters, hl, hn]

theorem enters_replace_of_none {px : PriceTicks} {qty : ℕ} (hl : b.loc.find? id = none) :
    b.enters (.replace id px qty) = [] := by
  simp only [enters, hl]

/-- The orders enqueued by a command are entered. -/
theorem Entered.dispatch {c : OrderCmd} (he : Entered log b) (hs : Sound b)
    (hd : b.dispatch c = some b') : Entered (log ++ b.enters c) b' := by
  cases c with
  | new o =>
      obtain rfl := Option.some_inj.mp hd
      exact he.onNew hs.noEmpty
  | cancel id =>
      obtain rfl := Option.some_inj.mp hd
      show Entered (log ++ []) (b.onCancel id)
      rw [List.append_nil]
      cases hl : b.loc.find? id with
      | none => rwa [onCancel_of_none hl]
      | some lc =>
          rw [onCancel_of_some hl]
          exact (he.eraseAt hs hl).mono fun t px => by simp [queueIds]
  | replace id px qty =>
      obtain ⟨hl, rfl⟩ | ⟨lc, n, hl, hn, rfl⟩ := onReplace_cases hd
      · rwa [enters_replace_of_none hl, List.append_nil]
      · have hs' := (hs.eraseAt hl).eraseLoc id
        have he' : Entered log ((b.eraseAt lc).eraseLoc id) :=
          (he.eraseAt hs hl).mono fun t px => by simp [queueIds]
        rw [enters_replace hl hn]
        exact (he'.onNew hs'.noEmpty).mono fun t px => by simp [queueIds]

/-- Removing from the last two positions keeps time priority, and removing from any other one
lets an order overtake another. -/
theorem eraseAt_order (hs : Sound b) (hl : b.loc.find? id = some lc) :
    ((b.queueFor lc.side lc.px).length ≤ lc.idx + 2 ∧
      ∀ t px, ((b.eraseAt lc).queueIds t px).Sublist (b.queueIds t px)) ∨
    (lc.idx + 2 < (b.queueFor lc.side lc.px).length ∧ ∃ i j,
      [i, j].Sublist (b.queueIds lc.side lc.px) ∧
      [j, i].Sublist ((b.eraseAt lc).queueIds lc.side lc.px)) := by
  obtain ⟨hnone, hb⟩ | ⟨v, q', -, hr⟩ := hs.eraseAt_cases hl
  · have hlen := List.getElem?_eq_none_iff.mp hnone
    refine .inl ⟨by omega, fun t px => ?_⟩
    rw [hb]
  · rcases Nat.lt_or_ge (lc.idx + 2) (b.queueFor lc.side lc.px).length with hfar | hback
    · exact .inr ⟨hfar, hr.overtakes hfar⟩
    · exact .inl ⟨hback, hr.queueIds_sublist hback⟩

theorem timePriority_publish {er : ExecReport} :
    TimePriority log (b.publish er) ↔ TimePriority log b := by
  simp only [TimePriority, queueIds, queueFor_publish]

theorem timePriority_onCancel_iff (hs : Sound b) (h : TimePriority log b) (id : OrderId) :
    TimePriority log (b.onCancel id) ↔ AtBack b (.cancel id) := by
  cases hl : b.loc.find? id with
  | none =>
      rw [onCancel_of_none hl]
      exact iff_of_true h (by simp [AtBack, names, hl])
  | some lc =>
      have hG : AtBack b (.cancel id) ↔ (b.queueFor lc.side lc.px).length ≤ lc.idx + 2 := by
        simp [AtBack, names, hl]
      rw [onCancel_of_some hl, hG, timePriority_publish]
      obtain ⟨hback, hsub⟩ | ⟨hfar, i, j, hij, hji⟩ := eraseAt_order hs hl
      · exact iff_of_true (h.mono fun t px => by simpa [queueIds] using hsub t px) hback
      · have hover : ¬ TimePriority (log ++ []) ((b.eraseAt lc).eraseLoc id) :=
          not_timePriority_of_overtaken h hij (by simpa [queueIds] using hji) List.not_mem_nil
        rw [List.append_nil] at hover
        exact iff_of_false hover (by omega)

theorem timePriority_onReplace_iff {n : Node} {px : PriceTicks} {qty : ℕ} (hs : Sound b)
    (hnd : b.restingIds.Nodup) (he : Entered log b) (h : TimePriority log b)
    (hl : b.loc.find? id = some lc) (hn : (b.queueFor lc.side lc.px)[lc.idx]? = some n) :
    TimePriority (log ++ ((b.eraseAt lc).eraseLoc id).rests (adjust n px qty).ord)
      (((b.eraseAt lc).eraseLoc id).onNew (adjust n px qty).ord) ↔
    (b.queueFor lc.side lc.px).length ≤ lc.idx + 2 := by
  have hs' := (hs.eraseAt hl).eraseLoc id
  have hout := notMem_restingIds_eraseAt hnd hn
  have hside : (adjust n px qty).ord.side = lc.side :=
    (hs.node _ _ n (List.mem_of_getElem? hn)).side
  obtain ⟨hback, hsub⟩ | ⟨hfar, i, j, hij, hji⟩ := eraseAt_order hs hl
  · have h' : TimePriority log ((b.eraseAt lc).eraseLoc id) :=
      h.mono fun t px => by simpa [queueIds] using hsub t px
    have he' : Entered log ((b.eraseAt lc).eraseLoc id) :=
      (he.eraseAt hs hl).mono fun t px => by simp [queueIds]
    exact iff_of_true (h'.onNew he' hs'.noEmpty hout) hback
  · -- the two orders stay on the side that does not match, and are not the one re-entered
    have hown := queueIds_onNew_own (o := (adjust n px qty).ord) hs'.noEmpty lc.px
    rw [hside] at hown
    have hi : i ∈ (b.eraseAt lc).restingIds := mem_restingIds_of_queueIds (hji.subset (by simp))
    have hspot : (lc.side, lc.px, i) ∉
        ((b.eraseAt lc).eraseLoc id).rests (adjust n px qty).ord := by
      unfold rests
      split_ifs
      · intro hc
        rw [List.mem_singleton] at hc
        have hid : i = n.ord.orderId := (Prod.mk.inj (Prod.mk.inj hc).2).2
        exact hout (hid ▸ hi)
      · exact List.not_mem_nil
    refine iff_of_false ?_ (by omega)
    exact not_timePriority_of_overtaken h hij (hji.trans hown) hspot

/-- **The step condition**: a command keeps time priority exactly if at most one order stands
behind the position that it removes from. -/
theorem timePriority_dispatch_iff {c : OrderCmd} (hs : Sound b) (hnd : b.restingIds.Nodup)
    (hf : FreshId b c) (he : Entered log b) (h : TimePriority log b) (hd : b.dispatch c = some b') :
    TimePriority (log ++ b.enters c) b' ↔ AtBack b c := by
  cases c with
  | new o =>
      obtain rfl := Option.some_inj.mp hd
      exact iff_of_true (h.onNew he hs.noEmpty (hf o.orderId List.mem_cons_self))
        fun id hid => absurd hid List.not_mem_nil
  | cancel id =>
      obtain rfl := Option.some_inj.mp hd
      show TimePriority (log ++ []) (b.onCancel id) ↔ _
      rw [List.append_nil]
      exact timePriority_onCancel_iff hs h id
  | replace id px qty =>
      obtain ⟨hl, rfl⟩ | ⟨lc, n, hl, hn, rfl⟩ := onReplace_cases hd
      · rw [enters_replace_of_none hl, List.append_nil]
        exact iff_of_true h (by simp [AtBack, names, hl])
      · have hG : AtBack b (.replace id px qty) ↔
            (b.queueFor lc.side lc.px).length ≤ lc.idx + 2 := by simp [AtBack, names, hl]
        rw [enters_replace hl hn, hG, timePriority_publish]
        exact timePriority_onReplace_iff hs hnd he h hl hn

end steps

/-! ### Runs -/

theorem entryLog_concat {b t : EngineBook} {cmds : List OrderCmd} (c : OrderCmd)
    (h : run dispatch b cmds = some t) :
    entryLog b (cmds ++ [c]) = entryLog b cmds ++ t.enters c := by
  induction cmds generalizing b with
  | nil =>
      obtain rfl := Option.some_inj.mp h
      rw [List.nil_append, entryLog, entryLog, List.nil_append]
      cases b.dispatch c with
      | none => exact List.append_nil _
      | some b' => exact List.append_nil _
  | cons c' cmds ih =>
      obtain ⟨b', hb', ht⟩ := Option.bind_eq_some_iff.mp h
      rw [List.cons_append, entryLog, entryLog, hb']
      dsimp only
      rw [ih ht, List.append_assoc]

theorem entered_run {cmds : List OrderCmd} {b : EngineBook}
    (h : run dispatch EngineBook.empty cmds = some b) :
    Entered (entryLog EngineBook.empty cmds) b := by
  induction cmds using List.reverseRecOn generalizing b with
  | nil =>
      obtain rfl := Option.some_inj.mp h
      intro t px i hi
      cases t <;> exact absurd hi List.not_mem_nil
  | append_singleton cmds c ih =>
      obtain ⟨t, ht, hd⟩ := run_concat_eq_some.mp h
      rw [entryLog_concat c ht]
      exact (ih ht).dispatch (sound_run ht) hd

/-- **Time priority holds, exactly** in the runs in which every cancel and every replace removes
from one of the last two positions of a level. -/
theorem timePriority_iff {cmds : List OrderCmd}
    (hf : Along dispatch EngineBook.empty (fun _ => FreshId) cmds) :
    States dispatch EngineBook.empty
        (fun done b => TimePriority (entryLog EngineBook.empty done) b) cmds ↔
      Along dispatch EngineBook.empty (fun _ => AtBack) cmds := by
  refine states_iff_along (F := fun done b c => run dispatch EngineBook.empty done = some b ∧
    FreshId b c) (I := fun done b => Sound b ∧ b.restingIds.Nodup ∧
      Entered (entryLog EngineBook.empty done) b) ?_ ?_ ?_ ?_ ?_
  · exact fun pre post he t ht => ⟨sound_run ht, nodup_of_run (he ▸ hf).left ht, entered_run ht⟩
  · exact fun pre c post he t ht => ⟨ht, hf pre c post he t ht⟩
  · intro t px
    cases t <;> exact List.Pairwise.nil
  · -- out of range nothing stands behind the position
    intro _ t c _ _ _ hd
    cases c with
    | new o => cases hd
    | cancel id => cases hd
    | replace id px qty =>
        intro id' hid lc hl
        rw [List.mem_singleton.mp hid] at hl
        cases hn : (t.queueFor lc.side lc.px)[lc.idx]? with
        | none => exact (List.getElem?_eq_none_iff.mp hn).trans (Nat.le_add_right _ 2)
        | some n => simp [dispatch, onReplace, hl, hn] at hd
  · intro done t c t' hI hF h hd
    rw [entryLog_concat c hF.1]
    exact timePriority_dispatch_iff hI.1 hI.2.1 hF.2 hI.2.2 h hd

/-- Two bids on a level of which the first is cancelled, and one that joins them. -/
theorem timePriority_iff_two :
    States dispatch EngineBook.empty
        (fun done b => TimePriority (entryLog EngineBook.empty done) b)
        [.new { orderId := 1, side := .bid, price := 100, qty := 5 },
          .new { orderId := 2, side := .bid, price := 100, qty := 5 }, .cancel 1,
          .new { orderId := 3, side := .bid, price := 100, qty := 5 }] ↔
      Along dispatch EngineBook.empty (fun _ => AtBack)
        [.new { orderId := 1, side := .bid, price := 100, qty := 5 },
          .new { orderId := 2, side := .bid, price := 100, qty := 5 }, .cancel 1,
          .new { orderId := 3, side := .bid, price := 100, qty := 5 }] :=
  timePriority_iff (freshIds_of_nodup (by decide))

/-- Five asks on a level, of which a bid takes the first.  A cancel then removes one in the middle,
and the last one overtakes the fourth. -/
theorem timePriority_overtaken :
    ¬ States dispatch EngineBook.empty
      (fun done b => TimePriority (entryLog EngineBook.empty done) b)
      [.new { orderId := 1, side := .ask, price := 100, qty := 1 },
        .new { orderId := 2, side := .ask, price := 100, qty := 1 },
        .new { orderId := 3, side := .ask, price := 100, qty := 1 },
        .new { orderId := 4, side := .ask, price := 100, qty := 1 },
        .new { orderId := 5, side := .ask, price := 100, qty := 1 },
        .new { orderId := 6, side := .bid, price := 100, qty := 1 }, .cancel 2] := by
  intro h
  have hlast : [2, 5, 4].Pairwise fun i j => LastBefore
      [(Side.ask, (100 : PriceTicks), 1), (Side.ask, 100, 2), (Side.ask, 100, 3),
        (Side.ask, 100, 4), (Side.ask, 100, 5)]
      (Side.ask, (100 : PriceTicks), i) (Side.ask, (100 : PriceTicks), j) := h.last rfl .ask 100
  have hovertaken := (List.pairwise_cons.mp (List.pairwise_cons.mp hlast).2).1 4
    (List.mem_singleton_self 4)
  have hentered : LastBefore [(Side.ask, (100 : PriceTicks), 1), (Side.ask, 100, 2),
      (Side.ask, 100, 3), (Side.ask, 100, 4), (Side.ask, 100, 5)]
      (Side.ask, 100, 4) (Side.ask, 100, 5) :=
    ⟨[(Side.ask, 100, 1), (Side.ask, 100, 2), (Side.ask, 100, 3)], [(Side.ask, 100, 5)], rfl,
      by decide, by decide⟩
  exact hentered.asymm hovertaken

end EngineBook
end Trading
