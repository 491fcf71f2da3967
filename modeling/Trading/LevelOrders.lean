import Trading.OrderBook
import Trading.Transition

/-! # The orders of the levels and their index

The L3 operations put orders into the list of a level and remember the element in `l3Index`; the
L2 operations drop a level together with its list and do not look at the index.

`Took` is all that a cancel does which finds its order, and `cancelOrder_cases` what a cancel can
do.  `Tracked` holds in every run: a listed element has its entry, and entries name different
elements.  `Named` is the converse, that the element of an entry is still listed; it is what keeps
`cancelOrder` from reading through an entry whose element is gone (`Named.cancelOrder`).

The index names listed elements in every state of a run if and only if the L2 operations of the
run remove levels without orders only (`named_iff`). -/

namespace Trading
namespace OrderBook

open Transition (States Along along_nil along_cons)

/-- An element of a list has an entry, the entry of its order; the elements of the entries are
different and old. -/
structure Tracked (b : OrderBook) : Prop where
  place : ∀ s px, ∀ x ∈ b.fifo s px, b.l3Index.find? x.orderId = some ⟨s, px, x.elem⟩
  unique : ∀ s px, ((b.fifo s px).map L3Order.elem).Nodup
  old : ∀ id e, b.l3Index.find? id = some e → e.elem < b.nextElem
  inj : ∀ id id' e e', b.l3Index.find? id = some e → b.l3Index.find? id' = some e' →
    e.elem = e'.elem → id = id'

/-- The element of an entry is in the list of an existing level, at the side and price of the
entry. -/
def Named (b : OrderBook) : Prop :=
  ∀ id e, b.l3Index.find? id = some e → ∃ l, b.level? e.side e.px = some l ∧
    ∃ x ∈ l.fifo, x.elem = e.elem

section operations
variable {b b' : OrderBook} {s s' : Side} {px px' : PriceTicks} {id : OrderId} {o : Order}
  {e : IndexEntry} {x : L3Order} {l : Level} {r : Bool}

theorem levelFor_of_some (h : b.level? s px = some l) : b.levelFor s px = l := by
  rw [levelFor, h]
  rfl

theorem fifo_of_some (h : b.level? s px = some l) : b.fifo s px = l.fifo := by
  rw [fifo, levelFor_of_some h]

theorem fifo_of_none (h : b.level? s px = none) : b.fifo s px = [] := by
  rw [fifo, levelFor, h]
  rfl

theorem exists_level_of_mem (h : x ∈ b.fifo s px) : ∃ l, b.level? s px = some l ∧ x ∈ l.fifo := by
  cases hl : b.level? s px with
  | none =>
      rw [fifo_of_none hl] at h
      cases h
  | some l => exact ⟨l, rfl, fifo_of_some hl ▸ h⟩

theorem named_iff_fifo : b.Named ↔ ∀ id e, b.l3Index.find? id = some e →
    ∃ x ∈ b.fifo e.side e.px, x.elem = e.elem := by
  refine forall_congr' fun id => forall_congr' fun e => imp_congr_right fun _ => ?_
  constructor
  · rintro ⟨l, hl, x, hx, he⟩
    exact ⟨x, fifo_of_some hl ▸ hx, he⟩
  · rintro ⟨x, hx, he⟩
    obtain ⟨l, hl, hx⟩ := exists_level_of_mem hx
    exact ⟨l, hl, x, hx, he⟩

theorem tracked_empty : empty.Tracked where
  place s px x hx := by cases s <;> cases hx
  unique s px := by cases s <;> exact List.nodup_nil
  old id e h := by cases h
  inj id id' e e' h := by cases h

theorem named_empty : empty.Named := fun id e h => by cases h

/-! ### Adding an order -/

/-- The element that `addOrder` appends. -/
def newElem (b : OrderBook) (o : Order) : L3Order := ⟨b.nextElem, o.orderId, o.qty, o.entryTime⟩

theorem level?_addOrder : (b.addOrder o).level? s px = if s = o.side ∧ px = o.price then
    some ⟨wrap64 ((b.levelFor s px).aggQty + o.qty), wrap32 ((b.levelFor s px).orderCount + 1),
      b.fifo s px ++ [b.newElem o]⟩ else b.level? s px := by
  unfold addOrder
  rw [level?_withIndex, level?_setLevel]
  split_ifs with hk
  · rw [hk.1, hk.2]
    rfl
  · rfl

theorem fifo_addOrder : (b.addOrder o).fifo s px =
    if s = o.side ∧ px = o.price then b.fifo s px ++ [b.newElem o] else b.fifo s px := by
  unfold fifo levelFor
  rw [level?_addOrder]
  split_ifs <;> rfl

theorem l3Index_addOrder :
    (b.addOrder o).l3Index = b.l3Index.set o.orderId ⟨o.side, o.price, b.nextElem⟩ := rfl

theorem nextElem_addOrder : (b.addOrder o).nextElem = b.nextElem + 1 := rfl

theorem Tracked.elem_lt (h : b.Tracked) (hx : x ∈ b.fifo s px) : x.elem < b.nextElem :=
  h.old _ _ (h.place s px x hx)

theorem Tracked.addOrder (h : b.Tracked) (hid : b.l3Index.find? o.orderId = none) :
    (b.addOrder o).Tracked where
  place s px x hx := by
    rw [l3Index_addOrder, OrdMap.find?_set]
    have hold : x ∈ b.fifo s px → ¬ x.orderId = o.orderId := by
      intro hx hc
      have hp := h.place s px x hx
      rw [hc, hid] at hp
      cases hp
    rw [fifo_addOrder] at hx
    split_ifs at hx with hk
    · rcases List.mem_append.mp hx with hx | hx
      · rw [if_neg (hold hx)]
        exact h.place s px x hx
      · obtain rfl := List.mem_singleton.mp hx
        rw [if_pos (show (b.newElem o).orderId = o.orderId from rfl), hk.1, hk.2]
        rfl
    · rw [if_neg (hold hx)]
      exact h.place s px x hx
  unique s px := by
    rw [fifo_addOrder]
    split_ifs
    · rw [List.map_append, List.map_singleton, ← List.concat_eq_append]
      refine (h.unique s px).concat fun hc => ?_
      obtain ⟨y, hy, he⟩ := List.mem_map.mp hc
      exact absurd (h.elem_lt hy) (he ▸ lt_irrefl b.nextElem)
    · exact h.unique s px
  old id e he := by
    rw [l3Index_addOrder, OrdMap.find?_set] at he
    rw [nextElem_addOrder]
    split_ifs at he
    · obtain rfl := Option.some_inj.mp he
      exact Nat.lt_succ_self _
    · exact (h.old id e he).trans (Nat.lt_succ_self _)
  inj id id' e e' he he' hee := by
    rw [l3Index_addOrder, OrdMap.find?_set] at he he'
    split_ifs at he he' with h1 h2 h2
    · rw [h1, h2]
    · obtain rfl := Option.some_inj.mp he
      exact absurd (h.old id' e' he') (hee ▸ lt_irrefl b.nextElem)
    · obtain rfl := Option.some_inj.mp he'
      exact absurd (h.old id e he) (hee ▸ lt_irrefl b.nextElem)
    · exact h.inj id id' e e' he he' hee

theorem Named.addOrder (h : b.Named) : (b.addOrder o).Named := by
  rw [named_iff_fifo] at h ⊢
  intro id e he
  rw [l3Index_addOrder, OrdMap.find?_set] at he
  rw [fifo_addOrder]
  split_ifs at he
  · obtain rfl := Option.some_inj.mp he
    rw [if_pos ⟨rfl, rfl⟩]
    exact ⟨b.newElem o, by simp, rfl⟩
  · obtain ⟨x, hx, hxe⟩ := h id e he
    refine ⟨x, ?_, hxe⟩
    split_ifs
    · exact List.mem_append_left _ hx
    · exact hx

/-! ### Cancelling an order -/

/-- `b'` is `b` without the element `x` of the level `l`, which the entry `e` of `id` names. -/
structure Took (b : OrderBook) (id : OrderId) (e : IndexEntry) (l : Level) (x : L3Order)
    (b' : OrderBook) : Prop where
  entry : b.l3Index.find? id = some e
  level : b.level? e.side e.px = some l
  elem : l.fifo.find? (fun y => y.elem = e.elem) = some x
  levels : ∀ s px, b'.level? s px = if s = e.side ∧ px = e.px then
    (if (l.remove x).orderCount = 0 ∧ (l.remove x).aggQty = 0 ∧ (l.remove x).fifo = [] then none
      else some (l.remove x)) else b.level? s px
  index : b'.l3Index = b.l3Index.erase id
  next : b'.nextElem = b.nextElem

/-- What a cancel does: the id is unknown, or its level is gone, or its order is taken out. -/
theorem cancelOrder_cases (h : b.cancelOrder id = some (b', r)) :
    b.l3Index.find? id = none ∧ b' = b ∧ r = false ∨
    (∃ e, b.l3Index.find? id = some e ∧ b.level? e.side e.px = none ∧
      b' = { b with l3Index := b.l3Index.erase id } ∧ r = false) ∨
    ∃ e l x, Took b id e l x b' ∧ r = true := by
  unfold cancelOrder at h
  cases hi : b.l3Index.find? id with
  | none =>
      simp only [hi, Option.some_inj, Prod.mk.injEq] at h
      exact .inl ⟨rfl, h.1.symm, h.2.symm⟩
  | some e =>
      refine .inr ?_
      cases hl : b.level? e.side e.px with
      | none =>
          simp only [hi, hl, Option.some_inj, Prod.mk.injEq] at h
          exact .inl ⟨e, rfl, hl, h.1.symm, h.2.symm⟩
      | some l =>
          cases hx : l.fifo.find? (fun y => y.elem = e.elem) with
          | none =>
              simp only [hi, hl, hx] at h
              cases h
          | some x =>
              refine .inr ⟨e, l, x, ?_⟩
              simp only [hi, hl, hx] at h
              split_ifs at h with hg
              · simp only [Option.some_inj, Prod.mk.injEq] at h
                obtain ⟨rfl, rfl⟩ := h
                refine ⟨⟨hi, hl, hx, fun s px => ?_, l3Index_eraseLevel .., nextElem_eraseLevel ..⟩, rfl⟩
                rw [level?_eraseLevel, if_pos hg, level?_withIndex]
              · simp only [Option.some_inj, Prod.mk.injEq] at h
                obtain ⟨rfl, rfl⟩ := h
                refine ⟨⟨hi, hl, hx, fun s px => ?_, l3Index_setLevel .., nextElem_setLevel ..⟩, rfl⟩
                rw [level?_setLevel, if_neg hg, level?_withIndex]

theorem Took.mem (h : Took b id e l x b') : x ∈ b.fifo e.side e.px := by
  rw [fifo_of_some h.level]
  exact List.mem_of_find?_eq_some h.elem

theorem Took.elem_eq (h : Took b id e l x b') : x.elem = e.elem := by
  simpa using List.find?_some h.elem

theorem Took.fifo (h : Took b id e l x b') : b'.fifo s px =
    if s = e.side ∧ px = e.px then (b.fifo s px).filter (fun y => y.elem ≠ e.elem)
    else b.fifo s px := by
  have hl := h.levels s px
  by_cases hk : s = e.side ∧ px = e.px
  · rw [if_pos hk] at hl ⊢
    rw [hk.1, hk.2, fifo_of_some h.level, ← h.elem_eq]
    rw [hk.1, hk.2] at hl
    split_ifs at hl with hg
    · rw [fifo_of_none hl]
      exact hg.2.2.symm
    · rw [fifo_of_some hl]
      rfl
  · rw [if_neg hk] at hl ⊢
    unfold OrderBook.fifo levelFor
    rw [hl]

/-- With its element still listed a cancel is defined. -/
theorem Named.cancelOrder (h : b.Named) (id : OrderId) : b.cancelOrder id ≠ none := by
  intro hc
  unfold OrderBook.cancelOrder at hc
  cases hi : b.l3Index.find? id with
  | none => simp [hi] at hc
  | some e =>
      obtain ⟨l, hl, x, hx, hxe⟩ := h id e hi
      cases hf : l.fifo.find? (fun y => y.elem = e.elem) with
      | none => exact absurd hxe (by simpa using List.find?_eq_none.mp hf x hx)
      | some y =>
          simp only [hi, hl, hf] at hc
          split_ifs at hc

/-- What a cancel does with its element still listed. -/
theorem Named.cancelOrder_cases (h : b.Named) (hc : b.cancelOrder id = some (b', r)) :
    b.l3Index.find? id = none ∧ b' = b ∧ r = false ∨ ∃ e l x, Took b id e l x b' ∧ r = true := by
  obtain hnone | ⟨e, hi, hl, -, -⟩ | htook := OrderBook.cancelOrder_cases hc
  · exact .inl hnone
  · obtain ⟨l, hl', -⟩ := h id e hi
    rw [hl] at hl'
    cases hl'
  · exact .inr htook

/-- An order leaves with its entry. -/
theorem Tracked.erased (h : b.Tracked) (hindex : b'.l3Index = b.l3Index.erase id)
    (hnext : b'.nextElem = b.nextElem) (hsub : ∀ s px, (b'.fifo s px).Sublist (b.fifo s px))
    (hgone : ∀ s px, ∀ y ∈ b'.fifo s px, y.orderId ≠ id) : b'.Tracked where
  place s px y hy := by
    rw [hindex, OrdMap.find?_erase_ne _ (hgone s px y hy)]
    exact h.place s px y ((hsub s px).subset hy)
  unique s px := (h.unique s px).sublist ((hsub s px).map _)
  old id' e' he := by
    rw [hindex, OrdMap.find?_erase] at he
    rw [hnext]
    split_ifs at he
    exact h.old id' e' he
  inj id' id'' e' e'' he he' := by
    rw [hindex, OrdMap.find?_erase] at he he'
    split_ifs at he he'
    exact h.inj id' id'' e' e'' he he'

/-- An element that is listed for `id` is the one that the entry of `id` names. -/
theorem Tracked.eq_of_orderId (h : b.Tracked) (hi : b.l3Index.find? id = some e)
    (hx : x ∈ b.fifo s px) (hid : x.orderId = id) : s = e.side ∧ px = e.px ∧ x.elem = e.elem := by
  have hp := h.place s px x hx
  rw [hid, hi, Option.some_inj] at hp
  rw [hp]
  exact ⟨rfl, rfl, rfl⟩

theorem Took.tracked (ht : Took b id e l x b') (h : b.Tracked) : b'.Tracked := by
  have hsub : ∀ s px, (b'.fifo s px).Sublist (b.fifo s px) := by
    intro s px
    rw [ht.fifo]
    split_ifs
    · exact List.filter_sublist
    · exact List.Sublist.refl _
  refine h.erased ht.index ht.next hsub fun s px y hy hid => ?_
  obtain ⟨hs, hpx, he⟩ := h.eq_of_orderId ht.entry ((hsub s px).subset hy) hid
  rw [ht.fifo, if_pos ⟨hs, hpx⟩] at hy
  simpa [he] using (List.mem_filter.mp hy).2

theorem Took.named (ht : Took b id e l x b') (hT : b.Tracked) (h : b.Named) : b'.Named := by
  rw [named_iff_fifo] at h ⊢
  intro id' e' he
  rw [ht.index, OrdMap.find?_erase] at he
  split_ifs at he with hid
  obtain ⟨y, hy, hye⟩ := h id' e' he
  refine ⟨y, ?_, hye⟩
  rw [ht.fifo]
  split_ifs
  · -- the element of another entry is another one
    refine List.mem_filter.mpr ⟨hy, ?_⟩
    rw [decide_eq_true_iff, hye]
    exact fun hc => hid (hT.inj id' id e' e he ht.entry hc)
  · exact hy

theorem Tracked.eraseEntry (h : b.Tracked) (hi : b.l3Index.find? id = some e)
    (hl : b.level? e.side e.px = none) :
    ({ b with l3Index := b.l3Index.erase id } : OrderBook).Tracked := by
  refine h.erased rfl rfl (fun s px => List.Sublist.refl _) fun s px y hy hid => ?_
  have hy : y ∈ b.fifo s px := hy
  obtain ⟨rfl, rfl, -⟩ := h.eq_of_orderId hi hy hid
  rw [fifo_of_none hl] at hy
  cases hy

theorem Tracked.cancelOrder (h : b.Tracked) (hc : b.cancelOrder id = some (b', r)) :
    b'.Tracked := by
  obtain ⟨-, rfl, -⟩ | ⟨e, hi, hl, rfl, -⟩ | ⟨e, l, x, ht, -⟩ := cancelOrder_cases hc
  · exact h
  · exact h.eraseEntry hi hl
  · exact ht.tracked h

theorem Named.afterCancel (h : b.Named) (hT : b.Tracked) (hc : b.cancelOrder id = some (b', r)) :
    b'.Named := by
  obtain ⟨-, rfl, -⟩ | ⟨e, l, x, ht, -⟩ := h.cancelOrder_cases hc
  · exact h
  · exact ht.named hT h

/-! ### L2 operations -/

theorem fifo_eraseLevel : (b.eraseLevel s px).fifo s' px' =
    if s' = s ∧ px' = px then [] else b.fifo s' px' := by
  unfold fifo levelFor
  rw [level?_eraseLevel]
  split_ifs <;> rfl

theorem fifo_upsertLevel {qty cnt : ℕ} : (b.upsertLevel s px qty cnt).fifo s' px' =
    if (qty = 0 ∨ cnt = 0) ∧ s' = s ∧ px' = px then [] else b.fifo s' px' := by
  by_cases hz : qty = 0 ∨ cnt = 0
  · unfold upsertLevel
    rw [if_pos hz, fifo_eraseLevel]
    simp only [hz, true_and]
  · rw [if_neg fun h => hz h.1]
    unfold fifo levelFor
    rw [level?_upsertLevel, if_neg hz]
    split_ifs with hk
    · rw [hk.1, hk.2]
      rfl
    · rfl

/-- Dropping lists keeps the rest tracked. -/
theorem Tracked.of_fifo (h : b.Tracked) (hf : ∀ s px, b'.fifo s px = [] ∨ b'.fifo s px = b.fifo s px)
    (hi : b'.l3Index = b.l3Index) (hn : b'.nextElem = b.nextElem) : b'.Tracked where
  place s px x hx := by
    obtain he | he := hf s px
    · rw [he] at hx
      cases hx
    · rw [hi]
      exact h.place s px x (he ▸ hx)
  unique s px := by
    obtain he | he := hf s px
    · rw [he]
      exact List.nodup_nil
    · rw [he]
      exact h.unique s px
  old id e he := by
    rw [hi] at he
    exact hn ▸ h.old id e he
  inj := hi ▸ h.inj

theorem Tracked.applyL2 (h : b.Tracked) (op : L2Op) : (b.applyL2 op).Tracked := by
  cases op with
  | upsertLevel s px qty cnt =>
      refine h.of_fifo (fun s' px' => ?_) (l3Index_upsertLevel ..) (nextElem_upsertLevel ..)
      rw [OrderBook.applyL2, fifo_upsertLevel]
      split_ifs
      · exact .inl rfl
      · exact .inr rfl
  | eraseLevel s px =>
      refine h.of_fifo (fun s' px' => ?_) (l3Index_eraseLevel ..) (nextElem_eraseLevel ..)
      rw [OrderBook.applyL2, fifo_eraseLevel]
      split_ifs
      · exact .inl rfl
      · exact .inr rfl

/-- Dropping the list at `s` and `px` keeps the entries good if and only if the list is empty. -/
theorem named_drop_iff (h : b.Named) (hT : b.Tracked)
    (hf : ∀ s' px', b'.fifo s' px' = if s' = s ∧ px' = px then [] else b.fifo s' px')
    (hi : b'.l3Index = b.l3Index) : b'.Named ↔ b.fifo s px = [] := by
  rw [named_iff_fifo] at h ⊢
  constructor
  · intro h'
    refine List.eq_nil_iff_forall_not_mem.mpr fun x hx => ?_
    obtain ⟨y, hy, -⟩ := h' x.orderId _ (hi ▸ hT.place s px x hx)
    rw [hf, if_pos ⟨rfl, rfl⟩] at hy
    cases hy
  · intro hnil id e he
    obtain ⟨x, hx, hxe⟩ := h id e (hi ▸ he)
    refine ⟨x, ?_, hxe⟩
    rw [hf]
    split_ifs with hk
    · rw [hk.1, hk.2, hnil] at hx
      exact hx
    · exact hx

end operations

/-! ### Runs -/

/-- The id that the operation adds has no entry at that time. -/
def AddsNew (b : OrderBook) : BookOp → Prop
  | .l3 (.addOrder o) => b.l3Index.find? o.orderId = none
  | .l3 (.replaceOrder oNew) => ∀ b' r, b.cancelOrder (replaced oNew) = some (b', r) →
      b'.l3Index.find? oNew.orderId = none
  | _ => True

/-- An L2 operation that removes a level finds no orders in it. -/
def KeepsOrders (b : OrderBook) : BookOp → Prop
  | .l2 (.upsertLevel s px qty cnt) => qty = 0 ∨ cnt = 0 → b.fifo s px = []
  | .l2 (.eraseLevel s px) => b.fifo s px = []
  | .l3 _ => True

section runs
variable {b b' : OrderBook} {op : BookOp}

/-- A replace is a cancel and then an add. -/
theorem exists_cancelOrder_of_replace {oNew : Order}
    (hs : b.applyL3 (.replaceOrder oNew) = some b') :
    ∃ b₁ r, b.cancelOrder (replaced oNew) = some (b₁, r) ∧ b' = b₁.addOrder oNew := by
  obtain ⟨⟨b₂, r⟩, hr, rfl⟩ := Option.map_eq_some_iff.mp hs
  obtain ⟨⟨b₁, r₁⟩, hc, he⟩ := Option.map_eq_some_iff.mp hr
  exact ⟨b₁, r₁, hc, (congrArg Prod.fst he).symm⟩

theorem Tracked.applyL3 {op : L3Op} (h : b.Tracked) (hf : b.AddsNew (.l3 op))
    (hs : b.applyL3 op = some b') : b'.Tracked := by
  cases op with
  | addOrder o =>
      obtain rfl := Option.some_inj.mp hs
      exact h.addOrder hf
  | cancelOrder id =>
      obtain ⟨⟨b₁, r⟩, hc, rfl⟩ := Option.map_eq_some_iff.mp hs
      exact h.cancelOrder hc
  | replaceOrder oNew =>
      obtain ⟨b₁, r, hc, rfl⟩ := exists_cancelOrder_of_replace hs
      exact (h.cancelOrder hc).addOrder (hf b₁ r hc)

theorem Tracked.apply (h : b.Tracked) (hf : b.AddsNew op) (hs : b.apply op = some b') :
    b'.Tracked := by
  cases op with
  | l2 op => exact Option.some_inj.mp hs ▸ h.applyL2 op
  | l3 op => exact h.applyL3 hf hs

theorem Named.applyL3 {op : L3Op} (h : b.Named) (hT : b.Tracked) (hs : b.applyL3 op = some b') :
    b'.Named := by
  cases op with
  | addOrder o =>
      obtain rfl := Option.some_inj.mp hs
      exact h.addOrder
  | cancelOrder id =>
      obtain ⟨⟨b₁, r⟩, hc, rfl⟩ := Option.map_eq_some_iff.mp hs
      exact h.afterCancel hT hc
  | replaceOrder oNew =>
      obtain ⟨b₁, r, hc, rfl⟩ := exists_cancelOrder_of_replace hs
      exact (h.afterCancel hT hc).addOrder

theorem Named.applyL3_ne_none (h : b.Named) (op : L3Op) : b.applyL3 op ≠ none := by
  cases op with
  | addOrder o => simp [OrderBook.applyL3]
  | cancelOrder id => simpa [OrderBook.applyL3] using h.cancelOrder id
  | replaceOrder oNew => simpa [OrderBook.applyL3, replaceOrder] using h.cancelOrder (replaced oNew)

/-- One operation keeps the entries good if and only if it drops no orders. -/
theorem named_apply_iff (h : b.Named) (hT : b.Tracked) (hs : b.apply op = some b') :
    b'.Named ↔ b.KeepsOrders op := by
  cases op with
  | l2 op =>
      obtain rfl := Option.some_inj.mp hs
      cases op with
      | upsertLevel s px qty cnt =>
          by_cases hz : qty = 0 ∨ cnt = 0
          · have hfifo : ∀ s' px', (b.upsertLevel s px qty cnt).fifo s' px' =
                if s' = s ∧ px' = px then [] else b.fifo s' px' := by
              intro s' px'
              rw [fifo_upsertLevel]
              simp only [hz, true_and]
            exact (named_drop_iff h hT hfifo (l3Index_upsertLevel b s px qty cnt)).trans
              ⟨fun hnil _ => hnil, fun hnil => hnil hz⟩
          · refine iff_of_true ?_ fun hc => absurd hc hz
            rw [named_iff_fifo] at h ⊢
            intro id e he
            rw [applyL2, fifo_upsertLevel, if_neg fun hc => hz hc.1]
            exact h id e (l3Index_upsertLevel b s px qty cnt ▸ he)
      | eraseLevel s px =>
          exact named_drop_iff h hT (fun _ _ => fifo_eraseLevel) (l3Index_eraseLevel ..)
  | l3 op => exact iff_of_true (h.applyL3 hT hs) trivial

theorem tracked_states {ops : List BookOp} (hf : Along apply empty (fun _ => AddsNew) ops) :
    States apply empty (fun _ => Tracked) ops := fun _ _ he _ ht =>
  Transition.run_invariant (G := fun _ => AddsNew) (P := fun _ => Tracked) tracked_empty
    (fun _ _ _ _ h hF hs => h.apply hF hs) (he ▸ hf).left ht

/-- **The index names listed orders, exactly** in the runs in which no L2 operation removes a level
that has orders.  The entries being good, every cancel is defined. -/
theorem named_iff {ops : List BookOp} (hf : Along apply empty (fun _ => AddsNew) ops) :
    States apply empty (fun _ b => b.Named ∧ ∀ id, b.cancelOrder id ≠ none) ops ↔
      Along apply empty (fun _ => KeepsOrders) ops := by
  have hP : ∀ b : OrderBook, (b.Named ∧ ∀ id, b.cancelOrder id ≠ none) ↔ b.Named := fun b =>
    ⟨And.left, fun h => ⟨h, h.cancelOrder⟩⟩
  simp only [hP]
  refine Transition.states_iff_along_state (tracked_states hf) named_empty ?_ ?_
  · intro b op _ h hs
    cases op with
    | l2 op => cases hs
    | l3 op => exact absurd hs (h.applyL3_ne_none op)
  · exact fun b op b' hT h hs => named_apply_iff h hT hs

/-- An order, an upsert of its level, and another level that comes and goes. -/
theorem named_iff_upsert :
    let ops : List BookOp :=
      [.l3 (.addOrder { orderId := 1, price := 100, qty := 5 }), .l2 (.upsertLevel .bid 100 7 2),
        .l2 (.upsertLevel .bid 99 3 1), .l2 (.eraseLevel .bid 99), .l3 (.cancelOrder 1)]
    States apply empty (fun _ b => b.Named ∧ ∀ id, b.cancelOrder id ≠ none) ops ↔
      Along apply empty (fun _ => KeepsOrders) ops :=
  named_iff (along_cons.mpr ⟨rfl, fun _ _ => along_cons.mpr ⟨trivial, fun _ _ =>
    along_cons.mpr ⟨trivial, fun _ _ => along_cons.mpr ⟨trivial, fun _ _ =>
      along_cons.mpr ⟨trivial, fun _ _ => along_nil⟩⟩⟩⟩⟩)

/-- The level of an order is erased and comes back: a cancel of the order reads through an entry
whose element is gone. -/
theorem cancelOrder_dangling :
    ¬ States apply empty (fun _ b => b.Named ∧ ∀ id, b.cancelOrder id ≠ none)
      [.l3 (.addOrder { orderId := 1, price := 100, qty := 5 }), .l2 (.eraseLevel .bid 100),
        .l2 (.upsertLevel .bid 100 7 2)] := by
  intro h
  exact (h.last rfl).2 1 (by decide +kernel)

end runs

end OrderBook
end Trading
