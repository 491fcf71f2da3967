import Trading.EngineBook

/-! # The book as a table of queues

Two readings of the price maps, in which the rest of the development is stated:

* by position: `queueFor s px` is the queue at a side and price, empty when there is no level;
* as a multiset: `nodes` lists every resting node.

Every update of the book is a `setQueue` or an `eraseLevel`; `putQueue` is the one of the two
that leaves no empty level behind.  `enqueue_eq`, `eraseAt_of_last` and `eraseAt_of_swap` put the
operations of the source that move orders in this form, and `Removed` is all that the removal of an
order does to the book. -/

namespace Trading
namespace EngineBook

variable (b : EngineBook) (s s' : Side) (px px' : PriceTicks) (q q' : Queue) (id : OrderId)

/-! ### Lookups -/

theorem queue?_setQueue : (b.setQueue s px q).queue? s' px' =
    if s' = s ∧ px' = px then some q else b.queue? s' px' := by
  cases s <;> cases s' <;> simp [setQueue, queue?, OrdMap.find?_set]

theorem queue?_eraseLevel : (b.eraseLevel s px).queue? s' px' =
    if s' = s ∧ px' = px then none else b.queue? s' px' := by
  cases s <;> cases s' <;> simp [eraseLevel, queue?, OrdMap.find?_erase]

@[simp] theorem queue?_publish (er : ExecReport) : (b.publish er).queue? s px = b.queue? s px := by
  cases s <;> rfl

@[simp] theorem queue?_eraseLoc : (b.eraseLoc id).queue? s px = b.queue? s px := by cases s <;> rfl

@[simp] theorem queue?_withLoc (l : LocMap) :
    ({ b with loc := l } : EngineBook).queue? s px = b.queue? s px := by cases s <;> rfl

@[simp] theorem loc_setQueue : (b.setQueue s px q).loc = b.loc := by cases s <;> rfl
@[simp] theorem loc_eraseLevel : (b.eraseLevel s px).loc = b.loc := by cases s <;> rfl
@[simp] theorem loc_publish (er : ExecReport) : (b.publish er).loc = b.loc := rfl
@[simp] theorem loc_eraseLoc : (b.eraseLoc id).loc = b.loc.erase id := rfl

@[simp] theorem sink_setQueue : (b.setQueue s px q).sink = b.sink := by cases s <;> rfl
@[simp] theorem sink_eraseLevel : (b.eraseLevel s px).sink = b.sink := by cases s <;> rfl
@[simp] theorem sink_publish (er : ExecReport) : (b.publish er).sink = b.sink ++ [er] := rfl
@[simp] theorem sink_eraseLoc : (b.eraseLoc id).sink = b.sink := rfl

variable {b s s' px px' q q' id}

/-- A book is its queues, its index and its reports. -/
theorem ext_queue? {b b' : EngineBook} (hq : ∀ s px, b.queue? s px = b'.queue? s px)
    (hl : b.loc = b'.loc) (hs : b.sink = b'.sink) : b = b' := by
  obtain ⟨bids, asks, loc, sink⟩ := b
  obtain ⟨bids', asks', loc', sink'⟩ := b'
  obtain rfl : bids = bids' := OrdMap.ext_find? (hq .bid)
  obtain rfl : asks = asks' := OrdMap.ext_find? (hq .ask)
  congr

theorem queueFor_of_queue? (h : b.queue? s px = some q) : b.queueFor s px = q := by
  simp [queueFor, h]

variable (b s s' px px' q q' id)

theorem queueFor_setQueue : (b.setQueue s px q).queueFor s' px' =
    if s' = s ∧ px' = px then q else b.queueFor s' px' := by
  simp only [queueFor, queue?_setQueue]
  split_ifs <;> rfl

theorem queueFor_eraseLevel : (b.eraseLevel s px).queueFor s' px' =
    if s' = s ∧ px' = px then [] else b.queueFor s' px' := by
  simp only [queueFor, queue?_eraseLevel]
  split_ifs <;> rfl

@[simp] theorem queueFor_publish (er : ExecReport) :
    (b.publish er).queueFor s px = b.queueFor s px := by simp [queueFor]

@[simp] theorem queueFor_eraseLoc : (b.eraseLoc id).queueFor s px = b.queueFor s px := by
  simp [queueFor]

@[simp] theorem queueFor_withLoc (l : LocMap) :
    ({ b with loc := l } : EngineBook).queueFor s px = b.queueFor s px := by simp [queueFor]

/-- `q` at side `s` and price `px`; no level when `q` is empty. -/
def putQueue : EngineBook := if q = [] then b.eraseLevel s px else b.setQueue s px q

theorem queueFor_putQueue : (b.putQueue s px q).queueFor s' px' =
    if s' = s ∧ px' = px then q else b.queueFor s' px' := by
  unfold putQueue
  by_cases hq : q = []
  · rw [if_pos hq, queueFor_eraseLevel, hq]
  · rw [if_neg hq, queueFor_setQueue]

@[simp] theorem queueFor_putQueue_self : (b.putQueue s px q).queueFor s px = q := by
  simp [queueFor_putQueue]

theorem queue?_putQueue_self : (b.putQueue s px q).queue? s px = if q = [] then none else some q := by
  unfold putQueue
  split_ifs <;> simp [queue?_eraseLevel, queue?_setQueue]

theorem queue?_putQueue_ne (h : ¬(s' = s ∧ px' = px)) :
    (b.putQueue s px q).queue? s' px' = b.queue? s' px' := by
  unfold putQueue
  split_ifs
  · rw [queue?_eraseLevel, if_neg h]
  · rw [queue?_setQueue, if_neg h]

@[simp] theorem loc_putQueue : (b.putQueue s px q).loc = b.loc := by
  unfold putQueue; split_ifs <;> simp

@[simp] theorem sink_putQueue : (b.putQueue s px q).sink = b.sink := by
  unfold putQueue; split_ifs <;> simp

/-- No level is empty. -/
def NoEmptyLevel (b : EngineBook) : Prop := ∀ s px, b.queue? s px ≠ some []

variable {b s px q q'}

theorem NoEmptyLevel.putQueue (h : b.NoEmptyLevel) : (b.putQueue s px q).NoEmptyLevel := by
  intro s' px'
  by_cases hk : s' = s ∧ px' = px
  · obtain ⟨rfl, rfl⟩ := hk
    rw [queue?_putQueue_self]
    split_ifs with hq
    · simp
    · simpa using hq
  · rw [queue?_putQueue_ne _ _ _ _ _ _ hk]
    exact h s' px'

/-- In a book without empty levels a level is there exactly when its queue is nonempty. -/
theorem NoEmptyLevel.queue?_eq_some_iff (h : b.NoEmptyLevel) :
    b.queue? s px = some q ↔ q ≠ [] ∧ b.queueFor s px = q := by
  constructor
  · intro hq
    exact ⟨fun he => h s px (he ▸ hq), queueFor_of_queue? hq⟩
  · rintro ⟨hne, hq⟩
    cases hc : b.queue? s px with
    | none => rw [queueFor, hc] at hq; exact absurd hq.symm hne
    | some q' => rw [queueFor, hc] at hq; rw [← hq]; rfl

theorem NoEmptyLevel.queue?_eq_none_iff (h : b.NoEmptyLevel) :
    b.queue? s px = none ↔ b.queueFor s px = [] := by
  constructor
  · intro hq
    simp [queueFor, hq]
  · intro hq
    by_contra hc
    obtain ⟨q, hc⟩ := Option.ne_none_iff_exists'.mp hc
    obtain ⟨hne, hq'⟩ := h.queue?_eq_some_iff.mp hc
    exact hne (hq'.symm.trans hq)

/-- Reading a queue and putting it back. -/
theorem putQueue_queueFor (h : b.queue? s px ≠ some []) : b.putQueue s px (b.queueFor s px) = b := by
  refine ext_queue? (fun s' px' => ?_) (loc_putQueue ..) (sink_putQueue ..)
  by_cases hk : s' = s ∧ px' = px
  · obtain ⟨rfl, rfl⟩ := hk
    rw [queue?_putQueue_self]
    cases hc : b.queue? s' px' with
    | none => simp [queueFor, hc]
    | some q =>
        rw [queueFor_of_queue? hc, if_neg]
        rintro rfl
        exact h hc
  · exact queue?_putQueue_ne _ _ _ _ _ _ hk

theorem putQueue_setQueue (b : EngineBook) (s : Side) (px : PriceTicks) (q q' : Queue) :
    (b.setQueue s px q).putQueue s px q' = b.putQueue s px q' := by
  unfold putQueue setQueue eraseLevel
  cases s <;> simp

/-! ### The best level -/

theorem levels_pairwise (b : EngineBook) (s : Side) :
    (b.levels s).Pairwise fun e e' => Better s e.1 e'.1 := by
  cases s
  · exact b.bids.sorted
  · exact b.asks.sorted

theorem mem_levels_iff : (px, q) ∈ b.levels s ↔ b.queue? s px = some q := by
  cases s
  · exact b.bids.mem_entries_iff
  · exact b.asks.mem_entries_iff

theorem best?_eq_head? (b : EngineBook) (s : Side) : b.best? s = (b.levels s).head? := by
  cases s <;> rfl

theorem best?_eq_some_iff {e : PriceTicks × Queue} :
    b.best? s = some e ↔ ∃ es, b.levels s = e :: es := by
  rw [best?_eq_head?, List.head?_eq_some_iff]

theorem queue?_of_best? (h : b.best? s = some (px, q)) : b.queue? s px = some q := by
  obtain ⟨es, he⟩ := best?_eq_some_iff.mp h
  exact mem_levels_iff.mp (he ▸ List.mem_cons_self)

theorem queueFor_of_best? (h : b.best? s = some (px, q)) : b.queueFor s px = q :=
  queueFor_of_queue? (queue?_of_best? h)

theorem exists_queue? (h : b.queueFor s px ≠ []) : ∃ q, b.queue? s px = some q := by
  cases hq : b.queue? s px with
  | none => simp [queueFor, hq] at h
  | some q => exact ⟨q, rfl⟩

/-- No level of a side is better than the best one. -/
theorem best?_le {px' : PriceTicks} (hb : b.best? s = some (px, q)) (h : b.queueFor s px' ≠ []) :
    match s with
    | .bid => px' ≤ px
    | .ask => px ≤ px' := by
  obtain ⟨q', hq'⟩ := exists_queue? h
  obtain ⟨es, he⟩ := best?_eq_some_iff.mp hb
  cases s
  · exact (OrdMap.first_le he hq').elim le_of_eq le_of_lt
  · exact (OrdMap.first_le he hq').elim ge_of_eq le_of_lt

theorem exists_best? (h : b.queueFor s px ≠ []) : ∃ px' q', b.best? s = some (px', q') := by
  obtain ⟨q, hq⟩ := exists_queue? h
  obtain ⟨e, es, he⟩ := List.exists_cons_of_ne_nil (List.ne_nil_of_mem (mem_levels_iff.mpr hq))
  exact ⟨e.1, e.2, best?_eq_some_iff.mpr ⟨es, he⟩⟩

theorem levels_setQueue_best {es : List (PriceTicks × Queue)} (h : b.levels s = (px, q) :: es) :
    (b.setQueue s px q').levels s = (px, q') :: es := by
  cases s
  · exact OrdMap.entries_set_first h q'
  · exact OrdMap.entries_set_first h q'

theorem levels_eraseLevel_best {es : List (PriceTicks × Queue)} (h : b.levels s = (px, q) :: es) :
    (b.eraseLevel s px).levels s = es := by
  cases s
  · exact OrdMap.entries_erase_first h
  · exact OrdMap.entries_erase_first h

theorem levels_putQueue_best {es : List (PriceTicks × Queue)} (h : b.levels s = (px, q) :: es) :
    (b.putQueue s px q').levels s = if q' = [] then es else (px, q') :: es := by
  unfold putQueue
  split_ifs
  · exact levels_eraseLevel_best h
  · exact levels_setQueue_best h

theorem levels_putQueue_of_ne (b : EngineBook) {s s' : Side} (h : s ≠ s') (px : PriceTicks)
    (q : Queue) : (b.putQueue s px q).levels s' = b.levels s' := by
  unfold putQueue
  split_ifs
  · cases s <;> cases s' <;> first | rfl | exact absurd rfl h
  · cases s <;> cases s' <;> first | rfl | exact absurd rfl h

theorem queueFor_of_levels {b b' : EngineBook} (h : b.levels s = b'.levels s) (px : PriceTicks) :
    b.queueFor s px = b'.queueFor s px := by
  have hq : ∀ q, b.queue? s px = some q ↔ b'.queue? s px = some q := fun q => by
    rw [← mem_levels_iff, ← mem_levels_iff, h]
  rw [queueFor, queueFor, Option.ext hq]

@[simp] theorem levels_publish (b : EngineBook) (s : Side) (er : ExecReport) :
    (b.publish er).levels s = b.levels s := by cases s <;> rfl

@[simp] theorem levels_eraseLoc (b : EngineBook) (s : Side) (id : OrderId) :
    (b.eraseLoc id).levels s = b.levels s := by cases s <;> rfl

@[simp] theorem levels_withLoc (b : EngineBook) (s : Side) (l : LocMap) :
    ({ b with loc := l } : EngineBook).levels s = b.levels s := by cases s <;> rfl

/-! ### The resting nodes -/

def nodesOn (b : EngineBook) (s : Side) : List Node := (b.levels s).flatMap Prod.snd

/-- Every resting node, with its multiplicity. -/
def nodes (b : EngineBook) : List Node := b.nodesOn .bid ++ b.nodesOn .ask

theorem mem_nodes_iff {n : Node} : n ∈ b.nodes ↔ ∃ s px, n ∈ b.queueFor s px := by
  have key : ∀ s, n ∈ b.nodesOn s ↔ ∃ px, n ∈ b.queueFor s px := by
    intro s
    simp only [nodesOn, List.mem_flatMap, Prod.exists]
    constructor
    · rintro ⟨px, q, hq, hn⟩
      exact ⟨px, by rwa [queueFor_of_queue? (mem_levels_iff.mp hq)]⟩
    · rintro ⟨px, hn⟩
      cases hc : b.queue? s px with
      | none => simp [queueFor, hc] at hn
      | some q => exact ⟨px, q, mem_levels_iff.mpr hc, by rwa [queueFor_of_queue? hc] at hn⟩
  rw [nodes, List.mem_append, key, key]
  constructor
  · rintro (⟨px, h⟩ | ⟨px, h⟩)
    · exact ⟨.bid, px, h⟩
    · exact ⟨.ask, px, h⟩
  · rintro ⟨s, px, h⟩
    cases s
    · exact .inl ⟨px, h⟩
    · exact .inr ⟨px, h⟩

@[simp] theorem nodes_publish (b : EngineBook) (er : ExecReport) : (b.publish er).nodes = b.nodes :=
  rfl

@[simp] theorem nodes_eraseLoc (b : EngineBook) (id : OrderId) : (b.eraseLoc id).nodes = b.nodes :=
  rfl

@[simp] theorem nodes_withLoc (b : EngineBook) (l : LocMap) :
    ({ b with loc := l } : EngineBook).nodes = b.nodes := rfl

@[simp] theorem nodes_eraseLevel_publish (b : EngineBook) (er : ExecReport) (s : Side)
    (px : PriceTicks) : ((b.publish er).eraseLevel s px).nodes = (b.eraseLevel s px).nodes := by
  cases s <;> rfl

@[simp] theorem nodes_eraseLevel_eraseLoc (b : EngineBook) (id : OrderId) (s : Side)
    (px : PriceTicks) : ((b.eraseLoc id).eraseLevel s px).nodes = (b.eraseLevel s px).nodes := by
  cases s <;> rfl

/-- The resting nodes, with those of one level first. -/
theorem nodes_perm_queueFor (b : EngineBook) (s : Side) (px : PriceTicks) :
    b.nodes.Perm (b.queueFor s px ++ (b.eraseLevel s px).nodes) := by
  cases hq : b.queue? s px with
  | none =>
      have he : b.eraseLevel s px = b := by
        refine ext_queue? (fun s' px' => ?_) (loc_eraseLevel ..) (sink_eraseLevel ..)
        rw [queue?_eraseLevel]
        split_ifs with hk
        · rw [hk.1, hk.2, hq]
        · rfl
      simp [he, queueFor, hq]
  | some q =>
      rw [queueFor_of_queue? hq]
      cases s
      · have hp := (b.bids.perm_of_find? hq).flatMap_right Prod.snd
        rw [List.flatMap_cons] at hp
        show (b.nodesOn .bid ++ b.nodesOn .ask).Perm
          (q ++ ((b.eraseLevel .bid px).nodesOn .bid ++ b.nodesOn .ask))
        rw [← List.append_assoc]
        exact hp.append_right _
      · have hp := (b.asks.perm_of_find? hq).flatMap_right Prod.snd
        rw [List.flatMap_cons] at hp
        show (b.nodesOn .bid ++ b.nodesOn .ask).Perm
          (q ++ (b.nodesOn .bid ++ (b.eraseLevel .ask px).nodesOn .ask))
        refine (hp.append_left _).trans ?_
        rw [← List.append_assoc, ← List.append_assoc]
        exact List.perm_append_comm.append_right _

theorem eraseLevel_putQueue (b : EngineBook) (s : Side) (px : PriceTicks) (q : Queue) :
    (b.putQueue s px q).eraseLevel s px = b.eraseLevel s px := by
  refine ext_queue? (fun s' px' => ?_) (by simp) (by simp)
  rw [queue?_eraseLevel, queue?_eraseLevel]
  split_ifs with hk
  · rfl
  · exact queue?_putQueue_ne _ _ _ _ _ _ hk

theorem nodes_putQueue_perm (b : EngineBook) (s : Side) (px : PriceTicks) (q : Queue) :
    (b.putQueue s px q).nodes.Perm (q ++ (b.eraseLevel s px).nodes) := by
  have h := (b.putQueue s px q).nodes_perm_queueFor s px
  rwa [queueFor_putQueue_self, eraseLevel_putQueue] at h

/-! ### The operations that move orders -/

theorem enqueue_eq (b : EngineBook) (n : Node) : b.enqueue n =
    { b.putQueue n.ord.side n.ord.price (b.queueFor n.ord.side n.ord.price ++ [n]) with
      loc := b.loc.set n.ord.orderId
        ⟨n.ord.side, n.ord.price, (b.queueFor n.ord.side n.ord.price).length⟩ } := by
  simp [enqueue, putQueue]

theorem queueFor_enqueue (b : EngineBook) (n : Node) (s : Side) (px : PriceTicks) :
    (b.enqueue n).queueFor s px =
      if s = n.ord.side ∧ px = n.ord.price then b.queueFor s px ++ [n] else b.queueFor s px := by
  rw [enqueue_eq, queueFor_withLoc, queueFor_putQueue]
  split_ifs with h
  · rw [h.1, h.2]
  · rfl

@[simp] theorem sink_enqueue (b : EngineBook) (n : Node) : (b.enqueue n).sink = b.sink := by
  rw [enqueue_eq]
  exact sink_putQueue ..

theorem levels_enqueue_opp (b : EngineBook) (n : Node) :
    (b.enqueue n).levels n.ord.side.opp = b.levels n.ord.side.opp := by
  rw [enqueue_eq, levels_withLoc, levels_putQueue_of_ne _ (Side.ne_opp _)]

theorem loc_enqueue (b : EngineBook) (n : Node) : (b.enqueue n).loc = b.loc.set n.ord.orderId
    ⟨n.ord.side, n.ord.price, (b.queueFor n.ord.side n.ord.price).length⟩ := by
  rw [enqueue_eq]

theorem NoEmptyLevel.enqueue {n : Node} (h : b.NoEmptyLevel) : (b.enqueue n).NoEmptyLevel := by
  rw [enqueue_eq]
  intro s px
  rw [queue?_withLoc]
  exact h.putQueue s px

theorem nodes_enqueue_perm (b : EngineBook) (n : Node) : (b.enqueue n).nodes.Perm (n :: b.nodes) := by
  rw [enqueue_eq, nodes_withLoc]
  refine (nodes_putQueue_perm ..).trans ?_
  refine List.Perm.trans ?_ ((b.nodes_perm_queueFor n.ord.side n.ord.price).symm.cons n)
  rw [List.append_assoc]
  exact List.perm_middle

theorem reindex_of_none {id : OrderId} {i : ℕ} (h : b.loc.find? id = none) : b.reindex id i = b := by
  simp [reindex, h]

theorem reindex_of_some {id : OrderId} {i : ℕ} {l : Loc} (h : b.loc.find? id = some l) :
    b.reindex id i = { b with loc := b.loc.set id { l with idx := i } } := by
  simp [reindex, h]

@[simp] theorem queue?_reindex (b : EngineBook) (s : Side) (px : PriceTicks) (id : OrderId) (i : ℕ) :
    (b.reindex id i).queue? s px = b.queue? s px := by
  unfold reindex
  split <;> simp

@[simp] theorem queueFor_reindex (b : EngineBook) (s : Side) (px : PriceTicks) (id : OrderId)
    (i : ℕ) : (b.reindex id i).queueFor s px = b.queueFor s px := by simp [queueFor]

@[simp] theorem sink_reindex (b : EngineBook) (id : OrderId) (i : ℕ) :
    (b.reindex id i).sink = b.sink := by
  unfold reindex
  split <;> rfl

@[simp] theorem levels_reindex (b : EngineBook) (s : Side) (id : OrderId) (i : ℕ) :
    (b.reindex id i).levels s = b.levels s := by
  unfold reindex
  split <;> simp

@[simp] theorem nodes_reindex (b : EngineBook) (id : OrderId) (i : ℕ) :
    (b.reindex id i).nodes = b.nodes := by
  unfold reindex
  split <;> rfl

theorem find?_reindex (b : EngineBook) (id id' : OrderId) (i : ℕ) :
    (b.reindex id i).loc.find? id' =
      if id' = id then (b.loc.find? id).map (fun l => { l with idx := i }) else b.loc.find? id' := by
  cases h : b.loc.find? id with
  | none =>
      rw [reindex_of_none h]
      split_ifs with hid
      · rw [hid, h]; rfl
      · rfl
  | some l =>
      rw [reindex_of_some h, OrdMap.find?_set]
      rfl

/-- Past the end of the queue `eraseAt` only creates the level, if it is missing. -/
theorem eraseAt_of_none {lc : Loc} (h : (b.queueFor lc.side lc.px)[lc.idx]? = none) :
    b.eraseAt lc = b.setQueue lc.side lc.px (b.queueFor lc.side lc.px) := by
  simp [eraseAt, h]

/-- Removing the order at the back. -/
theorem eraseAt_of_last {lc : Loc} {l : Queue} {v : Node} (hq : b.queueFor lc.side lc.px = l ++ [v])
    (hi : l.length = lc.idx) :
    b.eraseAt lc = (b.putQueue lc.side lc.px l).eraseLoc v.ord.orderId := by
  have hv : (l ++ [v])[lc.idx]? = some v := by simp [← hi]
  have hlast : lc.idx = (l ++ [v]).length - 1 := by simp [hi]
  simp only [eraseAt, hq, hv, if_pos hlast, List.dropLast_concat]
  have hnone : l[lc.idx]? = none := by simp [hi]
  rw [hnone]
  dsimp only
  cases l with
  | nil => cases hs : lc.side <;> simp [putQueue, eraseLoc, eraseLevel, setQueue]
  | cons a l => cases hs : lc.side <;> simp [putQueue, eraseLoc, setQueue]

theorem swapBack_dropLast {l m : Queue} {v z : Node} {i : ℕ} (hi : l.length = i) :
    (swapBack (l ++ v :: (m ++ [z])) i).dropLast = l ++ z :: m := by
  have hv : (l ++ v :: (m ++ [z]))[i]? = some v := by simp [← hi]
  have hz : (l ++ v :: (m ++ [z])).getLast? = some z := by
    rw [show l ++ v :: (m ++ [z]) = (l ++ v :: m) ++ [z] by simp, List.getLast?_concat]
  have hset : (l ++ v :: (m ++ [z])).set i z = (l ++ z :: m) ++ [z] := by
    rw [List.set_append_right _ _ (by omega), hi]
    simp
  have hlen : (l ++ v :: (m ++ [z])).length - 1 = (l ++ z :: m).length := by simp
  simp only [swapBack, hv, hz, hset, hlen]
  rw [List.set_append_right _ _ le_rfl, Nat.sub_self]
  exact List.dropLast_concat

/-- Removing an order before the back moves the back order into its place. -/
theorem eraseAt_of_swap {lc : Loc} {l m : Queue} {v z : Node}
    (hq : b.queueFor lc.side lc.px = l ++ v :: (m ++ [z])) (hi : l.length = lc.idx) :
    b.eraseAt lc = ((b.putQueue lc.side lc.px (l ++ z :: m)).eraseLoc v.ord.orderId).reindex
      z.ord.orderId lc.idx := by
  have hv : (l ++ v :: (m ++ [z]))[lc.idx]? = some v := by simp [← hi]
  have hlast : ¬ lc.idx = (l ++ v :: (m ++ [z])).length - 1 := by simp [← hi]
  have hz : (l ++ z :: m)[lc.idx]? = some z := by simp [← hi]
  simp only [eraseAt, hq, hv, if_neg hlast, swapBack_dropLast hi, hz]
  have hne : l ++ z :: m ≠ [] := by simp
  have hset : (b.setQueue lc.side lc.px (l ++ v :: (m ++ [z]))).setQueue lc.side lc.px (l ++ z :: m) =
      b.setQueue lc.side lc.px (l ++ z :: m) := by
    cases lc.side <;> simp [setQueue]
  rw [putQueue, if_neg hne, hset, if_neg (by simp)]

/-- What stays behind an order that is swapped with the back of its queue and popped. -/
def backfill (r : Queue) : Queue :=
  match r.getLast? with
  | none => []
  | some z => z :: r.dropLast

theorem backfill_perm (r : Queue) : (backfill r).Perm r := by
  rcases List.eq_nil_or_concat r with rfl | ⟨m, z, rfl⟩
  · exact .refl _
  · simp only [backfill, List.concat_eq_append, List.getLast?_concat, List.dropLast_concat]
    exact (List.perm_append_singleton z m).symm

/-- `b'` is `b` without the order `v` at `lc`, the queue there being `q'` now. -/
structure Removed (b : EngineBook) (lc : Loc) (v : Node) (q' : Queue) (b' : EngineBook) : Prop where
  shape : ∃ l r, b.queueFor lc.side lc.px = l ++ v :: r ∧ l.length = lc.idx ∧ q' = l ++ backfill r
  queues : ∀ s px,
    b'.queueFor s px = if s = lc.side ∧ px = lc.px then q' else b.queueFor s px
  opposite : b'.levels lc.side.opp = b.levels lc.side.opp
  nodes : b.nodes.Perm (v :: b'.nodes)
  noEmpty : b.NoEmptyLevel → b'.NoEmptyLevel
  loc : ∀ id l', b'.loc.find? id = some l' → id ≠ v.ord.orderId ∧
    ∃ l, b.loc.find? id = some l ∧ l.side = l'.side ∧ l.px = l'.px
  sink : b'.sink = b.sink

section removal
variable {lc : Loc} {l r : Queue} {v : Node} {b' : EngineBook}

theorem Removed.perm {q' : Queue} (h : Removed b lc v q' b') :
    (b.queueFor lc.side lc.px).Perm (v :: q') := by
  obtain ⟨l, r, hq, -, rfl⟩ := h.shape
  rw [hq]
  exact List.perm_middle.trans (((backfill_perm r).symm.append_left l).cons v)

/-- A removal puts nothing into a queue. -/
theorem Removed.mem {q' : Queue} {n : Node} (h : Removed b lc v q' b') (hn : n ∈ b'.queueFor s px) :
    n ∈ b.queueFor s px := by
  rw [h.queues] at hn
  split_ifs at hn with hk
  · rw [hk.1, hk.2]
    exact h.perm.symm.subset (List.mem_cons_of_mem _ hn)
  · exact hn

/-- A removal takes nothing but `v` out of a queue. -/
theorem Removed.mem_of_ne {q' : Queue} {n : Node} (h : Removed b lc v q' b')
    (hn : n ∈ b.queueFor s px) (hne : n ≠ v) : n ∈ b'.queueFor s px := by
  rw [h.queues]
  split_ifs with hk
  · rw [hk.1, hk.2] at hn
    exact (List.mem_cons.mp (h.perm.subset hn)).resolve_left hne
  · exact hn

theorem removed_eraseLoc (hq : b.queueFor lc.side lc.px = l ++ v :: r) (hi : l.length = lc.idx) :
    Removed b lc v (l ++ backfill r)
      ((b.putQueue lc.side lc.px (l ++ backfill r)).eraseLoc v.ord.orderId) where
  shape := ⟨l, r, hq, hi, rfl⟩
  queues s px := by rw [queueFor_eraseLoc, queueFor_putQueue]
  opposite := by rw [levels_eraseLoc, levels_putQueue_of_ne _ (Side.ne_opp _)]
  nodes := by
    rw [nodes_eraseLoc]
    have hperm : (l ++ v :: r).Perm (v :: (l ++ backfill r)) :=
      List.perm_middle.trans (((backfill_perm r).symm.append_left l).cons v)
    refine (b.nodes_perm_queueFor lc.side lc.px).trans ?_
    rw [hq]
    exact (hperm.append_right _).trans ((nodes_putQueue_perm ..).symm.cons v)
  noEmpty h s px := by simpa using h.putQueue s px
  loc id l' h := by
    rw [loc_eraseLoc, loc_putQueue, OrdMap.find?_erase] at h
    split_ifs at h with hid
    exact ⟨hid, l', h, rfl, rfl⟩
  sink := by rw [sink_eraseLoc, sink_putQueue]

/-- Rewriting the index of an entry does not matter to a removal. -/
theorem Removed.reindex {q' : Queue} (h : Removed b lc v q' b') (id : OrderId) (i : ℕ) :
    Removed b lc v q' (b'.reindex id i) where
  shape := h.shape
  queues s px := by rw [queueFor_reindex, h.queues]
  opposite := by rw [levels_reindex, h.opposite]
  nodes := by rw [nodes_reindex]; exact h.nodes
  noEmpty he s px := by rw [queue?_reindex]; exact h.noEmpty he s px
  loc id' l' hl := by
    rw [find?_reindex] at hl
    split_ifs at hl with hid
    · obtain ⟨l, hl', rfl⟩ := Option.map_eq_some_iff.mp hl
      exact hid ▸ h.loc id l hl'
    · exact h.loc id' l' hl
  sink := by rw [sink_reindex, h.sink]

theorem queue_split {q : Queue} {i : ℕ} {v : Node} (h : q[i]? = some v) :
    ∃ l r, q = l ++ v :: r ∧ l.length = i := by
  obtain ⟨hlt, rfl⟩ := List.getElem?_eq_some_iff.mp h
  refine ⟨q.take i, q.drop (i + 1), ?_, ?_⟩
  · rw [← List.drop_eq_getElem_cons hlt, List.take_append_drop]
  · rw [List.length_take]
    omega

/-- What `erase_at` does at a position that is taken. -/
theorem removed_eraseAt (hv : (b.queueFor lc.side lc.px)[lc.idx]? = some v) :
    ∃ q', Removed b lc v q' (b.eraseAt lc) := by
  obtain ⟨l, r, hsplit, hi⟩ := queue_split hv
  have hrem := removed_eraseLoc hsplit hi
  refine ⟨l ++ backfill r, ?_⟩
  rcases List.eq_nil_or_concat r with rfl | ⟨m, z, rfl⟩
  · rw [eraseAt_of_last hsplit hi]
    simpa [backfill] using hrem
  · rw [List.concat_eq_append] at hsplit hrem ⊢
    rw [eraseAt_of_swap hsplit hi]
    simpa [backfill] using hrem.reindex z.ord.orderId lc.idx

/-- What `erase_at` does at a level that is there. -/
theorem eraseAt_cases (hne : b.NoEmptyLevel) (hq : b.queueFor lc.side lc.px ≠ []) :
    (b.queueFor lc.side lc.px)[lc.idx]? = none ∧ b.eraseAt lc = b ∨
    ∃ v q', (b.queueFor lc.side lc.px)[lc.idx]? = some v ∧ Removed b lc v q' (b.eraseAt lc) := by
  cases hv : (b.queueFor lc.side lc.px)[lc.idx]? with
  | none =>
      refine .inl ⟨rfl, ?_⟩
      rw [eraseAt_of_none hv]
      have h := putQueue_queueFor (hne lc.side lc.px)
      rwa [putQueue, if_neg hq] at h
  | some v =>
      obtain ⟨q', hr⟩ := removed_eraseAt hv
      exact .inr ⟨v, q', rfl, hr⟩

end removal

end EngineBook
end Trading
