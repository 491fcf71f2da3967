import Trading.OrderIndex

/-! # Removal of an order

`erase_at` takes an order out of its queue and its entry out of `loc_`.

* With the entry passed by value, an exact index stays exact, and nothing but that order leaves the
  book (`erases_exactly`).
* `on_cancel` passes a reference into the very entry that `erase_at` erases, and both `on_cancel`
  and `on_replace` erase the entry through their iterator afterwards.  `eraseAtRef`, `onCancelRef`
  and `onReplaceRef` are the methods with the entry read where the source reads it; a read or an
  erasure of an entry that is gone is an error.  `erasedOnce_iff` says when there is none, and then
  they do what the methods without references do (`onCancelRef_eq`, `onReplaceRef_eq`);
  `erasedOnce_run` says it of the runs of the worker. -/

namespace Trading

open Transition (States Along along_cons along_nil)

namespace EngineBook

/-! ### With the entry passed by value -/

/-- `b'` is `b` without the order `id`, which the index remembers at `lc`. -/
structure ErasesExactly (b : EngineBook) (id : OrderId) (lc : Loc) (b' : EngineBook) : Prop where
  order : id ∉ b'.restingIds
  entry : b'.loc.find? id = none
  others : ∀ s px n, n ∈ b'.queueFor s px ↔ n ∈ b.queueFor s px ∧ n.ord.orderId ≠ id
  index : ExactIndex b'
  level : b'.queue? lc.side lc.px = none ↔
    ∃ n, b.queueFor lc.side lc.px = [n] ∧ n.ord.orderId = id
  levels : ∀ s px, ¬ (s = lc.side ∧ px = lc.px) → b'.queue? s px = b.queue? s px

section value
variable {b : EngineBook} {id : OrderId} {lc : Loc} {v : Node}

/-- The levels after a removal: the queue that is left is put back, or its level goes. -/
theorem exists_putQueue_eraseAt (hv : (b.queueFor lc.side lc.px)[lc.idx]? = some v) :
    ∃ q', (b.queueFor lc.side lc.px).Perm (v :: q') ∧
      ∀ s px, (b.eraseAt lc).queue? s px = (b.putQueue lc.side lc.px q').queue? s px := by
  obtain ⟨l, r, hq, hi⟩ := queue_split hv
  rcases List.eq_nil_or_concat r with rfl | ⟨m, z, rfl⟩
  · refine ⟨l, hq ▸ List.perm_append_singleton v l, fun s px => ?_⟩
    rw [eraseAt_of_last hq hi, queue?_eraseLoc]
  · rw [List.concat_eq_append] at hq
    refine ⟨l ++ z :: m, ?_, fun s px => ?_⟩
    · rw [hq]
      exact List.perm_middle.trans (((List.perm_append_singleton z m).append_left l).cons v)
    · rw [eraseAt_of_swap hq hi, queue?_reindex, queue?_eraseLoc]

/-- **Removal keeps an exact index exact**, and takes out its order and nothing else. -/
theorem erases_exactly (hx : ExactIndex b) (hl : b.loc.find? id = some lc) :
    ErasesExactly b id lc (b.eraseAt lc) := by
  have hindex := exactIndex_iff_indexedFrom.mp hx
  obtain ⟨v, hv, hid⟩ := hindex.named id lc hl
  obtain ⟨h1, h2⟩ := hindex.eraseAt hl
  have hx' := exactIndex_iff_indexedFrom.mpr h1
  have hgone : id ∉ (b.eraseAt lc).restingIds := fun hc => (hx'.entry id).mpr hc h2
  obtain ⟨q', hr⟩ := removed_eraseAt hv
  obtain ⟨q, hperm, hqueues⟩ := exists_putQueue_eraseAt hv
  refine ⟨hgone, h2, fun s px n => ⟨fun hn => ⟨hr.mem hn, ?_⟩, ?_⟩, hx', ?_, fun s px hk => ?_⟩
  · rintro rfl
    exact hgone (mem_restingIds hn)
  · rintro ⟨hn, hne⟩
    exact hr.mem_of_ne hn fun hc => hne (hc ▸ hid)
  · rw [hqueues, queue?_putQueue_self]
    constructor
    · intro hnone
      have hnil : q = [] := by
        by_contra hne
        rw [if_neg hne] at hnone
        cases hnone
      subst hnil
      exact ⟨v, List.perm_singleton.mp hperm, hid⟩
    · rintro ⟨n, hn, -⟩
      have hlen := hperm.length_eq
      rw [hn, List.length_singleton, List.length_cons] at hlen
      exact if_pos (List.length_eq_zero_iff.mp (by omega))
  · rw [hqueues, queue?_putQueue_ne _ _ _ _ _ _ hk]

/-- The first of three bids at a price. -/
theorem erases_exactly_three :
    let b := ((empty.onNew { orderId := 1, price := 100, qty := 5 }).onNew
      { orderId := 2, price := 100, qty := 3 }).onNew { orderId := 3, price := 100, qty := 4 }
    ErasesExactly b 1 ⟨.bid, 100, 0⟩ (b.eraseAt ⟨.bid, 100, 0⟩) := by
  refine erases_exactly (.of_levels (by decide +kernel) fun s => ?_) (by decide +kernel)
  cases s <;> decide +kernel

end value

/-! ### With references -/

/-- What goes wrong with an entry of `loc_`, or with a position of a queue. -/
inductive IndexError where
  | danglingLoc
  | erasedTwice
  | outOfRange
deriving DecidableEq

/-- The `Loc` that is referred to, the entry of `id`. -/
def derefLoc (b : EngineBook) (id : OrderId) : Except IndexError Loc :=
  match b.loc.find? id with
  | some lc => .ok lc
  | none => .error .danglingLoc

/-- `loc_.erase(it)`, the iterator being at the entry of `id`. -/
def eraseIt (b : EngineBook) (id : OrderId) : Except IndexError EngineBook :=
  match b.loc.find? id with
  | some _ => .ok (b.eraseLoc id)
  | none => .error .erasedTwice

/-- The order that has been moved into the gap is told its position. -/
def reindexMoved (b : EngineBook) (id : OrderId) (q : Queue) : Except IndexError EngineBook := do
  let lc ← b.derefLoc id
  match q[lc.idx]? with
  | some moved => pure (b.reindex moved.ord.orderId lc.idx)
  | none => pure b

/-- The level of a queue that has become empty goes. -/
def dropEmpty (b : EngineBook) (id : OrderId) (q : Queue) : Except IndexError EngineBook := do
  if q.isEmpty then
    let lc ← b.derefLoc id
    pure (b.eraseLevel lc.side lc.px)
  else pure b

/-- What `erase_at` does after it has erased the entry of its victim; `q` is what is left of the
queue, and `last` if the victim stood at the back. -/
def eraseAtEnd (b : EngineBook) (id : OrderId) (last : Bool) (q : Queue) :
    Except IndexError EngineBook := do
  let b ← if last then pure b else b.reindexMoved id q
  b.dropEmpty id q

/-- `erase_at` with a reference to the entry of `id`. -/
def eraseAtRef (b : EngineBook) (id : OrderId) : Except IndexError EngineBook := do
  let lc ← b.derefLoc id
  let q := b.queueFor lc.side lc.px
  let b := b.setQueue lc.side lc.px q
  match q[lc.idx]? with
  | none => pure b
  | some victim =>
      let last := lc.idx = q.length - 1
      let q := (if last then q else swapBack q lc.idx).dropLast
      ((b.setQueue lc.side lc.px q).eraseLoc victim.ord.orderId).eraseAtEnd id last q

def onCancelRef (b : EngineBook) (id : OrderId) : Except IndexError EngineBook :=
  match b.loc.find? id with
  | none => .ok b
  | some _ => do
      let b ← b.eraseAtRef id
      let b ← b.eraseIt id
      pure (b.publish (canceledReport id))

/-- Here the `Loc` is copied before `erase_at`. -/
def onReplaceRef (b : EngineBook) (id : OrderId) (newPx : PriceTicks) (newQty : ℕ) :
    Except IndexError EngineBook :=
  match b.loc.find? id with
  | none => .ok b
  | some lc =>
      match (b.queueFor lc.side lc.px)[lc.idx]? with
      | none => .error .outOfRange
      | some n => do
          let b ← (b.eraseAt lc).eraseIt id
          let n := adjust n newPx newQty
          pure ((b.onNew n.ord).publish (replacedReport n))

/-- `dispatch` with the entries held as the methods hold them. -/
def dispatchRef (b : EngineBook) : OrderCmd → Except IndexError EngineBook
  | .new o => .ok (b.onNew o)
  | .cancel id => b.onCancelRef id
  | .replace id newPx newQty => b.onReplaceRef id newPx newQty

/-- The call reads and erases no entry that is gone. -/
def KeepsEntry (r : Except IndexError EngineBook) : Prop :=
  r ≠ .error .danglingLoc ∧ r ≠ .error .erasedTwice

/-- Neither method loses the entry of `id` that it holds. -/
def ErasedOnce (b : EngineBook) (id : OrderId) : Prop :=
  KeepsEntry (b.onCancelRef id) ∧ ∀ newPx newQty, KeepsEntry (b.onReplaceRef id newPx newQty)

/-- The entry of `id` stands at an order of that id. -/
def StandsAt (b : EngineBook) (id : OrderId) : Prop :=
  ∃ lc n, b.loc.find? id = some lc ∧ (b.queueFor lc.side lc.px)[lc.idx]? = some n ∧
    n.ord.orderId = id

/-- A cancel or a replace names no order that stands at its own entry. -/
def Misses (b : EngineBook) : OrderCmd → Prop
  | .new _ => True
  | .cancel id => ¬ b.StandsAt id
  | .replace id _ _ => ¬ b.StandsAt id

section refs
variable {b : EngineBook} {id : OrderId} {lc : Loc} {n : Node}

theorem derefLoc_of_some (h : b.loc.find? id = some lc) : b.derefLoc id = .ok lc := by
  simp [derefLoc, h]

theorem eraseIt_of_some (h : b.loc.find? id = some lc) : b.eraseIt id = .ok (b.eraseLoc id) := by
  simp [eraseIt, h]

theorem eraseIt_of_none (h : b.loc.find? id = none) : b.eraseIt id = .error .erasedTwice := by
  simp [eraseIt, h]

theorem reindexMoved_of_none (h : b.loc.find? id = none) (q : Queue) :
    b.reindexMoved id q = .error .danglingLoc := by
  simp [reindexMoved, derefLoc, h, bind, Except.bind]

/-- An entry that is there is still there, and the same, after the move. -/
theorem exists_reindexMoved (h : b.loc.find? id = some lc) (q : Queue) :
    ∃ b', b.reindexMoved id q = .ok b' ∧ b'.loc.find? id = some lc ∧
      b' = q[lc.idx]?.elim b fun moved => b.reindex moved.ord.orderId lc.idx := by
  unfold reindexMoved
  rw [derefLoc_of_some h]
  cases hm : q[lc.idx]? with
  | none => exact ⟨b, by simp [hm, bind, Except.bind, pure, Except.pure], h, rfl⟩
  | some moved =>
      refine ⟨b.reindex moved.ord.orderId lc.idx, by simp [hm, bind, Except.bind, pure, Except.pure],
        ?_, rfl⟩
      rw [find?_reindex]
      split_ifs with hid
      · rw [← hid, h]
        rfl
      · exact h

theorem dropEmpty_of_some (h : b.loc.find? id = some lc) (q : Queue) :
    b.dropEmpty id q = .ok (if q.isEmpty then b.eraseLevel lc.side lc.px else b) := by
  unfold dropEmpty
  rw [derefLoc_of_some h]
  split_ifs <;> rfl

/-- With its entry gone already, the end of `erase_at` reads it in vain, or does not read it. -/
theorem eraseAtEnd_of_none (h : b.loc.find? id = none) (last : Bool) (q : Queue) :
    b.eraseAtEnd id last q = .error .danglingLoc ∨ b.eraseAtEnd id last q = .ok b := by
  unfold eraseAtEnd
  cases last with
  | false =>
      rw [if_neg (by decide), reindexMoved_of_none h]
      exact .inl rfl
  | true =>
      rw [if_pos rfl]
      show b.dropEmpty id q = _ ∨ b.dropEmpty id q = _
      unfold dropEmpty derefLoc
      rw [h]
      split_ifs
      · exact .inl rfl
      · exact .inr rfl

theorem exists_eraseAtEnd (h : b.loc.find? id = some lc) (last : Bool) (q : Queue) :
    ∃ b', b' = (if last then b else
        q[lc.idx]?.elim b fun moved => b.reindex moved.ord.orderId lc.idx) ∧
      b'.loc.find? id = some lc ∧
      b.eraseAtEnd id last q = .ok (if q.isEmpty then b'.eraseLevel lc.side lc.px else b') := by
  unfold eraseAtEnd
  cases last with
  | false =>
      obtain ⟨b', hb, hloc, he⟩ := exists_reindexMoved h q
      refine ⟨b', he, hloc, ?_⟩
      rw [if_neg (by decide), hb]
      exact dropEmpty_of_some hloc q
  | true => exact ⟨b, rfl, h, dropEmpty_of_some h q⟩

/-- `erase_at` called for an order that stands where its entry says loses the entry. -/
theorem eraseAtRef_of_standsAt (h : b.StandsAt id) :
    b.eraseAtRef id = .error .danglingLoc ∨
      ∃ b', b.eraseAtRef id = .ok b' ∧ b'.loc.find? id = none := by
  obtain ⟨lc, n, hl, hn, rfl⟩ := h
  unfold eraseAtRef
  rw [derefLoc_of_some hl]
  simp only [bind, Except.bind, hn]
  generalize (if lc.idx = (b.queueFor lc.side lc.px).length - 1 then b.queueFor lc.side lc.px
    else swapBack (b.queueFor lc.side lc.px) lc.idx).dropLast = q
  have hgone : (((b.setQueue lc.side lc.px (b.queueFor lc.side lc.px)).setQueue lc.side lc.px
      q).eraseLoc n.ord.orderId).loc.find? n.ord.orderId = none := by simp
  obtain he | he := eraseAtEnd_of_none hgone
    (decide (lc.idx = (b.queueFor lc.side lc.px).length - 1)) q
  · exact .inl he
  · exact .inr ⟨_, he, hgone⟩

/-- Otherwise it keeps the entry, and does what it does with the entry passed by value. -/
theorem eraseAtRef_of_not_standsAt (hl : b.loc.find? id = some lc) (h : ¬ b.StandsAt id) :
    b.eraseAtRef id = .ok (b.eraseAt lc) ∧ (b.eraseAt lc).loc.find? id = some lc := by
  unfold eraseAtRef
  rw [derefLoc_of_some hl]
  cases hv : (b.queueFor lc.side lc.px)[lc.idx]? with
  | none =>
      rw [eraseAt_of_none hv]
      simp only [bind, Except.bind, hv]
      exact ⟨rfl, by rw [loc_setQueue, hl]⟩
  | some victim =>
      have hne : id ≠ victim.ord.orderId := fun hc => h ⟨lc, victim, hl, hv, hc.symm⟩
      simp only [bind, Except.bind, hv, eraseAt]
      generalize (if lc.idx = (b.queueFor lc.side lc.px).length - 1 then b.queueFor lc.side lc.px
        else swapBack (b.queueFor lc.side lc.px) lc.idx).dropLast = q
      generalize hb : ((b.setQueue lc.side lc.px (b.queueFor lc.side lc.px)).setQueue lc.side lc.px
        q).eraseLoc victim.ord.orderId = b₁
      have hkept : b₁.loc.find? id = some lc := by
        rw [← hb, loc_eraseLoc, OrdMap.find?_erase_ne _ hne, loc_setQueue, loc_setQueue, hl]
      obtain ⟨b', hb', hloc, he⟩ := exists_eraseAtEnd hkept
        (decide (lc.idx = (b.queueFor lc.side lc.px).length - 1)) q
      have hlevel : (if q.isEmpty then b'.eraseLevel lc.side lc.px else b').loc.find? id =
          some lc := by
        split_ifs
        · rwa [loc_eraseLevel]
        · exact hloc
      rw [he]
      subst hb'
      simp only [decide_eq_true_eq] at hlevel ⊢
      cases hm : q[lc.idx]? with
      | none =>
          simp only [hm, Option.elim_none, ite_self] at hlevel ⊢
          exact ⟨trivial, hlevel⟩
      | some moved =>
          simp only [hm, Option.elim_some] at hlevel ⊢
          exact ⟨trivial, hlevel⟩

/-- By value, a victim takes its entry along. -/
theorem find?_eraseAt_of_orderId (hn : (b.queueFor lc.side lc.px)[lc.idx]? = some n)
    (hid : n.ord.orderId = id) : (b.eraseAt lc).loc.find? id = none := by
  obtain ⟨q', hr⟩ := removed_eraseAt hn
  by_contra hc
  obtain ⟨l, hl'⟩ := Option.ne_none_iff_exists'.mp hc
  exact (hr.loc id l hl').1 hid.symm

theorem onCancelRef_of_standsAt (h : b.StandsAt id) : ¬ KeepsEntry (b.onCancelRef id) := by
  have ⟨lc, _, hl, _⟩ := h
  unfold onCancelRef
  rw [hl]
  rintro ⟨hdangling, htwice⟩
  obtain he | ⟨b', he, hnone⟩ := eraseAtRef_of_standsAt h
  · simp [he, bind, Except.bind] at hdangling
  · simp [he, eraseIt_of_none hnone, bind, Except.bind] at htwice

theorem onReplaceRef_of_standsAt (h : b.StandsAt id) (newPx : PriceTicks) (newQty : ℕ) :
    b.onReplaceRef id newPx newQty = .error .erasedTwice := by
  obtain ⟨lc, n, hl, hn, hid⟩ := h
  unfold onReplaceRef
  simp [hl, hn, eraseIt_of_none (find?_eraseAt_of_orderId hn hid), bind, Except.bind]

/-- Where the entry does not stand at its order, `on_cancel` is as with the entry by value. -/
theorem onCancelRef_eq (h : ¬ b.StandsAt id) : b.onCancelRef id = .ok (b.onCancel id) := by
  unfold onCancelRef onCancel
  cases hl : b.loc.find? id with
  | none => rfl
  | some lc =>
      obtain ⟨he, hloc⟩ := eraseAtRef_of_not_standsAt hl h
      simp [he, eraseIt_of_some hloc, bind, Except.bind, pure, Except.pure]

/-- So is `on_replace`, where the position is one of the queue. -/
theorem onReplaceRef_eq (h : ¬ b.StandsAt id) (newPx : PriceTicks) (newQty : ℕ) :
    b.onReplaceRef id newPx newQty =
      (b.onReplace id newPx newQty).elim (.error .outOfRange) .ok := by
  unfold onReplaceRef onReplace
  cases hl : b.loc.find? id with
  | none => rfl
  | some lc =>
      cases hn : (b.queueFor lc.side lc.px)[lc.idx]? with
      | none => simp [hn]
      | some n =>
          have hloc := (eraseAtRef_of_not_standsAt hl h).2
          simp [hn, eraseIt_of_some hloc, bind, Except.bind, pure, Except.pure]

theorem keepsEntry_ok (b : EngineBook) : KeepsEntry (.ok b) := ⟨by simp, by simp⟩

/-- Each entry is erased once if and only if it does not stand at its own order: it is missing,
or the position that it remembers holds another order or none. -/
theorem erasedOnce_iff (b : EngineBook) (id : OrderId) : b.ErasedOnce id ↔ ¬ b.StandsAt id := by
  constructor
  · intro h hs
    exact onCancelRef_of_standsAt hs h.1
  · intro h
    refine ⟨onCancelRef_eq h ▸ keepsEntry_ok _, fun newPx newQty => ?_⟩
    rw [onReplaceRef_eq h]
    cases b.onReplace id newPx newQty with
    | none => exact ⟨by simp, by simp⟩
    | some b' => exact keepsEntry_ok b'

/-- While the index is exact it is just the resting orders that lose their entry too early. -/
theorem ExactIndex.standsAt_iff (hx : ExactIndex b) : b.StandsAt id ↔ id ∈ b.restingIds := by
  constructor
  · rintro ⟨lc, n, -, hn, rfl⟩
    exact mem_restingIds (List.mem_of_getElem? hn)
  · intro hid
    obtain ⟨lc, hl⟩ := Option.ne_none_iff_exists'.mp ((hx.entry id).mpr hid)
    obtain ⟨n, hn, hnid⟩ := (exactIndex_iff_indexedFrom.mp hx).named id lc hl
    exact ⟨lc, n, hl, hn, hnid⟩

/-! ### Runs -/

theorem dispatchRef_eq {c : OrderCmd} (h : b.Misses c) :
    b.dispatchRef c = (b.dispatch c).elim (.error .outOfRange) .ok := by
  cases c with
  | new o => rfl
  | cancel id => exact onCancelRef_eq h
  | replace id newPx newQty => exact onReplaceRef_eq h newPx newQty

theorem dispatchRef_of_not_misses {c : OrderCmd} (h : ¬ b.Misses c) :
    b.dispatchRef c = .error .danglingLoc ∨ b.dispatchRef c = .error .erasedTwice := by
  cases c with
  | new o => exact absurd trivial h
  | cancel id =>
      have hlost := onCancelRef_of_standsAt (not_not.mp h)
      rwa [KeepsEntry, not_and_or, not_not, not_not] at hlost
  | replace id newPx newQty =>
      exact .inr (onReplaceRef_of_standsAt (not_not.mp h) newPx newQty)

/-- From any book: the first command that does not miss is where an entry is lost. -/
theorem keepsEntry_foldlM_iff (cmds : List OrderCmd) (b : EngineBook) :
    KeepsEntry (cmds.foldlM dispatchRef b) ↔ Along dispatch b (fun _ => Misses) cmds := by
  induction cmds generalizing b with
  | nil => exact iff_of_true (keepsEntry_ok b) along_nil
  | cons c cmds ih =>
      rw [List.foldlM_cons, along_cons]
      by_cases hc : b.Misses c
      · rw [dispatchRef_eq hc]
        cases hd : b.dispatch c with
        | none =>
            -- the worker is past the end of a queue, and that is all that is wrong
            refine iff_of_true ⟨?_, ?_⟩ ⟨hc, fun t ht => by cases ht⟩
            · simp [bind, Except.bind]
            · simp [bind, Except.bind]
        | some t =>
            refine (ih t).trans ⟨fun h => ⟨hc, fun t' ht => ?_⟩, fun h => h.2 t rfl⟩
            exact Option.some_inj.mp ht ▸ h
      · refine iff_of_false (fun hk => ?_) fun h => hc h.1
        obtain he | he := dispatchRef_of_not_misses hc
        · exact hk.1 (by rw [he]; rfl)
        · exact hk.2 (by rw [he]; rfl)

/-- **In a run of the worker each entry is erased once** if and only if no cancel and no replace
names an order that stands at its own entry; and in every book on the way these are the ids whose
entry the next cancel or replace would lose. -/
theorem erasedOnce_run (cmds : List OrderCmd) :
    (KeepsEntry (cmds.foldlM dispatchRef empty) ↔ Along dispatch empty (fun _ => Misses) cmds) ∧
      States dispatch empty (fun _ b => ∀ id, b.ErasedOnce id ↔ ¬ b.StandsAt id) cmds :=
  ⟨keepsEntry_foldlM_iff cmds empty, fun _ _ _ b _ id => erasedOnce_iff b id⟩

/-- A lone bid, and its cancel. -/
theorem not_erasedOnce_lone :
    ¬ States dispatch empty (fun _ b => ∀ id, b.ErasedOnce id)
      [.new { orderId := 1, price := 100, qty := 5 }] := by
  intro h
  have hlone := h.last rfl 1
  exact absurd hlone.1.1 (by decide +kernel)

end refs

end EngineBook
end Trading
