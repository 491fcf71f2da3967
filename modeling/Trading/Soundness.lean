import Trading.PriceTime

/-! # Soundness of the book

`Sound` is the invariant of every run, whatever the commands: no level is empty, every resting
node is open and stands at its own side and price, the book is not crossed, and the level that
an index entry points at holds the order of the entry.  The last one is what keeps `erase_at`,
which creates a missing level and may return before its clean-up, from leaving an empty level.

`sound_run` is the invariant, `structurally_sound` what it says of the book alone. -/

namespace Trading
namespace EngineBook

open Transition (run run_concat_eq_some States)

/-- The node is open, has no more open than was asked for, and stands at its own side and
price; it is no market order. -/
structure RestsAt (s : Side) (px : PriceTicks) (n : Node) : Prop where
  pos : 0 < n.leaves
  le : n.leaves ≤ n.ord.qty
  side : n.ord.side = s
  price : n.ord.price = px
  type : n.ord.type ≠ .market

structure Sound (b : EngineBook) : Prop where
  noEmpty : b.NoEmptyLevel
  node : ∀ s px, ∀ n ∈ b.queueFor s px, RestsAt s px n
  uncrossed : ∀ bid ask, b.queueFor .bid bid ≠ [] → b.queueFor .ask ask ≠ [] → bid < ask
  loc : ∀ id l, b.loc.find? id = some l → ∃ n ∈ b.queueFor l.side l.px, n.ord.orderId = id

section steps
variable {b b' : EngineBook} {side : Side} {s s' : Matching} {id : OrderId} {lc : Loc} {o : Order}

theorem Sound.empty : Sound EngineBook.empty where
  noEmpty s px := by cases s <;> simp [EngineBook.empty, queue?]
  node s px n hn := by cases s <;> simp [EngineBook.empty, queueFor, queue?] at hn
  uncrossed bid ask h := by simp [EngineBook.empty, queueFor, queue?] at h
  loc id l h := by simp [EngineBook.empty] at h

theorem Sound.publish (h : Sound b) (er : ExecReport) : Sound (b.publish er) where
  noEmpty s px := by simpa using h.noEmpty s px
  node s px n hn := h.node s px n (by simpa using hn)
  uncrossed bid ask := by simpa using h.uncrossed bid ask
  loc id l hl := by simpa using h.loc id l hl

theorem Sound.eraseLoc (h : Sound b) (id : OrderId) : Sound (b.eraseLoc id) where
  noEmpty s px := by simpa using h.noEmpty s px
  node s px n hn := h.node s px n (by simpa using hn)
  uncrossed bid ask := by simpa using h.uncrossed bid ask
  loc id' l hl := by
    rw [loc_eraseLoc, OrdMap.find?_erase] at hl
    split_ifs at hl
    simpa using h.loc id' l hl

/-- A removal keeps the entries of the other orders good. -/
theorem Sound.removed {v : Node} {q' : Queue} (h : Sound b) (hr : Removed b lc v q' b') :
    Sound b' where
  noEmpty := hr.noEmpty h.noEmpty
  node s px n hn := h.node s px n (hr.mem hn)
  uncrossed bid ask hbid hask := by
    obtain ⟨n, hn⟩ := List.exists_mem_of_ne_nil _ hbid
    obtain ⟨n', hn'⟩ := List.exists_mem_of_ne_nil _ hask
    exact h.uncrossed bid ask (List.ne_nil_of_mem (hr.mem hn)) (List.ne_nil_of_mem (hr.mem hn'))
  loc id l' hl := by
    obtain ⟨hid, l, hl, hs, hp⟩ := hr.loc id l' hl
    obtain ⟨n, hn, hnid⟩ := h.loc id l hl
    refine ⟨n, hr.mem_of_ne ?_ ?_, hnid⟩
    · rwa [← hs, ← hp]
    · rintro rfl
      exact hid hnid.symm

theorem Sound.queueFor_ne_nil (h : Sound b) (hl : b.loc.find? id = some lc) :
    b.queueFor lc.side lc.px ≠ [] := by
  obtain ⟨n, hn, -⟩ := h.loc id lc hl
  exact List.ne_nil_of_mem hn

/-- What `erase_at` does at an index entry. -/
theorem Sound.eraseAt_cases (h : Sound b) (hl : b.loc.find? id = some lc) :
    (b.queueFor lc.side lc.px)[lc.idx]? = none ∧ b.eraseAt lc = b ∨
    ∃ v q', (b.queueFor lc.side lc.px)[lc.idx]? = some v ∧ Removed b lc v q' (b.eraseAt lc) :=
  EngineBook.eraseAt_cases h.noEmpty (h.queueFor_ne_nil hl)

theorem Sound.eraseAt (h : Sound b) (hl : b.loc.find? id = some lc) : Sound (b.eraseAt lc) := by
  obtain ⟨-, he⟩ | ⟨v, q', -, hr⟩ := h.eraseAt_cases hl
  · rwa [he]
  · exact h.removed hr

section fills
variable {opp : Side} {px : PriceTicks} {maker : Node} {rest : Queue}

theorem Sound.fillWhole (h : Sound s.book) (hb : s.book.best? opp = some (px, maker :: rest)) :
    Sound (s.fillWhole opp px maker rest).book := by
  have hsub : ∀ s' px' n, n ∈ (s.fillWhole opp px maker rest).book.queueFor s' px' →
      n ∈ s.book.queueFor s' px' := fun s' px' n hn => by
    rw [queueFor_fillWhole] at hn
    split_ifs at hn with hk
    · rw [hk.1, hk.2, queueFor_of_best? hb]
      exact List.mem_cons_of_mem _ hn
    · exact hn
  refine ⟨?_, fun s' px' n hn => h.node s' px' n (hsub _ _ _ hn), ?_, ?_⟩
  · apply NoEmptyLevel.putQueue
    intro s' px'
    simpa using h.noEmpty s' px'
  · intro bid ask hbid hask
    obtain ⟨n, hn⟩ := List.exists_mem_of_ne_nil _ hbid
    obtain ⟨n', hn'⟩ := List.exists_mem_of_ne_nil _ hask
    exact h.uncrossed bid ask (List.ne_nil_of_mem (hsub _ _ _ hn))
      (List.ne_nil_of_mem (hsub _ _ _ hn'))
  · intro id l hl
    rw [loc_fillWhole, OrdMap.find?_erase] at hl
    split_ifs at hl with hid
    obtain ⟨n, hn, hnid⟩ := h.loc id l hl
    refine ⟨n, mem_fillWhole_of_ne hb hn ?_, hnid⟩
    rintro rfl
    exact hid hnid.symm

theorem Sound.fillPart (h : Sound s.book) (hb : s.book.best? opp = some (px, maker :: rest))
    (hlt : s.taker.leaves < maker.leaves) : Sound (s.fillPart opp px maker rest).book := by
  have hq := queueFor_of_best? hb
  have hmaker := h.node _ _ maker (hq ▸ List.mem_cons_self)
  have hne : ∀ s' px', (s.fillPart opp px maker rest).book.queueFor s' px' ≠ [] →
      s.book.queueFor s' px' ≠ [] := fun s' px' hn => by
    rw [queueFor_fillPart] at hn
    split_ifs at hn with hk
    · rw [hk.1, hk.2, hq]
      exact List.cons_ne_nil _ _
    · exact hn
  refine ⟨?_, ?_, fun bid ask hbid hask => h.uncrossed bid ask (hne _ _ hbid) (hne _ _ hask), ?_⟩
  · apply NoEmptyLevel.putQueue
    intro s' px'
    simpa using h.noEmpty s' px'
  · intro s' px' n hn
    rw [queueFor_fillPart] at hn
    split_ifs at hn with hk
    · obtain ⟨rfl, rfl⟩ := hk
      rcases List.mem_cons.mp hn with rfl | hn
      · exact ⟨Nat.sub_pos_of_lt hlt, (Nat.sub_le _ _).trans hmaker.le, hmaker.side,
          hmaker.price, hmaker.type⟩
      · exact h.node _ _ n (hq ▸ List.mem_cons_of_mem _ hn)
    · exact h.node s' px' n hn
  · intro id l hl
    rw [loc_fillPart] at hl
    obtain ⟨n, hn, hnid⟩ := h.loc id l hl
    by_cases hm : n = maker
    · rw [queueFor_fillPart]
      split_ifs with hk
      · exact ⟨_, List.mem_cons_self, hm ▸ hnid⟩
      · exact ⟨n, hn, hnid⟩
    · exact ⟨n, mem_fillPart_of_ne hb hn hm, hnid⟩

/-- Fills keep the book sound. -/
theorem FillStep.sound (hf : FillStep side s s') (h : Sound s.book) : Sound s'.book := by
  cases hf with
  | whole hb => exact h.fillWhole hb
  | part hb _ _ hlt => exact h.fillPart hb hlt

end fills

/-- The remainder of an order that is no market order may rest once matching has ended. -/
theorem Sound.enqueue (h : Sound s.book) (hd : Done s.taker.ord.side s) (hpos : 0 < s.taker.leaves)
    (hle : s.taker.leaves ≤ s.taker.ord.qty) (hm : s.taker.ord.type ≠ .market) :
    Sound (s.book.enqueue s.taker) where
  noEmpty := h.noEmpty.enqueue
  node s' px' n hn := by
    rw [queueFor_enqueue] at hn
    split_ifs at hn with hk
    · rcases List.mem_append.mp hn with hn | hn
      · exact h.node s' px' n hn
      · rw [List.mem_singleton.mp hn]
        exact ⟨hpos, hle, hk.1.symm, hk.2.symm, hm⟩
    · exact h.node s' px' n hn
  uncrossed bid ask hbid hask := by
    rw [queueFor_enqueue] at hbid hask
    cases hside : s.taker.ord.side with
    | bid =>
        rw [if_neg (by simp [hside])] at hask
        split_ifs at hbid with hk
        · rw [hk.2]
          exact (hd.out_of_reach hpos (by rwa [hside])).1 hside
        · exact h.uncrossed bid ask hbid hask
    | ask =>
        rw [if_neg (by simp [hside])] at hbid
        split_ifs at hask with hk
        · rw [hk.2]
          exact (hd.out_of_reach hpos (by rwa [hside])).2 hside
        · exact h.uncrossed bid ask hbid hask
  loc id l hl := by
    rw [loc_enqueue, OrdMap.find?_set] at hl
    rw [queueFor_enqueue]
    split_ifs at hl with hid
    · obtain rfl := Option.some_inj.mp hl
      exact ⟨s.taker, by simp, hid.symm⟩
    · obtain ⟨n, hn, hnid⟩ := h.loc id l hl
      refine ⟨n, ?_, hnid⟩
      split_ifs
      · exact List.mem_append_left _ hn
      · exact hn

theorem Sound.openQty_pos (h : Sound b) (s : Side) : ∀ x ∈ b.restingOn s, 0 < openQty x :=
  fun ⟨px, n⟩ hx => (h.node s px n (mem_restingOn_iff.mp hx)).pos

/-- What remains of an incoming order. -/
theorem Sound.arrive_leaves (h : Sound b) (o : Order) :
    (b.arrive o).taker.leaves = o.qty - b.available o.side o.price :=
  EngineBook.arrive_leaves h.noEmpty (h.openQty_pos o.side.opp)

theorem Sound.arrive (h : Sound b) : Sound (b.arrive o).book :=
  arrive_invariant (J := fun s => Sound s.book) h.noEmpty (h.publish _) fun _ _ _ h hs => hs.sound h

theorem Sound.onNew (h : Sound b) (o : Order) : Sound (b.onNew o) := by
  have hs : Sound (b.arrive o).book := h.arrive
  have ho : (b.arrive o).taker.ord = o := arrive_ord h.noEmpty
  have hle : (b.arrive o).taker.leaves ≤ o.qty := arrive_leaves_le h.noEmpty
  obtain ⟨hpos, hm, he⟩ | ⟨-, he⟩ | ⟨-, -, he⟩ := b.onNew_cases o
  · rw [he]
    exact hs.enqueue (by rw [ho]; exact arrive_done b o) hpos (by rwa [ho]) (by rwa [ho])
  · rw [he]
    exact hs.publish _
  · rwa [he]

theorem Sound.onCancel (h : Sound b) (id : OrderId) : Sound (b.onCancel id) := by
  cases hl : b.loc.find? id with
  | none => rwa [onCancel_of_none hl]
  | some lc =>
      rw [onCancel_of_some hl]
      exact ((h.eraseAt hl).eraseLoc id).publish _

theorem Sound.onReplace {px : PriceTicks} {qty : ℕ} (h : Sound b)
    (hr : b.onReplace id px qty = some b') : Sound b' := by
  obtain ⟨-, rfl⟩ | ⟨lc, n, hl, -, rfl⟩ := onReplace_cases hr
  · exact h
  · exact (((h.eraseAt hl).eraseLoc id).onNew _).publish _

theorem Sound.dispatch {c : OrderCmd} (h : Sound b) (hd : b.dispatch c = some b') : Sound b' := by
  cases c with
  | new o => exact Option.some_inj.mp hd ▸ h.onNew o
  | cancel id => exact Option.some_inj.mp hd ▸ h.onCancel id
  | replace id px qty => exact h.onReplace hd

end steps

theorem Sound.run {b b' : EngineBook} {cmds : List OrderCmd} (h : Sound b)
    (hr : Transition.run EngineBook.dispatch b cmds = some b') : Sound b' := by
  induction cmds using List.reverseRecOn generalizing b' with
  | nil => exact Option.some_inj.mp hr ▸ h
  | append_singleton cmds c ih =>
      obtain ⟨t, ht, hc⟩ := run_concat_eq_some.mp hr
      exact (ih ht).dispatch hc

/-- Every run keeps the book sound. -/
theorem sound_run {cmds : List OrderCmd} {b : EngineBook}
    (h : run dispatch EngineBook.empty cmds = some b) : Sound b := Sound.empty.run h

theorem sound_states (cmds : List OrderCmd) :
    States dispatch EngineBook.empty (fun _ => Sound) cmds :=
  fun _ _ _ _ ht => sound_run ht

/-- **The book is structurally sound and never crossed**, in every run whatsoever. -/
theorem structurally_sound {cmds : List OrderCmd} {b : EngineBook}
    (h : run dispatch EngineBook.empty cmds = some b) :
    (∀ s px, b.queue? s px ≠ some []) ∧
    (∀ s px, ∀ n ∈ b.queueFor s px, (0 < n.leaves ∧ n.leaves ≤ n.ord.qty) ∧
      n.ord.side = s ∧ n.ord.price = px ∧ n.ord.type ≠ .market) ∧
    (∀ bid ask q q', b.best? .bid = some (bid, q) → b.best? .ask = some (ask, q') → bid < ask) := by
  have hs := sound_run h
  refine ⟨hs.noEmpty, fun s px n hn => ?_, fun bid ask q q' hbid hask => ?_⟩
  · have hn := hs.node s px n hn
    exact ⟨⟨hn.pos, hn.le⟩, hn.side, hn.price, hn.type⟩
  · have hq := hs.noEmpty.queue?_eq_some_iff.mp (queue?_of_best? hbid)
    have hq' := hs.noEmpty.queue?_eq_some_iff.mp (queue?_of_best? hask)
    exact hs.uncrossed bid ask (hq.2 ▸ hq.1) (hq'.2 ▸ hq'.1)

/-- A run with a repeated id, an unpriced limit order and a replace through the spread. -/
theorem structurally_sound_repeated_id :
    let cmds : List OrderCmd :=
      [.new { orderId := 1, side := .ask, price := 101, qty := 5 },
        .new { orderId := 1, side := .bid, price := 99, qty := 4 },
        .new { orderId := 2, side := .bid, price := kNoPrice, qty := 3 },
        .replace 1 102 7]
    ∀ s px, ((run dispatch EngineBook.empty cmds).get (by decide)).queue? s px ≠ some [] :=
  (structurally_sound (Option.some_get _).symm).1

end EngineBook
end Trading
