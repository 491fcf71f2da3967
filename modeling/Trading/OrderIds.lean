import Mathlib.Data.List.Perm.Subperm
import Trading.Soundness

/-! # The ids of the resting orders

`restingIds` lists the ids of the resting orders with multiplicity.  A fill, a cancel and a
replace add no id to it, an `on_new` at most the id of its order (`restingIds_dispatch`).  So the
ids stay distinct as long as no `on_new` repeats the id of a resting order (`restingIds_nodup`),
which the book itself does not check (`restingIds_repeated`).

`submitted` lists the ids that `on_new` was called with; in a run that submits every id once no
`on_new` repeats the id of a resting order (`freshIds_of_nodup`). -/

namespace Trading
namespace EngineBook

open Transition

/-- The ids of the resting orders. -/
def restingIds (b : EngineBook) : List OrderId := b.nodes.map fun n => n.ord.orderId

/-- The id that a command hands to `on_new`. -/
def submits : OrderCmd → List OrderId
  | .new o => [o.orderId]
  | .cancel _ => []
  | .replace _ _ _ => []

/-- The ids handed to `on_new`, in order. -/
def submitted (cmds : List OrderCmd) : List OrderId := cmds.flatMap submits

/-- The command does not reuse the id of a resting order. -/
def FreshId (b : EngineBook) (c : OrderCmd) : Prop := ∀ id ∈ submits c, id ∉ b.restingIds

section steps
variable {b b' : EngineBook} {side : Side} {s s' : Matching} {id : OrderId} {lc : Loc} {o : Order}

theorem mem_restingIds_iff : id ∈ b.restingIds ↔ ∃ s px, ∃ n ∈ b.queueFor s px, n.ord.orderId = id := by
  simp only [restingIds, List.mem_map, mem_nodes_iff]
  constructor
  · rintro ⟨n, ⟨s, px, hn⟩, hid⟩
    exact ⟨s, px, n, hn, hid⟩
  · rintro ⟨s, px, n, hn, hid⟩
    exact ⟨n, ⟨s, px, hn⟩, hid⟩

theorem mem_restingIds {t : Side} {px : PriceTicks} {n : Node} (hn : n ∈ b.queueFor t px) :
    n.ord.orderId ∈ b.restingIds := mem_restingIds_iff.mpr ⟨t, px, n, hn, rfl⟩

/-- An index entry belongs to a resting order. -/
theorem Sound.mem_restingIds (h : Sound b) (hl : b.loc.find? id = some lc) :
    id ∈ b.restingIds := by
  obtain ⟨n, hn, hid⟩ := h.loc id lc hl
  exact mem_restingIds_iff.mpr ⟨_, _, n, hn, hid⟩

@[simp] theorem restingIds_publish (b : EngineBook) (er : ExecReport) :
    (b.publish er).restingIds = b.restingIds := rfl

@[simp] theorem restingIds_eraseLoc (b : EngineBook) (id : OrderId) :
    (b.eraseLoc id).restingIds = b.restingIds := rfl

theorem restingIds_enqueue_perm (b : EngineBook) (n : Node) :
    (b.enqueue n).restingIds.Perm (n.ord.orderId :: b.restingIds) :=
  (b.nodes_enqueue_perm n).map _

theorem Removed.restingIds_perm {v : Node} {q' : Queue} (hr : Removed b lc v q' b') :
    b.restingIds.Perm (v.ord.orderId :: b'.restingIds) := hr.nodes.map _

/-- A fill adds no id. -/
theorem FillStep.restingIds_subperm (h : FillStep side s s') :
    s'.book.restingIds.Subperm s.book.restingIds := by
  cases h with
  | whole hb =>
      have hp := (nodes_fillWhole_perm (queueFor_of_best? hb)).map fun n => n.ord.orderId
      exact (List.sublist_cons_self _ _).subperm.trans hp.symm.subperm
  | part hb =>
      obtain ⟨ns, h1, h2⟩ := nodes_fillPart_perm (queueFor_of_best? hb)
      exact ((h2.map _).trans (h1.map fun n => n.ord.orderId).symm).subperm

theorem restingIds_arrive (hne : b.NoEmptyLevel) :
    (b.arrive o).book.restingIds.Subperm b.restingIds :=
  arrive_invariant (J := fun s => s.book.restingIds.Subperm b.restingIds) hne (.refl _)
    fun _ _ _ h hs => hs.restingIds_subperm.trans h

/-- `on_new` adds at most the id of its order. -/
theorem restingIds_onNew (hne : b.NoEmptyLevel) :
    (b.onNew o).restingIds.Subperm (o.orderId :: b.restingIds) := by
  have h := restingIds_arrive (o := o) hne
  obtain ⟨-, -, he⟩ | ⟨-, he⟩ | ⟨-, -, he⟩ := b.onNew_cases o
  · rw [he]
    refine (restingIds_enqueue_perm _ _).subperm.trans ?_
    rw [arrive_ord hne]
    exact (List.subperm_cons _).mpr h
  · rw [he]
    exact h.cons_right _
  · rw [he]
    exact h.cons_right _

theorem restingIds_eraseAt (h : Sound b) (hl : b.loc.find? id = some lc) :
    (b.eraseAt lc).restingIds.Subperm b.restingIds := by
  obtain ⟨-, he⟩ | ⟨v, q', -, hr⟩ := h.eraseAt_cases hl
  · rw [he]
  · exact (List.sublist_cons_self _ _).subperm.trans hr.restingIds_perm.symm.subperm

/-- An order that is taken out is not resting any more. -/
theorem notMem_restingIds_eraseAt {n : Node} (hnd : b.restingIds.Nodup)
    (hn : (b.queueFor lc.side lc.px)[lc.idx]? = some n) :
    n.ord.orderId ∉ (b.eraseAt lc).restingIds := by
  obtain ⟨q', hr⟩ := removed_eraseAt hn
  exact (List.nodup_cons.mp (hr.restingIds_perm.nodup_iff.mp hnd)).1

theorem queueFor_onCancel (hl : b.loc.find? id = some lc) (s : Side) (px : PriceTicks) :
    (b.onCancel id).queueFor s px = (b.eraseAt lc).queueFor s px := by
  rw [onCancel_of_some hl]
  simp

theorem restingIds_onCancel_of_some (hl : b.loc.find? id = some lc) :
    (b.onCancel id).restingIds = (b.eraseAt lc).restingIds := by
  rw [onCancel_of_some hl]
  simp

theorem restingIds_onCancel (h : Sound b) (id : OrderId) :
    (b.onCancel id).restingIds.Subperm b.restingIds := by
  cases hl : b.loc.find? id with
  | none => rw [onCancel_of_none hl]
  | some lc => exact restingIds_onCancel_of_some hl ▸ restingIds_eraseAt h hl

/-- A replace takes an order out before it re-enters it. -/
theorem restingIds_onReplace {px : PriceTicks} {qty : ℕ} (h : Sound b)
    (hr : b.onReplace id px qty = some b') : b'.restingIds.Subperm b.restingIds := by
  obtain ⟨-, rfl⟩ | ⟨lc, n, hl, hn, rfl⟩ := onReplace_cases hr
  · exact .refl _
  · obtain ⟨q', hrem⟩ := removed_eraseAt hn
    have hs := (h.eraseAt hl).eraseLoc id
    exact (restingIds_onNew hs.noEmpty).trans hrem.restingIds_perm.symm.subperm

/-- A command adds at most the id that it submits. -/
theorem restingIds_dispatch {c : OrderCmd} (h : Sound b) (hd : b.dispatch c = some b') :
    b'.restingIds.Subperm (submits c ++ b.restingIds) := by
  cases c with
  | new o => exact Option.some_inj.mp hd ▸ restingIds_onNew h.noEmpty
  | cancel id => exact Option.some_inj.mp hd ▸ restingIds_onCancel h id
  | replace id px qty => exact restingIds_onReplace h hd

theorem nodup_of_subperm {α : Type*} {l l' : List α} (h : l.Subperm l') (hl' : l'.Nodup) :
    l.Nodup := by
  obtain ⟨k, hk, hs⟩ := h
  exact hk.nodup_iff.mp (hl'.sublist hs)

theorem restingIds_dispatch_nodup {c : OrderCmd} (h : Sound b) (hnd : b.restingIds.Nodup)
    (hf : FreshId b c) (hd : b.dispatch c = some b') : b'.restingIds.Nodup := by
  refine nodup_of_subperm (restingIds_dispatch h hd) ?_
  cases c with
  | new o => exact List.nodup_cons.mpr ⟨hf o.orderId List.mem_cons_self, hnd⟩
  | cancel id => exact hnd
  | replace id px qty => exact hnd

end steps

/-! ### Runs -/

section runs
variable {cmds : List OrderCmd} {b : EngineBook}

theorem nodup_of_run (hf : Along dispatch EngineBook.empty (fun _ => FreshId) cmds)
    (h : run dispatch EngineBook.empty cmds = some b) : b.restingIds.Nodup := by
  have hstep : ∀ (_ : List OrderCmd) t a t', (Sound t ∧ t.restingIds.Nodup) → FreshId t a →
      t.dispatch a = some t' → Sound t' ∧ t'.restingIds.Nodup := fun _ t a t' ht hG hd =>
    ⟨ht.1.dispatch hd, restingIds_dispatch_nodup ht.1 ht.2 hG hd⟩
  exact (run_invariant (P := fun _ t => Sound t ∧ t.restingIds.Nodup) ⟨Sound.empty, by decide⟩
    hstep hf h).2

theorem submitted_concat (cmds : List OrderCmd) (c : OrderCmd) :
    submitted (cmds ++ [c]) = submitted cmds ++ submits c := by simp [submitted]

/-- A run adds at most the ids that it submits. -/
theorem restingIds_run {b' : EngineBook} (h : Sound b) (hr : run dispatch b cmds = some b') :
    b'.restingIds ⊆ submitted cmds ++ b.restingIds := by
  induction cmds using List.reverseRecOn generalizing b' with
  | nil => exact Option.some_inj.mp hr ▸ List.Subset.refl _
  | append_singleton cmds c ih =>
      obtain ⟨t, ht, hd⟩ := run_concat_eq_some.mp hr
      intro id hid
      rw [submitted_concat, List.append_assoc, List.mem_append, List.mem_append]
      rcases List.mem_append.mp ((restingIds_dispatch (h.run ht) hd).subset hid) with hc | hc
      · exact .inr (.inl hc)
      · exact (List.mem_append.mp (ih ht hc)).imp_right .inr

/-- Only submitted ids rest. -/
theorem restingIds_subset_submitted (h : run dispatch EngineBook.empty cmds = some b) :
    b.restingIds ⊆ submitted cmds := by
  have hsub := restingIds_run Sound.empty h
  rwa [show EngineBook.empty.restingIds = [] from rfl, List.append_nil] at hsub

/-- When every id is submitted once, an id that has been submitted is not submitted again. -/
theorem notMem_submitted {pre post : List OrderCmd} {c : OrderCmd} {id : OrderId}
    (h : (submitted (pre ++ c :: post)).Nodup) (hid : id ∈ submitted pre) :
    id ∉ submits c ∧ id ∉ submitted post := by
  rw [submitted, List.flatMap_append, List.flatMap_cons] at h
  have hne := fun i hi => (List.nodup_append.mp h).2.2 id hid i hi
  exact ⟨fun hc => hne id (List.mem_append_left _ hc) rfl,
    fun hc => hne id (List.mem_append_right _ hc) rfl⟩

/-- When every id is submitted once, no `on_new` repeats the id of a resting order. -/
theorem freshIds_of_nodup (h : (submitted cmds).Nodup) :
    Along dispatch EngineBook.empty (fun _ => FreshId) cmds := by
  intro pre c post he t ht id hc hid
  subst he
  exact (notMem_submitted h (restingIds_subset_submitted ht hid)).1 hc

/-- **The ids of the resting orders are distinct**, in every state of a run in which no `on_new`
repeats the id of an order that is still resting. -/
theorem restingIds_nodup (hf : Along dispatch EngineBook.empty (fun _ => FreshId) cmds) :
    States dispatch EngineBook.empty (fun _ b => b.restingIds.Nodup) cmds := by
  intro pre post he t ht
  subst he
  exact nodup_of_run hf.left ht

/-- Three orders, of which the second re-enters on the other side of the first. -/
theorem restingIds_nodup_replace :
    States dispatch EngineBook.empty (fun _ b => b.restingIds.Nodup)
      [.new { orderId := 1, side := .bid, price := 100, qty := 5 },
        .new { orderId := 2, side := .bid, price := 100, qty := 5 },
        .new { orderId := 3, side := .ask, price := 101, qty := 2 }, .replace 2 101 6] :=
  restingIds_nodup (freshIds_of_nodup (by decide))

/-- The book does not check ids: a second order with the id of a resting one rests beside it. -/
theorem restingIds_repeated : ¬ States dispatch EngineBook.empty (fun _ b => b.restingIds.Nodup)
    [.new { orderId := 1, side := .bid, price := 100, qty := 5 },
      .new { orderId := 1, side := .bid, price := 99, qty := 5 }] := by
  intro h
  exact absurd (h.last rfl) (by decide)

end runs

end EngineBook
end Trading
