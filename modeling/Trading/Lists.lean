import Mathlib.Data.Finset.Card
import Mathlib.Data.List.Nodup
import Mathlib.Data.Nat.Notation

/-! # Lists of keyed rows, lists in two directions, and intervals

* Two lists whose rows have distinct keys differ on a set of keys (`differing`).  Its size is a
  count over one list plus a count over the other (`card_differing`).
* A list that runs in one direction and then in another turns at one place, up to one element
  (`eq_or_shifted`).
* `flatMap` with pieces of one length is as injective as what it puts for an element
  (`flatMap_inj`).
* A sublist of an interval that leaves out at most the last number is a prefix
  (`prefix_of_sublist_range'`). -/

namespace Lists

/-! ### Keyed rows -/

section keyed
variable {α κ : Type*} [DecidableEq κ] {key : α → κ} {l m : List α} {k : κ} {r : α}

/-- The row with a key. -/
def row? (key : α → κ) (l : List α) (k : κ) : Option α := l.find? fun r => key r = k

theorem row?_eq_none_iff : row? key l k = none ↔ k ∉ l.map key := by simp [row?]

theorem row?_eq_some_iff (h : (l.map key).Nodup) : row? key l k = some r ↔ r ∈ l ∧ key r = k := by
  constructor
  · intro hr
    exact ⟨List.mem_of_find?_eq_some hr, by simpa using List.find?_some hr⟩
  · rintro ⟨hr, rfl⟩
    cases hrow : row? key l (key r) with
    | none => exact absurd (List.mem_map_of_mem hr) (row?_eq_none_iff.mp hrow)
    | some r' =>
        have hk : key r' = key r := by simpa using List.find?_some hrow
        rw [List.inj_on_of_nodup_map h (List.mem_of_find?_eq_some hrow) hr hk]

variable [DecidableEq α]

/-- The keys on which the lists differ: only one has a row there, or they have different ones. -/
def differing (key : α → κ) (l m : List α) : Finset κ :=
  ((l.map key).toFinset ∪ (m.map key).toFinset).filter fun k => row? key l k ≠ row? key m k

theorem differing_comm : differing key l m = differing key m l := by
  unfold differing
  rw [Finset.union_comm]
  exact Finset.filter_congr fun k _ => ne_comm

/-- A key on which the lists differ is that of a row of the first one only, or of the second one
with no counterpart. -/
theorem mem_differing (hl : (l.map key).Nodup) (hm : (m.map key).Nodup) : k ∈ differing key l m ↔
    (∃ r ∈ l, r ∉ m ∧ key r = k) ∨ ∃ r ∈ m, key r ∉ l.map key ∧ key r = k := by
  have hmem : k ∈ differing key l m ↔
      (k ∈ l.map key ∨ k ∈ m.map key) ∧ row? key l k ≠ row? key m k := by
    simp only [differing, Finset.mem_filter, Finset.mem_union, List.mem_toFinset]
  rw [hmem]
  by_cases hkl : k ∈ l.map key
  · obtain ⟨r, hr, rfl⟩ := List.mem_map.mp hkl
    rw [(row?_eq_some_iff hl).mpr ⟨hr, rfl⟩, ne_comm, ne_eq, row?_eq_some_iff hm]
    constructor
    · rintro ⟨-, hne⟩
      exact .inl ⟨r, hr, fun hrm => hne ⟨hrm, rfl⟩, rfl⟩
    · rintro (⟨r', hr', hnot, hk⟩ | ⟨r', hr', hnot, hk⟩)
      · obtain rfl := List.inj_on_of_nodup_map hl hr' hr hk
        exact ⟨.inl hkl, fun h => hnot h.1⟩
      · exact absurd (hk ▸ hkl) hnot
  · rw [row?_eq_none_iff.mpr hkl]
    constructor
    · rintro ⟨hk, -⟩
      obtain ⟨r, hr, rfl⟩ := List.mem_map.mp (hk.resolve_left hkl)
      exact .inr ⟨r, hr, hkl, rfl⟩
    · rintro (⟨r, hr, -, rfl⟩ | ⟨r, hr, -, rfl⟩)
      · exact absurd (List.mem_map_of_mem hr) hkl
      · exact ⟨.inr (List.mem_map_of_mem hr), fun h =>
          row?_eq_none_iff.mp h.symm (List.mem_map_of_mem hr)⟩

/-- Rows of the first list that the second one does not have, and rows of the second list with a key
that the first one does not have: each key on which they differ is counted once. -/
theorem card_differing {p q : α → Bool} (hl : (l.map key).Nodup) (hm : (m.map key).Nodup)
    (hp : ∀ r, p r = true ↔ r ∉ m) (hq : ∀ r, q r = true ↔ key r ∉ l.map key) :
    (differing key l m).card = l.countP p + m.countP q := by
  have hnodup : ((l.filter p).map key ++ (m.filter q).map key).Nodup := by
    refine List.Nodup.append ?_ ?_ ?_
    · exact hl.sublist (List.filter_sublist.map key)
    · exact hm.sublist (List.filter_sublist.map key)
    · intro k hk hk'
      obtain ⟨r, hr, rfl⟩ := List.mem_map.mp hk
      obtain ⟨r', hr', hkey⟩ := List.mem_map.mp hk'
      have hnot := (hq r').mp (List.mem_filter.mp hr').2
      exact hnot (hkey ▸ List.mem_map_of_mem (List.mem_filter.mp hr).1)
  have heq : differing key l m = ((l.filter p).map key ++ (m.filter q).map key).toFinset := by
    ext k
    rw [mem_differing hl hm, List.mem_toFinset, List.mem_append, List.mem_map, List.mem_map]
    simp only [List.mem_filter, hp, hq, and_assoc]
  rw [heq, List.toFinset_card_of_nodup hnodup, List.length_append, List.length_map,
    List.length_map, ← List.countP_eq_length_filter, ← List.countP_eq_length_filter]

end keyed

/-! ### Lists in two directions -/

section directions
variable {α β : Type*} {down up : α → α → Prop} {l l' m m' : List α}

theorem length_le_one_of_pairwise (hno : ∀ x y, down x y → ¬ up x y) (hd : l.Pairwise down)
    (hu : l.Pairwise up) : l.length ≤ 1 := by
  match l, hd, hu with
  | [], _, _ => exact Nat.zero_le 1
  | [_], _, _ => exact le_rfl
  | x :: y :: rest, hd, hu =>
      have hxy := (List.pairwise_cons.mp hd).1 y List.mem_cons_self
      exact absurd ((List.pairwise_cons.mp hu).1 y List.mem_cons_self) (hno x y hxy)

/-- One element at the turn belongs to either direction. -/
theorem eq_or_shifted (hno : ∀ x y, down x y → ¬ up x y) (hl : l.Pairwise down)
    (hl' : l'.Pairwise down) (hm : m.Pairwise up) (hm' : m'.Pairwise up) (h : l ++ m = l' ++ m') :
    l = l' ∧ m = m' ∨ (∃ e, l' = l ++ [e] ∧ m = e :: m') ∨ ∃ e, l = l' ++ [e] ∧ m' = e :: m := by
  have hturn : ∀ {l l' m m' : List α} (as : List α), l'.Pairwise down → m.Pairwise up →
      l' = l ++ as → m = as ++ m' → l = l' ∧ m = m' ∨ ∃ e, l' = l ++ [e] ∧ m = e :: m' := by
    rintro l l' m m' as hl' hm rfl rfl
    have has := length_le_one_of_pairwise hno (List.pairwise_append.mp hl').2.1
      (List.pairwise_append.mp hm).1
    match as, has with
    | [], _ => exact .inl ⟨(List.append_nil l).symm, rfl⟩
    | [e], _ => exact .inr ⟨e, rfl, rfl⟩
  obtain ⟨as, h1, h2⟩ | ⟨as, h1, h2⟩ := List.append_eq_append_iff.mp h
  · obtain heq | hshift := hturn as hl' hm h1 h2
    · exact .inl heq
    · exact .inr (.inl hshift)
  · obtain ⟨h1, h2⟩ | hshift := hturn as hl hm' h1 h2
    · exact .inl ⟨h1.symm, h2.symm⟩
    · exact .inr (.inr hshift)

/-- Pieces of one length are told apart. -/
theorem flatMap_inj {f : α → List β} {n : ℕ} (hn : 0 < n) (hlen : ∀ x, (f x).length = n)
    (hinj : ∀ x ∈ l, ∀ y ∈ m, f x = f y → x = y) (h : l.flatMap f = m.flatMap f) : l = m := by
  induction l generalizing m with
  | nil =>
      cases m with
      | nil => rfl
      | cons y m =>
          have hy := congrArg List.length h
          simp only [List.flatMap_nil, List.flatMap_cons, List.length_append, hlen,
            List.length_nil] at hy
          omega
  | cons x l ih =>
      cases m with
      | nil =>
          have hx := congrArg List.length h
          simp only [List.flatMap_nil, List.flatMap_cons, List.length_append, hlen,
            List.length_nil] at hx
          omega
      | cons y m =>
          rw [List.flatMap_cons, List.flatMap_cons] at h
          obtain ⟨hhead, htail⟩ := List.append_inj h ((hlen x).trans (hlen y).symm)
          rw [hinj x List.mem_cons_self y List.mem_cons_self hhead,
            ih (fun x hx y hy => hinj x (List.mem_cons_of_mem _ hx) y (List.mem_cons_of_mem _ hy))
              htail]

end directions

/-! ### Intervals -/

section interval
variable {as bs : List ℕ} {b len n : ℕ}

theorem lt_of_range'_concat (h : as ++ [n] = List.range' b len) : ∀ m ∈ as, m < n := by
  have hp : (as ++ [n]).Pairwise (· < ·) := h ▸ List.pairwise_lt_range'
  exact fun m hm => (List.pairwise_append.mp hp).2.2 m hm n (List.mem_singleton_self n)

theorem eq_of_sublist_of_subset (hsub : as.Sublist bs) (hnodup : bs.Nodup) (h : bs ⊆ as) :
    as = bs :=
  hsub.eq_of_length_le (List.subperm_of_subset hnodup h).length_le

/-- Only the last number of the interval may be missing. -/
theorem prefix_of_sublist_range' (hsub : as.Sublist bs) (hbs : bs = List.range' b len)
    (h : ∀ n ∈ bs, ∀ m ∈ bs, n < m → n ∈ as) : as <+: bs := by
  rcases List.eq_nil_or_concat bs with hnil | ⟨cs, m, hcs⟩
  · rw [hnil] at hsub ⊢
    rw [List.sublist_nil.mp hsub]
  rw [List.concat_eq_append] at hcs
  subst hcs
  obtain ⟨ds, es, rfl, hds, hes⟩ := List.sublist_append_iff.mp hsub
  have hlt : ∀ n ∈ cs, n < m := lt_of_range'_concat hbs
  have hall : cs ⊆ ds := by
    intro n hn
    have hmem := h n (List.mem_append_left _ hn) m
      (List.mem_append_right _ (List.mem_singleton_self m)) (hlt n hn)
    rcases List.mem_append.mp hmem with hd | he
    · exact hd
    · have hnm : n = m := List.mem_singleton.mp (hes.subset he)
      exact absurd (hlt n hn) (by omega)
  have hnodup : cs.Nodup := (hbs ▸ List.nodup_range' : (cs ++ [m]).Nodup).of_append_left
  rw [eq_of_sublist_of_subset hds hnodup hall]
  rcases List.sublist_singleton.mp hes with rfl | rfl
  · rw [List.append_nil]
    exact List.prefix_append _ _
  · exact List.prefix_rfl

end interval

end Lists
