import Mathlib.Order.RelClasses
import Mathlib.Data.List.Perm.Basic
import Mathlib.Data.List.Nodup
import Mathlib.Tactic.Common

/-! # Ordered maps

`OrdMap lt ν` is a finite map whose entries are kept in strictly increasing order of `lt`,
the reading of `std::map<κ, ν, Compare>`: iteration visits the entries in that order, and
`first?` is what `begin()` points at.  The comparison is a parameter, so the same map serves
ascending and descending keys.

A map is determined by its lookups (`ext_find?`); `find?_set` and `find?_erase` say what
the updates do to them, and `perm_of_find?` takes one entry out of the entries as a
multiset.

Two maps that agree on their first `d` entries still do so after a common `set` (`take_set`); after
a common `erase` it depends on the entry that moves up (`take_erase_iff`). -/

/-- Entries with strictly increasing keys. -/
structure OrdMap {κ : Type*} (lt : κ → κ → Prop) (ν : Type*) where
  entries : List (κ × ν)
  sorted : entries.Pairwise (fun a b => lt a.1 b.1)
deriving DecidableEq

namespace OrdMap

variable {κ ν : Type*} {lt : κ → κ → Prop}

def empty : OrdMap lt ν := ⟨[], .nil⟩

/-- The entry `begin()` points at. -/
def first? (m : OrdMap lt ν) : Option (κ × ν) := m.entries.head?

variable [DecidableEq κ]

def find? (m : OrdMap lt ν) (k : κ) : Option ν :=
  (m.entries.find? (fun e => e.1 = k)).map Prod.snd

def erase (m : OrdMap lt ν) (k : κ) : OrdMap lt ν :=
  ⟨m.entries.filter (fun e => e.1 ≠ k), m.sorted.filter _⟩

/-- The same keys, with other values. -/
def mapValues {ν' : Type*} (f : ν → ν') (m : OrdMap lt ν) : OrdMap lt ν' :=
  ⟨m.entries.map fun e => (e.1, f e.2), List.pairwise_map.mpr m.sorted⟩

theorem find?_mapValues {ν' : Type*} (f : ν → ν') (m : OrdMap lt ν) (k : κ) :
    (m.mapValues f).find? k = (m.find? k).map f := by
  simp [find?, mapValues, List.find?_map, Function.comp_def]

@[simp] theorem find?_empty (k : κ) : (empty : OrdMap lt ν).find? k = none := rfl

theorem mem_erase_iff (m : OrdMap lt ν) {k : κ} {e : κ × ν} :
    e ∈ (m.erase k).entries ↔ e ∈ m.entries ∧ e.1 ≠ k := by simp [erase]

/-! ### Lookups and membership -/

section lookup
variable [IsStrictTotalOrder κ lt]

omit [DecidableEq κ] in
theorem value_unique (m : OrdMap lt ν) {k : κ} {v w : ν} (h : (k, v) ∈ m.entries)
    (h' : (k, w) ∈ m.entries) : v = w := by
  obtain ⟨es, hs⟩ := m
  induction es with
  | nil => cases h
  | cons e es ih =>
      have hes := List.pairwise_cons.mp hs
      rcases List.mem_cons.mp h with rfl | h1 <;> rcases List.mem_cons.mp h' with h2 | h2
      · exact (Prod.mk.inj h2).2.symm
      · exact absurd (hes.1 _ h2) (irrefl_of lt k)
      · rw [← h2] at hes
        exact absurd (hes.1 _ h1) (irrefl_of lt k)
      · exact ih hes.2 h1 h2

omit [DecidableEq κ] in
theorem entries_nodup (m : OrdMap lt ν) : m.entries.Nodup :=
  m.sorted.imp fun {a b} hab => by
    rintro rfl
    exact irrefl_of lt a.1 hab

theorem mem_entries_iff (m : OrdMap lt ν) {k : κ} {v : ν} :
    (k, v) ∈ m.entries ↔ m.find? k = some v := by
  constructor
  · intro h
    cases he : m.entries.find? (fun e => e.1 = k) with
    | none => exact absurd (List.find?_eq_none.mp he _ h) (by simp)
    | some e =>
        obtain ⟨k', v'⟩ := e
        have hk : k' = k := by simpa using List.find?_some he
        subst hk
        have hv := m.value_unique h (List.mem_of_find?_eq_some he)
        simp [find?, he, hv]
  · intro h
    simp only [find?, Option.map_eq_some_iff] at h
    obtain ⟨⟨k', v'⟩, he, rfl⟩ := h
    have hk : k' = k := by simpa using List.find?_some he
    exact hk ▸ List.mem_of_find?_eq_some he

/-- **Extensionality**: a map is determined by its lookups. -/
theorem ext_find? {m m' : OrdMap lt ν} (h : ∀ k, m.find? k = m'.find? k) : m = m' := by
  have hmem : ∀ e, e ∈ m.entries ↔ e ∈ m'.entries := by
    rintro ⟨k, v⟩
    rw [mem_entries_iff, mem_entries_iff, h]
  have hperm := (List.perm_ext_iff_of_nodup m.entries_nodup m'.entries_nodup).mpr hmem
  have heq : m.entries = m'.entries := by
    refine hperm.eq_of_pairwise (fun a b _ _ hab hba => ?_) m.sorted m'.sorted
    exact absurd (trans_of lt hab hba) (irrefl_of lt a.1)
  cases m; cases m'; congr

theorem find?_erase (m : OrdMap lt ν) (k k' : κ) :
    (m.erase k).find? k' = if k' = k then none else m.find? k' := by
  apply Option.ext
  intro w
  rw [← mem_entries_iff, mem_erase_iff]
  split_ifs with h
  · simp [h]
  · simp [h, mem_entries_iff]

@[simp] theorem find?_erase_self (m : OrdMap lt ν) (k : κ) : (m.erase k).find? k = none := by
  simp [find?_erase]

theorem find?_erase_ne (m : OrdMap lt ν) {k k' : κ} (h : k' ≠ k) :
    (m.erase k).find? k' = m.find? k' := by simp [find?_erase, h]

/-- Erasing an absent key changes nothing. -/
theorem erase_of_find?_none (m : OrdMap lt ν) {k : κ} (h : m.find? k = none) : m.erase k = m := by
  apply ext_find?
  intro k'
  rw [find?_erase]
  split_ifs with hk
  · rw [hk, h]
  · rfl

@[simp] theorem erase_erase (m : OrdMap lt ν) (k : κ) : (m.erase k).erase k = m.erase k :=
  erase_of_find?_none _ (m.find?_erase_self k)

/-- The entries of a map that has `k`, with that entry brought to the front. -/
theorem perm_of_find? (m : OrdMap lt ν) {k : κ} {v : ν} (h : m.find? k = some v) :
    m.entries.Perm ((k, v) :: (m.erase k).entries) := by
  have hmem := m.mem_entries_iff.mpr h
  refine (List.perm_ext_iff_of_nodup m.entries_nodup (List.nodup_cons.mpr
    ⟨fun hc => (m.mem_erase_iff.mp hc).2 rfl, (m.erase k).entries_nodup⟩)).mpr ?_
  rintro ⟨k', v'⟩
  rw [List.mem_cons, mem_erase_iff]
  constructor
  · intro h'
    by_cases hk : k' = k
    · subst hk
      exact .inl (by rw [m.value_unique h' hmem])
    · exact .inr ⟨h', hk⟩
  · rintro (he | he)
    · rw [he]; exact hmem
    · exact he.1

theorem length_erase (m : OrdMap lt ν) {k : κ} {v : ν} (h : m.find? k = some v) :
    (m.erase k).entries.length + 1 = m.entries.length := (m.perm_of_find? h).length_eq.symm

end lookup

/-! ### Insertion -/

section insertion
variable [DecidableRel lt]

variable (lt) in
/-- Insertion into a sorted list of entries, replacing the entry of the same key. -/
def insertEntry (k : κ) (v : ν) : List (κ × ν) → List (κ × ν)
  | [] => [(k, v)]
  | e :: es =>
      if lt k e.1 then (k, v) :: e :: es
      else if k = e.1 then (k, v) :: es
      else e :: insertEntry k v es

variable [IsStrictTotalOrder κ lt]

/-- On sorted entries an insertion is an update of the membership at one key. -/
theorem mem_insertEntry_iff {k : κ} {v : ν} {e : κ × ν} : ∀ {es : List (κ × ν)},
    es.Pairwise (fun a b => lt a.1 b.1) →
    (e ∈ insertEntry lt k v es ↔ e = (k, v) ∨ e ∈ es ∧ e.1 ≠ k)
  | [], _ => by simp [insertEntry]
  | a :: es, hs => by
      have hes := List.pairwise_cons.mp hs
      unfold insertEntry
      split_ifs with h1 h2
      · have hne : ∀ b ∈ a :: es, b.1 ≠ k := by
          intro b hb hk
          rcases List.mem_cons.mp hb with rfl | hb
          · exact irrefl_of lt k (hk ▸ h1)
          · exact irrefl_of lt k (hk ▸ trans_of lt h1 (hes.1 b hb))
        rw [List.mem_cons]
        exact or_congr_right ⟨fun h => ⟨h, hne e h⟩, And.left⟩
      · have hne : ∀ b ∈ es, b.1 ≠ k := by
          intro b hb hk
          have hlt := hes.1 b hb
          rw [hk, ← h2] at hlt
          exact irrefl_of lt k hlt
        rw [List.mem_cons, List.mem_cons]
        constructor
        · exact Or.imp_right fun h => ⟨.inr h, hne e h⟩
        · exact Or.imp_right fun h => h.1.resolve_left fun he => h.2 (he ▸ h2.symm)
      · rw [List.mem_cons, List.mem_cons, mem_insertEntry_iff hes.2]
        constructor
        · rintro (rfl | h | h)
          · exact .inr ⟨.inl rfl, fun h => h2 h.symm⟩
          · exact .inl h
          · exact .inr ⟨.inr h.1, h.2⟩
        · rintro (h | ⟨h | h, hk⟩)
          · exact .inr (.inl h)
          · exact .inl h
          · exact .inr (.inr ⟨h, hk⟩)

theorem insertEntry_sorted (k : κ) (v : ν) : ∀ {es : List (κ × ν)},
    es.Pairwise (fun a b => lt a.1 b.1) →
    (insertEntry lt k v es).Pairwise (fun a b => lt a.1 b.1)
  | [], _ => by simp [insertEntry]
  | e :: es, hs => by
      have hes := List.pairwise_cons.mp hs
      unfold insertEntry
      split_ifs with h1 h2
      · refine List.pairwise_cons.mpr ⟨fun a ha => ?_, hs⟩
        rcases List.mem_cons.mp ha with rfl | ha
        · exact h1
        · exact trans_of lt h1 (hes.1 a ha)
      · exact List.pairwise_cons.mpr ⟨fun a ha => h2 ▸ hes.1 a ha, hes.2⟩
      · refine List.pairwise_cons.mpr ⟨fun a ha => ?_, insertEntry_sorted k v hes.2⟩
        rcases (mem_insertEntry_iff hes.2).mp ha with rfl | ha
        · exact ((trichotomous_of lt k e.1).resolve_left h1).resolve_left h2
        · exact hes.1 a ha.1

/-- `m[k] = v`. -/
def set (m : OrdMap lt ν) (k : κ) (v : ν) : OrdMap lt ν :=
  ⟨insertEntry lt k v m.entries, insertEntry_sorted k v m.sorted⟩

theorem mem_set_iff (m : OrdMap lt ν) {k : κ} {v : ν} {e : κ × ν} :
    e ∈ (m.set k v).entries ↔ e = (k, v) ∨ e ∈ m.entries ∧ e.1 ≠ k :=
  mem_insertEntry_iff m.sorted

theorem find?_set (m : OrdMap lt ν) (k k' : κ) (v : ν) :
    (m.set k v).find? k' = if k' = k then some v else m.find? k' := by
  apply Option.ext
  intro w
  rw [← mem_entries_iff, mem_set_iff]
  split_ifs with h
  · subst h; simp [eq_comm]
  · simp [h, mem_entries_iff]

@[simp] theorem find?_set_self (m : OrdMap lt ν) (k : κ) (v : ν) :
    (m.set k v).find? k = some v := by simp [find?_set]

@[simp] theorem set_set (m : OrdMap lt ν) (k : κ) (v w : ν) : (m.set k v).set k w = m.set k w := by
  apply ext_find?
  intro k'
  simp only [find?_set]
  split_ifs <;> rfl

@[simp] theorem erase_set (m : OrdMap lt ν) (k : κ) (v : ν) : (m.set k v).erase k = m.erase k := by
  apply ext_find?
  intro k'
  simp only [find?_set, find?_erase]
  split_ifs <;> rfl

theorem length_set_le (m : OrdMap lt ν) (k : κ) (v : ν) :
    (m.set k v).entries.length ≤ m.entries.length + 1 := by
  have hlen := (m.set k v).length_erase (m.find?_set_self k v)
  rw [erase_set] at hlen
  have hle : (m.erase k).entries.length ≤ m.entries.length := List.length_filter_le ..
  omega

end insertion

/-! ### The first entry -/

section first
variable [IsStrictTotalOrder κ lt] {m : OrdMap lt ν} {k : κ} {v : ν} {es : List (κ × ν)}

/-- No key of the map is before the first one. -/
theorem first_le (h : m.entries = (k, v) :: es) {k' : κ} {v' : ν} (h' : m.find? k' = some v') :
    k' = k ∨ lt k k' := by
  have hs := h ▸ m.sorted
  rcases List.mem_cons.mp (h ▸ m.mem_entries_iff.mpr h') with he | he
  · exact .inl (Prod.mk.inj he).1
  · exact .inr ((List.pairwise_cons.mp hs).1 _ he)

/-- The map has no keys, or a first one that no key is before. -/
theorem first?_cases (m : OrdMap lt ν) : m.first? = none ∧ (∀ k, m.find? k = none) ∨
    ∃ e, m.first? = some e ∧ m.find? e.1 = some e.2 ∧
      ∀ k v, m.find? k = some v → k = e.1 ∨ lt e.1 k := by
  cases hes : m.entries with
  | nil =>
      refine .inl ⟨by rw [first?, hes]; rfl, fun k => ?_⟩
      rw [find?, hes]
      rfl
  | cons e es =>
      refine .inr ⟨e, by rw [first?, hes]; rfl, ?_, fun k v hk => first_le hes hk⟩
      exact m.mem_entries_iff.mp (hes ▸ List.mem_cons_self)

/-- Two maps with the same keys have the same first key. -/
theorem first?_congr {ν' : Type*} {m' : OrdMap lt ν'}
    (h : ∀ k, m.find? k = none ↔ m'.find? k = none) :
    m.first? = none ∧ m'.first? = none ∧ (∀ k, m.find? k = none) ∨
    ∃ k v v', m.first? = some (k, v) ∧ m'.first? = some (k, v') ∧
      m.find? k = some v ∧ m'.find? k = some v' ∧
      ∀ k', m.find? k' ≠ none → k' = k ∨ lt k k' := by
  obtain ⟨hm, hnone⟩ | ⟨⟨k, v⟩, hm, hv, hle⟩ := m.first?_cases <;>
    obtain ⟨hm', hnone'⟩ | ⟨⟨k', v'⟩, hm', hv', hle'⟩ := m'.first?_cases
  · exact .inl ⟨hm, hm', hnone⟩
  · have hc := (h k').mp (hnone k')
    rw [hv'] at hc
    cases hc
  · have hc := (h k).mpr (hnone' k)
    rw [hv] at hc
    cases hc
  · have hk : m'.find? k ≠ none := fun hc => by
      rw [(h k).mpr hc] at hv
      cases hv
    have hk' : m.find? k' ≠ none := fun hc => by
      rw [(h k').mp hc] at hv'
      cases hv'
    obtain ⟨w, hw⟩ := Option.ne_none_iff_exists'.mp hk'
    obtain ⟨w', hw'⟩ := Option.ne_none_iff_exists'.mp hk
    -- each first key is not after the other
    have hkk : k' = k := by
      obtain he | hlt := hle k' w hw
      · exact he
      · obtain he | hlt' := hle' k w' hw'
        · exact he.symm
        · exact absurd (trans_of lt hlt hlt') (irrefl_of lt k)
    subst hkk
    refine .inr ⟨k', v, v', hm, hm', hv, hv', fun k₁ hk₁ => ?_⟩
    obtain ⟨w₁, hw₁⟩ := Option.ne_none_iff_exists'.mp hk₁
    exact hle k₁ w₁ hw₁

theorem entries_erase_first (h : m.entries = (k, v) :: es) : (m.erase k).entries = es := by
  have hs := List.pairwise_cons.mp (h ▸ m.sorted)
  have hne : ∀ e ∈ es, decide (e.1 ≠ k) = true := by
    intro e he
    rw [decide_eq_true_iff]
    intro hk
    exact irrefl_of lt k (hk ▸ hs.1 e he)
  simp only [erase, h]
  rw [List.filter_cons_of_neg (by simp), List.filter_eq_self.mpr hne]

theorem entries_set_first [DecidableRel lt] (h : m.entries = (k, v) :: es) (w : ν) :
    (m.set k w).entries = (k, w) :: es := by
  simp [set, h, insertEntry, irrefl_of lt k]

end first

/-! ### The first entries -/

section firsts
variable {k : κ} {v : ν} {d : ℕ}

/-- The first entries after an insertion depend on the first entries before it. -/
theorem take_insertEntry [DecidableRel lt] (k : κ) (v : ν) : ∀ (d : ℕ) (es : List (κ × ν)),
    (insertEntry lt k v es).take d = (insertEntry lt k v (es.take d)).take d
  | 0, _ => rfl
  | _ + 1, [] => rfl
  | d + 1, e :: es => by
      rw [List.take_succ_cons]
      unfold insertEntry
      split_ifs
      · rw [← List.take_succ_cons, List.take_succ_cons, List.take_succ_cons, List.take_take,
          Nat.min_eq_left (Nat.le_succ d)]
      · rw [List.take_succ_cons, List.take_succ_cons, List.take_take, Nat.min_self]
      · rw [List.take_succ_cons, List.take_succ_cons, take_insertEntry k v d es]

theorem take_filter_of_ne : ∀ {d : ℕ} {es : List (κ × ν)}, (∀ e ∈ es.take d, e.1 ≠ k) →
    (es.filter fun e => e.1 ≠ k).take d = es.take d
  | 0, _, _ => rfl
  | _ + 1, [], _ => rfl
  | d + 1, e :: es, h => by
      rw [List.take_succ_cons] at h ⊢
      have hes : ∀ e' ∈ es.take d, e'.1 ≠ k := fun e' he' => h e' (List.mem_cons_of_mem e he')
      rw [List.filter_cons_of_pos (by simpa using h e List.mem_cons_self), List.take_succ_cons,
        take_filter_of_ne hes]

/-- One of the first entries is taken out: the next one moves up. -/
theorem take_filter_of_mem : ∀ {d : ℕ} {es : List (κ × ν)}, (es.map Prod.fst).Nodup →
    (∃ e ∈ es.take d, e.1 = k) →
    (es.filter fun e => e.1 ≠ k).take d = ((es.take d).filter fun e => e.1 ≠ k) ++ es[d]?.toList
  | 0, _, _, h => by
      obtain ⟨e, he, -⟩ := h
      cases he
  | _ + 1, [], _, h => by
      obtain ⟨e, he, -⟩ := h
      cases he
  | d + 1, e :: es, hnodup, h => by
      obtain ⟨hne, hnodup'⟩ := List.nodup_cons.mp hnodup
      rw [List.take_succ_cons, List.getElem?_cons_succ]
      by_cases hk : e.1 = k
      · have hes : ∀ e' ∈ es, e'.1 ≠ k := by
          intro e' he' hk'
          exact hne (List.mem_map.mpr ⟨e', he', hk'.trans hk.symm⟩)
        rw [List.filter_cons_of_neg (by simpa using hk), List.filter_cons_of_neg (by simpa using hk),
          List.filter_eq_self.mpr (by simpa using hes),
          List.filter_eq_self.mpr (by simpa using fun a b h => hes (a, b) (List.mem_of_mem_take h)),
          List.take_add_one]
      · have hes : ∃ e' ∈ es.take d, e'.1 = k := by
          obtain ⟨e', he', hk'⟩ := h
          rcases List.mem_cons.mp he' with rfl | he'
          · exact absurd hk' hk
          · exact ⟨e', he', hk'⟩
        rw [List.filter_cons_of_pos (by simpa using hk), List.filter_cons_of_pos (by simpa using hk),
          List.take_succ_cons, take_filter_of_mem hnodup' hes, List.cons_append]

variable [IsStrictTotalOrder κ lt] {m m' : OrdMap lt ν}

omit [DecidableEq κ] in
theorem keys_nodup (m : OrdMap lt ν) : (m.entries.map Prod.fst).Nodup := by
  refine List.pairwise_map.mpr (m.sorted.imp fun {a b} hab he => ?_)
  exact irrefl_of lt b.1 (he ▸ hab)

theorem take_set [DecidableRel lt] (h : m.entries.take d = m'.entries.take d) (k : κ) (v : ν) :
    (m.set k v).entries.take d = (m'.set k v).entries.take d := by
  show (insertEntry lt k v m.entries).take d = (insertEntry lt k v m'.entries).take d
  rw [take_insertEntry, h, ← take_insertEntry]

theorem take_erase_iff (h : m.entries.take d = m'.entries.take d) (k : κ) :
    (m.erase k).entries.take d = (m'.erase k).entries.take d ↔
      ((∃ e ∈ m.entries.take d, e.1 = k) → m.entries[d]? = m'.entries[d]?) := by
  show (m.entries.filter _).take d = (m'.entries.filter _).take d ↔ _
  by_cases hk : ∃ e ∈ m.entries.take d, e.1 = k
  · rw [take_filter_of_mem m.keys_nodup hk, take_filter_of_mem m'.keys_nodup (h ▸ hk), h,
      List.append_cancel_left_eq]
    constructor
    · intro he _
      simpa using congrArg List.head? he
    · intro he
      rw [he (h ▸ hk)]
  · have hne : ∀ e ∈ m.entries.take d, e.1 ≠ k := fun e he hek => hk ⟨e, he, hek⟩
    rw [take_filter_of_ne hne, take_filter_of_ne (h ▸ hne)]
    exact ⟨fun _ hex => absurd hex hk, fun _ => h⟩

end firsts

end OrdMap
