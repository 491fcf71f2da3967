import Mathlib.Data.List.Destutter
import Trading.MDSim

/-! # The conflated top of book

At the end of each iteration the simulator compares its top of book with the one it has published
last, and publishes it only if it has changed.  `samples` is what it looks at, `tops` what it
publishes: the samples with repetitions left out, neither more nor less, under sequence numbers that
increase strictly (`conflates`).  So a reader of every L1 message has the same top of book at the
end of every iteration as a reader that is told every time. -/

namespace Trading

/-- What is kept starts with what the first element was compared with. -/
theorem exists_destutter'_eq_cons {α : Type*} {R : α → α → Prop} [DecidableRel R] (a : α)
    (l : List α) : ∃ rest, l.destutter' R a = a :: rest := by
  induction l with
  | nil => exact ⟨[], rfl⟩
  | cons b l ih =>
      by_cases h : R a b
      · exact ⟨_, List.destutter'_cons_pos l h⟩
      · rw [List.destutter'_cons_neg l h]
        exact ih

namespace Sim

/-- The top of book of a message, with its sequence number. -/
def top? : MDEvent → Option (ℕ × TopOfBook)
  | .l1 seqno p => some (seqno, p.tob)
  | .l2Delta .. => none

/-- The tops of book published so far. -/
def tops (s : Sim) : List (ℕ × TopOfBook) := s.sent.filterMap top?

/-- The tops of book that the process looks at. -/
def samples : Sim → List Action → List TopOfBook
  | _, [] => []
  | s, .publishL1 :: acts => s.book.tob :: samples (s.step .publishL1) acts
  | s, a :: acts => samples (s.step a) acts

section step
variable {s : Sim} {a : Action}

theorem samples_of_ne (h : a ≠ .publishL1) (acts : List Action) :
    samples s (a :: acts) = samples (s.step a) acts := by
  cases a with
  | publishL1 => exact absurd rfl h
  | edit | repair => rfl

theorem tops_concat_delta (s : Sim) (a : Byte) (side : Side) (px : PriceTicks) (qty oc : ℕ) :
    ((s.upsert side px qty oc).sendL2Delta a side px qty oc).tops = s.tops := by
  show (s.sent ++ [_]).filterMap top? = _
  rw [List.filterMap_append]
  exact List.append_nil _

theorem tops_sendL1 (s : Sim) : s.sendL1.tops = s.tops ++ [(s.book.seqno, s.book.tob)] := by
  show (s.sent ++ [_]).filterMap top? = _
  rw [List.filterMap_append]
  rfl

/-- Only the L1 step publishes a top of book. -/
theorem tops_step_of_ne (h : a ≠ .publishL1) :
    (s.step a).tops = s.tops ∧ (s.step a).lastL1 = s.lastL1 := by
  have hm := moves_step s a
  generalize s.step a = s' at hm ⊢
  cases hm with
  | edit | repair => exact ⟨tops_concat_delta .., rfl⟩
  | sound => exact ⟨rfl, rfl⟩
  | top | sameTop => exact absurd rfl h

/-- The L1 step: the top is the last one published, or it is published. -/
theorem tops_publishL1 (s : Sim) :
    s.book.tob = s.lastL1 ∧ s.step .publishL1 = s ∨
      s.book.tob ≠ s.lastL1 ∧ (s.step .publishL1).tops = s.tops ++ [(s.book.seqno, s.book.tob)] ∧
        (s.step .publishL1).lastL1 = s.book.tob ∧ (s.step .publishL1).book = s.book := by
  by_cases htob : s.book.tob = s.lastL1
  · refine .inl ⟨htob, ?_⟩
    show s.publishL1 = s
    simp [publishL1, htob]
  · have hstep : s.step .publishL1 = { s.sendL1 with lastL1 := s.book.tob } := by
      show s.publishL1 = _
      simp [publishL1, htob]
    rw [hstep]
    exact .inr ⟨htob, tops_sendL1 s, rfl, rfl⟩

end step

/-! ### The messages -/

/-- The messages of a run are its samples without repetitions, the first compared with the top
published before. -/
theorem tops_foldl (acts : List Action) (s : Sim) :
    (acts.foldl step s).tops.map Prod.snd =
      s.tops.map Prod.snd ++ ((samples s acts).destutter' (· ≠ ·) s.lastL1).tail := by
  induction acts generalizing s with
  | nil => exact (List.append_nil _).symm
  | cons a acts ih =>
      rw [List.foldl_cons, ih]
      by_cases ha : a = .publishL1
      · subst ha
        rw [samples]
        obtain ⟨htob, hstep⟩ | ⟨htob, htops, hlast, -⟩ := tops_publishL1 s
        · rw [hstep, List.destutter'_cons_neg _ (not_not.mpr htob.symm)]
        · -- The new top heads what is left of the later samples.
          obtain ⟨rest, hrest⟩ := exists_destutter'_eq_cons (R := (· ≠ ·)) s.book.tob
            (samples (s.step .publishL1) acts)
          rw [htops, hlast, List.destutter'_cons_pos _ (Ne.symm htob), hrest]
          simp
      · rw [samples_of_ne ha, (tops_step_of_ne ha).1, (tops_step_of_ne ha).2]

/-! ### Their sequence numbers -/

/-- What the published tops say about the process. -/
structure Published (s : Sim) : Prop where
  le : ∀ x ∈ s.tops, x.1 ≤ s.book.seqno
  /-- The book has not changed since the last one. -/
  now : ∀ x ∈ s.tops, x.1 = s.book.seqno → s.book.tob = s.lastL1
  increasing : (s.tops.map Prod.fst).Pairwise (· < ·)
  last : s.lastL1 = (s.tops.getLast?.map Prod.snd).getD {}

section published
variable {s : Sim}

theorem Published.change (h : s.Published) (a : Byte) (side : Side) (px : PriceTicks)
    (qty oc : ℕ) : ((s.upsert side px qty oc).sendL2Delta a side px qty oc).Published := by
  have htops := tops_concat_delta s a side px qty oc
  have hseqno : (s.book.upsertLevel side px qty oc).seqno = s.book.seqno + 1 :=
    Book.seqno_upsertLevel ..
  refine ⟨?_, ?_, ?_, ?_⟩
  · rw [htops]
    intro x hx
    show x.1 ≤ (s.book.upsertLevel side px qty oc).seqno
    have := h.le x hx
    omega
  · rw [htops]
    intro x hx hnow
    change x.1 = (s.book.upsertLevel side px qty oc).seqno at hnow
    have := h.le x hx
    omega
  · rw [htops]
    exact h.increasing
  · rw [htops]
    exact h.last

theorem Published.step (h : s.Published) (a : Action) : (s.step a).Published := by
  by_cases ha : a = .publishL1
  · subst ha
    obtain ⟨-, hstep⟩ | ⟨htob, htops, hlast, hbook⟩ := tops_publishL1 s
    · rw [hstep]
      exact h
    · refine ⟨?_, ?_, ?_, ?_⟩
      · rw [htops, hbook]
        intro x hx
        rcases List.mem_append.mp hx with hx | hx
        · exact h.le x hx
        · rw [List.mem_singleton.mp hx]
      · intro _ _ _
        rw [hbook, hlast]
      · -- An earlier top with this sequence number would be this one.
        rw [htops, List.map_append, List.pairwise_append]
        refine ⟨h.increasing, List.pairwise_singleton _ _, fun n hn m hm => ?_⟩
        obtain ⟨x, hx, rfl⟩ := List.mem_map.mp hn
        rw [List.mem_singleton.mp hm]
        exact lt_of_le_of_ne (h.le x hx) fun heq => htob (h.now x hx heq)
      · rw [htops, hlast, List.getLast?_append]
        rfl
  · have hm := moves_step s a
    generalize s.step a = s' at hm ⊢
    cases hm with
    | edit | repair => exact h.change ..
    | sound => exact h
    | top | sameTop => exact absurd rfl ha

theorem published_start (tickSize mid : PriceTicks) : (start tickSize mid).Published where
  le x hx := by cases hx
  now x hx := by cases hx
  increasing := .nil
  last := rfl

theorem published_foldl (acts : List Action) (h : s.Published) :
    (acts.foldl step s).Published := by
  induction acts generalizing s with
  | nil => exact h
  | cons a acts ih => exact ih (h.step a)

end published

/-- **The conflation of the top of book**, for every run of the simulator: the messages are the tops
that it looks at without repetitions, at sequence numbers that increase strictly, and after each
look the last message says what the top of book is. -/
theorem conflates (tickSize mid : PriceTicks) (acts : List Action) :
    let s := acts.foldl step (start tickSize mid)
    s.tops.map Prod.snd =
        ((samples (start tickSize mid) acts).destutter' (· ≠ ·) ({} : TopOfBook)).tail ∧
      (s.tops.map Prod.fst).Pairwise (· < ·) ∧
      ((s.step .publishL1).tops.getLast?.map Prod.snd).getD {} = s.book.tob := by
  intro s
  have hpublished : s.Published := published_foldl acts (published_start tickSize mid)
  refine ⟨tops_foldl acts (start tickSize mid), hpublished.increasing, ?_⟩
  rw [← (hpublished.step .publishL1).last]
  obtain ⟨htob, hstep⟩ | ⟨-, -, hlast, -⟩ := tops_publishL1 s
  · rw [hstep, htob]
  · exact hlast

end Sim
end Trading
