import Trading.Uncrossed

/-! # The repair of a crossed book

`repair_cross_and_emit` on a book that is crossed, however it came to be so.  The repair puts an ask
one tick above the best bid and removes none, so that the asks at or below the bid stay
(`Sim.sidesCross_repair`).  What it publishes is the whole change (`Sim.followed_repair`). -/

namespace Trading

/-- Both sides have levels, and the best bid is at or above the best ask. -/
def Book.BestCross (b : Book) : Prop :=
  ∃ bid ask, b.bids.first? = some bid ∧ b.asks.first? = some ask ∧ bid.1 ≥ ask.1

/-- Some bid is at or above some ask. -/
def Book.SidesCross (b : Book) : Prop :=
  ∃ p q, b.level? .bid p ≠ none ∧ b.level? .ask q ≠ none ∧ p ≥ q

theorem Book.bestCross_iff (b : Book) : b.BestCross ↔ b.SidesCross := by
  obtain ⟨hbid, hnone⟩ | ⟨bid, hbid, hfind, hbest⟩ := b.bids.first?_cases
  · exact iff_of_false (fun ⟨_, _, h, _⟩ => by cases hbid.symm.trans h)
      fun ⟨p, _, h, _⟩ => h (hnone p)
  obtain ⟨hask, hnone⟩ | ⟨ask, hask, hfind', hbest'⟩ := b.asks.first?_cases
  · exact iff_of_false (fun ⟨_, _, _, h, _⟩ => by cases hask.symm.trans h)
      fun ⟨_, q, _, h, _⟩ => h (hnone q)
  constructor
  · rintro ⟨_, _, hb, ha, hle⟩
    obtain rfl := Option.some_inj.mp (hbid.symm.trans hb)
    obtain rfl := Option.some_inj.mp (hask.symm.trans ha)
    refine ⟨bid.1, ask.1, ?_, ?_, hle⟩
    · show b.bids.find? bid.1 ≠ none
      simp [hfind]
    · show b.asks.find? ask.1 ≠ none
      simp [hfind']
  · rintro ⟨p, q, hp, hq, hle⟩
    obtain ⟨l, hl⟩ := Option.ne_none_iff_exists'.mp hp
    obtain ⟨l', hl'⟩ := Option.ne_none_iff_exists'.mp hq
    have hp : bid.1 ≥ p := (hbest p l hl).elim (fun h => h.le) fun h => h.le
    have hq : q ≥ ask.1 := (hbest' q l' hl').elim (fun h => h.ge) fun h => h.le
    exact ⟨bid, ask, hbid, hask, hq.trans (hle.trans hp)⟩

namespace Sim
variable {s : Sim}

/-- The repair removes no level. -/
theorem level?_repair_ne_none {side : Side} {px : PriceTicks} (h : s.book.level? side px ≠ none) :
    s.repairCrossAndEmit.book.level? side px ≠ none := by
  have hm := moves_step s .repair
  change Moves s .repair s.repairCrossAndEmit at hm
  generalize s.repairCrossAndEmit = s' at hm ⊢
  cases hm with
  | sound => exact h
  | @repair newAsk qty _ hsent =>
      have hqty : qty ≠ 0 := by
        obtain ⟨-, ⟨ha, -⟩ | ⟨-, hq, -⟩⟩ := hsent
        · exact absurd ha (show kUpsert ≠ kErase by decide)
        · exact hq.ne'
      show (s.book.upsertLevel .ask newAsk qty 1).level? side px ≠ none
      rw [Book.level?_upsertLevel]
      split_ifs
      · exact Option.some_ne_none _
      · exact h

theorem sidesCross_repair (h : s.book.SidesCross) : s.repairCrossAndEmit.book.SidesCross := by
  obtain ⟨p, q, hp, hq, hle⟩ := h
  exact ⟨p, q, level?_repair_ne_none hp, level?_repair_ne_none hq, hle⟩

/-- A replica of the book that follows what the repair publishes is one of the book afterwards. -/
def Followed (s s' : Sim) : Prop :=
  ∃ evs, s'.sent = s.sent ++ evs ∧ ∀ lb : LocalBook, lb.table = s.book.table →
    (evs.foldl LocalBook.follow lb).table = s'.book.table

theorem followed_repair (s : Sim) : Followed s s.repairCrossAndEmit := by
  obtain ⟨evs, hsent, htable⟩ := sent_step s .repair
  refine ⟨evs, hsent, fun lb hlb => ?_⟩
  rw [LocalBook.table_follow, hlb]
  exact htable.symm

/-- The book is repaired, and so is every replica. -/
def Repairs (s : Sim) : Prop :=
  (∀ bid ask, s.repairCrossAndEmit.book.bids.first? = some bid →
    s.repairCrossAndEmit.book.asks.first? = some ask → bid.1 < ask.1) ∧
  Followed s s.repairCrossAndEmit

theorem not_repairs (s : Sim) (h : s.book.BestCross) : ¬ s.Repairs := by
  intro hr
  have hcross := sidesCross_repair ((Book.bestCross_iff _).mp h)
  obtain ⟨bid, ask, hbid, hask, hle⟩ := (Book.bestCross_iff _).mpr hcross
  exact absurd (hr.1 bid ask hbid hask) (not_lt.mpr hle)

/-- A bid and an ask at one price. -/
def locked : Sim :=
  ⟨((Book.empty 1).upsertLevel .bid 100 5 1).upsertLevel .ask 100 5 1, {}, [], []⟩

theorem not_repairs_locked : ¬ locked.Repairs := not_repairs locked ⟨_, _, rfl, rfl, le_rfl⟩

/-- After the repair the asks are at 100 and 101. -/
theorem locked_not_repaired : ¬ ∀ s : Sim, s.book.BestCross → s.Repairs := by
  intro h
  have hr := h locked ⟨_, _, rfl, rfl, le_rfl⟩
  exact absurd (hr.1 (100, ⟨5, 1⟩) (100, ⟨5, 1⟩) rfl rfl) (by decide)

end Sim
end Trading
