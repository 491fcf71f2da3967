import Trading.Downstream
import Trading.L2Book
import Trading.NewestTop
import Trading.Uncrossed

/-! # Nothing downstream is crossed

`uncrossed_run` is about the simulator's book and a replica that misses nothing.  Here are the books
that the programs have, behind a channel that loses, repeats, delays and reorders.

* The subscriber's is uncrossed in every state, and so is its top of book, also halfway through a
  snapshot exchange (`replica_notCrossed`).
* That of `md_to_orderbook_consumer` starts empty and is never told a snapshot.  If no push finds
  the ring full, `invariants_fail` counts no delta from before the second L2 snapshot (`healthy`).

Both rest on two facts: every book that the simulator has had has its sides apart (`Sim.Apart`), and
each of these replicas is within one of them. -/

namespace Trading

open Replication (replay replay_append Within)
open Transition (run run_invariant States Along along_of_take)

/-! ### The simulator's past -/

namespace Sim

/-- Every book so far has its sides apart. -/
structure Apart (tick : PriceTicks) (s : Sim) : Prop where
  tidy : s.Tidy tick
  past : ∀ b ∈ s.past, Spread b

section apart
variable {s : Sim} {tick mid : PriceTicks}

/-- A step appends the book to the past if it changes it. -/
theorem past_step (s : Sim) (a : Action) :
    (s.step a).past = s.past ∨ (s.step a).past = s.past ++ [(s.step a).book] := by
  have hm := moves_step s a
  generalize s.step a = s' at hm ⊢
  cases hm with
  | edit | repair => exact .inr rfl
  | sound | top | sameTop => exact .inl rfl

theorem Apart.concat (h : s.Apart tick) {s' : Sim} (ht : s'.Tidy tick)
    (hp : s'.past = s.past ++ [s'.book]) : s'.Apart tick where
  tidy := ht
  past b hb := by
    rw [hp] at hb
    rcases List.mem_append.mp hb with hb | hb
    · exact h.past b hb
    · rw [List.mem_singleton.mp hb]
      exact ht.spread

theorem Apart.step (h : s.Apart tick) (htick : 0 < tick.toInt) {a : Action}
    (ha : a.InRange tick) : (s.step a).Apart tick := by
  have ht := h.tidy.step htick ha
  obtain hp | hp := past_step s a
  · exact ⟨ht, hp ▸ h.past⟩
  · exact h.concat ht hp

/-- A seeded bid. -/
theorem Seeded.upsertBid (h : s.Seeded tick mid) {px : PriceTicks} (hlow : -2 ^ 63 < px.toInt)
    (hpx : px.toInt + tick.toInt ≤ mid.toInt) (qty oc : ℕ) :
    (s.upsert .bid px qty oc).Seeded tick mid where
  tickSize := (Book.tickSize_upsertLevel ..).trans h.tickSize
  bid p l hp := by
    change (s.book.upsertLevel .bid px qty oc).level? .bid p = some l at hp
    obtain ⟨-, rfl⟩ | hp := Book.level?_upsertLevel_cases hp
    · exact ⟨hlow, hpx⟩
    · exact h.bid p l hp
  ask q l hq := by
    change (s.book.upsertLevel .bid px qty oc).level? .ask q = some l at hq
    obtain ⟨hs, -⟩ | hq := Book.level?_upsertLevel_cases hq
    · cases hs
    · exact h.ask q l hq

theorem apart_start (htick : 0 < tick.toInt) (hfar : Far tick mid 10) :
    (start tick mid).Apart tick := by
  have hmid : -2 ^ 63 < mid.toInt := by
    have hlow := hfar.1
    omega
  have hseeded : (start tick mid).Seeded tick mid ∧ (start tick mid).Apart tick := by
    refine seed_invariant (P := fun s => s.Seeded tick mid ∧ s.Apart tick) ?_ ?_
    · rintro s i hi ⟨hs, hapart⟩
      have hi' := List.mem_range'_1.mp hi
      have hone : (1 : ℤ) * tick.toInt ≤ i * tick.toInt :=
        Int.mul_le_mul_of_nonneg_right (Int.ofNat_le.mpr hi'.1) (Int.le_of_lt htick)
      have hten : (i : ℤ) * tick.toInt ≤ (10 : ℕ) * tick.toInt :=
        Int.mul_le_mul_of_nonneg_right (Int.ofNat_le.mpr (by omega)) (Int.le_of_lt htick)
      have hfari : Far tick mid i := ⟨by have := hfar.1; omega, by have := hfar.2; omega⟩
      have hbelow := hfari.toInt_below htick
      rw [← hs.tickSize] at hbelow hone
      have hlow := hfari.1
      rw [← hs.tickSize] at hlow
      have hbid : (s.upsert .bid (mid - Int64.ofNat i * s.book.tickSize) (10 * i) i).Seeded
          tick mid := hs.upsertBid (by omega) (by rw [← hs.tickSize]; omega) _ _
      have hboth := hs.seedStep htick hfar hi
      have hfirst := hapart.concat (hbid.tidy htick hmid) rfl
      exact ⟨hboth, hfirst.concat (hboth.tidy htick hmid) rfl⟩
    · have hempty : Seeded tick mid ⟨.empty tick, {}, [], [.empty tick]⟩ :=
        ⟨rfl, fun px l hpx => (by cases hpx), fun px l hpx => (by cases hpx)⟩
      have htidy := hempty.tidy htick hmid
      refine ⟨hempty, htidy, fun b hb => ?_⟩
      rw [List.mem_singleton.mp hb]
      exact htidy.spread
  exact hseeded.2

end apart
end Sim

/-- A map that has only levels of a book whose sides are apart is not crossed. -/
theorem Spread.not_crossed_of_within {b : Book} (h : Spread b) {t : LevelFun}
    (ht : ∀ s px v, t s px = some v → b.table (s.toByte, px) = some v) :
    ¬ OrderBook.Crossed t := by
  rintro ⟨bid, ask, v, w, hbid, hask, hle⟩
  have hlevel : ∀ s px v, t s px = some v → ∃ l, b.level? s px = some l := by
    intro s px v hv
    have hb := ht s px v hv
    rw [Book.table_toByte, Option.map_eq_some_iff] at hb
    exact hb.imp fun _ h => h.1
  obtain ⟨l, hl⟩ := hlevel .bid bid v hbid.1
  obtain ⟨l', hl'⟩ := hlevel .ask ask w hask.1
  exact absurd (h.apart _ l _ l' hl hl') (not_lt.mpr hle)

/-! ### The subscriber -/

/-- Neither the levels nor the top of book is crossed. -/
def LocalBook.NotCrossed (b : LocalBook) : Prop :=
  Uncrossed b.side ∧ (b.tob.bestBidPrice ≠ kNoPrice → b.tob.bestAskPrice ≠ kNoPrice →
    b.tob.bestBidPrice < b.tob.bestAskPrice)

namespace Feed

/-- The prices that the simulator computes do not overflow. -/
def Action.InRange (tick : PriceTicks) : Action → Prop
  | .sim a => a.InRange tick
  | .receive _ | .serve | .store | .giveUp _ => True

instance (tick : PriceTicks) : DecidablePred (Action.InRange tick)
  | .sim a => inferInstanceAs (Decidable (a.InRange tick))
  | .receive _ | .serve | .store | .giveUp _ => inferInstanceAs (Decidable True)

/-- The subscriber is in its constructor and waits for its first L2 snapshot. -/
def Fresh (f : Feed) : Prop :=
  f.sub.up = false ∧ ∃ r reply, f.sub.phase = .waiting r reply ∧ r.stream = "L2"

section replica
variable {f f' : Feed} {a : Action} {tick mid : PriceTicks} {symbol : String} {depth : ℕ}

/-- A fresh subscriber reads no message. -/
theorem Fresh.receive_eq_none (h : f.Fresh) (i : ℕ) : f.step (.receive i) = none := by
  obtain ⟨-, r, reply, hphase, -⟩ := h
  simp [step, hphase]

/-- The request for L2 levels is answered with L2 levels. -/
theorem Ok.not_l1 (hok : f.Ok) {r : SnapRequest} (hstream : r.stream = "L2") {n : ℕ}
    {q : L1Payload} : f.sub.phase ≠ .waiting r (some (.l1 n q)) := by
  intro hr
  rw [hok.stream_l1 hr] at hstream
  exact absurd hstream (by decide)

/-- A subscriber stays fresh until it stores an L2 snapshot. -/
theorem Fresh.step (h : f.Fresh) (hok : f.Ok) (hs : f.step a = some f') :
    f'.Fresh ∨ ∃ r n depth rows, a = .store ∧
      f.sub.phase = .waiting r (some (.l2 n depth rows)) ∧ f'.sub.book.lastL2 = n := by
  obtain ⟨hup, r, reply, hphase, hstream⟩ := h
  cases moves_of_step hok hs with
  | sim a => exact .inl ⟨hup, r, reply, hphase, hstream⟩
  | stale hrun | gap hrun | next hrun | top hrun =>
      rw [hphase] at hrun
      cases hrun
  | serve hphase' =>
      obtain ⟨rfl, -⟩ := Phase.waiting.inj (hphase.symm.trans hphase')
      exact .inl ⟨hup, _, _, rfl, hstream⟩
  | storeL2 hphase' => exact .inr ⟨_, _, _, _, rfl, hphase', rfl⟩
  | storeL1 hphase' =>
      obtain ⟨rfl, -⟩ := Phase.waiting.inj (hphase.symm.trans hphase')
      exact absurd hphase' (hok.not_l1 hstream)
  | giveUp _ hup' =>
      rw [hup] at hup'
      cases hup'

theorem apart_step (h : f.sim.Apart tick) (hok : f.Ok) (htick : 0 < tick.toInt)
    (ha : a.InRange tick) (hs : f.step a = some f') : f'.sim.Apart tick := by
  cases moves_of_step hok hs with
  | sim a => exact h.step htick ha
  | stale | gap | next | top | serve | storeL2 | storeL1 | giveUp => exact h

/-- The levels that the subscriber holds, and its top of book, are those of an uncrossed book. -/
theorem notCrossed_of_ok (hok : f.Ok) (h : f.sim.Apart tick) : f.sub.book.NotCrossed := by
  constructor
  · obtain ⟨b, hb, hw⟩ := hok.levels
    have hspread := h.past b (List.mem_of_getElem? hb)
    exact hspread.uncrossed fun s px v hv => hw _ _ (LocalBook.mem_side_iff.mp hv)
  · obtain ⟨b, hb, htob⟩ := hok.top
    have hspread := h.past b (List.mem_of_getElem? hb)
    rw [htob]
    intro hbid hask
    exact not_le.mp fun hle => hspread.not_crossed ⟨hbid, hask, hle⟩

/-- **The replica is never crossed**, whatever the channel loses, repeats, delays or reorders and
wherever the snapshot exchanges stand: neither its levels nor its top of book. -/
theorem replica_notCrossed (htick : 0 < tick.toInt) (hseed : Far tick mid 10) {acts : List Action}
    (hacts : ∀ a ∈ acts, a.InRange tick) :
    States step (start tick mid symbol depth) (fun _ f => f.sub.book.NotCrossed) acts := by
  intro pre post he f hf
  have hinv : f.Ok ∧ f.sim.Apart tick := by
    refine run_invariant (G := fun _ _ a => a.InRange tick)
      (P := fun _ f => f.Ok ∧ f.sim.Apart tick)
      ⟨ok_start tick mid symbol depth, Sim.apart_start htick hseed⟩ ?_ ?_ hf
    · intro _ g a g' h ha hs
      exact ⟨h.1.step hs, apart_step h.2 h.1 htick ha hs⟩
    · intro p a q hp _ _
      exact hacts a (by rw [he, hp]; simp)
  exact notCrossed_of_ok hinv.1 hinv.2

/-- The mid price jumps above all asks and then below all bids, the first two deltas are lost, and
the subscriber has the new levels but not yet the new top. -/
theorem replica_notCrossed_gap : States step (start 1 200000 "ETH-USD" 2)
    (fun _ f => f.sub.book.NotCrossed)
    [.serve, .store, .serve, .store,
      .sim (.edit 250000 ⟨.bid, 5, false, 7, by decide, by decide⟩), .sim .publishL1,
      .sim (.edit 150000 ⟨.ask, 1, false, 9, by decide, by decide⟩),
      .sim (.edit 150000 ⟨.ask, 1, false, 9, by decide, by decide⟩), .receive 3, .serve, .store] :=
  replica_notCrossed (by decide) (by decide) (by decide)

end replica
end Feed

/-! ### The consumer -/

/-- The number of failed checks, if those before which `late` is false never fail. -/
theorem MarketBook.ncard_crossings_le {late : Handed → Bool} (l : List Handed)
    (h : ∀ l' x, l' ++ [x] <+: l → late x = false → ¬ EndsCrossed (l'.map Handed.event) x.event) :
    (crossings (l.map Handed.event)).ncard ≤ l.countP late := by
  induction l using List.reverseRecOn with
  | nil => simp [crossings]
  | append_singleton l x ih =>
      have ih := ih fun l' y hl => h l' y (hl.trans (List.prefix_append l [x]))
      rw [List.map_append, List.map_singleton, List.countP_append, List.countP_singleton]
      by_cases hc : EndsCrossed (l.map Handed.event) x.event
      · have hlate : late x = true := by
          by_contra hx
          exact h l x (List.prefix_refl _) (Bool.eq_false_of_not_eq_true hx) hc
        rw [ncard_crossings_of_crossed hc, if_pos hlate]
        exact Nat.succ_le_succ ih
      · rw [crossings_of_not_crossed hc]
        exact ih.trans (Nat.le_add_right _ _)

namespace Pipeline

/-- The prices that the simulator computes do not overflow. -/
def Action.InRange (tick : PriceTicks) : Action → Prop
  | .feed a => a.InRange tick
  | .producer | .pop | .consumer | .consume => True

instance (tick : PriceTicks) : DecidablePred (Action.InRange tick)
  | .feed a => inferInstanceAs (Decidable (a.InRange tick))
  | .producer | .pop | .consumer | .consume => inferInstanceAs (Decidable True)

/-- What was handed over up to an event of the first epoch is within a book that the simulator has
had. -/
def Bounded (p : Pipeline) : Prop :=
  ∀ l x, l ++ [x] <+: p.handed → x.epoch ≤ 1 →
    ∃ b ∈ p.feed.sim.past, Within (replay (changes (l ++ [x])) fun _ => none) b.table

/-- The invariant of a pipeline with a ring of `cap` slots in which every push finds room. -/
structure Healthy (cap : ℕ) (tick : PriceTicks) (p : Pipeline) : Prop where
  ok : p.Ok cap
  apart : p.feed.sim.Apart tick
  lossless : p.ring.accepted = p.ring.offered
  fresh : p.epoch = 0 → p.feed.Fresh
  later : ∀ x ∈ p.handed, 0 < x.epoch
  bounded : p.Bounded
  market : p.market = (p.applied.map Handed.event).foldl MarketBook.consume .empty

section consumer
variable {cap : ℕ} {moved : Handed → Handed} {p p' : Pipeline} {a : Action} {tick : PriceTicks}

theorem feed_step (h : p.feed.Ok) (hs : p.step moved a = some p') :
    p'.feed = p.feed ∨ ∃ b, a = .feed b ∧ p.feed.step b = some p'.feed := by
  cases moves_of_step h hs with
  | quiet hf | delta hf | top hf | snapshot hf => exact .inr ⟨_, rfl, hf⟩
  | producer | pop | look | popped | consume => exact .inl rfl

/-- At most one event is handed over, and only a message brings one. -/
theorem handed_step (h : p.feed.Ok) (hs : p.step moved a = some p') :
    p'.handed = p.handed ∨ ∃ i ev, p.feed.step (.receive i) = some p'.feed ∧
      p'.epoch = p.epoch ∧ p'.handed = p.handed ++ [⟨p.epoch, ev⟩] := by
  cases moves_of_step h hs with
  | quiet | snapshot | consume => exact .inl rfl
  | delta hf _ _ _ _ hring => exact .inr ⟨_, _, hf, rfl, (SpscRing.log_step hring).2⟩
  | top hf _ _ _ hring => exact .inr ⟨_, _, hf, rfl, (SpscRing.log_step hring).2⟩
  | producer hring | pop _ hring | look _ hring | popped _ hring =>
      exact .inl ((SpscRing.log_step hring).2.trans (List.append_nil _))

theorem epoch_le_step (h : p.feed.Ok) (hs : p.step moved a = some p') : p.epoch ≤ p'.epoch := by
  cases moves_of_step h hs with
  | snapshot => exact Nat.le_succ p.epoch
  | quiet | delta | top | producer | pop | look | popped | consume => exact le_rfl

theorem applied_step (h : p.feed.Ok) (hs : p.step moved a = some p') :
    p'.applied = p.applied ∧ p'.market = p.market ∨
      ∃ x, p'.applied = p.applied ++ [x] ∧ p'.market = p.market.consume x.event := by
  cases moves_of_step h hs with
  | quiet | delta | top | snapshot | producer | pop | look | popped => exact .inl ⟨rfl, rfl⟩
  | consume => exact .inr ⟨_, rfl, rfl⟩

theorem epoch_storeL2 {r : SnapRequest} {n depth : ℕ} {rows : List LevelSummary}
    (hphase : p.feed.sub.phase = .waiting r (some (.l2 n depth rows)))
    (hs : p.step moved (.feed .store) = some p') : p'.epoch = p.epoch + 1 := by
  change p.stepFeed moved .store = some p' at hs
  unfold stepFeed at hs
  split_ifs at hs
  obtain ⟨f, -, hs⟩ := Option.bind_eq_some_iff.mp hs
  have hstores : storesL2 p.feed .store = true := by simp [storesL2, hphase]
  have htrack : p.track .store f = p' := Option.some_inj.mp hs
  rw [← htrack, track, if_pos hstores]

theorem fresh_step (h : p.feed.Fresh) (hok : p.feed.Ok) (hs : p.step moved a = some p') :
    p'.feed.Fresh ∨ p'.epoch = p.epoch + 1 := by
  obtain hfeed | ⟨b, rfl, hf⟩ := feed_step hok hs
  · exact .inl (hfeed ▸ h)
  · obtain hfresh | ⟨r, n, depth, rows, rfl, hphase, -⟩ := h.step hok hf
    · exact .inl hfresh
    · exact .inr (epoch_storeL2 hphase hs)

/-- What is handed over in the first epoch is within the subscriber's levels, and these are the
simulator's. -/
theorem within_of_first (hok : p.Ok cap) (hepoch : p.epoch ≤ 1)
    (hlater : ∀ x ∈ p.handed, 0 < x.epoch) :
    ∃ b ∈ p.feed.sim.past, Within (replay (changes p.handed) fun _ => none) b.table := by
  have hearlier : p.earlier = [] := by
    refine List.filter_eq_nil_iff.mpr fun x hx hc => ?_
    have hpos := hlater x hx
    have hlt := of_decide_eq_true hc
    omega
  have hsince : p.handed = p.since := by
    have hsplit := hok.history.split
    rwa [hearlier, List.nil_append] at hsplit
  obtain ⟨b, hb, hw⟩ := hok.feed.levels
  refine ⟨b, List.mem_of_getElem? hb, fun k v hk => hw k v ?_⟩
  have hempty : Within (fun _ => none) p.snap.find? := fun _ _ h => by cases h
  rw [hok.history.levels]
  rw [hsince] at hk
  exact hempty.replay _ k v hk

theorem past_subset_step (h : p.feed.Ok) (hs : p.step moved a = some p') :
    p.feed.sim.past ⊆ p'.feed.sim.past := by
  obtain hfeed | ⟨b, -, hf⟩ := feed_step h hs
  · rw [hfeed]
    exact List.Subset.refl _
  · generalize p'.feed = f' at hf ⊢
    cases Feed.moves_of_step h hf with
    | sim a =>
        obtain hp | hp := Sim.past_step p.feed.sim a
        · exact (congrArg (p.feed.sim.past ⊆ ·) hp).mpr (List.Subset.refl _)
        · exact (congrArg (p.feed.sim.past ⊆ ·) hp).mpr (List.subset_append_left _ _)
    | stale | gap | next | top | serve | storeL2 | storeL1 | giveUp => exact List.Subset.refl _

theorem Bounded.step (h : p.Bounded) (hok : p.feed.Ok) (hok' : p'.Ok cap)
    (hlater : ∀ x ∈ p'.handed, 0 < x.epoch) (hs : p.step moved a = some p') : p'.Bounded := by
  have hpast := past_subset_step hok hs
  have hold : ∀ l x, l ++ [x] <+: p.handed → x.epoch ≤ 1 → ∃ b ∈ p'.feed.sim.past,
      Within (replay (changes (l ++ [x])) fun _ => none) b.table := by
    intro l x hl hx
    obtain ⟨b, hb, hw⟩ := h l x hl hx
    exact ⟨b, hpast hb, hw⟩
  intro l x hl hx
  obtain hhanded | ⟨i, ev, -, hepoch, hhanded⟩ := handed_step hok hs
  · rw [hhanded] at hl
    exact hold l x hl hx
  · rw [hhanded] at hl
    rcases List.prefix_concat_iff.mp hl with heq | hl
    · -- The event handed over now: the list is all that has been handed over.
      obtain ⟨-, hx'⟩ := List.append_inj' heq rfl
      obtain rfl := List.singleton_inj.mp hx'
      rw [heq, ← hhanded]
      exact within_of_first hok' (hepoch ▸ hx) hlater
    · exact hold l x hl hx

theorem Healthy.step (h : p.Healthy cap tick) (htick : 0 < tick.toInt) (ha : a.InRange tick)
    (hroom : p.Room cap a) (hs : p.step moved a = some p') : p'.Healthy cap tick := by
  have hok := h.ok.step hs
  have hlater : ∀ x ∈ p'.handed, 0 < x.epoch := by
    intro x hx
    obtain hhanded | ⟨i, ev, hf, -, hhanded⟩ := handed_step h.ok.feed hs
    · exact h.later x (hhanded ▸ hx)
    · rw [hhanded] at hx
      rcases List.mem_append.mp hx with hx | hx
      · exact h.later x hx
      · rw [List.mem_singleton.mp hx]
        refine Nat.pos_of_ne_zero fun hzero => ?_
        rw [(h.fresh hzero).receive_eq_none i] at hf
        cases hf
  refine ⟨hok, ?_, accepted_step h.ok h.lossless hroom hs, ?_, hlater,
    h.bounded.step h.ok.feed hok hlater hs, ?_⟩
  · obtain hfeed | ⟨b, rfl, hf⟩ := feed_step h.ok.feed hs
    · rw [hfeed]
      exact h.apart
    · exact Feed.apart_step h.apart h.ok.feed htick ha hf
  · intro hzero
    have hle := epoch_le_step h.ok.feed hs
    obtain hfresh | hsucc := fresh_step (h.fresh (by omega)) h.ok.feed hs
    · exact hfresh
    · omega
  · obtain ⟨happlied, hmarket⟩ | ⟨x, happlied, hmarket⟩ := applied_step h.ok.feed hs
    · rw [happlied, hmarket, h.market]
    · rw [happlied, hmarket, h.market, List.map_append, List.foldl_append]
      rfl

/-- The market book after events as the simulator sends them. -/
theorem table_foldl {l : List Handed}
    (hsent : ∀ x ∈ l, ∀ n d, x.event = .l2Delta n d → d.Sent) :
    ((l.map Handed.event).foldl MarketBook.consume .empty).book.table =
      replay (changes l) fun _ => none := by
  induction l using List.reverseRecOn with
  | nil => exact OrderBook.table_empty
  | append_singleton l x ih =>
      have hx := hsent x (List.mem_append_right l (List.mem_singleton_self x))
      rw [List.map_append, List.foldl_append, changes_append, changes_singleton, replay_append,
        ← ih fun y hy => hsent y (List.mem_append_left _ hy)]
      exact MarketBook.table_consume_sent _ hx

theorem applied_prefix_handed (h : p.Ok cap) (hall : p.ring.accepted = p.ring.offered) :
    p.applied <+: p.handed := by
  have hfifo : p.ring.accepted = p.ring.returned ++ p.ring.unread := h.legal.fifo
  unfold handed
  rw [← hall, hfifo, h.returned, List.append_assoc, List.append_assoc]
  exact List.prefix_append _ _

/-- No event of the first epoch leaves the market book crossed. -/
theorem Healthy.not_endsCrossed (h : p.Healthy cap tick) {l : List Handed} {x : Handed}
    (hl : l ++ [x] <+: p.applied) (hx : x.epoch ≤ 1) :
    ¬ MarketBook.EndsCrossed (l.map Handed.event) x.event := by
  have hhanded := hl.trans (applied_prefix_handed h.ok h.lossless)
  obtain ⟨b, hb, hw⟩ := h.bounded l x hhanded hx
  have htable := table_foldl fun y hy => h.ok.history.sent y (hhanded.subset hy)
  rintro ⟨-, hc⟩
  refine (h.apart.past b hb).not_crossed_of_within (fun s px v hv => hw _ _ ?_) hc
  rw [← htable, MarketBook.book_foldl, OrderBook.table, twoSided_toByte, OrderBook.level?_foldl]
  rwa [List.map_append, List.map_singleton]

end consumer

section health
variable {capacity : UInt64} {r : SpscRing Handed} {tick mid : PriceTicks}

theorem healthy_start (hmake : SpscRing.make capacity = some r) (htick : 0 < tick.toInt)
    (hseed : Far tick mid 10) (symbol : String) (depth : ℕ) :
    (start r tick mid symbol depth).Healthy capacity.toNat tick where
  ok := ok_start hmake
  apart := Sim.apart_start htick hseed
  lossless := rfl
  fresh _ := ⟨rfl, _, _, rfl, rfl⟩
  later x hx := by cases hx
  bounded l x hl := by
    have hnil := List.prefix_nil.mp hl
    simp at hnil
  market := rfl

/-- **The health counter**, if no push finds the ring full: whatever the channel does,
`invariants_fail` counts no delta that the subscriber handed on before its second L2 snapshot. -/
theorem healthy (hmake : SpscRing.make capacity = some r) (moved : Handed → Handed)
    (htick : 0 < tick.toInt) (hseed : Far tick mid 10) (symbol : String) (depth : ℕ)
    {acts : List Action} (hacts : ∀ a ∈ acts, a.InRange tick)
    (hroom : Along (step moved) (start r tick mid symbol depth)
      (fun _ p a => p.Room capacity.toNat a) acts) :
    States (step moved) (start r tick mid symbol depth)
      (fun _ p => p.market.metrics.invariantsFail ≤ p.applied.countP (fun x => 2 ≤ x.epoch) ∧
        (p.epoch ≤ 1 → p.market.metrics.invariantsFail = 0)) acts := by
  intro pre post he p hp
  have hinv : p.Healthy capacity.toNat tick := by
    refine run_invariant (G := fun _ p a => p.Room capacity.toNat a ∧ a.InRange tick)
      (P := fun _ p => p.Healthy capacity.toNat tick)
      (healthy_start hmake htick hseed symbol depth) ?_ ?_ hp
    · intro _ q a q' h ha hs
      exact h.step htick ha.2 ha.1 hs
    · intro before a after hpre q hq
      have he' : acts = before ++ a :: (after ++ post) := by rw [he, hpre]; simp
      exact ⟨hroom before a _ he' q hq, hacts a (by rw [he']; simp)⟩
  have hle : p.market.metrics.invariantsFail ≤ p.applied.countP fun x => 2 ≤ x.epoch := by
    rw [hinv.market, (MarketBook.metrics_foldl _).2]
    refine MarketBook.ncard_crossings_le _ fun l x hl hx => hinv.not_endsCrossed hl ?_
    have hlt := of_decide_eq_false hx
    omega
  refine ⟨hle, fun hepoch => ?_⟩
  have hzero : p.applied.countP (fun x => 2 ≤ x.epoch) = 0 := by
    refine List.countP_eq_zero.mpr fun x hx hc => ?_
    have hx := hinv.ok.history.epochs x ((applied_prefix_handed hinv.ok hinv.lossless).subset hx)
    have hc := of_decide_eq_true hc
    omega
  omega

/-- One delta, in a ring of two slots. -/
theorem healthy_delta :
    let acts : List Action := [.feed .serve, .feed .store, .feed .serve, .feed .store,
      .feed (.sim (.edit 200000 ⟨.bid, 1, false, 7, by decide, by decide⟩)), .feed (.receive 0),
      .producer, .producer, .producer, .pop, .consumer, .consumer, .consumer, .consume]
    States (step id) (start ⟨1, [default, default], 0, 0⟩ 1 200000 "ETH-USD" 1)
      (fun _ p => p.market.metrics.invariantsFail ≤ p.applied.countP (fun x => 2 ≤ x.epoch) ∧
        (p.epoch ≤ 1 → p.market.metrics.invariantsFail = 0)) acts := by
  intro acts
  have hmake : SpscRing.make (2 : UInt64) =
      some (⟨1, [default, default], 0, 0⟩ : SpscRing Handed) := rfl
  have hroom : ∀ n < acts.length, ∀ p ∈ run (step id)
      (start ⟨1, [default, default], 0, 0⟩ 1 200000 "ETH-USD" 1) (acts.take n),
      p.ring.unread.length < 2 := by decide +kernel
  refine healthy hmake id (by decide) (by decide) "ETH-USD" 1 (by decide) ?_
  refine along_of_take fun n hn p hp a => ?_
  intro _ _ o x h _
  exact hroom n hn p hp

/-- After the second snapshot a check can fail: the bid at 199999 has gone in a delta that was lost,
and the market book still has it when the ask comes down to it. -/
example : (run (step id) (start ⟨1, [default, default], 0, 0⟩ 1 200000 "ETH-USD" 2)
    [.feed .serve, .feed .store, .feed .serve, .feed .store,
      .feed (.sim (.edit 200000 ⟨.bid, 1, false, 7, by decide, by decide⟩)), .feed (.receive 0),
      .producer, .producer, .producer, .pop, .consumer, .consumer, .consumer, .consume,
      .feed (.sim (.edit 200000 ⟨.bid, 1, true, 7, by decide, by decide⟩)),
      .feed (.sim (.edit 199998 ⟨.ask, 1, false, 7, by decide, by decide⟩)), .feed (.receive 2),
      .feed .serve, .feed .store, .feed .serve, .feed .store,
      .feed (.sim (.edit 199998 ⟨.ask, 1, false, 9, by decide, by decide⟩)), .feed (.receive 3),
      .producer, .producer, .producer, .pop, .consumer, .consumer, .consumer, .consume]).map
      (fun p => (p.epoch, p.market.metrics.invariantsFail)) = some (2, 1) := by
  decide +kernel

end health
end Pipeline

end Trading
