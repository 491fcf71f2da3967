import Trading.Lists
import Trading.Pipeline

/-! # What arrives downstream of the ring

The consumer's market book against the subscriber's levels, and the deltas that the consumer applies
against those for which the subscriber advanced `last_l2`.

* The subscriber hands on its deltas but not its snapshots.  When everything handed on has been
  applied, the two books agree exactly if the deltas since the latest snapshot have set every level
  on which they differed then (`market_follows`).
* A delta that finds the ring full is dropped, and `last_l2` has advanced all the same.  No delta
  is lost exactly if the subscriber hands none over after a dropped one before it has stored the
  next snapshot (`gapless_iff`). -/

namespace Trading

open Lists (lt_of_range'_concat eq_of_sublist_of_subset prefix_of_sublist_range')
open Replication (replay replay_append replay_eq_iff)
open Transition (run run_invariant run_preserves States Along states_iff_along_state
  along_of_take)

namespace Pipeline

/-! ### Reachable states -/

section reachable
variable {capacity : UInt64} {r : SpscRing Handed} {tickSize mid : PriceTicks} {symbol : String}
  {depth : ℕ}

theorem ok_start (hmake : SpscRing.make capacity = some r) :
    (start r tickSize mid symbol depth).Ok capacity.toNat where
  feed := Feed.ok_start tickSize mid symbol depth
  history :=
    { epochs := fun x hx => by cases hx
      sent := fun x hx => by cases hx
      split := rfl
      levels := rfl
      seqnos := rfl
      consecutive := fun _ => ⟨0, 0, rfl⟩ }
  ring := SpscRing.ok_start hmake
  legal := .nil
  returned := rfl
  busy := .inl rfl
  market := OrderBook.table_empty

theorem ok_states (hmake : SpscRing.make capacity = some r) (moved : Handed → Handed)
    (acts : List Action) :
    States (step moved) (start r tickSize mid symbol depth) (fun _ p => p.Ok capacity.toNat)
      acts := by
  intro pre _ _ p hrun
  exact run_preserves (ok_start hmake) (fun _ _ _ h hs => h.step hs) hrun

end reachable

/-! ### The market book -/

/-- `try_push` finds room. -/
def Room (cap : ℕ) (p : Pipeline) (a : Action) : Prop :=
  a = .producer → p.ring.HasRoom cap .producer

/-- The ring is drained, and nothing is on its way in or out. -/
def Settled (p : Pipeline) : Prop :=
  p.ring.unread = [] ∧ p.ring.producer = .idle ∧ p.ring.consumer = .idle ∧ p.inHand = none

/-- The market book has the subscriber's levels. -/
def Follows (p : Pipeline) : Prop := p.market.book.table = p.feed.sub.book.table

/-- Every level on which the latest snapshot differs from what was handed on before it has been set
by a delta since. -/
def Rewritten (p : Pipeline) : Prop :=
  ∀ k, replay (changes p.earlier) (fun _ => none) k ≠ p.snap.find? k →
    k ∈ (changes p.since).map fun c => c.key

section market
variable {cap : ℕ} {moved : Handed → Handed} {p p' : Pipeline} {a : Action}

/-- When all pushes have been accepted, a settled consumer has applied what was handed on. -/
theorem applied_of_settled (h : p.Ok cap) (hall : p.ring.accepted = p.ring.offered)
    (hs : p.Settled) : p.applied = p.handed := by
  obtain ⟨hunread, hproducer, -, hhand⟩ := hs
  have hfifo : p.ring.accepted = p.ring.returned ++ p.ring.unread := h.legal.fifo
  rw [hunread, List.append_nil, h.returned, hhand] at hfifo
  show p.applied = p.ring.offered ++ p.ring.producer.inFlight
  rw [hproducer, ← hall, hfifo]
  exact ((List.append_nil _).trans (List.append_nil _)).symm

theorem follows_iff (h : p.Ok cap) (hall : p.ring.accepted = p.ring.offered) (hs : p.Settled) :
    p.Follows ↔ p.Rewritten := by
  unfold Follows Rewritten
  rw [h.market, applied_of_settled h hall hs, h.history.split, changes_append, replay_append,
    h.history.levels]
  exact replay_eq_iff

theorem accepted_step (h : p.Ok cap) (hall : p.ring.accepted = p.ring.offered)
    (hroom : p.Room cap a) (hs : p.step moved a = some p') :
    p'.ring.accepted = p'.ring.offered := by
  cases moves_of_step h.feed hs with
  | quiet | snapshot | consume => exact hall
  | delta _ _ _ _ _ hring | top _ _ _ _ hring =>
      exact (SpscRing.accepted_eq_offered_iff h.ring hring hall).mpr fun hb => by cases hb
  | producer hring =>
      exact (SpscRing.accepted_eq_offered_iff h.ring hring hall).mpr (hroom rfl)
  | pop _ hring | look _ hring | popped _ hring =>
      exact (SpscRing.accepted_eq_offered_iff h.ring hring hall).mpr fun hb => by cases hb

end market

/-- **The market book and the subscriber**, if every push succeeds: whenever the ring is drained,
they have the same levels if and only if the deltas since the latest snapshot have set every level
on which that snapshot differs from what was handed on before. -/
theorem market_follows {capacity : UInt64} {r : SpscRing Handed}
    (hmake : SpscRing.make capacity = some r) (moved : Handed → Handed)
    (tickSize mid : PriceTicks) (symbol : String) (depth : ℕ) {acts : List Action}
    (hroom : Along (step moved) (start r tickSize mid symbol depth)
      (fun _ p a => p.Room capacity.toNat a) acts) :
    States (step moved) (start r tickSize mid symbol depth)
      (fun _ p => p.Settled → (p.Follows ↔ p.Rewritten)) acts := by
  intro pre post he p hp hs
  have hpre : Along (step moved) (start r tickSize mid symbol depth)
      (fun _ p a => p.Room capacity.toNat a) pre := by
    rw [he] at hroom
    exact hroom.left
  have hinv : p.Ok capacity.toNat ∧ p.ring.accepted = p.ring.offered := by
    refine run_invariant (P := fun _ p => p.Ok capacity.toNat ∧ p.ring.accepted = p.ring.offered)
      ⟨ok_start hmake, rfl⟩ ?_ hpre hp
    intro _ q b q' h hroom hs
    exact ⟨h.1.step hs, accepted_step h.1 h.2 hroom hs⟩
  exact follows_iff hinv.1 hinv.2 hs

/-- The initial snapshot alone: the subscriber has a level on each side, the market book none. -/
theorem market_follows_initial :
    ¬ (Along (step id) (start ⟨0, [default], 0, 0⟩ 1 200000 "ETH-USD" 1) (fun _ p a => p.Room 1 a)
          [.feed .serve, .feed .store, .feed .serve, .feed .store] →
        States (step id) (start ⟨0, [default], 0, 0⟩ 1 200000 "ETH-USD" 1)
          (fun _ p => p.Settled → p.Follows)
          [.feed .serve, .feed .store, .feed .serve, .feed .store]) := by
  intro h
  have hroom : Along (step id) (start ⟨0, [default], 0, 0⟩ 1 200000 "ETH-USD" 1)
      (fun _ p a => p.Room 1 a) [.feed .serve, .feed .store, .feed .serve, .feed .store] := by
    intro pre a post he p _ ha
    have hmem : Action.producer ∈
        [Action.feed .serve, .feed .store, .feed .serve, .feed .store] := by
      rw [he, ha]
      exact List.mem_append_right pre List.mem_cons_self
    exact absurd hmem (by decide)
  have hfollows := congrFun ((h hroom).last rfl ⟨rfl, rfl, rfl, rfl⟩) (Side.bid.toByte, 199999)
  exact absurd hfollows (by decide +kernel)

/-- A ring of two slots: after the snapshot the best bid is set anew, handed on and applied. -/
theorem market_follows_delta :
    let acts : List Action := [.feed .serve, .feed .store, .feed .serve, .feed .store,
      .feed (.sim (.edit 200000 ⟨.bid, 1, false, 7, by decide, by decide⟩)), .feed (.receive 0),
      .producer, .producer, .producer, .pop, .consumer, .consumer, .consumer, .consume]
    States (step id) (start ⟨1, [default, default], 0, 0⟩ 1 200000 "ETH-USD" 1)
      (fun _ p => p.Settled → (p.Follows ↔ p.Rewritten)) acts := by
  intro acts
  have hmake : SpscRing.make (2 : UInt64) =
      some (⟨1, [default, default], 0, 0⟩ : SpscRing Handed) := rfl
  have hroom : ∀ n < acts.length, ∀ p ∈ run (step id)
      (start ⟨1, [default, default], 0, 0⟩ 1 200000 "ETH-USD" 1) (acts.take n),
      p.ring.unread.length < 2 := by decide +kernel
  refine market_follows hmake id 1 200000 "ETH-USD" 1 (along_of_take fun n hn p hp a => ?_)
  intro _ _ o x h _
  exact hroom n hn p hp

/-! ### The deltas -/

/-- Every delta handed over has been taken in before the next one of its epoch is handed over: it
is applied or waits for the consumer, or a snapshot follows it first. -/
def TakenIn (p : Pipeline) : Prop :=
  ∀ e, ∀ n ∈ seqnosIn e p.handed, ∀ m ∈ seqnosIn e p.handed, n < m → n ∈ seqnosIn e p.ring.letIn

/-- Between two snapshots the deltas applied are the first of those taken in, and these the first
of those for which `last_l2` advanced; so their sequence numbers are consecutive.  Only the last
delta before a snapshot may fail to be taken in. -/
structure Gapless (p : Pipeline) : Prop where
  applied : ∀ e, seqnosIn e p.applied <+: seqnosIn e p.ring.letIn
  letIn : ∀ e, seqnosIn e p.ring.letIn <+: seqnosIn e p.handed
  consecutive : ∀ e, ∃ b len, seqnosIn e p.applied = List.range' b len
  takenIn : p.TakenIn

/-- The deltas handed over since the latest snapshot are those for which `last_l2` advanced. -/
def Advanced (p : Pipeline) : Prop :=
  seqnosIn p.epoch p.handed =
    List.range' (p.feed.base + 1) (p.feed.sub.book.lastL2 - p.feed.base)

/-- The subscriber receives the next delta and hands it over. -/
def HandsOver (p : Pipeline) (a : Action) : Prop :=
  p.feed.sub.phase = .running ∧ p.ring.producer = .idle ∧ ∃ i d, a = .feed (.receive i) ∧
    p.feed.sim.sent[i]? = some (.l2Delta (p.feed.sub.book.lastL2 + 1) d)

/-- When the subscriber hands a delta over, each push of a delta since the latest snapshot has
found room. -/
def NoneDropped (p : Pipeline) (a : Action) : Prop :=
  p.HandsOver a → seqnosIn p.epoch p.ring.accepted = seqnosIn p.epoch p.ring.offered

section gaps
variable {cap : ℕ} {moved : Handed → Handed} {p p' : Pipeline} {a : Action}

theorem applied_prefix_letIn (h : p.Ok cap) : p.applied <+: p.ring.letIn := by
  have hfifo : p.ring.accepted = p.ring.returned ++ p.ring.unread := h.legal.fifo
  unfold SpscRing.State.letIn
  rw [hfifo, h.returned, List.append_assoc, List.append_assoc]
  exact List.prefix_append _ _

theorem letIn_sublist_handed (p : Pipeline) : p.ring.letIn.Sublist p.handed := by
  refine (BoundedQueue.accepted_sublist_offered _).append ?_
  cases p.ring.producer with
  | idle => exact List.Sublist.refl _
  | loaded => exact List.nil_sublist _
  | admitted | written => exact List.Sublist.refl _

/-- The rest follows. -/
theorem gapless_iff_takenIn (h : p.Ok cap) : p.Gapless ↔ p.TakenIn := by
  refine ⟨Gapless.takenIn, fun htaken => ?_⟩
  have happlied : ∀ e, seqnosIn e p.applied <+: seqnosIn e p.ring.letIn := fun e =>
    (applied_prefix_letIn h).filterMap _
  have hletIn : ∀ e, seqnosIn e p.ring.letIn <+: seqnosIn e p.handed := by
    intro e
    obtain ⟨b, len, hrange⟩ := h.history.consecutive e
    exact prefix_of_sublist_range' ((letIn_sublist_handed p).filterMap _) hrange (htaken e)
  refine ⟨happlied, hletIn, fun e => ?_, htaken⟩
  obtain ⟨b, len, hrange⟩ := h.history.consecutive e
  have hprefix := (happlied e).trans (hletIn e)
  have hle := hprefix.length_le
  rw [hrange, List.length_range'] at hle
  refine ⟨b, (seqnosIn e p.applied).length, ?_⟩
  rw [List.prefix_iff_eq_take.mp hprefix, hrange, List.take_range'_of_length_ge hle,
    List.length_range']

/-- A step that hands no delta over. -/
theorem TakenIn.frame (h : p.TakenIn) {l : List Handed} (hletIn : p'.ring.letIn = p.ring.letIn ++ l)
    (hhanded : ∀ e, seqnosIn e p'.handed = seqnosIn e p.handed) : p'.TakenIn := by
  intro e n hn m hm hlt
  rw [hhanded] at hn hm
  rw [hletIn, seqnosIn_append]
  exact List.mem_append_left _ (h e n hn m hm hlt)

/-- A delta handed over. -/
theorem takenIn_hand_iff (h : p.Ok cap) (h' : p'.Ok cap) (hP : p.TakenIn) {n : ℕ}
    {d : L2DeltaPayload} (hidle : p.ring.producer = .idle) (hletIn : p'.ring.letIn = p.ring.letIn)
    (hhanded : p'.handed = p.handed ++ [⟨p.epoch, .l2Delta n d⟩]) :
    p'.TakenIn ↔ seqnosIn p.epoch p.ring.accepted = seqnosIn p.epoch p.ring.offered := by
  have hoffered : p.handed = p.ring.offered := by
    unfold handed
    rw [hidle]
    exact List.append_nil _
  have haccepted : p.ring.letIn = p.ring.accepted := by
    unfold SpscRing.State.letIn
    rw [hidle]
    exact List.append_nil _
  have hnow : seqnosIn p.epoch p'.handed = seqnosIn p.epoch p.ring.offered ++ [n] := by
    rw [hhanded, seqnosIn_append, hoffered]
    simp [seqnosIn, seqno?, MDEvent.deltaSeqno?]
  have helse : ∀ e, e ≠ p.epoch → seqnosIn e p'.handed = seqnosIn e p.handed := by
    intro e he
    rw [hhanded, seqnosIn_append, seqnosIn_eq_nil (l := [_]) fun x hx => ?_, List.append_nil]
    rw [List.mem_singleton.mp hx]
    exact Ne.symm he
  have hbelow : ∀ m ∈ seqnosIn p.epoch p.ring.offered, m < n := by
    obtain ⟨b, len, hrange⟩ := h'.history.consecutive p.epoch
    exact lt_of_range'_concat (hnow.symm.trans hrange)
  constructor
  · intro htaken
    obtain ⟨b, len, hrange⟩ := h.history.consecutive p.epoch
    rw [hoffered] at hrange
    refine eq_of_sublist_of_subset ((BoundedQueue.accepted_sublist_offered _).filterMap _)
      (hrange ▸ List.nodup_range') fun m hm => ?_
    have hmem := htaken p.epoch m (hnow ▸ List.mem_append_left _ hm) n
      (hnow ▸ List.mem_append_right _ (List.mem_singleton_self n)) (hbelow m hm)
    rwa [hletIn, haccepted] at hmem
  · intro hall e k hk m hm hlt
    rw [hletIn]
    by_cases he : e = p.epoch
    · subst he
      rw [hnow] at hk hm
      rcases List.mem_append.mp hk with hk | hk
      · rw [haccepted, hall]
        exact hk
      · -- the new delta is the last
        obtain rfl := List.mem_singleton.mp hk
        rcases List.mem_append.mp hm with hm | hm
        · exact absurd (hbelow m hm) (by omega)
        · exact absurd (List.mem_singleton.mp hm) (by omega)
    · rw [helse e he] at hk hm
      exact hP e k hk m hm hlt

/-- The step at which the next delta is handed over is possible. -/
theorem HandsOver.step (h : p.HandsOver a) (moved : Handed → Handed) :
    ∃ p', p.step moved a = some p' := by
  obtain ⟨hphase, hidle, i, d, rfl, hev⟩ := h
  have hstale : ¬ p.feed.sub.book.lastL2 + 1 ≤ p.feed.sub.book.lastL2 := by omega
  have hsome : handedBy p.feed (.receive i) =
      some (.l2Delta (p.feed.sub.book.lastL2 + 1) d) := by
    simp [handedBy, hev, Subscriber.receive, hstale]
  show ∃ p', p.stepFeed moved (.receive i) = some p'
  unfold stepFeed
  rw [if_neg (fun hb => hb.2 hidle), Feed.step_next hphase hev rfl, Option.bind_some, hsome]
  simp [hand, track, storesL2, SpscRing.step, hidle]

theorem HandsOver.lastL2_ne {b : Feed.Action} {f : Feed} (h : p.HandsOver (.feed b))
    (hf : p.feed.step b = some f) : f.sub.book.lastL2 ≠ p.feed.sub.book.lastL2 := by
  obtain ⟨hphase, -, i, d, ha, hev⟩ := h
  cases ha
  rw [Feed.step_next hphase hev rfl] at hf
  obtain rfl := Option.some_inj.mp hf
  exact Nat.succ_ne_self _

theorem handsOver_of_receive {i : ℕ} {f : Feed} (h : p.feed.Ok) (hidle : p.ring.producer = .idle)
    (hf : p.feed.step (.receive i) = some f)
    (hlast : f.sub.book.lastL2 = p.feed.sub.book.lastL2 + 1) :
    p.HandsOver (.feed (.receive i)) := by
  cases Feed.moves_of_step h hf with
  | stale | gap => exact absurd hlast (Nat.succ_ne_self _).symm
  | next hphase hev hn => exact ⟨hphase, hidle, i, _, rfl, hn ▸ hev⟩
  | top =>
      rw [LocalBook.lastL2_applyL1] at hlast
      exact absurd hlast (Nat.succ_ne_self _).symm

theorem takenIn_step_iff (h : p.Ok cap) (hP : p.TakenIn) (hs : p.step moved a = some p') :
    p'.TakenIn ↔ p.NoneDropped a := by
  have hstep := h.step hs
  cases moves_of_step h.feed hs with
  | @quiet a f hf _ hlast =>
      refine iff_of_true (hP.frame (List.append_nil _).symm fun _ => rfl) fun hover => ?_
      exact absurd hlast (hover.lastL2_ne hf)
  | @delta i n f d ring hf hsent hn hbook hbase hring =>
      have hidle : p.ring.producer = .idle := SpscRing.idle_of_push hring
      have hover : p.HandsOver (.feed (.receive i)) := by
        refine handsOver_of_receive h.feed hidle hf ?_
        rw [hbook]
        exact hn
      rw [takenIn_hand_iff h hstep hP hidle ((SpscRing.letIn_step hring).trans (List.append_nil _))
        (SpscRing.log_step hring).2]
      exact ⟨fun hall _ => hall, fun hnone => hnone hover⟩
  | @top i n f q ring hf _ hlast _ hring =>
      refine iff_of_true (hP.frame (SpscRing.letIn_step hring) fun e => ?_) fun hover => ?_
      · show seqnosIn e (ring.offered ++ ring.producer.inFlight) = _
        rw [(SpscRing.log_step hring).2]
        exact (seqnosIn_append e p.handed [⟨p.epoch, .l1 n q⟩]).trans
          (by simp [seqnosIn, seqno?, MDEvent.deltaSeqno?])
      · exact absurd hlast (hover.lastL2_ne hf)
  | snapshot | consume =>
      refine iff_of_true (hP.frame (List.append_nil _).symm fun _ => rfl) fun hover => ?_
      obtain ⟨-, -, i, d, ha, -⟩ := hover
      cases ha
  | producer hring | pop _ hring | look _ hring | popped _ hring =>
      refine iff_of_true (hP.frame (SpscRing.letIn_step hring) fun e => ?_) fun hover => ?_
      · exact congrArg (seqnosIn e) ((SpscRing.log_step hring).2.trans (List.append_nil _))
      · obtain ⟨-, -, i, d, ha, -⟩ := hover
        cases ha

end gaps

/-- **No delta is lost downstream, exactly** in the runs in which the subscriber hands a delta over
only if none since the latest snapshot has been dropped. -/
theorem gapless_iff {capacity : UInt64} {r : SpscRing Handed}
    (hmake : SpscRing.make capacity = some r) (moved : Handed → Handed)
    (tickSize mid : PriceTicks) (symbol : String) (depth : ℕ) (acts : List Action) :
    States (step moved) (start r tickSize mid symbol depth) (fun _ p => p.Advanced) acts ∧
      (States (step moved) (start r tickSize mid symbol depth) (fun _ p => p.Gapless) acts ↔
        Along (step moved) (start r tickSize mid symbol depth)
          (fun _ p a => p.NoneDropped a) acts) := by
  have hok : States (step moved) (start r tickSize mid symbol depth)
      (fun _ p => p.Ok capacity.toNat) acts := ok_states hmake moved acts
  refine ⟨fun pre post he p hp => (hok pre post he p hp).history.seqnos, ?_⟩
  have hstart : (start r tickSize mid symbol depth).TakenIn := fun _ n hn => by cases hn
  have hiff : States (step moved) (start r tickSize mid symbol depth) (fun _ p => p.TakenIn)
        acts ↔
      Along (step moved) (start r tickSize mid symbol depth) (fun _ p a => p.NoneDropped a)
        acts := by
    refine states_iff_along_state hok hstart ?_ fun _ _ _ h hP hs => takenIn_step_iff h hP hs
    intro p a _ _ hs hover
    obtain ⟨p', hs'⟩ := hover.step moved
    rw [hs] at hs'
    cases hs'
  rw [← hiff]
  constructor
  · intro h pre post he p hp
    exact (h pre post he p hp).takenIn
  · intro h pre post he p hp
    exact (gapless_iff_takenIn (hok pre post he p hp)).mpr (h pre post he p hp)

/-- Three deltas and a ring of one slot: the second finds it full, the third does not. -/
theorem gapless_dropped : ¬ States (step id) (start ⟨0, [default], 0, 0⟩ 1 200000 "ETH-USD" 1)
    (fun _ p => p.Gapless)
    [.feed .serve, .feed .store, .feed .serve, .feed .store,
      .feed (.sim (.edit 200000 ⟨.bid, 1, false, 7, by decide, by decide⟩)),
      .feed (.sim (.edit 200000 ⟨.bid, 2, false, 7, by decide, by decide⟩)),
      .feed (.sim (.edit 200000 ⟨.bid, 3, false, 7, by decide, by decide⟩)),
      .feed (.receive 0), .producer, .producer, .producer, .feed (.receive 1), .producer,
      .pop, .consumer, .consumer, .consumer, .consume, .feed (.receive 2), .producer, .producer,
      .producer, .pop, .consumer, .consumer, .consumer, .consume] := by
  intro h
  exact absurd ((h.last rfl).letIn 1) (by decide +kernel)

/-- One delta, in a ring of two slots. -/
theorem gapless_iff_delta :
    let acts : List Action := [.feed .serve, .feed .store, .feed .serve, .feed .store,
      .feed (.sim (.edit 200000 ⟨.bid, 1, false, 7, by decide, by decide⟩)), .feed (.receive 0),
      .producer, .producer, .producer, .pop, .consumer, .consumer, .consumer, .consume]
    States (step id) (start ⟨1, [default, default], 0, 0⟩ 1 200000 "ETH-USD" 1)
        (fun _ p => p.Advanced) acts ∧
      (States (step id) (start ⟨1, [default, default], 0, 0⟩ 1 200000 "ETH-USD" 1)
          (fun _ p => p.Gapless) acts ↔
        Along (step id) (start ⟨1, [default, default], 0, 0⟩ 1 200000 "ETH-USD" 1)
          (fun _ p a => p.NoneDropped a) acts) :=
  gapless_iff (show SpscRing.make (2 : UInt64) =
    some (⟨1, [default, default], 0, 0⟩ : SpscRing Handed) from rfl) id 1 200000 "ETH-USD" 1 _

end Pipeline
end Trading
