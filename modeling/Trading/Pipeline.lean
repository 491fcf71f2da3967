import Trading.Consumers
import Trading.Feed
import Trading.SpscRing

/-! # The market data pipeline

Simulator, channel and subscriber with a ring attached, and `md_to_orderbook_consumer` at its other
end.  The steps of `try_push` and `try_pop` are interleaved with each other and with everything
else.

* The subscriber hands each delta that it applies, and each L1 message, to the ring, ignores the
  result of `try_push`, and reads the next message only when the call has returned.  The first step
  of the call, which loads the subscriber's own counter, is taken together with the message.
* An L2 snapshot is not handed on.
* The consumer pops an event (`consumer`) and then applies it (`consume`).

`epoch` counts the L2 snapshots stored and `snap` keeps the levels of the latest one; an event in
the ring carries the epoch it was handed over in, and `applied` records the events applied.  Only
the statements need these. -/

namespace Trading

open Replication (Change replay replay_append)

/-- An event with its epoch. -/
structure Handed where
  epoch : ℕ
  event : MDEvent
deriving DecidableEq

instance : Inhabited Handed := ⟨⟨0, .l1 0 {}⟩⟩

structure Pipeline where
  feed : Feed
  epoch : ℕ
  snap : LevelMap
  ring : SpscRing.State Handed
  inHand : Option Handed
  market : MarketBook
  applied : List Handed
deriving DecidableEq

namespace Pipeline

inductive Action where
  | feed (a : Feed.Action)
  | producer
  | pop
  | consumer
  | consume
deriving DecidableEq

def start (r : SpscRing Handed) (tickSize mid : PriceTicks) (symbol : String) (depth : ℕ) :
    Pipeline :=
  ⟨Feed.start tickSize mid symbol depth, 0, .empty, SpscRing.start r, none, .empty, []⟩

/-- The steps of the subscriber's thread. -/
def bySubscriber : Feed.Action → Bool
  | .receive _ | .store | .giveUp _ => true
  | .sim _ | .serve => false

/-- The event that the subscriber hands to the ring. -/
def handedBy (f : Feed) : Feed.Action → Option MDEvent
  | .receive i => (f.sim.sent[i]?).bind fun ev => (f.sub.receive ev).2
  | _ => none

/-- The step stores an L2 snapshot. -/
def storesL2 (f : Feed) : Feed.Action → Bool
  | .store =>
      match f.sub.phase with
      | .waiting _ (some (.l2 ..)) => true
      | _ => false
  | _ => false

/-- The subscriber's book after a step, and what is recorded of it. -/
def track (p : Pipeline) (a : Feed.Action) (f : Feed) : Pipeline :=
  if storesL2 p.feed a then { p with feed := f, epoch := p.epoch + 1, snap := f.sub.book.levels }
  else { p with feed := f }

/-- `try_push(std::move(ev))` begins. -/
def hand (moved : Handed → Handed) (p : Pipeline) : Option MDEvent → Option Pipeline
  | none => some p
  | some ev =>
      (SpscRing.step moved p.ring (.push .rvalue ⟨p.epoch, ev⟩)).map fun ring =>
        { p with ring := ring }

def stepFeed (moved : Handed → Handed) (p : Pipeline) (a : Feed.Action) : Option Pipeline :=
  if bySubscriber a ∧ p.ring.producer ≠ .idle then none
  else (p.feed.step a).bind fun f => (p.track a f).hand moved (handedBy p.feed a)

def step (moved : Handed → Handed) (p : Pipeline) : Action → Option Pipeline
  | .feed a => p.stepFeed moved a
  | .producer => (SpscRing.step moved p.ring .producer).map fun ring => { p with ring := ring }
  | .pop =>
      if p.inHand = none then
        (SpscRing.step moved p.ring .pop).map fun ring => { p with ring := ring }
      else none
  | .consumer =>
      (SpscRing.step moved p.ring .consumer).map fun ring =>
        match p.ring.consumer with
        | .taken _ out => { p with ring := ring, inHand := some out }
        | _ => { p with ring := ring }
  | .consume =>
      p.inHand.map fun x =>
        { p with inHand := none, market := p.market.consume x.event, applied := p.applied ++ [x] }

/-! ### What a step can do -/

/-- The steps of the pipeline, each with the state it leads to. -/
inductive Moves (moved : Handed → Handed) (p : Pipeline) : Action → Pipeline → Prop
  /-- Nothing is handed on, and the levels stay. -/
  | quiet {a : Feed.Action} {f : Feed} : p.feed.step a = some f →
      f.sub.book.levels = p.feed.sub.book.levels → f.sub.book.lastL2 = p.feed.sub.book.lastL2 →
      f.base = p.feed.base → Moves moved p (.feed a) { p with feed := f }
  /-- The next delta. -/
  | delta {i n : ℕ} {f : Feed} {d : L2DeltaPayload} {ring : SpscRing.State Handed} :
      p.feed.step (.receive i) = some f → d.Sent → n = p.feed.sub.book.lastL2 + 1 →
      f.sub.book = p.feed.sub.book.applyL2Delta d n → f.base = p.feed.base →
      SpscRing.step moved p.ring (.push .rvalue ⟨p.epoch, .l2Delta n d⟩) = some ring →
      Moves moved p (.feed (.receive i)) { p with feed := f, ring := ring }
  | top {i n : ℕ} {f : Feed} {q : L1Payload} {ring : SpscRing.State Handed} :
      p.feed.step (.receive i) = some f →
      f.sub.book.levels = p.feed.sub.book.levels → f.sub.book.lastL2 = p.feed.sub.book.lastL2 →
      f.base = p.feed.base →
      SpscRing.step moved p.ring (.push .rvalue ⟨p.epoch, .l1 n q⟩) = some ring →
      Moves moved p (.feed (.receive i)) { p with feed := f, ring := ring }
  | snapshot {f : Feed} : p.feed.step .store = some f → p.ring.producer = .idle →
      f.sub.book.lastL2 = f.base →
      Moves moved p (.feed .store)
        { p with feed := f, epoch := p.epoch + 1, snap := f.sub.book.levels }
  | producer {ring : SpscRing.State Handed} : SpscRing.step moved p.ring .producer = some ring →
      Moves moved p .producer { p with ring := ring }
  | pop {ring : SpscRing.State Handed} : p.inHand = none →
      SpscRing.step moved p.ring .pop = some ring → Moves moved p .pop { p with ring := ring }
  | look {ring : SpscRing.State Handed} : (∀ t out, p.ring.consumer ≠ .taken t out) →
      SpscRing.step moved p.ring .consumer = some ring →
      Moves moved p .consumer { p with ring := ring }
  | popped {t : UInt64} {out : Handed} {ring : SpscRing.State Handed} :
      p.ring.consumer = .taken t out → SpscRing.step moved p.ring .consumer = some ring →
      Moves moved p .consumer { p with ring := ring, inHand := some out }
  | consume {x : Handed} : p.inHand = some x →
      Moves moved p .consume
        { p with inHand := none, market := p.market.consume x.event, applied := p.applied ++ [x] }

section steps
variable {moved : Handed → Handed} {p p' : Pipeline}

theorem moves_of_stepFeed {a : Feed.Action} (h : p.feed.Ok) (hs : p.stepFeed moved a = some p') :
    Moves moved p (.feed a) p' := by
  unfold stepFeed at hs
  by_cases hidle : bySubscriber a ∧ p.ring.producer ≠ .idle
  · rw [if_pos hidle] at hs
    cases hs
  rw [if_neg hidle] at hs
  obtain ⟨f, hf, hs⟩ := Option.bind_eq_some_iff.mp hs
  cases Feed.moves_of_step h hf with
  | sim a =>
      obtain rfl := Option.some_inj.mp hs
      exact .quiet hf rfl rfl rfl
  | @stale i n d hphase hev hle =>
      have hnone : handedBy p.feed (.receive i) = none := by
        simp [handedBy, hev, Subscriber.receive, hle]
      rw [hnone] at hs
      obtain rfl := Option.some_inj.mp hs
      exact .quiet hf rfl rfl rfl
  | @gap i n d hphase hev hlt =>
      have hnone : handedBy p.feed (.receive i) = none := by
        have h1 : ¬ n ≤ p.feed.sub.book.lastL2 := by omega
        have h2 : n ≠ p.feed.sub.book.lastL2 + 1 := by omega
        simp [handedBy, hev, Subscriber.receive, h1, h2]
      rw [hnone] at hs
      obtain rfl := Option.some_inj.mp hs
      exact .quiet hf rfl rfl rfl
  | @next i n d hphase hev hn =>
      have hsome : handedBy p.feed (.receive i) = some (.l2Delta n d) := by
        have h1 : ¬ n ≤ p.feed.sub.book.lastL2 := by omega
        simp [handedBy, hev, Subscriber.receive, h1, ← hn]
      rw [hsome] at hs
      obtain ⟨ring, hring, rfl⟩ := Option.map_eq_some_iff.mp hs
      exact .delta hf (h.sim.deltas _ d (List.mem_of_getElem? hev)).1 hn rfl rfl hring
  | @top i n q hphase hev =>
      have hsome : handedBy p.feed (.receive i) = some (.l1 n q) := by
        simp [handedBy, hev, Subscriber.receive]
      rw [hsome] at hs
      obtain ⟨ring, hring, rfl⟩ := Option.map_eq_some_iff.mp hs
      exact .top hf (LocalBook.levels_applyL1 q n) (LocalBook.lastL2_applyL1 q n) rfl hring
  | serve =>
      obtain rfl := Option.some_inj.mp hs
      exact .quiet hf rfl rfl rfl
  | @storeL2 r n depth rows hphase =>
      have hstore : storesL2 p.feed .store = true := by simp [storesL2, hphase]
      unfold track at hs
      rw [if_pos hstore] at hs
      obtain rfl := Option.some_inj.mp hs
      refine .snapshot hf ?_ rfl
      by_contra hne
      exact hidle ⟨rfl, hne⟩
  | @storeL1 r n q hphase =>
      have hstore : ¬ storesL2 p.feed .store = true := by simp [storesL2, hphase]
      unfold track at hs
      rw [if_neg hstore] at hs
      obtain rfl := Option.some_inj.mp hs
      exact .quiet hf (LocalBook.levels_applyL1 q n) (LocalBook.lastL2_applyL1 q n) rfl
  | giveUp =>
      obtain rfl := Option.some_inj.mp hs
      exact .quiet hf rfl rfl rfl

theorem moves_of_step {a : Action} (h : p.feed.Ok) (hs : p.step moved a = some p') :
    Moves moved p a p' := by
  cases a with
  | feed a => exact moves_of_stepFeed h hs
  | producer =>
      obtain ⟨ring, hring, rfl⟩ := Option.map_eq_some_iff.mp hs
      exact .producer hring
  | pop =>
      unfold step at hs
      dsimp only at hs
      split_ifs at hs with hfree
      obtain ⟨ring, hring, rfl⟩ := Option.map_eq_some_iff.mp hs
      exact .pop hfree hring
  | consumer =>
      obtain ⟨ring, hring, rfl⟩ := Option.map_eq_some_iff.mp hs
      split
      · rename_i hc
        exact .popped hc hring
      · rename_i hc
        exact .look hc hring
  | consume =>
      obtain ⟨x, hx, rfl⟩ := Option.map_eq_some_iff.mp hs
      exact .consume hx

end steps

/-! ### What has been handed over -/

/-- The events handed to the ring: the completed pushes and the one under way. -/
def handed (p : Pipeline) : List Handed := p.ring.offered ++ p.ring.producer.inFlight

/-- Those from before the latest snapshot. -/
def earlier (p : Pipeline) : List Handed := p.handed.filter fun x => x.epoch < p.epoch

/-- Those from after it. -/
def since (p : Pipeline) : List Handed := p.handed.filter fun x => x.epoch = p.epoch

/-- What events say about the levels. -/
def changes (l : List Handed) : List (Change LevelKey (ℕ × ℕ)) := l.filterMap fun x => x.event.change?

/-- The sequence number of a delta of epoch `e`. -/
def seqno? (e : ℕ) (x : Handed) : Option ℕ := if x.epoch = e then x.event.deltaSeqno? else none

def seqnosIn (e : ℕ) (l : List Handed) : List ℕ := l.filterMap (seqno? e)

theorem changes_append (l l' : List Handed) : changes (l ++ l') = changes l ++ changes l' :=
  List.filterMap_append

theorem changes_singleton (x : Handed) : changes [x] = x.event.change?.toList := by
  obtain ⟨e, ev⟩ := x
  cases ev <;> rfl

theorem seqnosIn_append (e : ℕ) (l l' : List Handed) :
    seqnosIn e (l ++ l') = seqnosIn e l ++ seqnosIn e l' := List.filterMap_append

theorem seqnosIn_eq_nil {e : ℕ} {l : List Handed} (h : ∀ x ∈ l, x.epoch ≠ e) : seqnosIn e l = [] :=
  List.filterMap_eq_nil_iff.mpr fun x hx => if_neg (h x hx)

/-- What the record of the events says about the subscriber. -/
structure History (p : Pipeline) : Prop where
  epochs : ∀ x ∈ p.handed, x.epoch ≤ p.epoch
  sent : ∀ x ∈ p.handed, ∀ n d, x.event = .l2Delta n d → d.Sent
  split : p.handed = p.earlier ++ p.since
  levels : p.feed.sub.book.table = replay (changes p.since) p.snap.find?
  /-- `last_l2` advances by one with each delta. -/
  seqnos : seqnosIn p.epoch p.handed =
    List.range' (p.feed.base + 1) (p.feed.sub.book.lastL2 - p.feed.base)
  consecutive : ∀ e, ∃ b len, seqnosIn e p.handed = List.range' b len

section history
variable {p p' : Pipeline}

/-- A step that hands nothing over and leaves the levels. -/
theorem History.frame (h : p.History) (hhanded : p'.handed = p.handed) (hepoch : p'.epoch = p.epoch)
    (hsnap : p'.snap = p.snap) (hlevels : p'.feed.sub.book.levels = p.feed.sub.book.levels)
    (hlast : p'.feed.sub.book.lastL2 = p.feed.sub.book.lastL2)
    (hbase : p'.feed.base = p.feed.base) : p'.History := by
  have hearlier : p'.earlier = p.earlier := by rw [earlier, hhanded, hepoch, earlier]
  have hsince : p'.since = p.since := by rw [since, hhanded, hepoch, since]
  refine ⟨?_, ?_, ?_, ?_, ?_, ?_⟩
  · rw [hhanded, hepoch]
    exact h.epochs
  · rw [hhanded]
    exact h.sent
  · rw [hhanded, hearlier, hsince]
    exact h.split
  · rw [LocalBook.table, hlevels, hsince, hsnap]
    exact h.levels
  · rw [hhanded, hepoch, hlast, hbase]
    exact h.seqnos
  · rw [hhanded]
    exact h.consecutive

/-- An event handed over now. -/
theorem History.hand (h : p.History) {ev : MDEvent}
    (hsent : ∀ n d, ev = .l2Delta n d → d.Sent)
    (hhanded : p'.handed = p.handed ++ [⟨p.epoch, ev⟩]) (hepoch : p'.epoch = p.epoch)
    (hsnap : p'.snap = p.snap)
    (hlevels : p'.feed.sub.book.table = replay ev.change?.toList p.feed.sub.book.table)
    (hseqnos : List.range' (p'.feed.base + 1) (p'.feed.sub.book.lastL2 - p'.feed.base) =
      List.range' (p.feed.base + 1) (p.feed.sub.book.lastL2 - p.feed.base) ++
        ev.deltaSeqno?.toList) : p'.History := by
  have hearlier : p'.earlier = p.earlier := by
    rw [earlier, hhanded, hepoch, List.filter_append, earlier]
    simp
  have hsince : p'.since = p.since ++ [⟨p.epoch, ev⟩] := by
    rw [since, hhanded, hepoch, List.filter_append, since]
    simp
  have hnow : seqnosIn p.epoch p'.handed =
      List.range' (p'.feed.base + 1) (p'.feed.sub.book.lastL2 - p'.feed.base) := by
    rw [hhanded, seqnosIn_append, h.seqnos, hseqnos]
    cases ev <;> simp [seqnosIn, seqno?, MDEvent.deltaSeqno?]
  refine ⟨?_, ?_, ?_, ?_, ?_, ?_⟩
  · intro x hx
    rw [hhanded] at hx
    rw [hepoch]
    rcases List.mem_append.mp hx with hx | hx
    · exact h.epochs x hx
    · rw [List.mem_singleton.mp hx]
  · intro x hx n d hev
    rw [hhanded] at hx
    rcases List.mem_append.mp hx with hx | hx
    · exact h.sent x hx n d hev
    · rw [List.mem_singleton.mp hx] at hev
      exact hsent n d hev
  · rw [hhanded, hearlier, hsince, h.split, List.append_assoc]
  · rw [hlevels, hsince, hsnap, changes_append, changes_singleton, replay_append, h.levels]
  · rw [hepoch, hnow]
  · intro e
    by_cases he : e = p.epoch
    · exact ⟨_, _, he ▸ hnow⟩
    · have hnil : seqnosIn e [⟨p.epoch, ev⟩] = [] :=
        seqnosIn_eq_nil fun x hx => by
          rw [List.mem_singleton.mp hx]
          exact Ne.symm he
      rw [hhanded, seqnosIn_append, hnil, List.append_nil]
      exact h.consecutive e

/-- An L2 snapshot. -/
theorem History.snapshot (h : p.History) {f : Feed} (hlast : f.sub.book.lastL2 = f.base) :
    History { p with feed := f, epoch := p.epoch + 1, snap := f.sub.book.levels } := by
  have hsince : (p.handed.filter fun x => x.epoch = p.epoch + 1) = [] := by
    refine List.filter_eq_nil_iff.mpr fun x hx hc => ?_
    have hle := h.epochs x hx
    have := of_decide_eq_true hc
    omega
  refine ⟨?_, h.sent, ?_, ?_, ?_, h.consecutive⟩
  · intro x hx
    exact (h.epochs x hx).trans (Nat.le_succ p.epoch)
  · show p.handed = (p.handed.filter fun x => x.epoch < p.epoch + 1) ++
      p.handed.filter fun x => x.epoch = p.epoch + 1
    rw [hsince, List.append_nil]
    refine (List.filter_eq_self.mpr fun x hx => ?_).symm
    exact decide_eq_true (Nat.lt_succ_of_le (h.epochs x hx))
  · show f.sub.book.table = replay (changes (p.handed.filter fun x => x.epoch = p.epoch + 1)) _
    rw [hsince]
    rfl
  · show seqnosIn (p.epoch + 1) p.handed = List.range' (f.base + 1) (f.sub.book.lastL2 - f.base)
    rw [hlast, Nat.sub_self]
    refine seqnosIn_eq_nil fun x hx he => ?_
    have hle := h.epochs x hx
    omega

end history

/-! ### The invariant -/

/-- What holds in every reachable state, with a ring of `cap` slots. -/
structure Ok (cap : ℕ) (p : Pipeline) : Prop where
  feed : p.feed.Ok
  history : p.History
  ring : p.ring.Ok cap
  legal : BoundedQueue.Legal cap p.ring.log p.ring.unread
  returned : p.ring.returned = p.applied ++ p.inHand.toList
  busy : p.inHand = none ∨ p.ring.consumer = .idle
  market : p.market.book.table = replay (changes p.applied) fun _ => none

section invariant
variable {cap : ℕ} {moved : Handed → Handed} {p p' : Pipeline} {a : Action}

/-- What the consumer has in hand was handed over. -/
theorem Ok.mem_handed (h : p.Ok cap) {x : Handed} (hx : p.inHand = some x) : x ∈ p.handed := by
  have hreturned : x ∈ p.ring.returned := by
    rw [h.returned, hx]
    exact List.mem_append_right _ (List.mem_singleton_self x)
  have haccepted : x ∈ p.ring.accepted := by
    rw [show p.ring.accepted = p.ring.returned ++ p.ring.unread from h.legal.fifo]
    exact List.mem_append_left _ hreturned
  exact List.mem_append_left _ ((BoundedQueue.accepted_sublist_offered _).subset haccepted)

/-- A step of the ring alone. -/
theorem Ok.ringStep {b : SpscRing.Action Handed} {ring : SpscRing.State Handed} (h : p.Ok cap)
    (hs : SpscRing.step moved p.ring b = some ring) (hoffers : b.offers = [])
    (hpopped : ∀ t out, b = .consumer → p.ring.consumer ≠ .taken t out)
    (hbusy : p.inHand = none ∨ ring.consumer = .idle) : Ok cap { p with ring := ring } where
  feed := h.feed
  history := by
    refine h.history.frame ?_ rfl rfl rfl rfl rfl
    show ring.offered ++ ring.producer.inFlight = p.handed
    rw [(SpscRing.log_step hs).2, hoffers, List.append_nil]
    rfl
  ring := (SpscRing.refines_step h.ring hs).1
  legal := SpscRing.legal_step h.ring h.legal hs
  returned := by
    rw [SpscRing.returned_step hs, SpscRing.returned_completed hpopped, List.append_nil]
    exact h.returned
  busy := hbusy
  market := h.market

/-- The subscriber hands an event over. -/
theorem Ok.push {f : Feed} {ev : MDEvent} {ring : SpscRing.State Handed} (h : p.Ok cap)
    (hf : f.Ok) (hs : SpscRing.step moved p.ring (.push .rvalue ⟨p.epoch, ev⟩) = some ring)
    (hhistory : ring.offered ++ ring.producer.inFlight = p.handed ++ [⟨p.epoch, ev⟩] →
      History { p with feed := f, ring := ring }) : Ok cap { p with feed := f, ring := ring } where
  feed := hf
  history := hhistory (SpscRing.log_step hs).2
  ring := (SpscRing.refines_step h.ring hs).1
  legal := SpscRing.legal_step h.ring h.legal hs
  returned := by
    have hnil := SpscRing.returned_completed (s := p.ring) (a := .push .rvalue ⟨p.epoch, ev⟩)
      fun t out ha => by cases ha
    rw [SpscRing.returned_step hs, hnil, List.append_nil]
    exact h.returned
  busy := by
    rw [SpscRing.consumer_step_push hs]
    exact h.busy
  market := h.market

theorem Ok.step (h : p.Ok cap) (hs : p.step moved a = some p') : p'.Ok cap := by
  cases moves_of_step h.feed hs with
  | quiet hf hlevels hlast hbase =>
      exact { h with
        feed := h.feed.step hf
        history := h.history.frame rfl rfl rfl hlevels hlast hbase }
  | @delta i n f d ring hf hsent hn hbook hbase hring =>
      refine h.push (h.feed.step hf) hring fun hhanded => ?_
      have hle := h.feed.base
      refine h.history.hand (fun n' d' he => (MDEvent.l2Delta.inj he).2 ▸ hsent) hhanded rfl rfl ?_ ?_
      · show f.sub.book.table = _
        rw [hbook, LocalBook.table_applyL2Delta]
        rfl
      · show List.range' (f.base + 1) (f.sub.book.lastL2 - f.base) = _ ++ [n]
        have hlast : f.sub.book.lastL2 = n := by rw [hbook]; rfl
        rw [hlast, hbase, hn, show p.feed.sub.book.lastL2 + 1 - p.feed.base =
          p.feed.sub.book.lastL2 - p.feed.base + 1 by omega, List.range'_concat]
        congr 2
        omega
  | @top i n f q ring hf hlevels hlast hbase hring =>
      refine h.push (h.feed.step hf) hring fun hhanded => ?_
      refine h.history.hand (fun n' d' he => by cases he) hhanded rfl rfl ?_ ?_
      · show f.sub.book.levels.find? = _
        rw [hlevels]
        rfl
      · show List.range' (f.base + 1) (f.sub.book.lastL2 - f.base) = _ ++ []
        rw [hlast, hbase, List.append_nil]
  | snapshot hf hidle hlast =>
      exact { h with feed := h.feed.step hf, history := h.history.snapshot hlast }
  | producer hring =>
      refine h.ringStep hring rfl (fun t out ha => by cases ha) ?_
      rw [SpscRing.consumer_step_producer hring]
      exact h.busy
  | pop hfree hring => exact h.ringStep hring rfl (fun t out ha => by cases ha) (.inl hfree)
  | look hc hring =>
      refine h.ringStep hring rfl (fun t out _ => hc t out) (.inl ?_)
      rcases h.busy with hfree | hidle
      · exact hfree
      · simp [SpscRing.step, SpscRing.stepConsumer, hidle] at hring
  | @popped t out ring hc hring =>
      have hfree : p.inHand = none := by
        rcases h.busy with hfree | hidle
        · exact hfree
        · rw [hidle] at hc
          cases hc
      have hidle : ring.consumer = .idle := by
        simp only [SpscRing.step, SpscRing.stepConsumer, hc, Option.some_inj] at hring
        rw [← hring]
      refine ⟨h.feed, ?_, (SpscRing.refines_step h.ring hring).1,
        SpscRing.legal_step h.ring h.legal hring, ?_, .inr hidle, h.market⟩
      · refine h.history.frame ?_ rfl rfl rfl rfl rfl
        show ring.offered ++ ring.producer.inFlight = p.handed
        rw [(SpscRing.log_step hring).2]
        exact List.append_nil _
      · have hout : BoundedQueue.returned (SpscRing.completed p.ring .consumer) = [out] := by
          simp [SpscRing.completed, hc, BoundedQueue.returned]
        rw [SpscRing.returned_step hring, h.returned, hfree, hout]
        exact List.append_nil _ ▸ rfl
  | @consume x hx =>
      refine ⟨h.feed, h.history.frame rfl rfl rfl rfl rfl rfl, h.ring, h.legal, ?_, .inl rfl, ?_⟩
      · rw [h.returned, hx]
        exact (List.append_nil _).symm
      · show (p.market.consume x.event).book.table = replay (changes (p.applied ++ [x])) _
        have hsent := h.history.sent x (h.mem_handed hx)
        rw [p.market.table_consume_sent hsent, changes_append, changes_singleton, replay_append,
          h.market]

end invariant

end Pipeline
end Trading
