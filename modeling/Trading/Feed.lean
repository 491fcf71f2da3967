import Trading.SnapCodec

/-! # Simulator, channel and subscriber

The composed system.  The channel holds every message the simulator has published and delivers any
of them at any time (`receive`), so it may lose, repeat, delay and reorder them.  Messages that
`drain_sub` throws away are lost to it.

* A snapshot request travels as text.  The service decodes it and answers what it has decoded, from
  its book of the moment (`serve`); that is the request as it was made if the symbol has no space
  (`decode_encode`).  A request that cannot be decoded ends the simulator.
* The subscriber stores the reply at some later time (`store`) or the exchange fails (`giveUp`).  If
  it fails because a receive has timed out, the reply is still to come (`late`): the REQ socket then
  refuses the next request, which throws and ends the subscriber's thread, so that the message that
  causes it is no step here.

`base` and `heard` record, for the statements only, the sequence number of the latest L2 snapshot
stored and those of the deltas received since; `heardL1` the tops of book received, as messages or
snapshots.

`Moves` says once what a step can do.  `replica_run` is the main result: whatever the channel does,
the levels that the subscriber holds are those of the simulator's book at `last_l2`. -/

namespace Trading

open Replication (Within)
open Transition (run run_invariant run_preserves States Along)

structure Feed where
  sim : Sim
  sub : Subscriber
  /-- A receive of `get_snapshot` has timed out. -/
  late : Bool
  base : ℕ
  heard : List ℕ
  heardL1 : List (ℕ × L1Payload)
deriving DecidableEq

namespace Feed

inductive Action where
  | sim (a : Sim.Action)
  | receive (i : ℕ)
  | serve
  | store
  | giveUp (timedOut : Bool)
deriving DecidableEq

def start (tickSize mid : PriceTicks) (symbol : String) (depth : ℕ) : Feed :=
  ⟨Sim.start tickSize mid, Subscriber.start symbol depth, false, 0, [], []⟩

/-- The records after a message. -/
def hear (f : Feed) : MDEvent → Feed
  | .l2Delta seqno _ => { f with heard := f.heard ++ [seqno] }
  | .l1 seqno p => { f with heardL1 := f.heardL1 ++ [(seqno, p)] }

/-- The records after a snapshot. -/
def note (f : Feed) : SnapReply → Feed
  | .l2 seqno _ _ => { f with base := seqno, heard := [] }
  | .l1 seqno p => { f with heardL1 := f.heardL1 ++ [(seqno, p)] }

def step (f : Feed) : Action → Option Feed
  | .sim a => some { f with sim := f.sim.step a }
  | .receive i =>
      match f.sub.phase, f.sim.sent[i]? with
      | .running, some ev =>
          let sub := (f.sub.receive ev).1
          if f.late ∧ sub.phase ≠ .running then none else some ({ f with sub := sub }.hear ev)
      | _, _ => none
  | .serve =>
      match f.sub.phase with
      | .waiting r none =>
          (decodeSnapReq (encodeSnapReq r)).map fun r' =>
            { f with sub := { f.sub with phase := .waiting r (some (f.sim.book.reply r')) } }
      | _ => none
  | .store =>
      match f.sub.phase with
      | .waiting r (some reply) =>
          (f.sub.store r reply).map fun sub => { f with sub := sub }.note reply
      | _ => none
  | .giveUp timedOut =>
      match f.sub.phase with
      | .waiting .. => f.sub.giveUp.map fun sub => { f with sub := sub, late := f.late || timedOut }
      | .running => none

/-! ### What a step can do -/

/-- The steps of the system, each with the state it leads to. -/
inductive Moves (f : Feed) : Action → Feed → Prop
  | sim (a : Sim.Action) : Moves f (.sim a) { f with sim := f.sim.step a }
  | stale {i : ℕ} {n : ℕ} {d : L2DeltaPayload} :
      f.sub.phase = .running → f.sim.sent[i]? = some (.l2Delta n d) → n ≤ f.sub.book.lastL2 →
      Moves f (.receive i) { f with heard := f.heard ++ [n] }
  | gap {i : ℕ} {n : ℕ} {d : L2DeltaPayload} :
      f.sub.phase = .running → f.sim.sent[i]? = some (.l2Delta n d) →
      f.sub.book.lastL2 + 1 < n → f.late = false →
      Moves f (.receive i) { f with sub := f.sub.askL2, heard := f.heard ++ [n] }
  | next {i : ℕ} {n : ℕ} {d : L2DeltaPayload} :
      f.sub.phase = .running → f.sim.sent[i]? = some (.l2Delta n d) →
      n = f.sub.book.lastL2 + 1 →
      Moves f (.receive i)
        { f with
          sub := { f.sub with book := f.sub.book.applyL2Delta d n }, heard := f.heard ++ [n] }
  | top {i : ℕ} {n : ℕ} {p : L1Payload} :
      f.sub.phase = .running → f.sim.sent[i]? = some (.l1 n p) →
      Moves f (.receive i)
        { f with
          sub := { f.sub with book := f.sub.book.applyL1 p n }, heardL1 := f.heardL1 ++ [(n, p)] }
  | serve {r r' : SnapRequest} : f.sub.phase = .waiting r none →
      decodeSnapReq (encodeSnapReq r) = some r' →
      Moves f .serve
        { f with sub := { f.sub with phase := .waiting r (some (f.sim.book.reply r')) } }
  | storeL2 {r : SnapRequest} {n : ℕ} {depth : ℕ} {rows : List LevelSummary} :
      f.sub.phase = .waiting r (some (.l2 n depth rows)) →
      Moves f .store
        { f with
          sub := { f.sub with book := f.sub.book.storeL2 n rows }.askL1, base := n, heard := [] }
  | storeL1 {r : SnapRequest} {n : ℕ} {p : L1Payload} :
      f.sub.phase = .waiting r (some (.l1 n p)) →
      Moves f .store
        { f with
          sub := { f.sub with book := f.sub.book.applyL1 p n, phase := .running, up := true }
          heardL1 := f.heardL1 ++ [(n, p)] }
  | giveUp {r : SnapRequest} {reply : Option SnapReply} {timedOut : Bool} :
      f.sub.phase = .waiting r reply → f.sub.up = true →
      Moves f (.giveUp timedOut)
        { f with sub := { f.sub with phase := .running }, late := f.late || timedOut }

/-- What holds in every reachable state. -/
structure Ok (f : Feed) : Prop where
  sim : f.sim.Ok
  base : f.base ≤ f.sub.book.lastL2
  /-- The levels held are those of the simulator's book at `last_l2`. -/
  levels : ∃ b : Book, f.sim.past[f.sub.book.lastL2]? = some b ∧
    Within f.sub.book.table b.table
  /-- The top of book is the simulator's at `last_l1`. -/
  top : ∃ b : Book, f.sim.past[f.sub.book.lastL1]? = some b ∧ f.sub.book.tob = b.tob
  stream : ∀ r reply, f.sub.phase = .waiting r reply → r.stream = "L2" ∨ r.stream = "L1"
  /-- A reply under way describes a book not older than what the subscriber has. -/
  reply : ∀ r reply, f.sub.phase = .waiting r (some reply) → ∃ (b : Book) (r' : SnapRequest),
    f.sim.past[b.seqno]? = some b ∧ f.sub.book.lastL2 ≤ b.seqno ∧
      decodeSnapReq (encodeSnapReq r) = some r' ∧ reply = b.reply r'

section steps
variable {f f' : Feed} {a : Action}

theorem Ok.stream_noSpace {r : SnapRequest} {reply : Option SnapReply} (h : f.Ok)
    (hphase : f.sub.phase = .waiting r reply) : ' ' ∉ r.stream.toList := by
  rcases h.stream r reply hphase with hstream | hstream <;> rw [hstream] <;> decide

/-- The service reads the stream of a request as it was written. -/
theorem Ok.stream_eq {r r' : SnapRequest} {reply : Option SnapReply} (h : f.Ok)
    (hphase : f.sub.phase = .waiting r reply)
    (hdecode : decodeSnapReq (encodeSnapReq r) = some r') : r'.stream = r.stream :=
  stream_decode_encode (h.stream_noSpace hphase) hdecode

/-- Levels come in reply to a request for levels. -/
theorem Ok.stream_l2 {r : SnapRequest} {n depth : ℕ} {rows : List LevelSummary} (h : f.Ok)
    (hphase : f.sub.phase = .waiting r (some (.l2 n depth rows))) : r.stream = "L2" := by
  obtain ⟨b, r', -, -, hdecode, hreply⟩ := h.reply r _ hphase
  refine (h.stream r _ hphase).resolve_right fun hstream => ?_
  rw [← h.stream_eq hphase hdecode] at hstream
  simp [Book.reply, hstream] at hreply

/-- The top of book comes in reply to a request for it. -/
theorem Ok.stream_l1 {r : SnapRequest} {n : ℕ} {p : L1Payload} (h : f.Ok)
    (hphase : f.sub.phase = .waiting r (some (.l1 n p))) : r.stream = "L1" := by
  obtain ⟨b, r', -, -, hdecode, hreply⟩ := h.reply r _ hphase
  rw [← h.stream_eq hphase hdecode]
  by_contra hstream
  simp [Book.reply, hstream] at hreply

theorem moves_of_step (h : f.Ok) (hs : f.step a = some f') : Moves f a f' := by
  unfold step at hs
  cases a with
  | sim a =>
      obtain rfl := Option.some_inj.mp hs
      exact .sim a
  | receive i =>
      dsimp only at hs
      split at hs
      · rename_i ev hphase hev
        split_ifs at hs with hlate
        obtain rfl := Option.some_inj.mp hs
        cases ev with
        | l1 n p => exact .top hphase hev
        | l2Delta n d =>
            show Moves f _ { f with sub := (f.sub.receive (.l2Delta n d)).1, heard := _ }
            unfold Subscriber.receive at hlate ⊢
            dsimp only at hlate ⊢
            split_ifs at hlate ⊢ with hstale hgap
            · exact .stale hphase hev hstale
            · refine .gap hphase hev (by omega) (Bool.eq_false_iff.mpr fun htrue => ?_)
              exact hlate ⟨htrue, by simp [Subscriber.askL2]⟩
            · exact .next hphase hev (by omega)
      · cases hs
  | serve =>
      dsimp only at hs
      split at hs
      · rename_i r hphase
        obtain ⟨r', hdecode, rfl⟩ := Option.map_eq_some_iff.mp hs
        exact .serve hphase hdecode
      · cases hs
  | store =>
      dsimp only at hs
      split at hs
      · rename_i r reply hphase
        obtain ⟨sub, hsub, rfl⟩ := Option.map_eq_some_iff.mp hs
        unfold Subscriber.store at hsub
        cases reply with
        | l1 n p =>
            have hstream := h.stream_l1 hphase
            dsimp only at hsub
            rw [if_neg (by rw [hstream]; decide)] at hsub
            obtain rfl := Option.some_inj.mp hsub
            exact .storeL1 hphase
        | l2 n depth rows =>
            dsimp only at hsub
            split_ifs at hsub
            obtain rfl := Option.some_inj.mp hsub
            exact .storeL2 hphase
      · cases hs
  | giveUp =>
      dsimp only at hs
      split at hs
      · rename_i r reply hphase
        obtain ⟨sub, hsub, rfl⟩ := Option.map_eq_some_iff.mp hs
        unfold Subscriber.giveUp at hsub
        split_ifs at hsub with hup
        obtain rfl := Option.some_inj.mp hsub
        exact .giveUp hphase hup
      · cases hs

theorem Ok.reply_l2 {r : SnapRequest} {n depth : ℕ} {rows : List LevelSummary} (h : f.Ok)
    (hphase : f.sub.phase = .waiting r (some (.l2 n depth rows))) :
    ∃ b : Book, f.sim.past[n]? = some b ∧ f.sub.book.lastL2 ≤ n ∧
      rows = b.topLevels depth := by
  obtain ⟨b, r', hb, hle, -, hreply⟩ := h.reply r _ hphase
  unfold Book.reply at hreply
  dsimp only at hreply
  split_ifs at hreply
  obtain ⟨rfl, rfl, rfl⟩ := SnapReply.l2.inj hreply
  exact ⟨b, hb, hle, rfl⟩

theorem Ok.reply_l1 {r : SnapRequest} {n : ℕ} {p : L1Payload} (h : f.Ok)
    (hphase : f.sub.phase = .waiting r (some (.l1 n p))) :
    ∃ b : Book, f.sim.past[n]? = some b ∧ p = b.tob.toPayload := by
  obtain ⟨b, r', hb, -, -, hreply⟩ := h.reply r _ hphase
  unfold Book.reply at hreply
  dsimp only at hreply
  split_ifs at hreply
  obtain ⟨rfl, rfl⟩ := SnapReply.l1.inj hreply
  exact ⟨b, hb, rfl⟩

/-- The sequence number of what the subscriber has is not ahead of the simulator's. -/
theorem Ok.lastL2_le (h : f.Ok) : f.sub.book.lastL2 ≤ f.sim.book.seqno := by
  obtain ⟨b, hb, -⟩ := h.levels
  have hlt := (List.getElem?_eq_some_iff.mp hb).1
  have hlen := h.sim.length
  omega

/-- A snapshot at any depth holds levels of the book it is taken from. -/
theorem within_storeL2 (lb : LocalBook) (n : ℕ) (b : Book) (depth : ℕ) :
    Within (lb.storeL2 n (b.topLevels depth)).table b.table := by
  intro k v hk
  obtain ⟨r, hr, -, rfl, rfl⟩ := LocalBook.mem_of_storeL2 hk
  obtain ⟨s, e, he, rfl⟩ := Book.mem_topLevels_iff.mp hr
  have hl := (b.mem_levels_iff s e.1).mp (List.mem_of_mem_take he)
  show b.table (s.toByte, e.1) = some e.2.pair
  rw [Book.table_toByte, hl]
  rfl

/-- The tops of book, and the levels with them, after an L1 message or snapshot of the simulator's
book `b`. -/
theorem Ok.applyL1 (h : f.Ok) {n : ℕ} {b : Book} (hb : f.sim.past[n]? = some b) :
    ∃ b' : Book, f.sim.past[(f.sub.book.applyL1 b.tob.toPayload n).lastL1]? = some b' ∧
      (f.sub.book.applyL1 b.tob.toPayload n).tob = b'.tob := by
  unfold LocalBook.applyL1
  split_ifs
  · exact h.top
  · exact ⟨b, hb, rfl⟩

/-- A running subscriber after an L1 message or snapshot. -/
theorem Ok.takeL1 (h : f.Ok) {n : ℕ} {b : Book} (hb : f.sim.past[n]? = some b) (sub : Subscriber)
    (hbook : sub.book = f.sub.book.applyL1 b.tob.toPayload n) (hrun : sub.phase = .running)
    (heardL1 : List (ℕ × L1Payload)) : ({ f with sub := sub, heardL1 := heardL1 } : Feed).Ok where
  sim := h.sim
  base := by
    show f.base ≤ sub.book.lastL2
    rw [hbook, LocalBook.lastL2_applyL1]
    exact h.base
  levels := by
    show ∃ b, f.sim.past[sub.book.lastL2]? = some b ∧ Within sub.book.table b.table
    rw [hbook, LocalBook.lastL2_applyL1, LocalBook.table_applyL1]
    exact h.levels
  top := by
    show ∃ b, f.sim.past[sub.book.lastL1]? = some b ∧ sub.book.tob = b.tob
    rw [hbook]
    exact h.applyL1 hb
  stream r reply hphase := by
    have hphase : sub.phase = _ := hphase
    rw [hrun] at hphase
    cases hphase
  reply r reply hphase := by
    have hphase : sub.phase = _ := hphase
    rw [hrun] at hphase
    cases hphase

theorem Ok.moves (h : f.Ok) (hm : Moves f a f') : f'.Ok := by
  cases hm with
  | sim a =>
      obtain ⟨b, hb, hw⟩ := h.levels
      obtain ⟨t, ht, htob⟩ := h.top
      refine ⟨h.sim.step a, h.base, ⟨b, Sim.getElem?_past_step hb a, hw⟩,
        ⟨t, Sim.getElem?_past_step ht a, htob⟩, h.stream, ?_⟩
      intro r reply hphase
      obtain ⟨b, r', hb, hreply⟩ := h.reply r reply hphase
      exact ⟨b, r', Sim.getElem?_past_step hb a, hreply⟩
  | stale => exact ⟨h.sim, h.base, h.levels, h.top, h.stream, h.reply⟩
  | gap =>
      refine ⟨h.sim, h.base, h.levels, h.top, ?_, fun r reply hphase => by cases hphase⟩
      intro r reply hphase
      obtain ⟨rfl, -⟩ := Phase.waiting.inj hphase
      exact .inl rfl
  | @next i n d hphase hev hn =>
      obtain ⟨-, k, b, b', hk, hb, hb', htable⟩ := h.sim.deltas n d (List.mem_of_getElem? hev)
      obtain ⟨b₀, hb₀, hw⟩ := h.levels
      obtain rfl : k = f.sub.book.lastL2 := by omega
      obtain rfl : b = b₀ := Option.some_inj.mp (hb.symm.trans hb₀)
      have hbase := h.base
      refine ⟨h.sim, ?_, ⟨b', ?_, ?_⟩, h.top, h.stream, ?_⟩
      · show f.base ≤ n
        omega
      · show f.sim.past[n]? = some b'
        rw [hk, hb']
      · show Within (f.sub.book.applyL2Delta d n).table b'.table
        rw [LocalBook.table_applyL2Delta, htable]
        exact hw.apply d.change
      · intro r reply hphase'
        change f.sub.phase = _ at hphase'
        rw [hphase] at hphase'
        cases hphase'
  | @top i n p hphase hev =>
      obtain ⟨b, hb, rfl⟩ := h.sim.tops n p (List.mem_of_getElem? hev)
      exact h.takeL1 hb { f.sub with book := f.sub.book.applyL1 b.tob.toPayload n } rfl hphase _
  | @serve r r' hphase hdecode =>
      refine ⟨h.sim, h.base, h.levels, h.top, ?_, ?_⟩
      · intro r₁ reply hphase'
        obtain ⟨rfl, -⟩ := Phase.waiting.inj hphase'
        exact h.stream r none hphase
      · intro r₁ reply hphase'
        obtain ⟨rfl, hreply⟩ := Phase.waiting.inj hphase'
        exact ⟨f.sim.book, r', h.sim.now, h.lastL2_le, hdecode, (Option.some_inj.mp hreply).symm⟩
  | @storeL2 r n depth rows hphase =>
      obtain ⟨b, hb, -, rfl⟩ := h.reply_l2 hphase
      refine ⟨h.sim, le_rfl, ⟨b, hb, within_storeL2 f.sub.book n b depth⟩, h.top, ?_,
        fun r' reply hphase' => (by cases hphase')⟩
      intro r' reply hphase'
      obtain ⟨rfl, -⟩ := Phase.waiting.inj hphase'
      exact .inr rfl
  | @storeL1 r n p hphase =>
      obtain ⟨b, hb, rfl⟩ := h.reply_l1 hphase
      exact h.takeL1 hb _ rfl rfl _
  | giveUp =>
      exact ⟨h.sim, h.base, h.levels, h.top, fun r reply hphase => (by cases hphase),
        fun r reply hphase => (by cases hphase)⟩

theorem Ok.step (h : f.Ok) (hs : f.step a = some f') : f'.Ok := h.moves (moves_of_step h hs)

/-- A snapshot does not take the subscriber back. -/
theorem Ok.lastL2_mono (h : f.Ok) (hs : f.step a = some f') :
    f.sub.book.lastL2 ≤ f'.sub.book.lastL2 := by
  cases moves_of_step h hs with
  | sim | stale | gap | serve | giveUp => exact le_rfl
  | @next i n d _ _ hn =>
      show f.sub.book.lastL2 ≤ n
      omega
  | top | storeL1 => rw [LocalBook.lastL2_applyL1]
  | @storeL2 r n depth rows hphase =>
      obtain ⟨b, -, hle, -⟩ := h.reply_l2 hphase
      exact hle

end steps

/-! ### The steps that are possible -/

section possible
variable {f : Feed} {r : SnapRequest} {i n depth : ℕ} {d : L2DeltaPayload}
  {rows : List LevelSummary} {p : L1Payload}

theorem step_next (hphase : f.sub.phase = .running) (hev : f.sim.sent[i]? = some (.l2Delta n d))
    (hn : n = f.sub.book.lastL2 + 1) : f.step (.receive i) =
      some { f with
        sub := { f.sub with book := f.sub.book.applyL2Delta d n }, heard := f.heard ++ [n] } := by
  have hstale : ¬ n ≤ f.sub.book.lastL2 := by omega
  simp [step, hphase, hev, Subscriber.receive, hear, hstale, ← hn]

theorem step_storeL2 (hstream : r.stream = "L2")
    (hphase : f.sub.phase = .waiting r (some (.l2 n depth rows))) : f.step .store =
      some { f with
        sub := { f.sub with book := f.sub.book.storeL2 n rows }.askL1
        base := n, heard := [] } := by
  simp [step, hphase, Subscriber.store, hstream, note]

end possible

/-! ### Runs -/

theorem ok_start (tickSize mid : PriceTicks) (symbol : String) (depth : ℕ) :
    (start tickSize mid symbol depth).Ok where
  sim := Sim.ok_start tickSize mid
  base := le_rfl
  levels := ⟨_, Sim.past_start tickSize mid, fun _ _ hk => by cases hk⟩
  top := ⟨_, Sim.past_start tickSize mid, rfl⟩
  stream r reply hphase := by
    obtain ⟨rfl, -⟩ := Phase.waiting.inj hphase
    exact .inl rfl
  reply r reply hphase := by cases hphase

section runs
variable {tickSize mid : PriceTicks} {symbol : String} {depth : ℕ}

theorem ok_run {acts : List Action} {f : Feed}
    (hrun : run step (start tickSize mid symbol depth) acts = some f) : f.Ok :=
  run_preserves (ok_start ..) (fun _ _ _ h hs => h.step hs) hrun

end runs

/-! ### The replica -/

/-- Every level that the subscriber holds is, with its quantity and order count, a level of the
simulator's book as it was at `last_l2`. -/
def Right (f : Feed) : Prop :=
  ∃ b : Book, f.sim.past[f.sub.book.lastL2]? = some b ∧ Within f.sub.book.table b.table

/-- The step makes the subscriber ask for a snapshot. -/
def Resnapshots (f : Feed) (a : Action) : Prop :=
  ∃ i ev, a = .receive i ∧ f.sub.phase = .running ∧ f.sim.sent[i]? = some ev ∧
    (f.sub.receive ev).1.phase ≠ .running

/-- A delta that is received now has no predecessor since the latest snapshot that has not been
received by now: none has been lost and none overtaken. -/
def InOrder (f : Feed) (a : Action) : Prop :=
  ∀ i n d, a = .receive i → f.sim.sent[i]? = some (.l2Delta n d) →
    ∀ k, f.base < k → k < n → k ∈ f.heard

/-- What deltas received in order keep: all of them have been applied. -/
def Caught (f : Feed) : Prop := ∀ k ∈ f.heard, k ≤ f.sub.book.lastL2

section order
variable {f f' : Feed} {a : Action}

/-- In order, the next delta is at most one ahead. -/
theorem le_succ_of_inOrder {i n : ℕ} {d : L2DeltaPayload} (h : f.Ok) (hc : f.Caught)
    (ho : f.InOrder (.receive i)) (hev : f.sim.sent[i]? = some (.l2Delta n d)) :
    n ≤ f.sub.book.lastL2 + 1 := by
  by_contra hlt
  have hbase := h.base
  have hmem := ho i n d rfl hev (n - 1) (by omega) (by omega)
  have := hc _ hmem
  omega

theorem not_resnapshots (h : f.Ok) (hc : f.Caught) (ho : f.InOrder a) : ¬ f.Resnapshots a := by
  rintro ⟨i, ev, rfl, hphase, hev, hne⟩
  cases ev with
  | l1 n p => exact hne hphase
  | l2Delta n d =>
      have hle := le_succ_of_inOrder h hc ho hev
      unfold Subscriber.receive at hne
      dsimp only at hne
      split_ifs at hne with hstale hgap
      · exact hne hphase
      · omega
      · exact hne hphase

theorem Caught.step (h : f.Ok) (hc : f.Caught) (ho : f.InOrder a) (hs : f.step a = some f') :
    f'.Caught := by
  intro k hk
  cases moves_of_step h hs with
  | sim | serve | giveUp => exact hc k hk
  | @stale i n d hphase hev hle =>
      rcases List.mem_append.mp hk with hk | hk
      · exact hc k hk
      · rw [List.mem_singleton.mp hk]
        exact hle
  | @gap i n d hphase hev hlt =>
      have := le_succ_of_inOrder h hc ho hev
      omega
  | @next i n d hphase hev hn =>
      show k ≤ n
      rcases List.mem_append.mp hk with hk | hk
      · have := hc k hk
        omega
      · exact (List.mem_singleton.mp hk).le
  | top | storeL1 =>
      rw [LocalBook.lastL2_applyL1]
      exact hc k hk
  | storeL2 => cases hk

end order

/-- **The replica is never wrong.** Whatever the channel loses, repeats, delays or reorders, and
whichever snapshots fail: every level held is right for `last_l2`, which never decreases; and from
a snapshot on, as long as no delta is lost or overtaken, there is no further one. -/
theorem replica_run (tickSize mid : PriceTicks) (symbol : String) (depth : ℕ)
    (acts : List Action) :
    States step (start tickSize mid symbol depth) (fun _ f => f.Right) acts ∧
      Along step (start tickSize mid symbol depth)
        (fun _ f a => ∀ f', f.step a = some f' → f.sub.book.lastL2 ≤ f'.sub.book.lastL2) acts ∧
      ∀ pre post f, acts = pre ++ post → run step (start tickSize mid symbol depth) pre = some f →
        f.heard = [] → Along step f (fun _ g a => g.InOrder a) post →
        Along step f (fun _ g a => ¬ g.Resnapshots a) post := by
  refine ⟨fun pre _ _ f hf => (ok_run hf).levels,
    fun pre a _ _ f hf f' hs => (ok_run hf).lastL2_mono hs, ?_⟩
  intro pre post f _ hf hheard horder before a after he g hg
  have horder' : Along step f (fun _ g a => g.InOrder a) before := by
    rw [he] at horder
    exact horder.left
  have hinv : g.Ok ∧ g.Caught :=
    run_invariant (G := fun _ g a => g.InOrder a) (P := fun _ g => g.Ok ∧ g.Caught)
      ⟨ok_run hf, fun k hk => by rw [hheard] at hk; cases hk⟩
      (fun _ _ _ _ h ho hs => ⟨h.1.step hs, h.2.step h.1 ho hs⟩) horder' hg
  exact not_resnapshots hinv.1 hinv.2 (horder before a after he g hg)

end Feed
end Trading
