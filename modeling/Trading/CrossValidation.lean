import Trading.CrossValidator
import Trading.Depth
import Trading.L2Book
import Trading.SnapCodec

/-! # Simulator, consumer and cross-validator

The composed system of the cross-validation.  The simulator edits its book and serves snapshot
requests between its steps, a reply travels frame by frame, and the cross-validator goes on with
whatever it receives.

The consumer may set its book and `last_l2_seq_applied` to anything; `Coherent` is what is asked of
it: the book is at all times the simulator's at that sequence number.

A request travels as text, and the service answers what it decodes.  For a symbol with a space that
is a request at another depth (or none, and the simulator ends); the depth that it serves comes back
with the reply.

The cross-validator waits until the consumer is at least at the sequence number of the snapshot, so
its own book may be a later one.  `mismatches_iff` says that it counts mismatches exactly when that
one has other best levels; `served_depth` that these are the best `depth` ones for a symbol without
a space. -/

namespace Trading

open Transition (run_preserves States Along along_cons along_nil states_of_step
  states_iff_along_state)

/-! ### Snapshots of like books -/

namespace OrderBook
variable {ob : OrderBook} {b : Book} {s : Side}

/-- A book with the levels of the simulator's has them in the same order. -/
theorem ladder_eq_side (h : ob.table = b.table) : ob.ladder s = b.side s := by
  have hladder := ladder_of_level (b := ob) (fun _ _ => rfl) s
  have hside : IsSide (⟨ob.ladder s, hladder.sorted⟩ : SideMap s) b.table := by
    refine isSide_of_mem fun px v => ?_
    rw [← h, hladder.mem, table, twoSided_toByte]
  exact congrArg OrdMap.entries (hside.unique (b.isSide s))

/-- The snapshot of the market book is that of the simulator's. -/
theorem snapshotL2_eq_topLevels (h : ob.table = b.table) (depth : ℕ) :
    ob.snapshotL2 depth = b.topLevels depth := by
  have hside : ∀ s, ((ob.levels s).take depth).map (row s) =
      ((b.levels s).take depth).map (Book.row s) := by
    intro s
    have hs := congrArg (fun es => (es.take depth).map (summary s)) (ladder_eq_side (s := s) h)
    simp only [ladder, Book.side, ← List.map_take, List.map_map] at hs
    exact hs
  exact congrArg₂ (· ++ ·) (hside .bid) (hside .ask)

end OrderBook

/-- The market book with the levels of the simulator's. -/
def Book.mirror (b : Book) : OrderBook :=
  { OrderBook.empty with
    bids := b.bids.mapValues fun l => ⟨l.qty, l.orderCount, []⟩
    asks := b.asks.mapValues fun l => ⟨l.qty, l.orderCount, []⟩ }

@[simp] theorem Book.table_mirror (b : Book) : b.mirror.table = b.table := by
  unfold OrderBook.table table
  congr
  funext s px
  cases s <;>
    simp [mirror, OrderBook.level?, level?, OrdMap.find?_mapValues, Option.map_map] <;> rfl

/-! ### The system -/

structure Validation where
  sim : Sim
  /-- `last_l2_seq_applied`. -/
  applied : ℕ
  ob : OrderBook
  validator : CrossValidator
  /-- A request has been sent and not been served yet. -/
  request : Bool
  /-- The frames of a reply that have not been received yet. -/
  flight : List Frame
deriving DecidableEq

namespace Validation

inductive Action where
  | sim (a : Sim.Action)
  | consume (applied : ℕ) (ob : OrderBook)
  | serve
  | send
  | recv
  | timeout
  | poll
  | snapshot
deriving DecidableEq

def start (tickSize mid : PriceTicks) (symbol : String) (depth : ℕ) : Validation :=
  ⟨Sim.start tickSize mid, 0, .empty, .start symbol depth, false, []⟩

/-- A step of the cross-validator. -/
def validate (f : Validation) (i : CrossValidator.Input) : Option Validation :=
  (f.validator.step i).map fun v => { f with validator := v }

def step (f : Validation) : Action → Option Validation
  | .sim a => some { f with sim := f.sim.step a }
  | .consume applied ob => some { f with applied := applied, ob := ob }
  | .serve =>
      if f.request then
        (decodeSnapReq (encodeSnapReq f.validator.request)).map fun r =>
          { f with request := false, flight := (f.sim.book.reply r).frames }
      else none
  | .send =>
      (f.validate .send).map fun g =>
        if g.validator.socket.refused then g else { g with request := true }
  | .recv =>
      match f.flight with
      | [] => none
      | frame :: flight =>
          (f.validate (.recv (some frame))).map fun g => { g with flight := flight }
  | .timeout => f.validate (.recv none)
  | .poll => f.validate (.poll f.applied)
  | .snapshot => f.validate (.snapshot f.ob)

/-- The consumer's book is the simulator's at `last_l2_seq_applied`. -/
def Coherent (f : Validation) : Prop :=
  ∃ b : Book, f.sim.past[f.applied]? = some b ∧ f.ob.table = b.table

/-- The best `d` levels of the one book are the best `d'` levels of the other. -/
def SameBest (d d' : ℕ) (b b' : Book) : Prop := ∀ r, r ∈ b.topLevels d ↔ r ∈ b'.topLevels d'

/-- The step is not a comparison of books with different best levels: those of the snapshot, down to
the depth that it was served at, and those of the later book, down to the lesser of that depth and
the one asked for. -/
def Matches (depth : ℕ) (f : Validation) (a : Action) : Prop :=
  ∀ snapSeq snapDepth rows b b', a = .snapshot →
    f.validator.phase = .look snapSeq snapDepth rows →
    f.sim.past[snapSeq]? = some b → f.sim.past[f.applied]? = some b' →
    SameBest snapDepth (min depth snapDepth) b b'

/-- What the service reads in a request for L2 levels. -/
def Reads (symbol : String) (depth : ℕ) (r : SnapRequest) : Prop :=
  decodeSnapReq (encodeSnapReq ⟨"L2", symbol, depth⟩) = some r

/-- What holds in every reachable state. -/
structure Ok (symbol : String) (depth : ℕ) (f : Validation) : Prop where
  sim : f.sim.Ok
  same : f.validator.symbol = symbol ∧ f.validator.depth = depth
  /-- What the socket waits for has been requested, or is in flight. -/
  pending : f.validator.socket.pending = if f.request then 3 else f.flight.length
  refused : f.validator.socket.refused = true → f.validator.phase = .receive []
  request : f.request = true → f.flight = [] ∧ (f.validator.socket.refused = false →
    ∀ got, f.validator.phase = .receive got → got = [])
  /-- The frames of a reply are those of a snapshot of a book of the past. -/
  receive : f.validator.socket.refused = false → f.request = false →
    ∀ got, f.validator.phase = .receive got → ∃ (n : ℕ) (b : Book) (r : SnapRequest),
      f.sim.past[n]? = some b ∧ Reads symbol depth r ∧ got ++ f.flight = (b.reply r).frames
  snapshot : ∀ snapSeq snapDepth rows,
    f.validator.phase = .wait snapSeq snapDepth rows ∨
      f.validator.phase = .look snapSeq snapDepth rows →
    ∃ (b : Book) (r : SnapRequest), f.sim.past[snapSeq]? = some b ∧ Reads symbol depth r ∧
      snapDepth = max 1 r.depth ∧ rows = b.topLevels (max 1 r.depth)

section steps
variable {symbol : String} {depth : ℕ} {f f' : Validation} {a : Action} {v : CrossValidator}
  {r : SnapRequest}

/-- The steps of the system, each with the state it leads to. -/
inductive Moves (f : Validation) : Action → Validation → Prop
  | sim (a : Sim.Action) : Moves f (.sim a) { f with sim := f.sim.step a }
  | consume {applied : ℕ} {ob : OrderBook} :
      Moves f (.consume applied ob) { f with applied := applied, ob := ob }
  | serve {r : SnapRequest} : f.request = true →
      decodeSnapReq (encodeSnapReq f.validator.request) = some r →
      Moves f .serve { f with request := false, flight := (f.sim.book.reply r).frames }
  | send : f.validator.phase = .head → f.validator.socket.pending = 0 → Moves f .send
      { f with
        validator := { f.validator with socket := ⟨3, false⟩, phase := .receive [] }
        request := true }
  | refused : f.validator.phase = .head → f.validator.socket.pending ≠ 0 → Moves f .send
      { f with
        validator := { f.validator with
          socket := { f.validator.socket with refused := true }, phase := .receive [] } }
  | recv {frame : Frame} {flight : List Frame} {v : CrossValidator} :
      f.flight = frame :: flight → f.validator.socket.refused = false →
      CrossValidator.Moves f.validator (.recv (some frame)) v →
      Moves f .recv { f with validator := v, flight := flight }
  | timeout {got : List Frame} : f.validator.phase = .receive got →
      f.validator.socket.refused = false →
      Moves f .timeout { f with validator := { f.validator with phase := .head } }
  | poll {v : CrossValidator} : f.validator.socket.refused = false →
      CrossValidator.Moves f.validator (.poll f.applied) v →
      Moves f .poll { f with validator := v }
  | snapshot {v : CrossValidator} : f.validator.socket.refused = false →
      CrossValidator.Moves f.validator (.snapshot f.ob) v →
      Moves f .snapshot { f with validator := v }

theorem not_refused {i : CrossValidator.Input} (hs : f.validator.step i = some v) :
    f.validator.socket.refused = false := by
  unfold CrossValidator.step at hs
  split_ifs at hs with hr
  exact Bool.eq_false_iff.mpr hr

theorem moves_of_step (hs : f.step a = some f') : Moves f a f' := by
  unfold step at hs
  cases a with
  | sim a =>
      obtain rfl := Option.some_inj.mp hs
      exact .sim a
  | consume applied ob =>
      obtain rfl := Option.some_inj.mp hs
      exact .consume
  | serve =>
      dsimp only at hs
      split_ifs at hs with hr
      obtain ⟨r, hdecode, rfl⟩ := Option.map_eq_some_iff.mp hs
      exact .serve hr hdecode
  | send =>
      obtain ⟨_, hg, rfl⟩ := Option.map_eq_some_iff.mp hs
      obtain ⟨v, hv, rfl⟩ := Option.map_eq_some_iff.mp hg
      have hr := not_refused hv
      cases CrossValidator.moves_of_step hv with
      | send hphase =>
          by_cases hp : f.validator.socket.pending = 0
          · simp only [RequestReply.ReqSocket.send_of_pending hp, hr, Bool.false_eq_true, if_false]
            exact .send hphase hp
          · simp only [RequestReply.ReqSocket.send, if_neg hp]
            exact .refused hphase hp
  | recv =>
      dsimp only at hs
      split at hs
      · cases hs
      · rename_i frame flight hflight
        obtain ⟨_, hg, rfl⟩ := Option.map_eq_some_iff.mp hs
        obtain ⟨v, hv, rfl⟩ := Option.map_eq_some_iff.mp hg
        exact .recv hflight (not_refused hv) (CrossValidator.moves_of_step hv)
  | timeout =>
      obtain ⟨v, hv, rfl⟩ := Option.map_eq_some_iff.mp hs
      cases CrossValidator.moves_of_step hv with
      | timeout hphase => exact .timeout hphase (not_refused hv)
  | poll =>
      obtain ⟨v, hv, rfl⟩ := Option.map_eq_some_iff.mp hs
      exact .poll (not_refused hv) (CrossValidator.moves_of_step hv)
  | snapshot =>
      obtain ⟨v, hv, rfl⟩ := Option.map_eq_some_iff.mp hs
      exact .snapshot (not_refused hv) (CrossValidator.moves_of_step hv)

/-- What is asked for is read as a request for levels, which it is. -/
theorem Reads.stream_eq (h : Reads symbol depth r) : r.stream = "L2" :=
  stream_decode_encode (show ' ' ∉ "L2".toList by decide) h

theorem Reads.length_frames (h : Reads symbol depth r) (b : Book) :
    (b.reply r).frames.length = 3 := by
  rw [b.length_frames_reply, SnapRequest.frames, h.stream_eq]
  rfl

/-- The checks let the reply of the service through. -/
theorem Reads.checked_frames (h : Reads symbol depth r) (b : Book) :
    CrossValidator.checked (b.reply r).frames =
      .wait b.seqno (max 1 r.depth) (b.topLevels (max 1 r.depth)) := by
  have hreply : b.reply r = .l2 b.seqno (max 1 r.depth) (b.topLevels (max 1 r.depth)) := by
    simp [Book.reply, h.stream_eq]
  rw [hreply]
  rfl

/-- With nothing outstanding, nothing is in flight. -/
theorem Ok.flight_eq_nil (h : f.Ok symbol depth) (hp : f.validator.socket.pending = 0) :
    f.flight = [] := by
  cases hreq : f.request with
  | true => exact (h.request hreq).1
  | false =>
      have hlen := h.pending
      rw [hp, hreq] at hlen
      exact List.length_eq_zero_iff.mp hlen.symm

theorem Ok.simStep (h : f.Ok symbol depth) (a : Sim.Action) :
    ({ f with sim := f.sim.step a } : Validation).Ok symbol depth := by
  refine ⟨h.sim.step a, h.same, h.pending, h.refused, h.request, ?_, ?_⟩
  · intro hr hreq got hphase
    obtain ⟨n, b, r, hb, hgot⟩ := h.receive hr hreq got hphase
    exact ⟨n, b, r, Sim.getElem?_past_step hb a, hgot⟩
  · intro snapSeq snapDepth rows hphase
    obtain ⟨b, r, hb, hrows⟩ := h.snapshot snapSeq snapDepth rows hphase
    exact ⟨b, r, Sim.getElem?_past_step hb a, hrows⟩

/-- The service takes its snapshot of the book as it is. -/
theorem Ok.serve (h : f.Ok symbol depth) (hreq : f.request = true)
    (hdecode : decodeSnapReq (encodeSnapReq f.validator.request) = some r) :
    ({ f with request := false, flight := (f.sim.book.reply r).frames } :
      Validation).Ok symbol depth := by
  have hreads : Reads symbol depth r := by
    unfold CrossValidator.request at hdecode
    rwa [h.same.1, h.same.2] at hdecode
  obtain ⟨-, hgot⟩ := h.request hreq
  have hp : f.validator.socket.pending = 3 := by simp [h.pending, hreq]
  refine ⟨h.sim, h.same, ?_, h.refused, by simp, ?_, h.snapshot⟩
  · simp [hp, hreads.length_frames]
  · intro hr _ got hphase
    refine ⟨_, f.sim.book, r, h.sim.now, hreads, ?_⟩
    rw [hgot hr got hphase]
    rfl

/-- A frame is received: there are fewer in flight, and after the last one the whole reply of the
service has been checked. -/
theorem Ok.receiveFrame (h : f.Ok symbol depth) {frame : Frame} {flight : List Frame}
    (hflight : f.flight = frame :: flight) (hr : f.validator.socket.refused = false)
    (hv : CrossValidator.Moves f.validator (.recv (some frame)) v) :
    ({ f with validator := v, flight := flight } : Validation).Ok symbol depth := by
  have hreq : f.request = false := by
    refine Bool.eq_false_iff.mpr fun hreq => ?_
    rw [(h.request hreq).1] at hflight
    cases hflight
  have hp : f.validator.socket.pending = flight.length + 1 := by simp [h.pending, hreq, hflight]
  cases hv with
  | @frame got _ hphase hlt =>
      obtain ⟨n, b, r, hb, hreads, hgot⟩ := h.receive hr hreq got hphase
      refine ⟨h.sim, h.same, by simp [hp, hreq], by simp [hr], by simp [hreq], ?_, by simp⟩
      intro _ _ got' hphase'
      obtain rfl := CrossPhase.receive.inj hphase'
      refine ⟨n, b, r, hb, hreads, ?_⟩
      rw [hflight] at hgot
      show got ++ [frame] ++ flight = (b.reply r).frames
      rw [List.append_assoc]
      exact hgot
  | @last got _ hphase hle =>
      obtain ⟨n, b, r, hb, hreads, hgot⟩ := h.receive hr hreq got hphase
      obtain rfl := h.sim.seqno n b hb
      rw [hflight] at hgot
      have hlen := congrArg List.length hgot
      rw [hreads.length_frames, List.length_append, List.length_cons] at hlen
      obtain rfl : flight = [] := List.length_eq_zero_iff.mp (by omega)
      have hchecked := hreads.checked_frames b
      rw [← hgot] at hchecked
      refine ⟨h.sim, h.same, by simp [hp, hreq], by simp [hr], by simp [hreq], ?_, ?_⟩
      · intro _ _ got' hphase'
        exact absurd hphase' (CrossValidator.checked_ne _ got')
      · intro snapSeq snapDepth rows hphase'
        rw [show _ = CrossPhase.wait _ _ _ from hchecked] at hphase'
        obtain hphase' | hphase' := hphase'
        · obtain ⟨rfl, rfl, rfl⟩ := CrossPhase.wait.inj hphase'
          exact ⟨b, r, hb, hreads, rfl, rfl⟩
        · cases hphase'

theorem Ok.moves (h : f.Ok symbol depth) (hm : Moves f a f') : f'.Ok symbol depth := by
  cases hm with
  | sim a => exact h.simStep a
  | consume => exact ⟨h.sim, h.same, h.pending, h.refused, h.request, h.receive, h.snapshot⟩
  | serve hreq hdecode => exact h.serve hreq hdecode
  | send hphase hp =>
      refine ⟨h.sim, h.same, by simp, by simp, ?_, by simp, by simp⟩
      intro _
      exact ⟨h.flight_eq_nil hp, fun _ got hgot => (CrossPhase.receive.inj hgot).symm⟩
  | refused hphase hp =>
      refine ⟨h.sim, h.same, h.pending, fun _ => rfl, ?_, by simp, by simp⟩
      intro hreq
      exact ⟨(h.request hreq).1, by simp⟩
  | recv hflight hr hv => exact h.receiveFrame hflight hr hv
  | timeout hphase hr =>
      refine ⟨h.sim, h.same, h.pending, by simp [hr], ?_, by simp, by simp⟩
      intro hreq
      exact ⟨(h.request hreq).1, by simp⟩
  | poll hr hv =>
      cases hv with
      | again => exact h
      | @caughtUp _ snapSeq snapDepth rows hphase =>
          refine ⟨h.sim, h.same, h.pending, by simp [hr],
            fun hreq => ⟨(h.request hreq).1, by simp⟩, by simp, ?_⟩
          intro snapSeq' snapDepth' rows' hphase'
          obtain hphase' | hphase' := hphase'
          · cases hphase'
          · obtain ⟨rfl, rfl, rfl⟩ := CrossPhase.look.inj hphase'
            exact h.snapshot _ _ _ (.inl hphase)
  | snapshot hr hv =>
      cases hv with
      | compare =>
          exact ⟨h.sim, h.same, h.pending, by simp [hr],
            fun hreq => ⟨(h.request hreq).1, by simp⟩, by simp, by simp⟩

/-- A comparison finds no mismatch exactly if the two books have the same best levels. -/
theorem compare_iff (h : f.Ok symbol depth) (hc : f.Coherent) {snapSeq snapDepth : ℕ}
    {rows : List LevelSummary} (hphase : f.validator.phase = .look snapSeq snapDepth rows) :
    (diffLevels rows (f.ob.snapshotL2 (min f.validator.depth snapDepth)) (some [])
        3).mismatches = 0 ↔
      f.Matches depth .snapshot := by
  obtain ⟨b, r, hb, -, rfl, rfl⟩ := h.snapshot snapSeq snapDepth rows (.inr hphase)
  obtain ⟨b', hb', htable⟩ := hc
  rw [h.same.2, OrderBook.snapshotL2_eq_topLevels htable,
    mismatches_eq_zero_iff (b'.keys_topLevels_nodup _)]
  constructor
  · intro hsame snapSeq' _ _ c c' _ hphase' hcb hcb'
    obtain ⟨rfl, rfl, -⟩ := CrossPhase.look.inj (hphase.symm.trans hphase')
    obtain rfl := Option.some_inj.mp (hb.symm.trans hcb)
    obtain rfl := Option.some_inj.mp (hb'.symm.trans hcb')
    exact hsame
  · intro hm
    exact hm snapSeq _ _ b b' rfl hphase hb hb'

theorem matches_of_ne (h : a ≠ .snapshot) : f.Matches depth a := fun _ _ _ _ _ ha => absurd ha h

theorem mismatches_step_iff (h : f.Ok symbol depth) (hc : f.Coherent)
    (hz : f.validator.xvalMismatchLevels = 0) (hs : f.step a = some f') :
    f'.validator.xvalMismatchLevels = 0 ↔ f.Matches depth a := by
  cases moves_of_step hs with
  | sim | consume | serve | send | refused | timeout =>
      exact iff_of_true hz (matches_of_ne (by simp))
  | recv _ _ hv =>
      refine iff_of_true ?_ (matches_of_ne (by simp))
      cases hv <;> exact hz
  | poll _ hv =>
      refine iff_of_true ?_ (matches_of_ne (by simp))
      cases hv <;> exact hz
  | snapshot _ hv =>
      cases hv with
      | compare hphase => exact compare_iff h hc hphase

theorem matches_of_none (h : f.Ok symbol depth) (hs : f.step a = none) : f.Matches depth a := by
  rintro snapSeq snapDepth rows _ _ rfl hphase _ _
  have hv : f.validator.step (.snapshot f.ob) = none := by simpa [step, validate] using hs
  cases hr : f.validator.socket.refused with
  | true => rw [h.refused hr] at hphase; cases hphase
  | false => simp [CrossValidator.step, hr, hphase] at hv

end steps

section runs
variable {tickSize mid : PriceTicks} {symbol : String} {depth : ℕ}

theorem ok_start : (start tickSize mid symbol depth).Ok symbol depth where
  sim := Sim.ok_start tickSize mid
  same := ⟨rfl, rfl⟩
  pending := rfl
  refused := by simp [start, CrossValidator.start]
  request := by simp [start]
  receive := by simp [start, CrossValidator.start]
  snapshot := by simp [start, CrossValidator.start]

theorem ok_states (acts : List Action) :
    States step (start tickSize mid symbol depth) (fun _ f => f.Ok symbol depth) acts :=
  fun _ _ _ _ hf => run_preserves ok_start (fun _ _ _ h hs => h.moves (moves_of_step hs)) hf

/-- **Cross-validation.** With a consumer whose book is at all times the simulator's, every
completed round counts no mismatch if and only if, at every comparison, the simulator's book at
`last_l2_seq_applied` has the best levels that it had at the sequence number of the snapshot. -/
theorem mismatches_iff (tickSize mid : PriceTicks) (symbol : String) (depth : ℕ)
    (acts : List Action)
    (hc : States step (start tickSize mid symbol depth) (fun _ f => f.Coherent) acts) :
    States step (start tickSize mid symbol depth) (fun _ f => f.validator.xvalMismatchLevels = 0)
        acts ↔
      Along step (start tickSize mid symbol depth) (fun _ f a => f.Matches depth a) acts := by
  have hI : States step (start tickSize mid symbol depth)
      (fun _ f => f.Ok symbol depth ∧ f.Coherent) acts :=
    fun pre post he f hf => ⟨ok_states acts pre post he f hf, hc pre post he f hf⟩
  refine states_iff_along_state hI rfl ?_ ?_
  · intro f a h _ hs
    exact matches_of_none h.1 hs
  · intro f a f' h hz hs
    exact mismatches_step_iff h.1 h.2 hz hs

/-- A symbol without a space: the snapshots compared are as deep as the cross-validator asks. -/
theorem served_depth (tickSize mid : PriceTicks) {symbol : String} {depth : ℕ}
    (hsymbol : ' ' ∉ symbol.toList) (hdepth : depth < 2 ^ 32) (acts : List Action) :
    States step (start tickSize mid symbol depth)
      (fun _ f => ∀ snapSeq snapDepth rows, f.validator.phase = .look snapSeq snapDepth rows →
        snapDepth = max 1 depth) acts := by
  intro pre post he f hf snapSeq snapDepth rows hphase
  obtain ⟨b, r, -, hreads, hd, -⟩ :=
    (ok_states acts pre post he f hf).snapshot snapSeq snapDepth rows (.inr hphase)
  have hdecode := decode_encode ⟨"L2", symbol, depth⟩ (show ' ' ∉ "L2".toList by decide) hsymbol
    hdepth
  obtain rfl := Option.some_inj.mp (hdecode.symm.trans hreads)
  exact hd

/-- The consumer's steps all lead to books of the simulator. -/
def Follows (f : Validation) : Action → Prop
  | .consume applied ob => ∃ b : Book, f.sim.past[applied]? = some b ∧ ob = b.mirror
  | _ => True

theorem Coherent.step {f f' : Validation} {a : Action} (h : f.Coherent) (hf : f.Follows a)
    (hs : f.step a = some f') : f'.Coherent := by
  cases moves_of_step hs with
  | sim a =>
      obtain ⟨b, hb, ht⟩ := h
      exact ⟨b, Sim.getElem?_past_step hb a, ht⟩
  | consume =>
      obtain ⟨b, hb, rfl⟩ := hf
      exact ⟨b, hb, b.table_mirror⟩
  | serve | send | refused | recv | timeout | poll | snapshot => exact h

/-- A consumer that follows is coherent. -/
theorem coherent_states {acts : List Action}
    (hf : Along step (start tickSize mid symbol depth) (fun _ f a => f.Follows a) acts) :
    States step (start tickSize mid symbol depth) (fun _ f => f.Coherent) acts := by
  refine states_of_step (I := fun _ _ => True) (fun _ _ _ _ _ => trivial) hf ?_ ?_
  · exact ⟨_, Sim.past_start tickSize mid, Book.table_mirror (.empty tickSize)⟩
  · intro _ f a f' _ ha h hs
    exact h.step ha hs

end runs

/-- The simulator after the snapshot below. -/
def edited : Sim := (Sim.start 1 100).step (.edit 100 ⟨.bid, 1, false, 7, by decide, by decide⟩)

/-- The consumer applies the delta that follows the snapshot before the comparison. -/
def overtaken : List Action :=
  [.send, .serve, .sim (.edit 100 ⟨.bid, 1, false, 7, by decide, by decide⟩),
    .consume 21 edited.book.mirror, .recv, .recv, .recv, .poll, .snapshot]

theorem coherent_overtaken :
    States step (start 1 100 "SIM" 10) (fun _ f => f.Coherent) overtaken := by
  have hpast : edited.past[21]? = some edited.book := by decide +kernel
  refine coherent_states (along_cons.mpr ⟨trivial, fun f hf => ?_⟩)
  obtain rfl := Option.some_inj.mp hf
  refine along_cons.mpr ⟨trivial, fun f hf => ?_⟩
  obtain rfl := Option.some_inj.mp hf
  refine along_cons.mpr ⟨trivial, fun f hf => ?_⟩
  obtain rfl := Option.some_inj.mp hf
  exact along_cons.mpr ⟨⟨edited.book, hpast, rfl⟩, fun _ _ => along_cons.mpr ⟨trivial, fun _ _ =>
    along_cons.mpr ⟨trivial, fun _ _ => along_cons.mpr ⟨trivial, fun _ _ =>
      along_cons.mpr ⟨trivial, fun _ _ => along_cons.mpr ⟨trivial, fun _ _ => along_nil⟩⟩⟩⟩⟩⟩

theorem mismatches_iff_overtaken :
    States step (start 1 100 "SIM" 10) (fun _ f => f.validator.xvalMismatchLevels = 0) overtaken ↔
      Along step (start 1 100 "SIM" 10) (fun _ f a => f.Matches 10 a) overtaken :=
  mismatches_iff 1 100 "SIM" 10 overtaken coherent_overtaken

/-- The level that the consumer has applied already is reported as a mismatch. -/
theorem mismatch_overtaken :
    States step (start 1 100 "SIM" 10) (fun _ f => f.Coherent) overtaken ∧
      ¬ States step (start 1 100 "SIM" 10) (fun _ f => f.validator.xvalMismatchLevels = 0)
        overtaken := by
  refine ⟨coherent_overtaken, fun h => ?_⟩
  exact absurd (h.last rfl) (by decide +kernel)

end Validation
end Trading
