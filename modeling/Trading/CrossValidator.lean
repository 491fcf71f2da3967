import Trading.OrderBook
import Trading.Requests

/-! # The cross-validator

The loop of `app/BookCrossValidator.cpp`, call by call.

* A round sends a request for an L2 snapshot, receives three frames, waits until the consumer has
  applied the deltas up to the sequence number of the snapshot, takes a snapshot of its own and
  counts the levels on which the two differ.
* The inputs are the outcomes of the calls: what a receive yields, the value that is read in
  `last_l2_seq_applied`, the book at the moment of `snapshotL2`.  The flag `stop` ends a run, which
  it may do anywhere.

`requests_iff` is about the requests of the two users of the snapshot service, this loop and the
subscriber. -/

namespace Trading

open RequestReply (ReqSocket Uses)
open Transition (States Along run_preserves)

/-! ### The comparison -/

def LevelSummary.key (r : LevelSummary) : LevelKey := (r.side, r.price)

/-- The mismatches counted by `diff_levels` and the examples collected. -/
structure LevelDiff where
  mismatches : ℕ
  examples : Option (List LevelSummary)
deriving DecidableEq, Repr

def LevelDiff.add (maxExamples : ℕ) (d : LevelDiff) (r : LevelSummary) : LevelDiff :=
  { mismatches := d.mismatches + 1
    examples := d.examples.map fun es => if es.length < maxExamples then es ++ [r] else es }

/-- A row of the first list: it is missing from the second one, or differs there. -/
def diffFirst (mine : List LevelSummary) (l : LevelSummary) : Bool :=
  match mine.find? fun r => l.key = r.key with
  | some r => l.aggQty ≠ r.aggQty ∨ l.orderCount ≠ r.orderCount
  | none => true

/-- A row of the second list that is missing from the first one. -/
def diffSecond (sim : List LevelSummary) (r : LevelSummary) : Bool :=
  !sim.any fun l => l.key = r.key

/-- `diff_levels`. -/
def diffLevels (sim mine : List LevelSummary) (examples : Option (List LevelSummary))
    (maxExamples : ℕ) : LevelDiff :=
  let d := sim.foldl (fun d l => if diffFirst mine l then d.add maxExamples l else d) ⟨0, examples⟩
  mine.foldl (fun d r => if diffSecond sim r then d.add maxExamples r else d) d

section diff
variable {sim mine : List LevelSummary} {l r : LevelSummary}

theorem mismatches_foldl (p : LevelSummary → Bool) (maxExamples : ℕ) (rows : List LevelSummary)
    (d : LevelDiff) :
    (rows.foldl (fun d l => if p l then d.add maxExamples l else d) d).mismatches =
      d.mismatches + rows.countP p := by
  induction rows generalizing d with
  | nil => rfl
  | cons l rows ih =>
      rw [List.foldl_cons, ih, List.countP_cons]
      split_ifs
      · simp only [LevelDiff.add]
        omega
      · rfl

theorem mismatches_diffLevels (examples : Option (List LevelSummary)) (maxExamples : ℕ) :
    (diffLevels sim mine examples maxExamples).mismatches =
      sim.countP (diffFirst mine) + mine.countP (diffSecond sim) := by
  unfold diffLevels
  rw [mismatches_foldl, mismatches_foldl]
  simp

/-- Rows of one list with the same key are the same. -/
theorem eq_of_key {rows : List LevelSummary} (hkeys : (rows.map LevelSummary.key).Nodup)
    (hl : l ∈ rows) (hr : r ∈ rows) (hk : l.key = r.key) : l = r :=
  List.inj_on_of_nodup_map hkeys hl hr hk

/-- A row of the first list is a mismatch if it is not one of the second. -/
theorem diffFirst_eq_false_iff (hkeys : (mine.map LevelSummary.key).Nodup) :
    diffFirst mine l = false ↔ l ∈ mine := by
  unfold diffFirst
  cases hfind : mine.find? fun r => decide (l.key = r.key) with
  | none =>
      refine iff_of_false (by simp) fun hl => ?_
      have := List.find?_eq_none.mp hfind l hl
      simp at this
  | some r =>
      have hr := List.mem_of_find?_eq_some hfind
      have hk : l.key = r.key := by simpa using List.find?_some hfind
      simp only [decide_eq_false_iff_not, not_or, ne_eq, not_not]
      constructor
      · rintro ⟨hq, hc⟩
        obtain ⟨hside, hpx⟩ := Prod.mk.inj hk
        have hlr : l = r := by
          cases l
          cases r
          simp_all
        rwa [hlr]
      · intro hl
        obtain rfl := eq_of_key hkeys hl hr hk
        exact ⟨rfl, rfl⟩

theorem diffSecond_eq_false_iff : diffSecond sim r = false ↔ ∃ l ∈ sim, l.key = r.key := by
  simp [diffSecond]

/-- No mismatch: the two lists have the same rows. -/
theorem mismatches_eq_zero_iff (hmine : (mine.map LevelSummary.key).Nodup)
    (examples : Option (List LevelSummary)) (maxExamples : ℕ) :
    (diffLevels sim mine examples maxExamples).mismatches = 0 ↔ ∀ r, r ∈ sim ↔ r ∈ mine := by
  have hzero : (diffLevels sim mine examples maxExamples).mismatches = 0 ↔
      (∀ l ∈ sim, l ∈ mine) ∧ ∀ r ∈ mine, ∃ l ∈ sim, l.key = r.key := by
    rw [mismatches_diffLevels, Nat.add_eq_zero_iff, List.countP_eq_zero, List.countP_eq_zero]
    simp only [Bool.not_eq_true, diffFirst_eq_false_iff hmine, diffSecond_eq_false_iff]
  rw [hzero]
  constructor
  · rintro ⟨hfirst, hsecond⟩ r
    refine ⟨hfirst r, fun hr => ?_⟩
    obtain ⟨l, hl, hk⟩ := hsecond r hr
    obtain rfl := eq_of_key hmine (hfirst l hl) hr hk
    exact hl
  · intro h
    exact ⟨fun l hl => (h l).mp hl, fun r hr => ⟨r, (h r).mpr hr, rfl⟩⟩

end diff

/-! ### The loop -/

/-- Where the loop is: before the request, in the receives, in the wait for the consumer, or before
its own snapshot. -/
inductive CrossPhase where
  | head
  | receive (got : List Frame)
  | wait (snapSeq snapDepth : ℕ) (sim : List LevelSummary)
  | look (snapSeq snapDepth : ℕ) (sim : List LevelSummary)
deriving DecidableEq

structure CrossValidator where
  symbol : String
  depth : ℕ
  socket : ReqSocket
  phase : CrossPhase
  xvalRuns : ℕ
  xvalMismatchLevels : ℕ
deriving DecidableEq

namespace CrossValidator

inductive Input where
  | send
  | recv (f : Option Frame)
  | poll (lastL2SeqApplied : ℕ)
  | snapshot (ob : OrderBook)
deriving DecidableEq

def start (symbol : String) (depth : ℕ) : CrossValidator := ⟨symbol, depth, {}, .head, 0, 0⟩

def request (v : CrossValidator) : SnapRequest := ⟨"L2", v.symbol, v.depth⟩

/-- The checks of the three frames, in which the round ends unless they are a header of an L2
snapshot, a depth and rows. -/
def checked : List Frame → CrossPhase
  | [.header .l2Snap snapSeq, .snapHeader snapDepth, .levels sim] => .wait snapSeq snapDepth sim
  | _ => .head

/-- The wait for the consumer goes on. -/
def Waits (lastL2SeqApplied snapSeq : ℕ) : Prop := lastL2SeqApplied < snapSeq

instance (n snapSeq : ℕ) : Decidable (Waits n snapSeq) := inferInstanceAs (Decidable (n < snapSeq))

def step (v : CrossValidator) (a : Input) : Option CrossValidator :=
  if v.socket.refused then none
  else
    match v.phase, a with
    | .head, .send =>
        some { v with socket := v.socket.send v.request.frames, phase := .receive [] }
    | .receive _, .recv none => some { v with phase := .head }
    | .receive got, .recv (some f) =>
        let got := got ++ [f]
        some { v with
          socket := v.socket.recv
          phase := if got.length < 3 then .receive got else checked got }
    | .wait snapSeq snapDepth sim, .poll n =>
        some (if Waits n snapSeq then v else { v with phase := .look snapSeq snapDepth sim })
    | .look _ snapDepth sim, .snapshot ob =>
        let mine := ob.snapshotL2 (min v.depth snapDepth)
        some { v with
          phase := .head
          xvalRuns := v.xvalRuns + 1
          xvalMismatchLevels := (diffLevels sim mine (some []) 3).mismatches }
    | _, _ => none

/-- The frames that the loop still goes on to receive. -/
def owed (v : CrossValidator) : ℕ :=
  match v.phase with
  | .receive got => 3 - got.length
  | _ => 0

/-- The step is a request. -/
def Requests (v : CrossValidator) (a : Input) : Prop := v.phase = .head ∧ a = .send

def Receiving (v : CrossValidator) : Prop := ∀ got, v.phase = .receive got → got.length < 3

/-- The steps of the loop, each with the state it leads to. -/
inductive Moves (v : CrossValidator) : Input → CrossValidator → Prop
  | send : v.phase = .head → Moves v .send
      { v with socket := v.socket.send v.request.frames, phase := .receive [] }
  | timeout {got : List Frame} : v.phase = .receive got →
      Moves v (.recv none) { v with phase := .head }
  | frame {got : List Frame} {f : Frame} : v.phase = .receive got → got.length + 1 < 3 →
      Moves v (.recv (some f)) { v with socket := v.socket.recv, phase := .receive (got ++ [f]) }
  | last {got : List Frame} {f : Frame} : v.phase = .receive got → 3 ≤ got.length + 1 →
      Moves v (.recv (some f)) { v with socket := v.socket.recv, phase := checked (got ++ [f]) }
  | again {n snapSeq snapDepth : ℕ} {sim : List LevelSummary} :
      v.phase = .wait snapSeq snapDepth sim → Waits n snapSeq → Moves v (.poll n) v
  | caughtUp {n snapSeq snapDepth : ℕ} {sim : List LevelSummary} :
      v.phase = .wait snapSeq snapDepth sim → ¬ Waits n snapSeq →
      Moves v (.poll n) { v with phase := .look snapSeq snapDepth sim }
  | compare {ob : OrderBook} {snapSeq snapDepth : ℕ} {sim : List LevelSummary} :
      v.phase = .look snapSeq snapDepth sim →
      Moves v (.snapshot ob)
        { v with
          phase := .head
          xvalRuns := v.xvalRuns + 1
          xvalMismatchLevels :=
            (diffLevels sim (ob.snapshotL2 (min v.depth snapDepth)) (some []) 3).mismatches }

section steps
variable {v v' : CrossValidator} {a : Input}

theorem moves_of_step (hs : v.step a = some v') : Moves v a v' := by
  unfold step at hs
  split_ifs at hs
  split at hs
  · rename_i hphase
    obtain rfl := Option.some_inj.mp hs
    exact .send hphase
  · rename_i got hphase
    obtain rfl := Option.some_inj.mp hs
    exact .timeout hphase
  · rename_i got f hphase
    obtain rfl := Option.some_inj.mp hs
    rw [List.length_append, List.length_singleton]
    split_ifs with hlt
    · exact .frame hphase hlt
    · exact .last hphase (not_lt.mp hlt)
  · rename_i snapSeq snapDepth sim n hphase
    obtain rfl := Option.some_inj.mp hs
    split_ifs with hw
    · exact .again hphase hw
    · exact .caughtUp hphase hw
  · rename_i snapSeq snapDepth sim ob hphase
    obtain rfl := Option.some_inj.mp hs
    exact .compare hphase
  · cases hs

/-- After the checks the loop is back at its head, or waits. -/
theorem checked_cases (got : List Frame) : checked got = .head ∨
    ∃ snapSeq snapDepth sim, checked got = .wait snapSeq snapDepth sim ∧
      got = [.header .l2Snap snapSeq, .snapHeader snapDepth, .levels sim] := by
  unfold checked
  split
  · exact .inr ⟨_, _, _, rfl, rfl⟩
  · exact .inl rfl

theorem owed_of_ne (h : ∀ got, v.phase ≠ .receive got) : v.owed = 0 := by
  unfold owed
  split
  · rename_i got hphase
    exact absurd hphase (h got)
  · rfl

theorem owed_receive {got : List Frame} (h : v.phase = .receive got) : v.owed = 3 - got.length := by
  simp [owed, h]

theorem receiving_of_ne (h : ∀ got, v.phase ≠ .receive got) : v.Receiving := fun got hgot =>
  absurd hgot (h got)

theorem checked_ne (frames got : List Frame) : checked frames ≠ .receive got := by
  obtain h | ⟨_, _, _, h, -⟩ := checked_cases frames <;> simp [h]

theorem receiving_step (h : v.Receiving) (hs : v.step a = some v') : v'.Receiving := by
  cases moves_of_step hs with
  | send =>
      intro got hgot
      simp [← CrossPhase.receive.inj hgot]
  | @frame got f _ hlt =>
      intro got' hgot
      simpa [← CrossPhase.receive.inj hgot] using hlt
  | again => exact h
  | last => exact receiving_of_ne fun got => checked_ne _ got
  | timeout | caughtUp | compare => exact receiving_of_ne fun got hgot => by cases hgot

/-- What a step does on the socket. -/
theorem uses_step (h : v.Receiving) (hs : v.step a = some v') :
    Uses (v.Requests a) (a = .recv none) v.socket v.owed v'.socket v'.owed := by
  cases moves_of_step hs with
  | send hphase => exact .send 3 ⟨hphase, rfl⟩ (by simp) (owed_of_ne (by simp [hphase]))
  | @timeout got hphase =>
      have howed := owed_receive hphase
      have hlt := h got hphase
      exact .giveUp (by simp [Requests]) rfl (by omega)
  | @frame got f hphase hlt =>
      have howed := owed_receive hphase
      rw [owed_receive (v := { v with socket := v.socket.recv, phase := .receive (got ++ [f]) }) rfl,
        show 3 - (got ++ [f]).length = v.owed - 1 by simp; omega]
      exact .recv (by simp [Requests]) (by simp) (by omega)
  | @last got f hphase hle =>
      have howed := owed_receive hphase
      have hlt := h got hphase
      rw [owed_of_ne (v := { v with socket := v.socket.recv, phase := checked (got ++ [f]) })
        fun frames => checked_ne _ frames, show 0 = v.owed - 1 by omega]
      exact .recv (by simp [Requests]) (by simp) (by omega)
  | again => exact .quiet (by simp [Requests]) (by simp)
  | caughtUp hphase | compare hphase =>
      have howed : v.owed = 0 := owed_of_ne (by simp [hphase])
      rw [howed]
      exact .quiet (by simp [Requests]) (by simp)

theorem step_ne_none (hr : v.socket.refused = false) (ha : v.Requests a) : v.step a ≠ none := by
  obtain ⟨hphase, rfl⟩ := ha
  unfold step
  simp [hr, hphase]

end steps

theorem receiving_run {symbol : String} {depth : ℕ} {as : List Input} :
    States step (start symbol depth) (fun _ v => v.Receiving) as := fun _ _ _ _ hv =>
  run_preserves (receiving_of_ne fun got hgot => by cases hgot)
    (fun _ _ _ h hs => receiving_step h hs) hv

theorem refused_iff (symbol : String) (depth : ℕ) (as : List Input) :
    States step (start symbol depth) (fun _ v => v.socket.refused = false) as ↔
      Along step (start symbol depth)
        (fun pre v a => v.Requests a → ¬ ∃ x ∈ pre, x = .recv none) as := by
  refine RequestReply.refused_iff receiving_run (fun v a v' h _ hs => uses_step h hs)
    (fun v a hr ha => step_ne_none hr ha) (fun v a hr => ?_) rfl rfl
  unfold step
  rw [if_pos hr]

end CrossValidator

/-! ### Both users -/

/-- **One request at a time.** The socket of the loop, and that of the subscriber, refuses no
request if and only if the user makes none after one of its receives has timed out. -/
theorem requests_iff (symbol : String) (depth : ℕ) (as : List CrossValidator.Input)
    (bs : List SocketSubscriber.Input) :
    (States CrossValidator.step (.start symbol depth) (fun _ v => v.socket.refused = false) as ↔
        Along CrossValidator.step (.start symbol depth)
          (fun pre v a => v.Requests a → ¬ ∃ x ∈ pre, x = .recv none) as) ∧
      (States SocketSubscriber.step (.start symbol depth) (fun _ c => c.socket.refused = false) bs ↔
        Along SocketSubscriber.step (.start symbol depth)
          (fun pre c a => c.Resnapshots a → ¬ ∃ x ∈ pre, x = .recv none) bs) :=
  ⟨CrossValidator.refused_iff symbol depth as, SocketSubscriber.refused_iff symbol depth bs⟩

/-- A late reply, and the next round. -/
theorem requests_refused :
    ¬ States CrossValidator.step (.start "SIM" 10) (fun _ v => v.socket.refused = false)
        [.send, .recv none, .send] ∧
      ¬ States SocketSubscriber.step (.start "SIM" 10) (fun _ c => c.socket.refused = false)
        [.recv (some (.header .l2Snap 5)), .recv (some (.snapHeader 10)), .recv (some (.levels [])),
          .recv (some (.header .l1Snap 5)), .recv (some (.l1 {})),
          .message (.l2Delta 9 {}), .recv none, .message (.l2Delta 12 {})] := by
  constructor
  · intro h
    exact absurd (h.last rfl) (by decide +kernel)
  · intro h
    exact absurd (h.last rfl) (by decide +kernel)

end Trading
