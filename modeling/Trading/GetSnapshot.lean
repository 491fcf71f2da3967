import Trading.Requests

/-! # A snapshot that fails

`get_snapshot` of `feed/ZMQFeedSubscriber.cpp` call by call, with the local book as its state.

* Every call on the REQ socket has an outcome: what it returns, nothing where it returns false, or an
  exception.  The outcomes of an exchange are inputs; a call that is not made has one that is not
  looked at.
* What a frame holds is left to a `FrameFormat`, and `none` is a frame that is too short for
  `from_bytes`.

The levels are stored before the exchange for the top of book begins, so that a failure of the latter
leaves the book with them (`getSnapshot_of_error_l1`); `leavesAlone_iff` says when that is no
change. -/

namespace Trading

/-- How `get_snapshot` ends without a snapshot. -/
inductive SnapFailure where
  | returnsFalse
  | throws
deriving DecidableEq, Repr

/-- What a call on the socket comes to. -/
inductive Outcome (α : Type) where
  | done (a : α)
  | timedOut
  | threw
deriving DecidableEq, Repr

def Outcome.get {α : Type} : Outcome α → Except SnapFailure α
  | .done a => .ok a
  | .timedOut => .error .returnsFalse
  | .threw => .error .throws

/-- The calls of one exchange: the request, and the frames of the reply in their order. -/
structure Exchange (φ : Type) where
  send : Outcome Unit
  recv : ℕ → Outcome φ

/-- What is read from a frame. -/
structure FrameFormat (φ : Type) where
  header? : φ → Option (StreamKind × ℕ)
  l1? : φ → Option L1Payload
  rows : φ → List LevelSummary

/-- `from_bytes`. -/
def fromBytes {α : Type} : Option α → Except SnapFailure α
  | some a => .ok a
  | none => .error .throws

section exchanges
variable {φ : Type} (fmt : FrameFormat φ) (x : Exchange φ)

/-- The L2 block up to the first write. -/
def receiveL2 : Except SnapFailure (ℕ × List LevelSummary) := do
  x.send.get
  let hmsg ← (x.recv 0).get
  let _ ← (x.recv 1).get
  let arr ← (x.recv 2).get
  let (kind, seqno) ← fromBytes (fmt.header? hmsg)
  if kind ≠ .l2Snap then .error .returnsFalse
  return (seqno, fmt.rows arr)

/-- The L1 block up to `apply_l1`. -/
def receiveL1 : Except SnapFailure (ℕ × L1Payload) := do
  x.send.get
  let h ← (x.recv 0).get
  let p ← (x.recv 1).get
  let (_, seqno) ← fromBytes (fmt.header? h)
  let p ← fromBytes (fmt.l1? p)
  return (seqno, p)

/-- `get_snapshot` on the book `out`: how it ends, and the book. -/
def getSnapshot (x2 x1 : Exchange φ) (out : LocalBook) : Except SnapFailure Unit × LocalBook :=
  match receiveL2 fmt x2 with
  | .error f => (.error f, out)
  | .ok (seqno, rows) =>
      let out := out.storeL2 seqno rows
      match receiveL1 fmt x1 with
      | .error f => (.error f, out)
      | .ok (seqno, p) => (.ok (), out.applyL1 p seqno)

/-- The L2 exchange completes, with these rows. -/
def DeliversL2 (seqno : ℕ) (rows : List LevelSummary) : Prop :=
  x.send = .done () ∧ ∃ hmsg shmsg arr, x.recv 0 = .done hmsg ∧ x.recv 1 = .done shmsg ∧
    x.recv 2 = .done arr ∧ fmt.header? hmsg = some (.l2Snap, seqno) ∧ fmt.rows arr = rows

/-- The L1 exchange completes, with this top of book. -/
def DeliversL1 (seqno : ℕ) (p : L1Payload) : Prop :=
  x.send = .done () ∧ ∃ h q kind, x.recv 0 = .done h ∧ x.recv 1 = .done q ∧
    fmt.header? h = some (kind, seqno) ∧ fmt.l1? q = some p

end exchanges

/-! ### Exchanges that complete -/

theorem bind_eq_ok_iff {ε α β : Type} {m : Except ε α} {k : α → Except ε β} {v : β} :
    m >>= k = .ok v ↔ ∃ a, m = .ok a ∧ k a = .ok v := by
  cases m with
  | error e => simp [bind, Except.bind]
  | ok a => simp [bind, Except.bind]

/-- Code with a known result either comes to it or fails. -/
theorem ok_or_error {ε α : Type} {m : Except ε α} {D : α → Prop} (hD : ∀ a, m = .ok a ↔ D a) :
    (∃ a, m = .ok a ∧ ∀ a', D a' ↔ a = a') ∨ ∃ e, m = .error e ∧ ∀ a, ¬ D a := by
  cases m with
  | ok a => exact .inl ⟨a, rfl, fun a' => (hD a').symm.trans (by simp)⟩
  | error e => exact .inr ⟨e, rfl, fun a ha => by cases (hD a).mpr ha⟩

section blocks
variable {φ : Type} {fmt : FrameFormat φ} {x : Exchange φ}

theorem Outcome.get_eq_ok_iff {α : Type} {o : Outcome α} {a : α} :
    o.get = .ok a ↔ o = .done a := by cases o <;> simp [get]

theorem fromBytes_eq_ok_iff {α : Type} {o : Option α} {a : α} :
    fromBytes o = .ok a ↔ o = some a := by cases o <;> simp [fromBytes]

theorem receiveL2_eq_ok_iff {seqno : ℕ} {rows : List LevelSummary} :
    receiveL2 fmt x = .ok (seqno, rows) ↔ DeliversL2 fmt x seqno rows := by
  unfold receiveL2 DeliversL2
  simp only [bind_eq_ok_iff, Outcome.get_eq_ok_iff, fromBytes_eq_ok_iff]
  constructor
  · rintro ⟨⟨⟩, hsend, hmsg, h0, shmsg, h1, arr, h2, ⟨kind, n⟩, hhead, hrest⟩
    split_ifs at hrest with hkind
    · cases hrest
    · cases hrest
      obtain rfl : kind = .l2Snap := not_not.mp hkind
      exact ⟨hsend, hmsg, shmsg, arr, h0, h1, h2, hhead, rfl⟩
  · rintro ⟨hsend, hmsg, shmsg, arr, h0, h1, h2, hhead, rfl⟩
    exact ⟨(), hsend, hmsg, h0, shmsg, h1, arr, h2, _, hhead, rfl⟩

theorem receiveL1_eq_ok_iff {seqno : ℕ} {p : L1Payload} :
    receiveL1 fmt x = .ok (seqno, p) ↔ DeliversL1 fmt x seqno p := by
  unfold receiveL1 DeliversL1
  simp only [bind_eq_ok_iff, Outcome.get_eq_ok_iff, fromBytes_eq_ok_iff]
  constructor
  · rintro ⟨⟨⟩, hsend, h, h0, q, h1, ⟨kind, n⟩, hhead, p', hp, hrest⟩
    cases hrest
    exact ⟨hsend, h, q, kind, h0, h1, hhead, hp⟩
  · rintro ⟨hsend, h, q, kind, h0, h1, hhead, hp⟩
    exact ⟨(), hsend, h, h0, q, h1, _, hhead, p, hp, rfl⟩

end blocks

/-! ### What a failure leaves -/

section failures
variable {φ : Type} {fmt : FrameFormat φ} {x2 x1 : Exchange φ} {b : LocalBook} {seqno : ℕ}
  {rows : List LevelSummary}

theorem getSnapshot_of_error {f : SnapFailure} (h : receiveL2 fmt x2 = .error f) :
    getSnapshot fmt x2 x1 b = (.error f, b) := by simp [getSnapshot, h]

theorem getSnapshot_of_error_l1 {f : SnapFailure} (h2 : receiveL2 fmt x2 = .ok (seqno, rows))
    (h1 : receiveL1 fmt x1 = .error f) :
    getSnapshot fmt x2 x1 b = (.error f, b.storeL2 seqno rows) := by simp [getSnapshot, h2, h1]

theorem getSnapshot_of_ok {n : ℕ} {p : L1Payload} (h2 : receiveL2 fmt x2 = .ok (seqno, rows))
    (h1 : receiveL1 fmt x1 = .ok (n, p)) :
    getSnapshot fmt x2 x1 b = (.ok (), (b.storeL2 seqno rows).applyL1 p n) := by
  simp [getSnapshot, h2, h1]

/-- For every key the last row with quantity. -/
theorem LocalBook.table_storeL2 (b : LocalBook) (seqno : ℕ) (rows : List LevelSummary)
    (k : LevelKey) : (b.storeL2 seqno rows).table k =
      (rows.filter fun r => r.aggQty ≠ 0 ∧ k = (r.side, r.price)).getLast?.map
        fun r => (r.aggQty, r.orderCount) := by
  show (rows.foldl putRow .empty).find? k = _
  induction rows using List.reverseRecOn with
  | nil => rfl
  | append_singleton rows r ih =>
      rw [List.foldl_concat, find?_putRow, List.filter_append]
      split_ifs with hk
      · simp [hk]
      · rw [ih, List.filter_singleton, decide_eq_false hk]
        simp

/-- The book holds what the reply says. -/
def LocalBook.Holds (b : LocalBook) (seqno : ℕ) (rows : List LevelSummary) : Prop :=
  b.lastL2 = seqno ∧ ∀ k, b.table k =
    (rows.filter fun r => r.aggQty ≠ 0 ∧ k = (r.side, r.price)).getLast?.map
      fun r => (r.aggQty, r.orderCount)

theorem LocalBook.storeL2_eq_self_iff : b.storeL2 seqno rows = b ↔ b.Holds seqno rows := by
  constructor
  · intro h
    refine ⟨?_, fun k => ?_⟩
    · rw [← h]
      rfl
    · rw [← b.table_storeL2 seqno rows k, h]
  · rintro ⟨hseq, htable⟩
    have hlevels : (b.storeL2 seqno rows).levels = b.levels := OrdMap.ext_find? fun k => by
      exact (b.table_storeL2 seqno rows k).trans (htable k).symm
    calc b.storeL2 seqno rows
        = { b with levels := (b.storeL2 seqno rows).levels, lastL2 := seqno } := rfl
      _ = b := by rw [hlevels, ← hseq]

/-- Whenever `get_snapshot` fails, the book is what it was. -/
def LeavesAlone (fmt : FrameFormat φ) (x2 x1 : Exchange φ) (b : LocalBook) : Prop :=
  ∀ f out, getSnapshot fmt x2 x1 b = (.error f, out) → out = b

theorem leavesAlone_iff (fmt : FrameFormat φ) (x2 x1 : Exchange φ) (b : LocalBook) :
    LeavesAlone fmt x2 x1 b ↔ ∀ seqno rows, DeliversL2 fmt x2 seqno rows →
      (∃ n p, DeliversL1 fmt x1 n p) ∨ b.Holds seqno rows := by
  obtain ⟨⟨seqno, rows⟩, h2, hd2⟩ | ⟨f, h2, hno⟩ :=
    ok_or_error (D := fun v : ℕ × List LevelSummary => DeliversL2 fmt x2 v.1 v.2)
      fun _ => receiveL2_eq_ok_iff
  swap
  · refine iff_of_true ?_ fun seqno rows hd => absurd hd (hno (seqno, rows))
    intro f' out h
    rw [getSnapshot_of_error h2] at h
    exact (Prod.mk.inj h).2.symm
  obtain ⟨⟨n, p⟩, h1, hd1⟩ | ⟨f, h1, hno⟩ :=
    ok_or_error (D := fun v : ℕ × L1Payload => DeliversL1 fmt x1 v.1 v.2)
      fun _ => receiveL1_eq_ok_iff
  · refine iff_of_true ?_ fun _ _ _ => .inl ⟨n, p, (hd1 (n, p)).mpr rfl⟩
    intro f' out h
    rw [getSnapshot_of_ok h2 h1] at h
    cases h
  · constructor
    · intro h n rs hd
      obtain ⟨rfl, rfl⟩ := Prod.mk.inj ((hd2 (n, rs)).mp hd)
      exact .inr (LocalBook.storeL2_eq_self_iff.mp (h f _ (getSnapshot_of_error_l1 h2 h1)))
    · intro h f' out hrun
      rw [getSnapshot_of_error_l1 h2 h1] at hrun
      obtain ⟨n, p, hd1⟩ | hholds := h seqno rows ((hd2 (seqno, rows)).mpr rfl)
      · exact absurd hd1 (hno (n, p))
      · rw [← (Prod.mk.inj hrun).2, LocalBook.storeL2_eq_self_iff.mpr hholds]

/-- What a frame of `Frame` is read as. -/
def frameFormat : FrameFormat Frame where
  header?
    | .header kind seqno => some (kind, seqno)
    | _ => none
  l1?
    | .l1 p => some p
    | _ => none
  rows := Frame.rows

/-- The exchange in which these frames arrive, and then nothing more. -/
def Exchange.received (got : List Frame) : Exchange Frame :=
  ⟨.done (), fun i => got[i]?.elim .timedOut .done⟩

/-- The levels arrive, and the reply for the top of book does not. -/
theorem not_leavesAlone_noTop : ¬ LeavesAlone frameFormat
    (.received [.header .l2Snap 7, .snapHeader 10, .levels [⟨0, 101, 5, 1⟩]]) (.received [])
    ((LocalBook.storeL2 {} 3 [⟨0, 100, 5, 1⟩]).applyL1 ⟨100, 5, kNoPrice, 0⟩ 3) := by
  intro h
  have hout := h .returnsFalse _ rfl
  exact absurd (congrArg LocalBook.lastL2 hout) (by decide)

end failures

/-! ### The exchanges of the subscriber -/

namespace Subscriber

/-- Where the end of an exchange leads, `next` being what follows its success. -/
def resume (s : Subscriber) (next : Subscriber → Subscriber) :
    Except SnapFailure LocalBook → Option Subscriber
  | .ok book => some (next { s with book := book })
  | .error .returnsFalse => s.giveUp
  | .error .throws => none

/-- An exchange that is received in full ends as the block of `get_snapshot` does. -/
theorem storeFrames_eq_resume_l2 (s : Subscriber) {r : SnapRequest} (hr : r.stream = "L2")
    {got : List Frame} (hgot : r.frames ≤ got.length) : s.storeFrames r got =
      s.resume askL1 ((receiveL2 frameFormat (.received got)).map fun v =>
        s.book.storeL2 v.1 v.2) := by
  have hlen : 3 ≤ got.length := by
    rw [SnapRequest.frames, if_neg (by rw [hr]; decide)] at hgot
    exact hgot
  unfold storeFrames
  rw [if_pos hr]
  match got, hlen with
  | hmsg :: shmsg :: arr :: rest, _ =>
      cases hmsg with
      | header kind seqno => cases kind <;> rfl
      | snapHeader | levels | l1 | other => rfl

theorem storeFrames_eq_resume_l1 (s : Subscriber) {r : SnapRequest} (hr : r.stream = "L1")
    {got : List Frame} (hgot : r.frames ≤ got.length) : s.storeFrames r got =
      s.resume (fun s => { s with phase := .running, up := true })
        ((receiveL1 frameFormat (.received got)).map fun v => s.book.applyL1 v.2 v.1) := by
  have hlen : 2 ≤ got.length := by rwa [SnapRequest.frames, if_pos hr] at hgot
  unfold storeFrames
  rw [if_neg (by rw [hr]; decide)]
  match got, hlen with
  | h :: p :: rest, _ =>
      cases h with
      | header kind seqno => cases p <;> rfl
      | snapHeader | levels | l1 | other => rfl

end Subscriber

end Trading
