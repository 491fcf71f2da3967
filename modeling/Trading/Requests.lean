import Trading.MDSim
import Trading.RequestReply
import Trading.Subscriber

/-! # Snapshot requests, frame by frame

The replies of the snapshot service as the frames it sends, and the subscriber of
`feed/ZMQFeedSubscriber.cpp` with the calls that `get_snapshot` makes on its REQ socket.

* A frame is what its sender has put into it; `other` is too short to be read as anything.
* A receive yields a frame, or nothing when it times out.  A request that the socket refuses throws,
  and ends the thread; every other request goes out, as no send timeout is set.

A reply that is received in full leads where the exchange of `Subscriber.store` leads (`run_reply`);
which requests are refused is `SocketSubscriber.refused_iff`. -/

namespace Trading

open RequestReply (ReqSocket Uses)
open Transition (run run_concat States Along run_preserves)

/-- Stream kinds and snapshot markers. -/
inductive StreamKind where
  | l3Delta
  | l2Delta
  | l1
  | l2Snap
  | l1Snap
deriving DecidableEq, Repr

inductive Frame where
  | header (kind : StreamKind) (seqno : ℕ)
  | snapHeader (depth : ℕ)
  | levels (rows : List LevelSummary)
  | l1 (p : L1Payload)
  | other
deriving DecidableEq, Repr

/-- The whole rows in a frame. -/
def Frame.rows : Frame → List LevelSummary
  | .levels rows => rows
  | _ => []

/-- A reply as it is sent. -/
def SnapReply.frames : SnapReply → List Frame
  | .l1 seqno p => [.header .l1Snap seqno, .l1 p]
  | .l2 seqno depth rows => [.header .l2Snap seqno, .snapHeader depth, .levels rows]

/-- The number of frames in the reply to a request. -/
def SnapRequest.frames (r : SnapRequest) : ℕ := if r.stream = "L1" then 2 else 3

theorem SnapRequest.frames_pos (r : SnapRequest) : 0 < r.frames := by
  unfold frames
  split_ifs <;> simp

theorem Book.length_frames_reply (b : Book) (r : SnapRequest) :
    (b.reply r).frames.length = r.frames := by
  unfold reply SnapRequest.frames
  split_ifs <;> rfl

/-! ### The subscriber -/

/-- The end of the exchange for `r`, with the frames received.  The kind is tested in the L2
exchange only; a frame that is too short throws. -/
def Subscriber.storeFrames (s : Subscriber) (r : SnapRequest) (got : List Frame) :
    Option Subscriber :=
  if r.stream = "L2" then
    match got with
    | .header kind seqno :: _ :: arr :: _ =>
        if kind ≠ .l2Snap then s.giveUp
        else some { s with book := s.book.storeL2 seqno arr.rows }.askL1
    | _ => none
  else
    match got with
    | .header _ seqno :: .l1 p :: _ =>
        some { s with book := s.book.applyL1 p seqno, phase := .running, up := true }
    | _ => none

theorem Subscriber.storeFrames_reply (s : Subscriber) {r : SnapRequest}
    (hr : r.stream = "L1" ∨ r.stream = "L2") (b : Book) :
    s.storeFrames r (b.reply r).frames = s.store r (b.reply r) := by
  unfold storeFrames store Book.reply
  rcases hr with hr | hr <;> simp [hr, SnapReply.frames, Frame.rows]

/-- A subscriber with its REQ socket, and the frames received of the reply under way. -/
structure SocketSubscriber where
  sub : Subscriber
  socket : ReqSocket
  got : List Frame
deriving DecidableEq

namespace SocketSubscriber

/-- A message in the run loop, or the outcome of a receive in `get_snapshot`. -/
inductive Input where
  | message (ev : MDEvent)
  | recv (f : Option Frame)
deriving DecidableEq

/-- The subscriber goes on as `sub`, with a request if it is one that waits for a reply. -/
def goOn (c : SocketSubscriber) (sub : Subscriber) : SocketSubscriber :=
  match sub.phase with
  | .running => ⟨sub, c.socket, []⟩
  | .waiting r _ => ⟨sub, c.socket.send r.frames, []⟩

def start (symbol : String) (depth : ℕ) : SocketSubscriber :=
  goOn ⟨Subscriber.start symbol depth, {}, []⟩ (Subscriber.start symbol depth)

def step (c : SocketSubscriber) (a : Input) : Option SocketSubscriber :=
  if c.socket.refused then none
  else
    match c.sub.phase, a with
    | .running, .message ev => some (c.goOn (c.sub.receive ev).1)
    | .waiting .., .recv none => c.sub.giveUp.map fun sub => { c with sub := sub, got := [] }
    | .waiting r _, .recv (some f) =>
        let got := c.got ++ [f]
        let c := { c with socket := c.socket.recv, got := got }
        if got.length < r.frames then some c else (c.sub.storeFrames r got).map c.goOn
    | _, _ => none

/-- The frames that `get_snapshot` still goes on to receive in the exchange under way. -/
def owed (c : SocketSubscriber) : ℕ :=
  match c.sub.phase with
  | .running => 0
  | .waiting r _ => r.frames - c.got.length

/-- The message makes the run loop call `get_snapshot`. -/
def Resnapshots (c : SocketSubscriber) : Input → Prop
  | .message ev => c.sub.phase = .running ∧ (c.sub.receive ev).1.phase ≠ .running
  | .recv _ => False

/-- An exchange under way is not complete. -/
def Receiving (c : SocketSubscriber) : Prop :=
  ∀ r reply, c.sub.phase = .waiting r reply → c.got.length < r.frames

section steps
variable {c c' : SocketSubscriber} {a : Input}

theorem goOn_running {sub : Subscriber} (h : sub.phase = .running) :
    c.goOn sub = ⟨sub, c.socket, []⟩ := by simp [goOn, h]

theorem goOn_waiting {sub : Subscriber} {r : SnapRequest} {reply : Option SnapReply}
    (h : sub.phase = .waiting r reply) : c.goOn sub = ⟨sub, c.socket.send r.frames, []⟩ := by
  simp [goOn, h]

@[simp] theorem got_goOn (sub : Subscriber) : (c.goOn sub).got = [] := by
  unfold goOn
  cases sub.phase <;> rfl

theorem receiving_goOn (sub : Subscriber) : (c.goOn sub).Receiving := by
  intro r reply _
  simp [r.frames_pos]

theorem phase_giveUp {sub sub' : Subscriber} (h : sub.giveUp = some sub') :
    sub'.phase = .running := by
  unfold Subscriber.giveUp at h
  split_ifs at h
  obtain rfl := Option.some_inj.mp h
  rfl

/-- The steps of the subscriber, each with the state it leads to. -/
inductive Moves (c : SocketSubscriber) : Input → SocketSubscriber → Prop
  | message {ev : MDEvent} : c.sub.phase = .running →
      Moves c (.message ev) (c.goOn (c.sub.receive ev).1)
  | timeout {r : SnapRequest} {reply : Option SnapReply} {sub : Subscriber} :
      c.sub.phase = .waiting r reply → sub.phase = .running →
      Moves c (.recv none) { c with sub := sub, got := [] }
  | frame {r : SnapRequest} {reply : Option SnapReply} {f : Frame} :
      c.sub.phase = .waiting r reply → c.got.length + 1 < r.frames →
      Moves c (.recv (some f)) { c with socket := c.socket.recv, got := c.got ++ [f] }
  | last {r : SnapRequest} {reply : Option SnapReply} {f : Frame} {sub : Subscriber} :
      c.sub.phase = .waiting r reply → r.frames ≤ c.got.length + 1 →
      c.sub.storeFrames r (c.got ++ [f]) = some sub →
      Moves c (.recv (some f)) (goOn { c with socket := c.socket.recv, got := c.got ++ [f] } sub)

theorem moves_of_step (hs : c.step a = some c') : Moves c a c' := by
  unfold step at hs
  split_ifs at hs
  split at hs
  · rename_i ev hphase
    obtain rfl := Option.some_inj.mp hs
    exact .message hphase
  · rename_i r reply hphase
    obtain ⟨sub, hsub, rfl⟩ := Option.map_eq_some_iff.mp hs
    exact .timeout hphase (phase_giveUp hsub)
  · rename_i r reply f hphase
    dsimp only at hs
    rw [List.length_append, List.length_singleton] at hs
    split_ifs at hs with hlt
    · obtain rfl := Option.some_inj.mp hs
      exact .frame hphase hlt
    · obtain ⟨sub, hsub, rfl⟩ := Option.map_eq_some_iff.mp hs
      exact .last hphase (not_lt.mp hlt) hsub
  · cases hs

theorem receiving_of_step (hs : c.step a = some c') : c'.Receiving := by
  cases moves_of_step hs with
  | message | last => exact receiving_goOn _
  | timeout _ hrun =>
      intro r reply hphase
      rw [hrun] at hphase
      cases hphase
  | @frame r reply f hphase hlt =>
      intro r' reply' hphase'
      obtain ⟨rfl, -⟩ := Phase.waiting.inj (hphase.symm.trans hphase')
      simpa using hlt

theorem owed_running (h : c.sub.phase = .running) : c.owed = 0 := by simp [owed, h]

theorem owed_waiting {r : SnapRequest} {reply : Option SnapReply}
    (h : c.sub.phase = .waiting r reply) : c.owed = r.frames - c.got.length := by simp [owed, h]

/-- Going on without a request, or with one. -/
theorem goOn_cases (sub : Subscriber) :
    sub.phase = .running ∧ (c.goOn sub).socket = c.socket ∧ (c.goOn sub).owed = 0 ∨
      ∃ n, sub.phase ≠ .running ∧ (c.goOn sub).socket = c.socket.send n ∧
        (c.goOn sub).owed = n := by
  cases hphase : sub.phase with
  | running =>
      rw [goOn_running hphase]
      exact .inl ⟨rfl, rfl, owed_running hphase⟩
  | waiting r reply =>
      rw [goOn_waiting hphase]
      exact .inr ⟨r.frames, by simp, rfl, owed_waiting hphase⟩

/-- What a step does on the socket. -/
theorem uses_step (h : c.Receiving) (hs : c.step a = some c') :
    Uses (c.Resnapshots a) (a = .recv none) c.socket c.owed c'.socket c'.owed := by
  cases moves_of_step hs with
  | @message ev hphase =>
      obtain ⟨hrun, hsocket, howed⟩ | ⟨n, hwait, hsocket, howed⟩ :=
        c.goOn_cases (c.sub.receive ev).1
      · rw [hsocket, howed, owed_running hphase]
        exact .quiet (fun hr => hr.2 hrun) (by simp)
      · rw [hsocket, howed]
        exact .send n ⟨hphase, hwait⟩ (by simp) (owed_running hphase)
  | @timeout r reply sub hphase hrun =>
      have howed := owed_waiting hphase
      have hlt := h r reply hphase
      rw [owed_running (c := { c with sub := sub, got := [] }) hrun]
      exact .giveUp id rfl (by omega)
  | @frame r reply f hphase hlt =>
      have howed := owed_waiting hphase
      have howed' : ({ c with socket := c.socket.recv, got := c.got ++ [f] } : SocketSubscriber).owed =
          c.owed - 1 := by
        rw [howed, owed_waiting (c := { c with socket := c.socket.recv, got := c.got ++ [f] }) hphase]
        simp
        omega
      rw [howed']
      exact .recv id (by simp) (by omega)
  | @last r reply f sub hphase hle _ =>
      have howed := owed_waiting hphase
      have hlt := h r reply hphase
      obtain ⟨-, hsocket, howed'⟩ | ⟨n, -, hsocket, howed'⟩ :=
        goOn_cases (c := { c with socket := c.socket.recv, got := c.got ++ [f] }) sub
      · rw [hsocket, howed', show 0 = c.owed - 1 by omega]
        exact .recv id (by simp) (by omega)
      · rw [hsocket, howed']
        exact .recvSend n id (by simp) (by omega)

theorem step_ne_none (hr : c.socket.refused = false) (ha : c.Resnapshots a) : c.step a ≠ none := by
  cases a with
  | recv f => cases ha
  | message ev =>
      unfold step
      simp [hr, ha.1]

end steps

/-! ### A reply, frame by frame -/

section replies
variable {c : SocketSubscriber} {r : SnapRequest} {reply : Option SnapReply}

/-- The first frames of a reply. -/
theorem run_frames (hr : c.socket.refused = false) (hphase : c.sub.phase = .waiting r reply)
    (fs : List Frame) (hlt : c.got.length + fs.length < r.frames) :
    run step c (fs.map fun f => .recv (some f)) = some { c with
      socket := { c.socket with pending := c.socket.pending - fs.length }
      got := c.got ++ fs } := by
  induction fs generalizing c with
  | nil => simp
  | cons f fs ih =>
      rw [List.length_cons] at hlt
      have hstep : c.step (.recv (some f)) =
          some { c with socket := c.socket.recv, got := c.got ++ [f] } := by
        unfold step
        simp [hr, hphase, show c.got.length + 1 < r.frames by omega]
      have hrest := ih (c := { c with socket := c.socket.recv, got := c.got ++ [f] }) hr hphase
        (by rw [List.length_append, List.length_singleton]; omega)
      show (c.step (.recv (some f))).bind _ = _
      rw [hstep]
      refine hrest.trans ?_
      simp [ReqSocket.recv, Nat.sub_sub, Nat.add_comm 1]

/-- A reply, received frame by frame, is stored as in one exchange. -/
theorem run_reply (hr : c.socket.refused = false) (hphase : c.sub.phase = .waiting r reply)
    (hgot : c.got = []) (hstream : r.stream = "L1" ∨ r.stream = "L2") (b : Book) :
    run step c ((b.reply r).frames.map fun f => .recv (some f)) =
      (c.sub.store r (b.reply r)).map (goOn { c with
        socket := { c.socket with pending := c.socket.pending - r.frames } }) := by
  have hlen := b.length_frames_reply r
  have hpos := r.frames_pos
  obtain hnil | ⟨fs, f, hfs⟩ := (b.reply r).frames.eq_nil_or_concat'
  · rw [hnil] at hlen
    simp at hlen
    omega
  · rw [hfs, List.length_append, List.length_singleton] at hlen
    have hfirst := run_frames hr hphase fs (by rw [hgot, List.length_nil]; omega)
    rw [← c.sub.storeFrames_reply hstream b, hfs, List.map_append, List.map_singleton, run_concat,
      hfirst]
    show step _ _ = _
    unfold step
    simp [hr, hphase, hgot, hlen, ReqSocket.recv, Nat.sub_sub]
    rfl

end replies

/-! ### The requests of a run -/

theorem receiving_start (symbol : String) (depth : ℕ) : (start symbol depth).Receiving :=
  receiving_goOn _

/-- The subscriber's requests: none is refused if and only if `get_snapshot` is not called any more
after a receive has timed out. -/
theorem refused_iff (symbol : String) (depth : ℕ) (as : List Input) :
    States step (start symbol depth) (fun _ c => c.socket.refused = false) as ↔
      Along step (start symbol depth)
        (fun pre c a => c.Resnapshots a → ¬ ∃ x ∈ pre, x = .recv none) as := by
  have hI : States step (start symbol depth) (fun _ c => c.Receiving) as := fun _ _ _ _ hc =>
    run_preserves (receiving_start symbol depth) (fun _ _ _ _ hs => receiving_of_step hs) hc
  refine RequestReply.refused_iff hI (fun c a c' h _ hs => uses_step h hs)
    (fun c a hr ha => step_ne_none hr ha) (fun c a hr => ?_) rfl rfl
  unfold step
  rw [if_pos hr]

end SocketSubscriber
end Trading
