import Trading.Requests
import Trading.Text

/-! # The text of a snapshot request

`encode_snap_req` and `decode_snap_req` of `feed/Wire.hpp`, and the main loop of the simulator, which
decodes what arrives on its REP socket before it does anything else in a round.

* A character stands for a byte.  `decodeSnapReq` is `none` where it throws; there is no handler in
  `main`, so that the process ends there.
* The decoder cuts at the first three separators.  Without a third one it keeps the default depth;
  with it, `stoul` reads the rest, whatever it is (`decode_of_three`).

A request that is decoded is answered in full and the loop goes on; `survives_iff` says which
requests are. -/

namespace Trading

open Text (find next substr stoul Numeral)
open Transition (run run_concat)

/-- `encode_snap_req`. -/
def encodeSnapReq (r : SnapRequest) : String :=
  "SNAP " ++ r.stream ++ " " ++ r.symbol ++ " " ++ toString r.depth

/-- `decode_snap_req`. -/
def decodeSnapReq (req : String) : Option SnapRequest :=
  let s := req.toList
  let p1 := find s ' ' 0
  let p2 := find s ' ' (next p1)
  let p3 := find s ' ' (next p2)
  match p1, p2 with
  | some p1, some p2 => do
      let stream ← substr s (p1 + 1) (some (p2 - (p1 + 1)))
      match p3 with
      | none =>
          let symbol ← substr s (p2 + 1) none
          return ⟨String.ofList stream, String.ofList symbol, 10⟩
      | some p3 =>
          let symbol ← substr s (p2 + 1) (some (p3 - (p2 + 1)))
          let depth ← stoul (← substr s (p3 + 1) none)
          return ⟨String.ofList stream, String.ofList symbol, wrap32 depth⟩
  | _, _ => some ⟨"", "", 10⟩

/-! ### Where the decoder cuts -/

section shapes
variable {req : String} {x y z rest : List Char}

theorem decode_of_none (hs : ' ' ∉ req.toList) : decodeSnapReq req = some ⟨"", "", 10⟩ := by
  have hp1 : find req.toList ' ' 0 = none := Text.find_eq_none (l := []) rfl rfl hs
  unfold decodeSnapReq
  simp only [hp1]

/-- The first separator. -/
theorem find_first (hs : req.toList = x ++ ' ' :: rest) (hx : ' ' ∉ x) :
    find req.toList ' ' 0 = some x.length := by
  simpa using Text.find_eq_some (l := []) hs rfl hx

theorem decode_of_one (hs : req.toList = x ++ ' ' :: y) (hx : ' ' ∉ x) (hy : ' ' ∉ y) :
    decodeSnapReq req = some ⟨"", "", 10⟩ := by
  have hp1 := find_first hs hx
  have hp2 : find req.toList ' ' (x.length + 1) = none :=
    Text.find_eq_none (l := x ++ [' ']) (by simpa using hs) (by simp) hy
  unfold decodeSnapReq
  simp only [hp1, next, hp2]

/-- The separator after the first one, and the stream between them. -/
theorem find_second (hs : req.toList = x ++ ' ' :: (y ++ ' ' :: rest)) (hy : ' ' ∉ y) :
    find req.toList ' ' (x.length + 1) = some (x.length + 1 + y.length) ∧
      substr req.toList (x.length + 1) (some (x.length + 1 + y.length - (x.length + 1))) =
        some y := by
  have hs : req.toList = (x ++ [' ']) ++ (y ++ ' ' :: rest) := by simpa using hs
  exact ⟨Text.find_eq_some hs (by simp) hy, Text.substr_eq hs (by simp) (by omega)⟩

theorem length_before_symbol (x y : List Char) :
    x.length + 1 + y.length + 1 = (x ++ ' ' :: (y ++ [' '])).length := by
  simp
  omega

theorem decode_of_two (hs : req.toList = x ++ ' ' :: (y ++ ' ' :: z)) (hx : ' ' ∉ x)
    (hy : ' ' ∉ y) (hz : ' ' ∉ z) :
    decodeSnapReq req = some ⟨String.ofList y, String.ofList z, 10⟩ := by
  have hp1 := find_first hs hx
  obtain ⟨hp2, hstream⟩ := find_second hs hy
  have hs : req.toList = (x ++ ' ' :: (y ++ [' '])) ++ z := by simpa using hs
  have hp3 := Text.find_eq_none hs (length_before_symbol x y) hz
  have hsymbol := Text.substr_end_eq hs (length_before_symbol x y)
  unfold decodeSnapReq
  simp only [hp1, next, hp2, hp3, hstream, hsymbol, bind, Option.bind_some, pure]

theorem decode_of_three (hs : req.toList = x ++ ' ' :: (y ++ ' ' :: (z ++ ' ' :: rest)))
    (hx : ' ' ∉ x) (hy : ' ' ∉ y) (hz : ' ' ∉ z) : decodeSnapReq req =
      (stoul rest).map fun depth => ⟨String.ofList y, String.ofList z, wrap32 depth⟩ := by
  have hp1 := find_first hs hx
  obtain ⟨hp2, hstream⟩ := find_second hs hy
  have hs3 : req.toList = (x ++ ' ' :: (y ++ [' '])) ++ (z ++ ' ' :: rest) := by simpa using hs
  have hp3 := Text.find_eq_some hs3 (length_before_symbol x y) hz
  have hsymbol : substr req.toList (x.length + 1 + y.length + 1) (some (x.length + 1 + y.length +
      1 + z.length - (x.length + 1 + y.length + 1))) = some z :=
    Text.substr_eq hs3 (length_before_symbol x y) (by omega)
  have hdepth : substr req.toList (x.length + 1 + y.length + 1 + z.length + 1) none = some rest :=
    Text.substr_end_eq (l := x ++ ' ' :: (y ++ ' ' :: (z ++ [' ']))) (by simpa using hs)
      (by simp; omega)
  unfold decodeSnapReq
  simp only [hp1, next, hp2, hp3, hstream, hsymbol, hdepth, bind, Option.bind_some, pure]
  cases stoul rest <;> rfl

/-- The four shapes of a request. -/
theorem shape_cases (s : List Char) :
    ' ' ∉ s ∨ (∃ x y, s = x ++ ' ' :: y ∧ ' ' ∉ x ∧ ' ' ∉ y) ∨
    (∃ x y z, s = x ++ ' ' :: (y ++ ' ' :: z) ∧ ' ' ∉ x ∧ ' ' ∉ y ∧ ' ' ∉ z) ∨
    ∃ x y z rest, s = x ++ ' ' :: (y ++ ' ' :: (z ++ ' ' :: rest)) ∧ ' ' ∉ x ∧ ' ' ∉ y ∧
      ' ' ∉ z := by
  by_cases h1 : ' ' ∈ s
  swap
  · exact .inl h1
  obtain ⟨x, s, rfl, hx⟩ := List.eq_append_cons_of_mem h1
  by_cases h2 : ' ' ∈ s
  swap
  · exact .inr (.inl ⟨x, s, rfl, hx, h2⟩)
  obtain ⟨y, s, rfl, hy⟩ := List.eq_append_cons_of_mem h2
  by_cases h3 : ' ' ∈ s
  swap
  · exact .inr (.inr (.inl ⟨x, y, s, rfl, hx, hy, h3⟩))
  obtain ⟨z, rest, rfl, hz⟩ := List.eq_append_cons_of_mem h3
  exact .inr (.inr (.inr ⟨x, y, z, rest, rfl, hx, hy, hz⟩))

end shapes

/-! ### The round trip -/

theorem toList_encodeSnapReq (r : SnapRequest) : (encodeSnapReq r).toList =
    "SNAP".toList ++ ' ' :: (r.stream.toList ++ ' ' :: (r.symbol.toList ++ ' ' ::
      Nat.toDigits 10 r.depth)) := by simp [encodeSnapReq]

/-- A request with one stream and one symbol is decoded as it was encoded. -/
theorem decode_encode (r : SnapRequest) (hstream : ' ' ∉ r.stream.toList)
    (hsymbol : ' ' ∉ r.symbol.toList) (hdepth : r.depth < 2 ^ 32) :
    decodeSnapReq (encodeSnapReq r) = some r := by
  have hfits : r.depth ≤ Text.ulongMax := by
    unfold Text.ulongMax
    omega
  have hwrap : wrap32 r.depth = r.depth := Nat.mod_eq_of_lt hdepth
  rw [decode_of_three (toList_encodeSnapReq r) (by decide) hstream hsymbol,
    Text.stoul_toDigits hfits, Option.map_some, hwrap, String.ofList_toList, String.ofList_toList]

/-- Nothing between the separators. -/
theorem decode_encode_empty : decodeSnapReq (encodeSnapReq ⟨"", "", 2 ^ 32 - 1⟩) =
    some ⟨"", "", 2 ^ 32 - 1⟩ :=
  decode_encode ⟨"", "", 2 ^ 32 - 1⟩ (by simp) (by simp) (by decide)

/-- The stream is read back whatever the symbol is. -/
theorem stream_decode_encode {r r' : SnapRequest} (hstream : ' ' ∉ r.stream.toList)
    (h : decodeSnapReq (encodeSnapReq r) = some r') : r'.stream = r.stream := by
  have hmem : ' ' ∈ r.symbol.toList ++ ' ' :: Nat.toDigits 10 r.depth :=
    List.mem_append_right _ List.mem_cons_self
  obtain ⟨z, rest, hz, hno⟩ := List.eq_append_cons_of_mem hmem
  rw [decode_of_three ((toList_encodeSnapReq r).trans (by rw [hz])) (by decide) hstream hno] at h
  obtain ⟨depth, -, rfl⟩ := Option.map_eq_some_iff.mp h
  exact String.ofList_toList

/-! ### The main loop -/

/-- Everything after a third separator begins as a number. -/
def Readable (req : String) : Prop :=
  ∀ x y z rest, req.toList = x ++ ' ' :: (y ++ ' ' :: (z ++ ' ' :: rest)) → ' ' ∉ x → ' ' ∉ y →
    ' ' ∉ z → Numeral rest

/-- The decoder throws on the requests that are not readable. -/
theorem decode_ne_none_iff (req : String) : decodeSnapReq req ≠ none ↔ Readable req := by
  constructor
  · intro h x y z rest hs hx hy hz
    rw [decode_of_three hs hx hy hz, ne_eq, Option.map_eq_none_iff] at h
    exact Text.stoul_ne_none_iff.mp h
  · intro h
    obtain h0 | ⟨x, y, hs, hx, hy⟩ | ⟨x, y, z, hs, hx, hy, hz⟩ | ⟨x, y, z, rest, hs, hx, hy, hz⟩ :=
      shape_cases req.toList
    · rw [decode_of_none h0]
      exact Option.some_ne_none _
    · rw [decode_of_one hs hx hy]
      exact Option.some_ne_none _
    · rw [decode_of_two hs hx hy hz]
      exact Option.some_ne_none _
    · rw [decode_of_three hs hx hy hz, ne_eq, Option.map_eq_none_iff]
      exact Text.stoul_ne_none_iff.mpr (h x y z rest hs hx hy hz)

/-- The process with the replies that it has sent. -/
structure SimServer where
  sim : Sim
  replies : List (List Frame)
deriving DecidableEq

namespace SimServer

/-- The snapshot service; `none` if the process ends in it. -/
def serve (m : SimServer) (req : String) : Option SimServer :=
  (decodeSnapReq req).map fun r => { m with replies := m.replies ++ [(m.sim.book.reply r).frames] }

/-- What one round of the main loop finds: a request, or none, and its random choices. -/
structure Input where
  req : Option String
  it : Sim.Iteration

/-- One round of the main loop. -/
def round (m : SimServer) (a : Input) : Option SimServer :=
  (a.req.elim (some m) m.serve).map fun m => { m with sim := a.it.actions.foldl Sim.step m.sim }

/-- The request is decoded and answered by one whole reply, and the round goes on to its end. -/
def Survives (m : SimServer) (req : String) : Prop :=
  ∃ r, decodeSnapReq req = some r ∧ ∀ it, m.round ⟨some req, it⟩ =
    some ⟨it.actions.foldl Sim.step m.sim, m.replies ++ [(m.sim.book.reply r).frames]⟩

theorem survives_iff (m : SimServer) (req : String) : m.Survives req ↔ Readable req := by
  rw [← decode_ne_none_iff, Option.ne_none_iff_exists']
  constructor
  · rintro ⟨r, hr, -⟩
    exact ⟨r, hr⟩
  · rintro ⟨r, hr⟩
    refine ⟨r, hr, fun it => ?_⟩
    simp [round, serve, hr]

/-- A depth that is no number. -/
theorem not_survives_noDepth :
    ¬ (⟨Sim.start 1 200000, []⟩ : SimServer).Survives "SNAP L2 ETH-USD x" := by
  rintro ⟨r, hr, -⟩
  have hnone : decodeSnapReq "SNAP L2 ETH-USD x" = none := by decide
  rw [hnone] at hr
  cases hr

/-- A round ends the process, or it answers the request that it found. -/
theorem round_cases (m : SimServer) (a : Input) :
    m.round a = none ∧ (∃ req ∈ a.req, ¬ Readable req) ∨
      ∃ m', m.round a = some m' ∧ (∀ req ∈ a.req, Readable req) ∧
        m'.replies.length = m.replies.length + a.req.toList.length := by
  obtain ⟨req, it⟩ := a
  cases req with
  | none => exact .inr ⟨_, rfl, by simp, rfl⟩
  | some req =>
      cases hr : decodeSnapReq req with
      | none =>
          refine .inl ⟨by simp [round, serve, hr], req, rfl, fun h => ?_⟩
          exact (decode_ne_none_iff req).mpr h hr
      | some r =>
          refine .inr ⟨⟨it.actions.foldl Sim.step m.sim, m.replies ++ [(m.sim.book.reply r).frames]⟩,
            by simp [round, serve, hr], ?_, by simp⟩
          intro req' hreq
          obtain rfl := Option.some_inj.mp hreq
          exact (decode_ne_none_iff req).mp (by rw [hr]; exact Option.some_ne_none r)

/-- The process runs on, and answers every request, if and only if all requests are readable. -/
theorem run_round_iff (as : List Input) (m : SimServer) :
    (∃ m', run round m as = some m' ∧
      m'.replies.length = m.replies.length + (as.flatMap fun a => a.req.toList).length) ↔
        ∀ a ∈ as, ∀ req ∈ a.req, Readable req := by
  induction as generalizing m with
  | nil => simp
  | cons a as ih =>
      rw [List.forall_mem_cons, List.flatMap_cons, List.length_append]
      show (∃ m', (m.round a).bind _ = _ ∧ _) ↔ _
      obtain ⟨hnone, req, hreq, hnot⟩ | ⟨m1, hm1, hread, hlen⟩ := m.round_cases a
      · rw [hnone]
        exact ⟨fun ⟨_, h, _⟩ => absurd h.symm (Option.some_ne_none _),
          fun h => absurd (h.1 req hreq) hnot⟩
      · rw [hm1, Option.bind_some, ← Nat.add_assoc, ← hlen, ih m1]
        exact ⟨fun h => ⟨hread, h⟩, fun h => h.2⟩

end SimServer

end Trading
