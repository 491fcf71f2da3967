import Trading.Feed

/-! # The top of book over L1

Only a mutation of the simulator's book changes its top, and every mutation has a sequence number
of its own, so the sequence number of an L1 message or snapshot decides what it says.  The
subscriber's `tob` with `last_l1` is then a dated register (`Tops.register`): what it holds depends
on the newest top of book received, whatever the channel does to the messages. -/

namespace Trading

open Replication (keepNewer foldl_keepNewer_eq)
open Transition (run run_preserves States Along)

theorem LocalBook.register_applyL1 (b : LocalBook) (p : L1Payload) (seq : ℕ) :
    ((b.applyL1 p seq).lastL1, (b.applyL1 p seq).tob) =
      keepNewer (b.lastL1, b.tob) (seq, p.tob) := by
  unfold applyL1 keepNewer
  dsimp only
  split_ifs <;> rfl

namespace Feed

/-- The tops of book received, each with its sequence number. -/
def tops (f : Feed) : List (ℕ × TopOfBook) := f.heardL1.map fun x => (x.1, x.2.tob)

/-- The top of book, with its date, is that of a register which has seen what was received. -/
structure Tops (f : Feed) : Prop where
  register : (f.sub.book.lastL1, f.sub.book.tob) = f.tops.foldl keepNewer (0, {})
  first : ∃ b : Book, f.sim.past[0]? = some b ∧ b.tob = {}
  heard : ∀ n p, (n, p) ∈ f.heardL1 → ∃ b : Book, f.sim.past[n]? = some b ∧ p = b.tob.toPayload

section tops
variable {f f' : Feed} {a : Action}

/-- A top of book received now. -/
theorem Tops.hear (h : f.Tops) {n : ℕ} {p : L1Payload} {sub : Subscriber}
    (hb : ∃ b : Book, f.sim.past[n]? = some b ∧ p = b.tob.toPayload)
    (hsub : sub.book = f.sub.book.applyL1 p n) :
    Tops { f with sub := sub, heardL1 := f.heardL1 ++ [(n, p)] } where
  register := by
    have hfold := (f.sub.book.register_applyL1 p n).trans
      (congrArg (keepNewer · (n, p.tob)) h.register)
    show (sub.book.lastL1, sub.book.tob) =
      List.foldl keepNewer (0, {}) (List.map _ (f.heardL1 ++ [(n, p)]))
    rw [hsub, hfold, List.map_append, List.foldl_append]
    rfl
  first := h.first
  heard n' p' hp := by
    rcases List.mem_append.mp hp with hp | hp
    · exact h.heard n' p' hp
    · obtain ⟨rfl, rfl⟩ := Prod.mk.inj (List.mem_singleton.mp hp)
      exact hb

theorem Tops.step (h : f.Tops) (hok : f.Ok) (hs : f.step a = some f') : f'.Tops := by
  cases moves_of_step hok hs with
  | sim a =>
      obtain ⟨b, hb, htob⟩ := h.first
      refine ⟨h.register, ⟨b, Sim.getElem?_past_step hb a, htob⟩, ?_⟩
      intro n p hp
      obtain ⟨b, hb, rfl⟩ := h.heard n p hp
      exact ⟨b, Sim.getElem?_past_step hb a, rfl⟩
  | stale | gap | serve | giveUp => exact ⟨h.register, h.first, h.heard⟩
  | next | storeL2 => exact ⟨h.register, h.first, h.heard⟩
  | @top i n p hphase hev => exact h.hear (hok.sim.tops n p (List.mem_of_getElem? hev)) rfl
  | @storeL1 r n p hphase => exact h.hear (hok.reply_l1 hphase) rfl

theorem tops_start (tickSize mid : PriceTicks) (symbol : String) (depth : ℕ) :
    (start tickSize mid symbol depth).Tops where
  register := rfl
  first := ⟨_, Sim.past_start tickSize mid, rfl⟩
  heard n p hp := by cases hp

theorem tops_run {tickSize mid : PriceTicks} {symbol : String} {depth : ℕ} {acts : List Action}
    {f : Feed} (hrun : run step (start tickSize mid symbol depth) acts = some f) : f.Tops :=
  (run_preserves (P := fun f => f.Ok ∧ f.Tops) ⟨ok_start .., tops_start ..⟩
    (fun _ _ _ h hs => ⟨h.1.step hs, h.2.step h.1 hs⟩) hrun).2

/-- One sequence number, one top of book. -/
theorem Tops.date (h : f.Tops) :
    ∀ x ∈ (0, {}) :: f.tops, ∃ b : Book, f.sim.past[x.1]? = some b ∧ x.2 = b.tob := by
  intro x hx
  rcases List.mem_cons.mp hx with rfl | hx
  · obtain ⟨b, hb, htob⟩ := h.first
    exact ⟨b, hb, htob.symm⟩
  · obtain ⟨⟨n, p⟩, hp, rfl⟩ := List.mem_map.mp hx
    obtain ⟨b, hb, rfl⟩ := h.heard n p hp
    exact ⟨b, hb, rfl⟩

/-- A top of book whose sequence number is the largest received is the one held. -/
theorem Tops.latest (h : f.Tops) {n : ℕ} {p : L1Payload} (hp : (n, p) ∈ f.heardL1)
    (hmax : ∀ x ∈ f.heardL1, x.1 ≤ n) : f.sub.book.lastL1 = n ∧ f.sub.book.tob = p.tob := by
  have hmem : (n, p.tob) ∈ (0, {}) :: f.tops :=
    List.mem_cons_of_mem _ (List.mem_map.mpr ⟨(n, p), hp, rfl⟩)
  have hdate : ∀ y ∈ (0, {}) :: f.tops, ∀ z ∈ (0, {}) :: f.tops, y.1 = z.1 → y = z := by
    intro y hy z hz hyz
    obtain ⟨b, hb, hyb⟩ := h.date y hy
    obtain ⟨c, hc, hzc⟩ := h.date z hz
    rw [hyz, hc] at hb
    obtain rfl := Option.some_inj.mp hb
    exact Prod.ext hyz (hyb.trans hzc.symm)
  have hle : ∀ y ∈ (0, {}) :: f.tops, y.1 ≤ n := by
    intro y hy
    rcases List.mem_cons.mp hy with rfl | hy
    · exact Nat.zero_le n
    · obtain ⟨x, hx, rfl⟩ := List.mem_map.mp hy
      exact hmax x hx
  exact Prod.mk.inj (h.register.trans (foldl_keepNewer_eq hdate hmem hle))

end tops

/-- The subscriber's top of book is the simulator's as it was at `last_l1`. -/
def TopRight (f : Feed) : Prop :=
  ∃ b : Book, f.sim.past[f.sub.book.lastL1]? = some b ∧ f.sub.book.tob = b.tob

/-- **The top of book is right and the newest.** Whatever the channel does, it is the simulator's at
`last_l1`, which never decreases; and it is what the message or snapshot with the largest sequence
number received says. -/
theorem top_run (tickSize mid : PriceTicks) (symbol : String) (depth : ℕ) (acts : List Action) :
    States step (start tickSize mid symbol depth) (fun _ f => f.TopRight) acts ∧
      Along step (start tickSize mid symbol depth)
        (fun _ f a => ∀ f', f.step a = some f' → f.sub.book.lastL1 ≤ f'.sub.book.lastL1) acts ∧
      States step (start tickSize mid symbol depth)
        (fun _ f => ∀ n p, (n, p) ∈ f.heardL1 → (∀ x ∈ f.heardL1, x.1 ≤ n) →
          f.sub.book.lastL1 = n ∧ f.sub.book.tob = p.tob) acts := by
  refine ⟨fun pre _ _ f hf => (ok_run hf).top, ?_,
    fun pre _ _ f hf n p hp hmax => (tops_run hf).latest hp hmax⟩
  intro pre a post _ f hf f' hs
  cases moves_of_step (ok_run hf) hs with
  | sim | stale | gap | serve | giveUp => exact le_rfl
  | next | storeL2 => exact le_rfl
  | top | storeL1 => exact LocalBook.lastL1_le_applyL1 ..

end Feed
end Trading
