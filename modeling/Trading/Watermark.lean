import Trading.Consumers
import Trading.CrossValidator

/-! # The watermark of the consumer

`last_l2_seq_applied` is meant to be the sequence number of the latest delta applied, and the
cross-validator waits for it.  The consumer does not write it.

`watermark_iff` says which sequences of events leave it right: those whose deltas all have the
number 0.  `xvalRuns_eq_zero` is what follows for the two together: after a snapshot with any other
number the cross-validator waits for ever. -/

namespace Trading

open CrossValidator (Waits)
open Transition (run run_preserves run_invariant States)

/-! ### The metric -/

namespace MarketBook

/-- One event of the ring. -/
def step (m : MarketBook) (ev : MDEvent) : Option MarketBook := some (m.consume ev)

/-- After the events `evs` the metric is the number of the delta just applied, and the wait for a
snapshot is over exactly if a delta of its number or a later one has been applied.  Number 0 is that
of the book before all deltas. -/
def Watermark (evs : List MDEvent) (m : MarketBook) : Prop :=
  (∀ n d, evs.getLast? = some (.l2Delta n d) → m.metrics.lastL2SeqApplied = n) ∧
    ∀ snapSeq, 0 < snapSeq → (¬ Waits m.metrics.lastL2SeqApplied snapSeq ↔
      ∃ n d, .l2Delta n d ∈ evs ∧ snapSeq ≤ n)

section metric
variable {m m' : MarketBook} {evs : List MDEvent}

@[simp] theorem lastL2SeqApplied_consume (m : MarketBook) (ev : MDEvent) :
    (m.consume ev).metrics.lastL2SeqApplied = m.metrics.lastL2SeqApplied := by
  cases ev <;> rfl

/-- The consumer takes every event. -/
theorem exists_run : ∀ (evs : List MDEvent) (m : MarketBook), ∃ m', run step m evs = some m'
  | [], m => ⟨m, rfl⟩
  | ev :: evs, m => exists_run evs (m.consume ev)

theorem lastL2SeqApplied_run (h : run step empty evs = some m) :
    m.metrics.lastL2SeqApplied = 0 := by
  refine run_preserves (P := fun m => m.metrics.lastL2SeqApplied = 0) rfl ?_ h
  intro m ev m' hm hs
  obtain rfl := Option.some_inj.mp hs
  simp [hm]

/-- **The watermark** follows the deltas applied if and only if they all have the number 0. -/
theorem watermark_iff (evs : List MDEvent) :
    States step empty Watermark evs ↔ ∀ n d, .l2Delta n d ∈ evs → n = 0 := by
  constructor
  · intro h n d hmem
    obtain ⟨pre, post, rfl⟩ := List.append_of_mem hmem
    obtain ⟨m, hm⟩ := exists_run (pre ++ [.l2Delta n d]) empty
    have hlast := (h (pre ++ [.l2Delta n d]) post (by simp) m hm).1 n d (by simp)
    rw [← hlast, lastL2SeqApplied_run hm]
  · intro h pre post he m hm
    have hzero := lastL2SeqApplied_run hm
    have hpre : ∀ n d, .l2Delta n d ∈ pre → n = 0 := fun n d hmem =>
      h n d (he ▸ List.mem_append_left _ hmem)
    refine ⟨fun n d hlast => ?_, fun snapSeq hpos => ?_⟩
    · rw [hzero, hpre n d (List.mem_of_getLast? hlast)]
    · rw [hzero]
      refine iff_of_false (fun hw => hw hpos) ?_
      rintro ⟨n, d, hmem, hle⟩
      have := hpre n d hmem
      omega

/-- The first delta after a start from the simulator's seeded book. -/
theorem watermark_stays : ¬ States step empty Watermark [.l2Delta 21 {}] := by
  intro h
  exact absurd ((h.last rfl).1 21 {} rfl) (by decide +kernel)

end metric
end MarketBook

/-! ### The consumer and the cross-validator -/

/-- The consumer, and the cross-validator that watches it. -/
structure WatchedBook where
  market : MarketBook
  validator : CrossValidator
deriving DecidableEq

namespace WatchedBook

inductive Action where
  | consume (ev : MDEvent)
  | send
  | recv (f : Option Frame)
  | poll
  | snapshot
deriving DecidableEq

def start (symbol : String) (depth : ℕ) : WatchedBook := ⟨.empty, .start symbol depth⟩

def validate (w : WatchedBook) (i : CrossValidator.Input) : Option WatchedBook :=
  (w.validator.step i).map fun v => { w with validator := v }

def step (w : WatchedBook) : Action → Option WatchedBook
  | .consume ev => some { w with market := w.market.consume ev }
  | .send => w.validate .send
  | .recv f => w.validate (.recv f)
  | .poll => w.validate (.poll w.market.metrics.lastL2SeqApplied)
  | .snapshot => w.validate (.snapshot w.market.book)

/-- The frame is not the header of a snapshot of the book before all deltas. -/
def Numbered : Action → Prop
  | .recv (some f) => ∀ kind, f ≠ .header kind 0
  | _ => True

/-- No snapshot but of number 0 gets past the wait. -/
def Stuck (v : CrossValidator) : Prop :=
  match v.phase with
  | .head => True
  | .receive got => ∀ kind, .header kind 0 ∉ got
  | .wait snapSeq _ _ => snapSeq ≠ 0
  | .look .. => False

section stuck
variable {w w' : WatchedBook} {v v' : CrossValidator} {a : Action}

/-- A step of the consumer, or of the cross-validator. -/
theorem step_cases (hs : w.step a = some w') :
    (∃ ev, w' = { w with market := w.market.consume ev }) ∨
      ∃ i v, w.validator.step i = some v ∧ w' = { w with validator := v } ∧
        (∀ n, i = .poll n → n = w.market.metrics.lastL2SeqApplied) ∧
        ∀ f, i = .recv (some f) → a = .recv (some f) := by
  cases a with
  | consume ev => exact .inl ⟨ev, (Option.some_inj.mp hs).symm⟩
  | send | recv | poll | snapshot =>
      obtain ⟨v, hv, rfl⟩ := Option.map_eq_some_iff.mp hs
      exact .inr ⟨_, v, hv, rfl, by simp, by simp⟩

theorem stuck_checked {got : List Frame} (h : ∀ kind, Frame.header kind 0 ∉ got)
    (hv : v.phase = CrossValidator.checked got) : Stuck v := by
  unfold Stuck
  obtain hc | ⟨snapSeq, snapDepth, sim, hc, rfl⟩ := CrossValidator.checked_cases got
  · rw [hv, hc]
    trivial
  · rw [hv, hc]
    rintro rfl
    exact h .l2Snap (by simp)

/-- Against a metric of 0 the cross-validator stays stuck. -/
theorem Stuck.step {i : CrossValidator.Input} (h : Stuck v) (hs : v.step i = some v')
    (hpoll : ∀ n, i = .poll n → n = 0)
    (hrecv : ∀ f, i = .recv (some f) → ∀ kind, f ≠ .header kind 0) :
    Stuck v' ∧ v'.xvalRuns = v.xvalRuns := by
  have hgot : ∀ got f, v.phase = .receive got → i = .recv (some f) →
      ∀ kind, Frame.header kind 0 ∉ got ++ [f] := by
    intro got f hphase hi kind
    unfold Stuck at h
    rw [hphase] at h
    simpa [h kind] using (hrecv f hi kind).symm
  cases CrossValidator.moves_of_step hs with
  | send => exact ⟨by simp [Stuck], rfl⟩
  | timeout => exact ⟨trivial, rfl⟩
  | frame hphase => exact ⟨hgot _ _ hphase rfl, rfl⟩
  | last hphase => exact ⟨stuck_checked (hgot _ _ hphase rfl) rfl, rfl⟩
  | again => exact ⟨h, rfl⟩
  | @caughtUp n snapSeq snapDepth sim hphase hw =>
      unfold Stuck at h
      rw [hphase] at h
      have hn := hpoll n rfl
      unfold Waits at hw
      dsimp only at h
      omega
  | compare hphase =>
      unfold Stuck at h
      rw [hphase] at h
      exact h.elim

end stuck

/-- The cross-validator completes no round, unless it is sent a snapshot with the number 0. -/
theorem xvalRuns_eq_zero (symbol : String) (depth : ℕ) {acts : List Action} {w : WatchedBook}
    (hacts : ∀ a ∈ acts, Numbered a) (hw : run step (start symbol depth) acts = some w) :
    w.validator.xvalRuns = 0 := by
  have hinv : w.market.metrics.lastL2SeqApplied = 0 ∧ Stuck w.validator ∧
      w.validator.xvalRuns = 0 := by
    refine run_invariant (G := fun _ _ a => Numbered a) (P := fun _ w =>
      w.market.metrics.lastL2SeqApplied = 0 ∧ Stuck w.validator ∧ w.validator.xvalRuns = 0)
      ⟨rfl, by simp [Stuck, start, CrossValidator.start], rfl⟩ ?_
      (fun pre a post he _ _ => hacts a (by simp [he])) hw
    rintro _ w a w' ⟨hzero, hstuck, hruns⟩ ha hs
    obtain ⟨ev, rfl⟩ | ⟨i, v, hv, rfl, hpoll, hrecv⟩ := step_cases hs
    · exact ⟨by simp [hzero], hstuck, hruns⟩
    · have hstep := hstuck.step hv (fun n hi => (hpoll n hi).trans hzero) fun f hi => by
        obtain rfl := hrecv f hi
        exact ha
      exact ⟨hzero, hstep.1, hstep.2.trans hruns⟩
  exact hinv.2.2

end WatchedBook
end Trading
