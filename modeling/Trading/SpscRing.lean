import Mathlib.Data.Nat.ModEq
import Trading.BoundedQueue
import Trading.Transition

/-! # The single-producer single-consumer ring

The class template `SpscRing` of `containers/SpscRing.hpp`, run by one producer and one consumer
whose individual steps are interleaved: each call loads its own counter, loads the other side's
counter and decides, accesses the slot and stores its own counter.  The counters are 64-bit and
wrap.

* A step that accesses a slot outside `buf_` is undefined: there is no next state.
* What `std::move` leaves behind in an object is the parameter `moved`.  The two overloads of
  `try_push` differ in what they leave in the caller's object and in nothing else.
* `log` records the completed calls: a call that takes effect is complete when it stores its
  counter, a failing one when it loads the other side's counter.

`Moves` says once what a step can do, `Inv` is the invariant of every interleaving, and `legal_run`
what it is for: the completed calls are the calls of a bounded queue, each taking effect at its
last step. -/

namespace Trading

open BoundedQueue (Call accepted returned Effect Legal)
open Transition (run run_preserves States)

structure SpscRing (α : Type*) where
  mask : UInt64
  buf : List α
  head : UInt64
  tail : UInt64
deriving DecidableEq

namespace SpscRing

variable {α : Type*}

/-- The constructor, which refuses a capacity that is no power of two. -/
def make [Inhabited α] (capacity : UInt64) : Option (SpscRing α) :=
  let mask := capacity - 1
  if capacity &&& mask ≠ 0 then none
  else some ⟨mask, List.replicate capacity.toNat default, 0, 0⟩

/-- The index of a slot, `i & mask_`. -/
def slot (r : SpscRing α) (i : UInt64) : ℕ := (i &&& r.mask).toNat

/-- `next - tail_.load() > buf_.size()` with `next = h + 1`. -/
def isFull (r : SpscRing α) (h : UInt64) : Bool := h + 1 - r.tail > UInt64.ofNat r.buf.length

/-- `buf_[i] = v`. -/
def store (r : SpscRing α) (i : ℕ) (v : α) : SpscRing α := { r with buf := r.buf.set i v }

/-! ### The steps of the two sides -/

/-- The overloads of `try_push`. -/
inductive Overload where
  | rvalue
  | lvalue
deriving DecidableEq, Repr

/-- How far a call of `try_push` has come: `h` is the counter it has loaded. -/
inductive Producer (α : Type*) where
  | idle
  | loaded (o : Overload) (v : α) (h : UInt64)
  | admitted (o : Overload) (v : α) (h : UInt64)
  | written (v : α) (h : UInt64)
deriving DecidableEq

/-- How far a call of `try_pop` has come: `t` is the counter it has loaded. -/
inductive Consumer (α : Type*) where
  | idle
  | loaded (t : UInt64)
  | available (t : UInt64)
  | taken (t : UInt64) (out : α)
deriving DecidableEq

/-- A ring in use.  `arg` is the object the producer passes. -/
structure State (α : Type*) where
  ring : SpscRing α
  producer : Producer α
  consumer : Consumer α
  arg : α
  log : List (Call α)
deriving DecidableEq

/-- The step that the scheduler picks: a side begins a call or goes on with it. -/
inductive Action (α : Type*) where
  | push (o : Overload) (v : α)
  | producer
  | pop
  | consumer
deriving DecidableEq

/-- What a call leaves in the caller's object once the slot is written. -/
def Overload.leave (moved : α → α) : Overload → α → α
  | .rvalue, v => moved v
  | .lvalue, v => v

/-- The next step of `try_push`. -/
def stepProducer (moved : α → α) (s : State α) : Option (State α) :=
  match s.producer with
  | .idle => none
  | .loaded o v h =>
      if s.ring.isFull h then
        some { s with producer := .idle, log := s.log ++ [.push v false] }
      else some { s with producer := .admitted o v h }
  | .admitted o v h =>
      if s.ring.slot h < s.ring.buf.length then
        some { s with
          ring := s.ring.store (s.ring.slot h) v
          producer := .written v h
          arg := o.leave moved v }
      else none
  | .written v h =>
      some { s with
        ring := { s.ring with head := h + 1 }
        producer := .idle
        log := s.log ++ [.push v true] }

/-- The next step of `try_pop`. -/
def stepConsumer (moved : α → α) (s : State α) : Option (State α) :=
  match s.consumer with
  | .idle => none
  | .loaded t =>
      if t = s.ring.head then
        some { s with consumer := .idle, log := s.log ++ [.pop none] }
      else some { s with consumer := .available t }
  | .available t =>
      match s.ring.buf[s.ring.slot t]? with
      | none => none
      | some v =>
          some { s with
            ring := s.ring.store (s.ring.slot t) (moved v)
            consumer := .taken t v }
  | .taken t out =>
      some { s with
        ring := { s.ring with tail := t + 1 }
        consumer := .idle
        log := s.log ++ [.pop (some out)] }

def step (moved : α → α) (s : State α) : Action α → Option (State α)
  | .push o v =>
      match s.producer with
      | .idle => some { s with producer := .loaded o v s.ring.head, arg := v }
      | _ => none
  | .producer => stepProducer moved s
  | .pop =>
      match s.consumer with
      | .idle => some { s with consumer := .loaded s.ring.tail }
      | _ => none
  | .consumer => stepConsumer moved s

/-- The ring as the constructor leaves it, with both sides idle. -/
def start [Inhabited α] (r : SpscRing α) : State α := ⟨r, .idle, .idle, default, []⟩

namespace State

/-- The values accepted so far. -/
def accepted (s : State α) : List α := BoundedQueue.accepted s.log

/-- The values returned so far. -/
def returned (s : State α) : List α := BoundedQueue.returned s.log

/-- The values accepted and not yet returned. -/
def unread (s : State α) : List α := s.accepted.drop s.returned.length

/-- The values of the completed pushes, accepted or not. -/
def offered (s : State α) : List α := BoundedQueue.offered s.log

end State

/-! ### What a step can do -/

/-- The steps of the two sides, each with the state it starts from and the one it leads to. -/
inductive Moves (moved : α → α) : State α → Action α → State α → Prop
  | push {r : SpscRing α} {c : Consumer α} {arg : α} {log : List (Call α)} {o : Overload} {v : α} :
      Moves moved ⟨r, .idle, c, arg, log⟩ (.push o v) ⟨r, .loaded o v r.head, c, v, log⟩
  | refuse {r : SpscRing α} {c : Consumer α} {arg : α} {log : List (Call α)} {o : Overload} {v : α}
      {h : UInt64} : r.isFull h = true →
      Moves moved ⟨r, .loaded o v h, c, arg, log⟩ .producer
        ⟨r, .idle, c, arg, log ++ [.push v false]⟩
  | accept {r : SpscRing α} {c : Consumer α} {arg : α} {log : List (Call α)} {o : Overload} {v : α}
      {h : UInt64} : ¬ r.isFull h = true →
      Moves moved ⟨r, .loaded o v h, c, arg, log⟩ .producer ⟨r, .admitted o v h, c, arg, log⟩
  | write {r : SpscRing α} {c : Consumer α} {arg : α} {log : List (Call α)} {o : Overload} {v : α}
      {h : UInt64} : r.slot h < r.buf.length →
      Moves moved ⟨r, .admitted o v h, c, arg, log⟩ .producer
        ⟨r.store (r.slot h) v, .written v h, c, o.leave moved v, log⟩
  | commit {r : SpscRing α} {c : Consumer α} {arg : α} {log : List (Call α)} {v : α} {h : UInt64} :
      Moves moved ⟨r, .written v h, c, arg, log⟩ .producer
        ⟨{ r with head := h + 1 }, .idle, c, arg, log ++ [.push v true]⟩
  | pop {r : SpscRing α} {p : Producer α} {arg : α} {log : List (Call α)} :
      Moves moved ⟨r, p, .idle, arg, log⟩ .pop ⟨r, p, .loaded r.tail, arg, log⟩
  | miss {r : SpscRing α} {p : Producer α} {arg : α} {log : List (Call α)} {t : UInt64} :
      t = r.head →
      Moves moved ⟨r, p, .loaded t, arg, log⟩ .consumer ⟨r, p, .idle, arg, log ++ [.pop none]⟩
  | find {r : SpscRing α} {p : Producer α} {arg : α} {log : List (Call α)} {t : UInt64} :
      ¬ t = r.head →
      Moves moved ⟨r, p, .loaded t, arg, log⟩ .consumer ⟨r, p, .available t, arg, log⟩
  | take {r : SpscRing α} {p : Producer α} {arg : α} {log : List (Call α)} {t : UInt64} {v : α} :
      r.buf[r.slot t]? = some v →
      Moves moved ⟨r, p, .available t, arg, log⟩ .consumer
        ⟨r.store (r.slot t) (moved v), p, .taken t v, arg, log⟩
  | release {r : SpscRing α} {p : Producer α} {arg : α} {log : List (Call α)} {t : UInt64}
      {out : α} :
      Moves moved ⟨r, p, .taken t out, arg, log⟩ .consumer
        ⟨{ r with tail := t + 1 }, p, .idle, arg, log ++ [.pop (some out)]⟩

theorem moves_of_stepProducer {moved : α → α} {s s' : State α}
    (hs : stepProducer moved s = some s') : Moves moved s .producer s' := by
  obtain ⟨r, p, c, arg, log⟩ := s
  unfold stepProducer at hs
  cases p with
  | idle => cases hs
  | loaded o v h =>
      dsimp only at hs
      split_ifs at hs with hfull
      · exact Option.some_inj.mp hs ▸ .refuse hfull
      · exact Option.some_inj.mp hs ▸ .accept hfull
  | admitted o v h =>
      dsimp only at hs
      split_ifs at hs with hslot
      exact Option.some_inj.mp hs ▸ .write hslot
  | written v h => exact Option.some_inj.mp hs ▸ .commit

theorem moves_of_stepConsumer {moved : α → α} {s s' : State α}
    (hs : stepConsumer moved s = some s') : Moves moved s .consumer s' := by
  obtain ⟨r, p, c, arg, log⟩ := s
  unfold stepConsumer at hs
  cases c with
  | idle => cases hs
  | loaded t =>
      dsimp only at hs
      split_ifs at hs with hempty
      · exact Option.some_inj.mp hs ▸ .miss hempty
      · exact Option.some_inj.mp hs ▸ .find hempty
  | available t =>
      dsimp only at hs
      cases hv : r.buf[r.slot t]? with
      | none => rw [hv] at hs; cases hs
      | some v =>
          rw [hv] at hs
          exact Option.some_inj.mp hs ▸ .take hv
  | taken t out => exact Option.some_inj.mp hs ▸ .release

theorem moves_of_step {moved : α → α} {s s' : State α} {a : Action α}
    (hs : step moved s a = some s') : Moves moved s a s' := by
  cases a with
  | push o v =>
      obtain ⟨r, p, c, arg, log⟩ := s
      cases p with
      | idle => exact Option.some_inj.mp hs ▸ .push
      | loaded | admitted | written => cases hs
  | producer => exact moves_of_stepProducer hs
  | pop =>
      obtain ⟨r, p, c, arg, log⟩ := s
      cases c with
      | idle => exact Option.some_inj.mp hs ▸ .pop
      | loaded | available | taken => cases hs
  | consumer => exact moves_of_stepConsumer hs

/-! ### Slots -/

/-- The ring has `cap` slots, a power of two unless there are none. -/
structure Layout (cap : ℕ) (r : SpscRing α) : Prop where
  size : r.buf.length = cap
  mask : r.mask = UInt64.ofNat cap - 1
  shape : cap = 0 ∨ ∃ k < 64, cap = 2 ^ k

theorem layout_make [Inhabited α] {capacity : UInt64} {r : SpscRing α} (h : make capacity = some r) :
    Layout capacity.toNat r := by
  unfold make at h
  simp only [ne_eq, ite_not] at h
  split_ifs at h with hmask
  obtain rfl := Option.some_inj.mp h
  refine ⟨List.length_replicate, by rw [UInt64.ofNat_toNat], ?_⟩
  by_cases h0 : capacity.toNat = 0
  · exact .inl h0
  · have hle : (1 : UInt64) ≤ capacity := UInt64.le_iff_toNat_le.mpr (by
      rw [UInt64.toNat_one]; omega)
    have hand : capacity.toNat &&& (capacity.toNat - 1) = 0 := by
      have h1 := congrArg UInt64.toNat hmask
      rwa [UInt64.toNat_and, UInt64.toNat_sub_of_le _ _ hle, UInt64.toNat_one] at h1
    obtain ⟨k, hk⟩ := (Nat.and_sub_one_eq_zero_iff_isPowerOfTwo h0).mp hand
    refine .inr ⟨k, ?_, hk⟩
    have hlt := capacity.toNat_lt
    rw [hk] at hlt
    exact (Nat.pow_lt_pow_iff_right (by decide)).mp hlt

/-- The constructor accepts the powers of two, and no slots at all. -/
theorem make_isSome_iff [Inhabited α] {capacity : UInt64} :
    (make capacity : Option (SpscRing α)).isSome ↔
      capacity.toNat = 0 ∨ ∃ k < 64, capacity.toNat = 2 ^ k := by
  constructor
  · intro h
    obtain ⟨r, hr⟩ := Option.isSome_iff_exists.mp h
    exact (layout_make hr).shape
  · intro h
    have hmask : capacity &&& (capacity - 1) = 0 := by
      rw [← UInt64.toNat_inj, UInt64.toNat_and, UInt64.toNat_zero]
      obtain h0 | ⟨k, -, hk⟩ := h
      · rw [h0, Nat.zero_and]
      · have hle : (1 : UInt64) ≤ capacity := UInt64.le_iff_toNat_le.mpr (by
          rw [UInt64.toNat_one, hk]
          exact Nat.one_le_two_pow)
        rw [UInt64.toNat_sub_of_le _ _ hle, UInt64.toNat_one, hk, Nat.and_two_pow_sub_one_eq_mod,
          Nat.mod_self]
    simp [make, hmask]

section slots
variable {cap : ℕ} {r : SpscRing α}

theorem Layout.cap_le (h : Layout cap r) : cap ≤ 2 ^ 63 := by
  obtain h0 | ⟨k, hk, rfl⟩ := h.shape
  · omega
  · exact Nat.pow_le_pow_right (by decide) (by omega)

theorem Layout.store (h : Layout cap r) (i : ℕ) (v : α) : Layout cap (r.store i v) :=
  ⟨List.length_set.trans h.size, h.mask, h.shape⟩

/-- The mask takes a counter modulo the capacity. -/
theorem Layout.slot_eq (h : Layout cap r) (hpos : 0 < cap) (n : ℕ) :
    r.slot (UInt64.ofNat n) = n % cap := by
  obtain h0 | ⟨k, hk, rfl⟩ := h.shape
  · omega
  · have hk' : 2 ^ k < 2 ^ 64 := Nat.pow_lt_pow_right (by decide) hk
    have hmask : (UInt64.ofNat (2 ^ k) - 1).toNat = 2 ^ k - 1 := by
      have hle : (1 : UInt64) ≤ UInt64.ofNat (2 ^ k) := UInt64.le_iff_toNat_le.mpr (by
        rw [UInt64.toNat_one, UInt64.toNat_ofNat_of_lt' hk']; omega)
      rw [UInt64.toNat_sub_of_le _ _ hle, UInt64.toNat_ofNat_of_lt' hk', UInt64.toNat_one]
    have hdvd : 2 ^ k ∣ 2 ^ 64 := pow_dvd_pow 2 (by omega)
    unfold slot
    rw [h.mask, UInt64.toNat_and, hmask, UInt64.toNat_ofNat', Nat.and_two_pow_sub_one_eq_mod,
      Nat.mod_mod_of_dvd _ hdvd]

theorem Layout.slot_lt (h : Layout cap r) (hpos : 0 < cap) (n : ℕ) :
    r.slot (UInt64.ofNat n) < r.buf.length := by
  rw [h.slot_eq hpos, h.size]
  exact Nat.mod_lt n hpos

/-- Counters less than the capacity apart have different slots. -/
theorem Layout.slot_ne (h : Layout cap r) {i j : ℕ} (hij : i < j) (hlt : j < i + cap) :
    r.slot (UInt64.ofNat i) ≠ r.slot (UInt64.ofNat j) := by
  have hpos : 0 < cap := by omega
  rw [h.slot_eq hpos, h.slot_eq hpos]
  intro hmod
  have hdvd := (Nat.modEq_iff_dvd' hij.le).mp hmod
  have := Nat.le_of_dvd (by omega) hdvd
  omega

/-- The test of `try_push`, read on the numbers of values. -/
theorem isFull_iff (h : Layout cap r) {a t : ℕ} (htail : r.tail = UInt64.ofNat t) (hle : t ≤ a)
    (hcap : a ≤ t + cap) : r.isFull (UInt64.ofNat a) = true ↔ a = t + cap := by
  have hsmall := h.cap_le
  have hsize : UInt64.size = 2 ^ 64 := rfl
  have hsub : UInt64.ofNat a + 1 - r.tail = UInt64.ofNat (a + 1 - t) := by
    rw [htail, UInt64.ofNat_sub (by omega), UInt64.ofNat_add]
    rfl
  unfold isFull
  rw [hsub, decide_eq_true_iff, gt_iff_lt, UInt64.lt_iff_toNat_lt, h.size,
    UInt64.toNat_ofNat_of_lt' (by omega), UInt64.toNat_ofNat_of_lt' (by omega)]
  omega

/-- The test of `try_pop`, read on the numbers of values. -/
theorem ofNat_eq_iff {a t : ℕ} (hle : t ≤ a) (hcap : a < t + 2 ^ 64) :
    UInt64.ofNat t = UInt64.ofNat a ↔ t = a := by
  rw [← UInt64.toNat_inj, UInt64.toNat_ofNat', UInt64.toNat_ofNat']
  omega

end slots

/-! ### The invariant -/

/-- Values that `try_pop` has moved out of their slot without storing the counter yet. -/
def Consumer.taking : Consumer α → ℕ
  | .taken .. => 1
  | .idle | .loaded _ | .available _ => 0

/-- What a call of `try_push` relies on, with `a` values accepted and `n` returned: a value that
has been let in still has room. -/
def Producer.Ok (cap : ℕ) (r : SpscRing α) (a n : ℕ) : Producer α → Prop
  | .idle => True
  | .loaded _ _ h => h = r.head
  | .admitted _ _ h => h = r.head ∧ a < n + cap
  | .written v h => h = r.head ∧ a < n + cap ∧ r.buf[r.slot h]? = some v

/-- What a call of `try_pop` relies on, with the values `A` accepted and `n` returned. -/
def Consumer.Ok (r : SpscRing α) (A : List α) (n : ℕ) : Consumer α → Prop
  | .idle => True
  | .loaded t => t = r.tail
  | .available t => t = r.tail ∧ n < A.length
  | .taken t out => t = r.tail ∧ A[n]? = some out

/-- The invariant: `A` are the values accepted and `R` those returned. -/
structure Inv (cap : ℕ) (r : SpscRing α) (p : Producer α) (c : Consumer α) (A R : List α) :
    Prop where
  layout : Layout cap r
  head : r.head = UInt64.ofNat A.length
  tail : r.tail = UInt64.ofNat R.length
  le : R.length ≤ A.length
  bound : A.length ≤ R.length + cap
  slots : ∀ i, R.length + c.taking ≤ i → i < A.length → r.buf[r.slot (UInt64.ofNat i)]? = A[i]?
  producer : p.Ok cap r A.length R.length
  consumer : c.Ok r A R.length

section invariant
variable {cap : ℕ} {r : SpscRing α} {p : Producer α} {c : Consumer α} {A R : List α}
  {o : Overload} {v : α} {h t : UInt64}

theorem Inv.isFull_iff (hI : Inv cap r (.loaded o v h) c A R) :
    r.isFull h = true ↔ A.length = R.length + cap := by
  have hp : h = r.head := hI.producer
  rw [hp, hI.head]
  exact SpscRing.isFull_iff hI.layout hI.tail hI.le hI.bound

theorem Inv.isEmpty_iff (hI : Inv cap r p (.loaded t) A R) :
    t = r.head ↔ R.length = A.length := by
  have hc : t = r.tail := hI.consumer
  have hsmall := hI.layout.cap_le
  have hbound := hI.bound
  rw [hc, hI.head, hI.tail]
  exact ofNat_eq_iff hI.le (by omega)

/-- The slot that `try_push` is about to write holds no unread value. -/
theorem Inv.slot_ne (hI : Inv cap r (.admitted o v h) c A R) {i : ℕ} (hle : R.length ≤ i)
    (hlt : i < A.length) : r.slot (UInt64.ofNat i) ≠ r.slot h := by
  obtain ⟨hh, hroom⟩ : h = r.head ∧ A.length < R.length + cap := hI.producer
  rw [hh, hI.head]
  exact hI.layout.slot_ne hlt (by omega)

theorem Inv.slot_lt_push (hI : Inv cap r (.admitted o v h) c A R) : r.slot h < r.buf.length := by
  obtain ⟨hh, hroom⟩ : h = r.head ∧ A.length < R.length + cap := hI.producer
  have hle := hI.le
  rw [hh, hI.head]
  exact hI.layout.slot_lt (by omega) _

theorem Inv.slot_lt_pop (hI : Inv cap r p (.available t) A R) : r.slot t < r.buf.length := by
  obtain ⟨ht, hlt⟩ : t = r.tail ∧ R.length < A.length := hI.consumer
  have hbound := hI.bound
  rw [ht, hI.tail]
  exact hI.layout.slot_lt (by omega) _

/-- What `try_pop` is about to read is the oldest unread value. -/
theorem Inv.front (hI : Inv cap r p (.available t) A R) : r.buf[r.slot t]? = A[R.length]? := by
  obtain ⟨ht, hlt⟩ : t = r.tail ∧ R.length < A.length := hI.consumer
  rw [ht, hI.tail]
  exact hI.slots R.length le_rfl hlt

/-! The steps of the producer. -/

theorem Inv.admitted (hI : Inv cap r (.loaded o v h) c A R) (hfull : ¬ r.isFull h = true) :
    Inv cap r (.admitted o v h) c A R := by
  have hroom : A.length < R.length + cap := by
    have hne := mt hI.isFull_iff.mpr hfull
    have hbound := hI.bound
    omega
  exact { hI with producer := ⟨hI.producer, hroom⟩ }

theorem Inv.write (hI : Inv cap r (.admitted o v h) c A R) :
    Inv cap (r.store (r.slot h) v) (.written v h) c A R := by
  have hlt := hI.slot_lt_push
  obtain ⟨hh, hroom⟩ : h = r.head ∧ A.length < R.length + cap := hI.producer
  refine { hI with layout := hI.layout.store _ v, slots := ?_, producer := ⟨hh, hroom, ?_⟩ }
  · intro i hle hi
    have hne : r.slot h ≠ r.slot (UInt64.ofNat i) := (hI.slot_ne (by omega) hi).symm
    have hset := List.getElem?_set_ne (a := v) (l := r.buf) hne
    exact hset.trans (hI.slots i hle hi)
  · exact List.getElem?_set_self hlt

theorem Inv.commit (hI : Inv cap r (.written v h) c A R) :
    Inv cap { r with head := h + 1 } .idle c (A ++ [v]) R := by
  obtain ⟨hh, hroom, hslot⟩ : h = r.head ∧ A.length < R.length + cap ∧ r.buf[r.slot h]? = some v :=
    hI.producer
  have hle := hI.le
  refine ⟨⟨hI.layout.size, hI.layout.mask, hI.layout.shape⟩, ?_, hI.tail, ?_, ?_, ?_, trivial, ?_⟩
  · rw [hh, hI.head, List.length_append, UInt64.ofNat_add]
    rfl
  · rw [List.length_append]; omega
  · rw [List.length_append, List.length_singleton]; omega
  · intro i hi hlt
    rw [List.length_append, List.length_singleton] at hlt
    by_cases hlast : i = A.length
    · rw [hlast, List.getElem?_concat_length, ← hslot, hh, hI.head]
      rfl
    · rw [List.getElem?_append_left (by omega)]
      exact hI.slots i hi (by omega)
  · have hc := hI.consumer
    cases c with
    | idle => trivial
    | loaded t => exact hc
    | available t =>
        obtain ⟨ht, hlt⟩ : t = r.tail ∧ R.length < A.length := hc
        exact ⟨ht, by rw [List.length_append]; omega⟩
    | taken t out =>
        obtain ⟨ht, hout⟩ : t = r.tail ∧ A[R.length]? = some out := hc
        have hlt := (List.getElem?_eq_some_iff.mp hout).1
        exact ⟨ht, by rw [List.getElem?_append_left hlt, hout]⟩

/-! The steps of the consumer. -/

theorem Inv.find (hI : Inv cap r p (.loaded t) A R) (hne : ¬ t = r.head) :
    Inv cap r p (.available t) A R := by
  have hlt : R.length < A.length := by
    have h := mt hI.isEmpty_iff.mpr hne
    have hle := hI.le
    omega
  exact { hI with consumer := ⟨hI.consumer, hlt⟩ }

theorem Inv.take {w : α} (hI : Inv cap r p (.available t) A R)
    (hv : r.buf[r.slot t]? = some v) : Inv cap (r.store (r.slot t) w) p (.taken t v) A R := by
  obtain ⟨ht, hlt⟩ : t = r.tail ∧ R.length < A.length := hI.consumer
  have hbound := hI.bound
  have hfront := hI.front
  -- the slot of another unread value, or of the one being written, is not the slot of the front
  have hne : ∀ i, R.length < i → i < R.length + cap → r.slot t ≠ r.slot (UInt64.ofNat i) := by
    intro i hi hlt
    rw [ht, hI.tail]
    exact hI.layout.slot_ne hi hlt
  refine { hI with
    layout := hI.layout.store _ w, slots := ?_, producer := ?_, consumer := ⟨ht, ?_⟩ }
  · intro i hle hi
    have hle' : R.length + 1 ≤ i := hle
    have hset := List.getElem?_set_ne (a := w) (l := r.buf) (hne i (by omega) (by omega))
    exact hset.trans (hI.slots i (show R.length + 0 ≤ i by omega) hi)
  · have hp := hI.producer
    cases p with
    | idle => trivial
    | loaded o v' h => exact hp
    | admitted o v' h => exact hp
    | written v' h =>
        obtain ⟨hh, hroom, hslot⟩ : h = r.head ∧ _ ∧ r.buf[r.slot h]? = some v' := hp
        have hne' : r.slot t ≠ r.slot h := by
          rw [hh, hI.head]
          exact hne _ hlt hroom
        exact ⟨hh, hroom, (List.getElem?_set_ne (a := w) (l := r.buf) hne').trans hslot⟩
  · rw [← hfront, hv]

theorem Inv.release {out : α} (hI : Inv cap r p (.taken t out) A R) :
    Inv cap { r with tail := t + 1 } p .idle A (R ++ [out]) := by
  obtain ⟨ht, hout⟩ : t = r.tail ∧ A[R.length]? = some out := hI.consumer
  have hlt := (List.getElem?_eq_some_iff.mp hout).1
  have hbound := hI.bound
  have hlen : (R ++ [out]).length = R.length + 1 := by simp
  refine ⟨⟨hI.layout.size, hI.layout.mask, hI.layout.shape⟩, hI.head, ?_, ?_, ?_, ?_, ?_, trivial⟩
  · rw [ht, hI.tail, hlen, UInt64.ofNat_add]
    rfl
  · omega
  · omega
  · intro i hi hlt'
    rw [hlen] at hi
    exact hI.slots i hi hlt'
  · have hp := hI.producer
    cases p with
    | idle => trivial
    | loaded o v h => exact hp
    | admitted o v h =>
        obtain ⟨hh, hroom⟩ : h = r.head ∧ A.length < R.length + cap := hp
        exact ⟨hh, by omega⟩
    | written v h =>
        obtain ⟨hh, hroom, hslot⟩ : h = r.head ∧ A.length < R.length + cap ∧ _ := hp
        exact ⟨hh, by omega, hslot⟩

end invariant

/-! ### Runs -/

/-- The invariant of a ring in use. -/
def State.Ok (cap : ℕ) (s : State α) : Prop :=
  Inv cap s.ring s.producer s.consumer s.accepted s.returned

section runs
variable {cap : ℕ} {moved : α → α} {s s' : State α} {a : Action α} {v : α}

theorem State.Ok.length_unread (h : s.Ok cap) :
    s.unread.length + s.returned.length = s.accepted.length := by
  have hle := h.le
  unfold State.unread
  rw [List.length_drop]
  omega

/-- A step completes at most one call, which takes effect on the unread values there and then. -/
def Refines (cap : ℕ) (s s' : State α) : Prop :=
  (s'.log = s.log ∧ s'.unread = s.unread) ∨
    ∃ c, s'.log = s.log ++ [c] ∧ Effect cap s.unread c s'.unread

/-- **Every step refines the bounded queue.** -/
theorem refines_step (h : s.Ok cap) (hs : step moved s a = some s') :
    s'.Ok cap ∧ Refines cap s s' := by
  cases moves_of_step hs with
  | push => exact ⟨{ h with producer := rfl }, .inl ⟨rfl, rfl⟩⟩
  | @refuse r c arg log o v k hfull =>
      have hI : Inv cap r (.loaded o v k) c (accepted log) (returned log) := h
      have hcap : (accepted log).length = (returned log).length + cap := hI.isFull_iff.mp hfull
      refine ⟨?_, .inr ⟨.push v false, rfl, ?_⟩⟩
      · simpa [State.Ok, State.accepted, State.returned] using { hI with producer := trivial }
      · have hroom : cap ≤ ((accepted log).drop (returned log).length).length := by
          rw [List.length_drop]
          omega
        simpa [State.unread, State.accepted, State.returned] using Effect.refuse hroom
  | accept hfull => exact ⟨Inv.admitted h hfull, .inl ⟨rfl, rfl⟩⟩
  | write => exact ⟨Inv.write h, .inl ⟨rfl, rfl⟩⟩
  | @commit r c arg log v k =>
      have hI : Inv cap r (.written v k) c (accepted log) (returned log) := h
      obtain ⟨-, hroom, -⟩ := hI.producer
      have hle : (returned log).length ≤ (accepted log).length := h.le
      refine ⟨?_, .inr ⟨.push v true, rfl, ?_⟩⟩
      · simpa [State.Ok, State.accepted, State.returned] using hI.commit
      · have hlt : ((accepted log).drop (returned log).length).length < cap := by
          rw [List.length_drop]
          omega
        have heff := Effect.accept (v := v) hlt
        rw [← List.drop_append_of_le_length hle] at heff
        simpa [State.unread, State.accepted, State.returned] using heff
  | pop => exact ⟨{ h with slots := h.slots, consumer := rfl }, .inl ⟨rfl, rfl⟩⟩
  | @miss r p arg log t hempty =>
      have hI : Inv cap r p (.loaded t) (accepted log) (returned log) := h
      have hdrop : (accepted log).drop (returned log).length = [] :=
        List.drop_eq_nil_of_le (hI.isEmpty_iff.mp hempty).ge
      refine ⟨?_, .inr ⟨.pop none, rfl, ?_⟩⟩
      · simpa [State.Ok, State.accepted, State.returned] using { hI with consumer := trivial }
      · simpa [State.unread, State.accepted, State.returned, hdrop] using Effect.miss
  | find hempty => exact ⟨Inv.find h hempty, .inl ⟨rfl, rfl⟩⟩
  | take hv => exact ⟨Inv.take h hv, .inl ⟨rfl, rfl⟩⟩
  | @release r p arg log t out =>
      have hI : Inv cap r p (.taken t out) (accepted log) (returned log) := h
      obtain ⟨-, hout⟩ := hI.consumer
      refine ⟨?_, .inr ⟨.pop (some out), rfl, ?_⟩⟩
      · simpa [State.Ok, State.accepted, State.returned] using hI.release
      · obtain ⟨hlt, hget⟩ := List.getElem?_eq_some_iff.mp hout
        have hdrop := List.drop_eq_getElem_cons hlt
        rw [hget] at hdrop
        simpa [State.unread, State.accepted, State.returned, hdrop] using Effect.take

/-! ### What is offered and what is accepted -/

/-- The value of a push under way. -/
def Producer.inFlight : Producer α → List α
  | .idle => []
  | .loaded _ v _ | .admitted _ v _ | .written v _ => [v]

/-- The value of a push that has found room. -/
def Producer.letIn : Producer α → List α
  | .idle | .loaded .. => []
  | .admitted _ v _ | .written v _ => [v]

/-- The values accepted, and the one that is about to be. -/
def State.letIn (s : State α) : List α := s.accepted ++ s.producer.letIn

/-- The value that finds room in a step. -/
def admitted (s : State α) : Action α → List α
  | .producer =>
      match s.producer with
      | .loaded _ v h => if s.ring.isFull h then [] else [v]
      | .idle | .admitted .. | .written .. => []
  | .push .. | .pop | .consumer => []

/-- The value that an action begins to push. -/
def Action.offers : Action α → List α
  | .push _ v => [v]
  | .producer | .pop | .consumer => []

/-- The call that a step completes. -/
def completed (s : State α) : Action α → List (Call α)
  | .producer =>
      match s.producer with
      | .loaded _ v h => if s.ring.isFull h then [.push v false] else []
      | .written v _ => [.push v true]
      | .idle | .admitted .. => []
  | .consumer =>
      match s.consumer with
      | .loaded t => if t = s.ring.head then [.pop none] else []
      | .taken _ out => [.pop (some out)]
      | .idle | .available _ => []
  | .push .. | .pop => []

/-- The slots are not full when `try_push` looks. -/
def State.HasRoom (cap : ℕ) (s : State α) (a : Action α) : Prop :=
  a = .producer → ∀ o v h, s.producer = .loaded o v h → s.unread.length < cap

/-- A step completes the call it completes, and what it offers stays in flight until then. -/
theorem log_step (hs : step moved s a = some s') :
    s'.log = s.log ++ completed s a ∧
      s'.offered ++ s'.producer.inFlight = s.offered ++ s.producer.inFlight ++ a.offers := by
  cases moves_of_step hs with
  | push | pop | write | take =>
      simp [completed, State.offered, Producer.inFlight, Action.offers]
  | refuse h | accept h | miss h | find h =>
      simp [completed, h, State.offered, Producer.inFlight, Action.offers]
  | commit | release => simp [completed, State.offered, Producer.inFlight, Action.offers]

theorem returned_step (hs : step moved s a = some s') :
    s'.returned = s.returned ++ BoundedQueue.returned (completed s a) := by
  unfold State.returned
  rw [(log_step hs).1, BoundedQueue.returned_append]

/-- A step lets in the value that finds room. -/
theorem letIn_step (hs : step moved s a = some s') : s'.letIn = s.letIn ++ admitted s a := by
  cases moves_of_step hs with
  | refuse h | accept h => simp [admitted, h, State.letIn, State.accepted, Producer.letIn]
  | push | write | commit => simp [admitted, State.letIn, State.accepted, Producer.letIn]
  | pop | miss | find | take | release => simp [admitted, State.letIn, State.accepted]

/-- Only the end of a pop returns a value. -/
theorem returned_completed (h : ∀ t out, a = .consumer → s.consumer ≠ .taken t out) :
    BoundedQueue.returned (completed s a) = [] := by
  obtain ⟨r, p, c, arg, log⟩ := s
  cases a with
  | push | pop => rfl
  | producer =>
      cases p with
      | idle | admitted | written => rfl
      | loaded o v k =>
          unfold completed
          dsimp only
          split_ifs <;> rfl
  | consumer =>
      cases c with
      | idle | available => rfl
      | loaded t =>
          unfold completed
          dsimp only
          split_ifs <;> rfl
      | taken t out => exact absurd rfl (h t out rfl)

/-- The steps of `try_push` leave those of `try_pop` alone. -/
theorem consumer_step_producer (hs : step moved s .producer = some s') :
    s'.consumer = s.consumer := by
  cases moves_of_step hs with
  | refuse | accept | write | commit => rfl

theorem consumer_step_push {o : Overload} (hs : step moved s (.push o v) = some s') :
    s'.consumer = s.consumer := by
  cases moves_of_step hs with
  | push => rfl

theorem idle_of_push {o : Overload} (hs : step moved s (.push o v) = some s') :
    s.producer = .idle := by
  cases moves_of_step hs
  rfl

/-- `try_push` never waits. -/
theorem exists_step_loaded {o : Overload} {k : UInt64} (moved : α → α)
    (hp : s.producer = .loaded o v k) : ∃ s', step moved s .producer = some s' := by
  show ∃ s', stepProducer moved s = some s'
  unfold stepProducer
  rw [hp]
  dsimp only
  split_ifs
  · exact ⟨_, rfl⟩
  · exact ⟨_, rfl⟩

theorem State.Ok.isFull_iff {o : Overload} {k : UInt64} (h : s.Ok cap)
    (hp : s.producer = .loaded o v k) : s.ring.isFull k = true ↔ ¬ s.unread.length < cap := by
  have hI : Inv cap s.ring (.loaded o v k) s.consumer s.accepted s.returned := hp ▸ h
  have hlen := h.length_unread
  have hbound := hI.bound
  rw [hI.isFull_iff]
  omega

/-- Only a push that finds the slots full offers what is not accepted. -/
theorem completed_accepted_iff (h : s.Ok cap) (a : Action α) :
    BoundedQueue.accepted (completed s a) = BoundedQueue.offered (completed s a) ↔
      s.HasRoom cap a := by
  obtain ⟨r, p, c, arg, log⟩ := s
  cases a with
  | push | pop => exact iff_of_true rfl fun ha => by cases ha
  | consumer =>
      refine iff_of_true ?_ fun ha => by cases ha
      cases c with
      | idle | available | taken => rfl
      | loaded t =>
          by_cases ht : t = r.head
          · simp only [completed, if_pos ht]; rfl
          · simp only [completed, if_neg ht]; rfl
  | producer =>
      cases p with
      | idle | admitted | written => exact iff_of_true rfl fun _ o v k hp => by cases hp
      | loaded o v k =>
          have hiff : r.isFull k = true ↔ ¬ _ < cap := h.isFull_iff rfl
          by_cases hfull : r.isFull k = true
          · simp only [completed, if_pos hfull]
            exact iff_of_false (fun hnil => by cases hnil) fun hroom =>
              hiff.mp hfull (hroom rfl o v k rfl)
          · simp only [completed, if_neg hfull]
            exact iff_of_true rfl fun _ _ _ _ _ => not_not.mp (mt hiff.mpr hfull)

/-- **When everything offered has been accepted**, a step keeps it so exactly if it does not find
the slots full. -/
theorem accepted_eq_offered_iff (h : s.Ok cap) (hs : step moved s a = some s')
    (hall : s.accepted = s.offered) : s'.accepted = s'.offered ↔ s.HasRoom cap a := by
  have hlog := (log_step hs).1
  rw [← completed_accepted_iff h a]
  unfold State.accepted State.offered at hall ⊢
  rw [hlog, BoundedQueue.accepted_append, BoundedQueue.offered_append, hall, List.append_right_inj]

theorem ok_start [Inhabited α] {capacity : UInt64} {r : SpscRing α} (h : make capacity = some r) :
    (start r).Ok capacity.toNat := by
  have hl := layout_make h
  unfold make at h
  simp only [ne_eq, ite_not] at h
  split_ifs at h
  obtain rfl := Option.some_inj.mp h
  exact ⟨hl, rfl, rfl, le_rfl, Nat.zero_le _, fun i _ hi => absurd hi (Nat.not_lt_zero i), trivial,
    trivial⟩

/-- What holds of a ring with `cap` slots in every state of every interleaving. -/
structure Lossless (moved : α → α) (cap : ℕ) (s : State α) : Prop where
  /-- Values come out in the order in which they went in, none twice and none missing. -/
  fifo : s.returned <+: s.accepted
  bounded : s.unread.length ≤ cap
  /-- Each unread value waits in its slot, but for the one that `try_pop` is taking. -/
  stored : ∀ i, s.returned.length + s.consumer.taking ≤ i → i < s.accepted.length →
    s.ring.buf[s.ring.slot (UInt64.ofNat i)]? = s.accepted[i]?
  /-- The slot about to be written is inside `buf_` and holds no unread value. -/
  write : ∀ o v h, s.producer = .admitted o v h → s.ring.slot h < s.ring.buf.length ∧
    ∀ i, s.returned.length ≤ i → i < s.accepted.length →
      s.ring.slot (UInt64.ofNat i) ≠ s.ring.slot h
  /-- The slot about to be read is inside `buf_`. -/
  read : ∀ t, s.consumer = .available t → s.ring.slot t < s.ring.buf.length
  /-- A push fails only when all slots hold unread values. -/
  full : ∀ a s' v, step moved s a = some s' → s'.log = s.log ++ [.push v false] →
    s.unread.length = cap
  /-- A pop fails only when no value is unread. -/
  empty : ∀ a s', step moved s a = some s' → s'.log = s.log ++ [.pop none] → s.unread = []

theorem Refines.effect {c : Call α} (h : Refines cap s s') (hlog : s'.log = s.log ++ [c]) :
    Effect cap s.unread c s'.unread := by
  obtain ⟨hsame, -⟩ | ⟨c', hlog', heff⟩ := h
  · rw [hsame] at hlog
    exact absurd (congrArg List.length hlog) (by simp)
  · rw [hlog'] at hlog
    obtain ⟨-, hc⟩ := List.append_inj hlog rfl
    exact (List.cons.inj hc).1 ▸ heff

theorem lossless_of_ok (h : s.Ok cap) (hl : Legal cap s.log s.unread) : Lossless moved cap s where
  fifo := ⟨s.unread, hl.fifo.symm⟩
  bounded := hl.bounded
  stored := h.slots
  write := by
    intro o v k hp
    have hI : Inv cap s.ring (.admitted o v k) s.consumer s.accepted s.returned := hp ▸ h
    exact ⟨hI.slot_lt_push, fun i => hI.slot_ne⟩
  read := by
    intro t hc
    have hI : Inv cap s.ring s.producer (.available t) s.accepted s.returned := hc ▸ h
    exact hI.slot_lt_pop
  full := by
    intro a s' v hs hlog
    have hle := ((refines_step h hs).2.effect hlog).full
    have hb := hl.bounded
    omega
  empty := by
    intro a s' hs hlog
    exact ((refines_step h hs).2.effect hlog).empty

theorem legal_step (h : s.Ok cap) (hl : Legal cap s.log s.unread) (hs : step moved s a = some s') :
    Legal cap s'.log s'.unread := by
  obtain ⟨-, ⟨hlog, hunread⟩ | ⟨c, hlog, heff⟩⟩ := refines_step h hs
  · rwa [hlog, hunread]
  · rw [hlog]
    exact hl.concat heff

/-- The completed calls of a run are those of a bounded queue. -/
theorem legal_run [Inhabited α] {capacity : UInt64} {r : SpscRing α} (hmake : make capacity = some r)
    {acts : List (Action α)} (hrun : run (step moved) (start r) acts = some s) :
    s.Ok capacity.toNat ∧ Legal capacity.toNat s.log s.unread := by
  refine run_preserves (P := fun s => s.Ok capacity.toNat ∧ Legal capacity.toNat s.log s.unread)
    ⟨ok_start hmake, .nil⟩ ?_ hrun
  intro s a s' h hs
  exact ⟨(refines_step h.1 hs).1, legal_step h.1 h.2 hs⟩

/-- **The ring is a lossless bounded queue** in every interleaving of its two sides, at every
capacity that the constructor accepts. -/
theorem lossless [Inhabited α] (moved : α → α) {capacity : UInt64} {r : SpscRing α}
    (hmake : make capacity = some r) (acts : List (Action α)) :
    States (step moved) (start r) (fun _ s => Lossless moved capacity.toNat s) acts := by
  intro pre _ _ s hrun
  obtain ⟨hok, hlegal⟩ := legal_run hmake hrun
  exact lossless_of_ok hok hlegal

/-- Two slots, and a push that finds them full while a pop is under way. -/
theorem lossless_two : States (step id) (start (⟨1, [0, 0], 0, 0⟩ : SpscRing ℕ))
    (fun _ s => Lossless id 2 s)
    [.push .lvalue 7, .producer, .producer, .producer, .push .rvalue 8, .producer, .producer,
      .producer, .push .lvalue 9, .pop, .consumer, .consumer, .producer, .consumer] :=
  lossless id (show make (2 : UInt64) = some ⟨1, [0, 0], 0, 0⟩ from rfl) _

end runs

end SpscRing
end Trading
