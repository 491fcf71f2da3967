import Trading.ReleaseAcquire
import Trading.SpscRing

/-! # The memory orders of the ring

`SpscRing` lets every load see the last store.  Here the counters are read as the source reads
them: a side loads its own counter relaxed and the other side's counter with acquire, stores its
own counter with release, and accesses the slots without any synchronisation of their own.  A load
of the other side's counter may return any value that is not older than the last one read.

* `State` of `SpscRing` still says how far the calls have come and what the slots hold; `mem` says
  which messages the counters have held and what each side knows of the other.
* `k` is the message that a load is given.  A step that needs none ignores it.
* Neither kind of load can be given a message that is not there, and an access that races is
  undefined: there is no next state.  `race_free` is that no side ever stops there.

The accesses to a slot are numbered: push `j` makes access `2 * (j / cap) + 1` of slot `j % cap`
and pop `j` the one after it.  `Sync` is the invariant of the memory, `Shared.Inv` adds what each
side has read. -/

namespace Trading
namespace SpscRing

open BoundedQueue (Call accepted returned)
open ReleaseAcquire (Memory View Message)
open ReleaseAcquire.Memory
open Transition (run run_preserves States)

/-- The two threads. -/
inductive Side where
  | producer
  | consumer
deriving DecidableEq, Repr

/-- The atomic members. -/
inductive Counter where
  | head
  | tail
deriving DecidableEq, Repr

/-- The counter that a side stores. -/
def Side.counter : Side → Counter
  | .producer => .head
  | .consumer => .tail

def Side.other : Side → Side
  | .producer => .consumer
  | .consumer => .producer

/-- Which access of a slot in each round a side makes. -/
def Side.part : Side → ℕ
  | .producer => 1
  | .consumer => 2

/-- A ring in use, with its memory. -/
structure Shared (α : Type*) where
  calls : State α
  mem : Memory Side Counter ℕ UInt64

namespace Shared

variable {α : Type*}

/-- The step that the scheduler picks, and the message that its load reads. -/
inductive Action (α : Type*) where
  | push (o : Overload) (v : α) (k : ℕ)
  | producer (k : ℕ)
  | pop (k : ℕ)
  | consumer (k : ℕ)
deriving DecidableEq

/-- The next step of `try_push`. -/
def stepProducer (moved : α → α) (s : Shared α) (k : ℕ) : Option (Shared α) :=
  let c := s.calls
  match c.producer with
  | .idle => none
  | .loaded o v h =>
      (s.mem.acquire .producer .tail k).map fun (t, mem) =>
        if { c.ring with tail := t }.isFull h then
          ⟨{ c with producer := .idle, log := c.log ++ [.push v false] }, mem⟩
        else ⟨{ c with producer := .admitted o v h }, mem⟩
  | .admitted o v h =>
      if c.ring.slot h < c.ring.buf.length then
        (s.mem.access .producer (c.ring.slot h)).map fun mem =>
          ⟨{ c with
            ring := c.ring.store (c.ring.slot h) v
            producer := .written v h
            arg := o.leave moved v }, mem⟩
      else none
  | .written v h =>
      some ⟨{ c with
        ring := { c.ring with head := h + 1 }
        producer := .idle
        log := c.log ++ [.push v true] }, s.mem.release .producer .head (h + 1)⟩

/-- The next step of `try_pop`. -/
def stepConsumer (moved : α → α) (s : Shared α) (k : ℕ) : Option (Shared α) :=
  let c := s.calls
  match c.consumer with
  | .idle => none
  | .loaded t =>
      (s.mem.acquire .consumer .head k).map fun (h, mem) =>
        if t = h then ⟨{ c with consumer := .idle, log := c.log ++ [.pop none] }, mem⟩
        else ⟨{ c with consumer := .available t }, mem⟩
  | .available t =>
      match c.ring.buf[c.ring.slot t]? with
      | none => none
      | some v =>
          (s.mem.access .consumer (c.ring.slot t)).map fun mem =>
            ⟨{ c with
              ring := c.ring.store (c.ring.slot t) (moved v)
              consumer := .taken t v }, mem⟩
  | .taken t out =>
      some ⟨{ c with
        ring := { c.ring with tail := t + 1 }
        consumer := .idle
        log := c.log ++ [.pop (some out)] }, s.mem.release .consumer .tail (t + 1)⟩

def step (moved : α → α) (s : Shared α) : Action α → Option (Shared α)
  | .push o v k =>
      match s.calls.producer with
      | .idle => (s.mem.relaxed .producer .head k).map fun (h, mem) =>
          ⟨{ s.calls with producer := .loaded o v h, arg := v }, mem⟩
      | _ => none
  | .producer k => stepProducer moved s k
  | .pop k =>
      match s.calls.consumer with
      | .idle => (s.mem.relaxed .consumer .tail k).map fun (t, mem) =>
          ⟨{ s.calls with consumer := .loaded t }, mem⟩
      | _ => none
  | .consumer k => stepConsumer moved s k

/-- The ring as the constructor leaves it, before the sides share it. -/
def start [Inhabited α] (r : SpscRing α) : Shared α := ⟨SpscRing.start r, Memory.start fun _ => 0⟩

/-! ### What a step can do -/

/-- The steps of the two sides, each with the state it starts from and the one it leads to. -/
inductive Moves (moved : α → α) : Shared α → Action α → Shared α → Prop
  | push {r : SpscRing α} {c : Consumer α} {arg : α} {log : List (Call α)}
      {m m' : Memory Side Counter ℕ UInt64} {o : Overload} {v : α} {h : UInt64} {k : ℕ} :
      m.relaxed .producer .head k = some (h, m') →
      Moves moved ⟨⟨r, .idle, c, arg, log⟩, m⟩ (.push o v k) ⟨⟨r, .loaded o v h, c, v, log⟩, m'⟩
  | refuse {r : SpscRing α} {c : Consumer α} {arg : α} {log : List (Call α)}
      {m m' : Memory Side Counter ℕ UInt64} {o : Overload} {v : α} {h t : UInt64} {k : ℕ} :
      m.acquire .producer .tail k = some (t, m') → { r with tail := t }.isFull h = true →
      Moves moved ⟨⟨r, .loaded o v h, c, arg, log⟩, m⟩ (.producer k)
        ⟨⟨r, .idle, c, arg, log ++ [.push v false]⟩, m'⟩
  | accept {r : SpscRing α} {c : Consumer α} {arg : α} {log : List (Call α)}
      {m m' : Memory Side Counter ℕ UInt64} {o : Overload} {v : α} {h t : UInt64} {k : ℕ} :
      m.acquire .producer .tail k = some (t, m') → ¬ { r with tail := t }.isFull h = true →
      Moves moved ⟨⟨r, .loaded o v h, c, arg, log⟩, m⟩ (.producer k)
        ⟨⟨r, .admitted o v h, c, arg, log⟩, m'⟩
  | write {r : SpscRing α} {c : Consumer α} {arg : α} {log : List (Call α)}
      {m m' : Memory Side Counter ℕ UInt64} {o : Overload} {v : α} {h : UInt64} {k : ℕ} :
      r.slot h < r.buf.length → m.access .producer (r.slot h) = some m' →
      Moves moved ⟨⟨r, .admitted o v h, c, arg, log⟩, m⟩ (.producer k)
        ⟨⟨r.store (r.slot h) v, .written v h, c, o.leave moved v, log⟩, m'⟩
  | commit {r : SpscRing α} {c : Consumer α} {arg : α} {log : List (Call α)}
      {m : Memory Side Counter ℕ UInt64} {v : α} {h : UInt64} {k : ℕ} :
      Moves moved ⟨⟨r, .written v h, c, arg, log⟩, m⟩ (.producer k)
        ⟨⟨{ r with head := h + 1 }, .idle, c, arg, log ++ [.push v true]⟩,
          m.release .producer .head (h + 1)⟩
  | pop {r : SpscRing α} {p : Producer α} {arg : α} {log : List (Call α)}
      {m m' : Memory Side Counter ℕ UInt64} {t : UInt64} {k : ℕ} :
      m.relaxed .consumer .tail k = some (t, m') →
      Moves moved ⟨⟨r, p, .idle, arg, log⟩, m⟩ (.pop k) ⟨⟨r, p, .loaded t, arg, log⟩, m'⟩
  | miss {r : SpscRing α} {p : Producer α} {arg : α} {log : List (Call α)}
      {m m' : Memory Side Counter ℕ UInt64} {t : UInt64} {k : ℕ} :
      m.acquire .consumer .head k = some (t, m') →
      Moves moved ⟨⟨r, p, .loaded t, arg, log⟩, m⟩ (.consumer k)
        ⟨⟨r, p, .idle, arg, log ++ [.pop none]⟩, m'⟩
  | find {r : SpscRing α} {p : Producer α} {arg : α} {log : List (Call α)}
      {m m' : Memory Side Counter ℕ UInt64} {t h : UInt64} {k : ℕ} :
      m.acquire .consumer .head k = some (h, m') → ¬ t = h →
      Moves moved ⟨⟨r, p, .loaded t, arg, log⟩, m⟩ (.consumer k)
        ⟨⟨r, p, .available t, arg, log⟩, m'⟩
  | take {r : SpscRing α} {p : Producer α} {arg : α} {log : List (Call α)}
      {m m' : Memory Side Counter ℕ UInt64} {t : UInt64} {v : α} {k : ℕ} :
      r.buf[r.slot t]? = some v → m.access .consumer (r.slot t) = some m' →
      Moves moved ⟨⟨r, p, .available t, arg, log⟩, m⟩ (.consumer k)
        ⟨⟨r.store (r.slot t) (moved v), p, .taken t v, arg, log⟩, m'⟩
  | release {r : SpscRing α} {p : Producer α} {arg : α} {log : List (Call α)}
      {m : Memory Side Counter ℕ UInt64} {t : UInt64} {out : α} {k : ℕ} :
      Moves moved ⟨⟨r, p, .taken t out, arg, log⟩, m⟩ (.consumer k)
        ⟨⟨{ r with tail := t + 1 }, p, .idle, arg, log ++ [.pop (some out)]⟩,
          m.release .consumer .tail (t + 1)⟩

variable {moved : α → α} {s s' : Shared α} {a : Action α} {k : ℕ}

theorem moves_of_stepProducer (hs : stepProducer moved s k = some s') :
    Moves moved s (.producer k) s' := by
  obtain ⟨⟨r, p, c, arg, log⟩, m⟩ := s
  unfold stepProducer at hs
  cases p with
  | idle => cases hs
  | loaded o v h =>
      obtain ⟨⟨t, m'⟩, hm, heq⟩ := Option.map_eq_some_iff.mp hs
      dsimp only at hm heq
      split_ifs at heq with hfull
      · exact heq ▸ .refuse hm hfull
      · exact heq ▸ .accept hm hfull
  | admitted o v h =>
      dsimp only at hs
      split_ifs at hs with hslot
      obtain ⟨m', hm, rfl⟩ := Option.map_eq_some_iff.mp hs
      exact .write hslot hm
  | written v h => exact Option.some_inj.mp hs ▸ .commit

theorem moves_of_stepConsumer (hs : stepConsumer moved s k = some s') :
    Moves moved s (.consumer k) s' := by
  obtain ⟨⟨r, p, c, arg, log⟩, m⟩ := s
  unfold stepConsumer at hs
  cases c with
  | idle => cases hs
  | loaded t =>
      obtain ⟨⟨h, m'⟩, hm, heq⟩ := Option.map_eq_some_iff.mp hs
      dsimp only at hm heq
      split_ifs at heq with hempty
      · subst hempty
        exact heq ▸ .miss hm
      · exact heq ▸ .find hm hempty
  | available t =>
      dsimp only at hs
      cases hv : r.buf[r.slot t]? with
      | none => rw [hv] at hs; cases hs
      | some v =>
          rw [hv] at hs
          obtain ⟨m', hm, rfl⟩ := Option.map_eq_some_iff.mp hs
          exact .take hv hm
  | taken t out => exact Option.some_inj.mp hs ▸ .release

theorem moves_of_step (hs : step moved s a = some s') : Moves moved s a s' := by
  cases a with
  | push o v k =>
      obtain ⟨⟨r, p, c, arg, log⟩, m⟩ := s
      cases p with
      | idle =>
          obtain ⟨⟨h, m'⟩, hm, rfl⟩ := Option.map_eq_some_iff.mp hs
          exact .push hm
      | loaded | admitted | written => cases hs
  | producer k => exact moves_of_stepProducer hs
  | pop k =>
      obtain ⟨⟨r, p, c, arg, log⟩, m⟩ := s
      cases c with
      | idle =>
          obtain ⟨⟨t, m'⟩, hm, rfl⟩ := Option.map_eq_some_iff.mp hs
          exact .pop hm
      | loaded | available | taken => cases hs
  | consumer k => exact moves_of_stepConsumer hs

end Shared

/-! ### The accesses of a slot -/

section slots
variable {cap w n n' a t i j : ℕ} {view view' : View Counter ℕ} {acc : ℕ → ℕ}

/-- The first `n` calls that access the slots as the `w`-th ones of their rounds are over. -/
def Knows (cap w n : ℕ) (view : View Counter ℕ) : Prop :=
  ∀ j < n, 2 * (j / cap) + w ≤ view (.inr (j % cap))

theorem Knows.mono (h : Knows cap w n view) (hv : ∀ d, view (.inr d) ≤ view' (.inr d)) :
    Knows cap w n view' := fun j hj => (h j hj).trans (hv _)

theorem Knows.succ (h : Knows cap w n view) (hn : 2 * (n / cap) + w ≤ view (.inr (n % cap))) :
    Knows cap w (n + 1) view := by
  intro j hj
  obtain hlt | rfl := Nat.lt_succ_iff_lt_or_eq.mp hj
  · exact h j hlt
  · exact hn

/-- The number of accesses of each slot, with `a` slots written and `t` emptied so far. -/
structure Versions (cap a t : ℕ) (acc : ℕ → ℕ) : Prop where
  unread : ∀ j, t ≤ j → j < a → acc (j % cap) = 2 * (j / cap) + 1
  free : ∀ j, a ≤ j → j < t + cap → acc (j % cap) = 2 * (j / cap)

theorem mod_ne (hij : i < j) (hlt : j < i + cap) : i % cap ≠ j % cap := by
  intro hmod
  have hdvd := (Nat.modEq_iff_dvd' hij.le).mp hmod
  have := Nat.le_of_dvd (by omega) hdvd
  omega

theorem Versions.write (h : Versions cap a t acc) (hle : t ≤ a) (hroom : a < t + cap) :
    Versions cap (a + 1) t (Function.update acc (a % cap) (acc (a % cap) + 1)) where
  unread := by
    intro j htj hja
    obtain hlt | rfl := Nat.lt_succ_iff_lt_or_eq.mp hja
    · rw [Function.update_of_ne (mod_ne hlt (by omega)), h.unread j htj hlt]
    · rw [Function.update_self, h.free j le_rfl hroom]
  free := by
    intro j haj hj
    rw [Function.update_of_ne (mod_ne (Nat.lt_of_succ_le haj) (by omega)).symm,
      h.free j (by omega) hj]

theorem Versions.take (h : Versions cap a t acc) (hlt : t < a) (hcap : a ≤ t + cap) :
    Versions cap a (t + 1) (Function.update acc (t % cap) (acc (t % cap) + 1)) where
  unread := by
    intro j htj hja
    rw [Function.update_of_ne (mod_ne (Nat.lt_of_succ_le htj) (by omega)).symm,
      h.unread j (by omega) hja]
  free := by
    intro j haj hj
    obtain hlt' | rfl := Nat.lt_or_eq_of_le (Nat.le_of_lt_succ (by omega : j < t + cap + 1))
    · rw [Function.update_of_ne (mod_ne (by omega : t < j) hlt').symm, h.free j haj hlt']
    · -- the slot comes round again
      rw [Nat.add_mod_right, Function.update_self, h.unread t le_rfl hlt,
        Nat.add_div_right t (by omega), Nat.mul_succ]

/-- Whoever has seen the value `n` of a counter knows what came before it was stored. -/
def Informed (cap : ℕ) (view : View Counter ℕ) : Prop :=
  ∀ i : Side, Knows cap i.part (view (.inl i.counter)) view

theorem Informed.sup (h : Informed cap view) (h' : Informed cap view') :
    Informed cap (view ⊔ view') := by
  intro i j hj
  obtain hj | hj := lt_sup_iff.mp hj
  · exact (h i).mono (fun d => le_sup_left) j hj
  · exact (h' i).mono (fun d => le_sup_right) j hj

end slots

/-! ### The invariant of the memory -/

section sync
variable {cap k : ℕ} {m m' : Memory Side Counter ℕ UInt64} {n busy : Side → ℕ} {i j : Side}
  {v : UInt64}

/-- Side `i` has completed `n i` calls that took effect, and has accessed the slot of `busy i`
more. -/
structure Sync (cap : ℕ) (m : Memory Side Counter ℕ UInt64) (n busy : Side → ℕ) : Prop where
  ok : m.Ok
  length : ∀ i : Side, (m.history i.counter).length = n i + 1
  value : ∀ (i : Side) (k : ℕ) (msg : Message Counter ℕ UInt64),
    (m.history i.counter)[k]? = some msg → msg.value = UInt64.ofNat k
  informed : m.Everywhere (Informed cap)
  own : ∀ i : Side, m.view i (.inl i.counter) = n i
  did : ∀ i : Side, Knows cap i.part (n i + busy i) (m.view i)
  versions : Versions cap (n .producer + busy .producer) (n .consumer + busy .consumer) m.accesses

theorem Sync.congr {n' busy' : Side → ℕ} (h : Sync cap m n busy) (hn : ∀ i, n' i = n i)
    (hb : ∀ i, busy' i = busy i) : Sync cap m n' busy' := by
  obtain rfl : n' = n := funext hn
  obtain rfl : busy' = busy := funext hb
  exact h

theorem Sync.now_eq (h : Sync cap m n busy) (i : Side) : m.now (.inl i.counter) = n i := by
  rw [now_inl, h.length]
  rfl

theorem Sync.seen_le (h : Sync cap m n busy) (i j : Side) : m.view i (.inl j.counter) ≤ n j :=
  (h.ok.view_le i _).trans (h.now_eq j).le

/-- The relaxed load reads the counter as its side has stored it. -/
theorem Sync.relaxed (h : Sync cap m n busy) (hm : m.relaxed i i.counter k = some (v, m')) :
    v = UInt64.ofNat (n i) ∧ m' = m := by
  obtain ⟨⟨w, hmsg⟩, rfl⟩ := relaxed_eq_some.mp hm
  have hlast : m.view i (.inl i.counter) = m.now (.inl i.counter) := by rw [h.own, h.now_eq]
  obtain ⟨rfl, hget⟩ := (message_iff_of_last hlast).mp hmsg
  refine ⟨?_, see_of_le (update_le_iff.mpr ⟨le_rfl, fun _ _ => Nat.zero_le _⟩)⟩
  rw [← h.own i]
  exact h.value i _ _ hget

/-- The acquire load reads a value that the other side has stored, and all that it knew then. -/
theorem Sync.acquire (h : Sync cap m n busy) (hij : j ≠ i)
    (hm : m.acquire i j.counter k = some (v, m')) :
    Sync cap m' n busy ∧ v = UInt64.ofNat k ∧ m.view i (.inl j.counter) ≤ k ∧ k ≤ n j ∧
      m'.view i (.inl j.counter) = k ∧ m'.view j = m.view j := by
  obtain ⟨w, hmsg, rfl⟩ := acquire_eq_some.mp hm
  obtain ⟨hle, hget⟩ := message_eq_some.mp hmsg
  have hw : w ≤ m.now := h.ok.message_le hmsg
  have hstamp : w (.inl j.counter) = k := h.ok.stamp _ _ _ hget
  refine ⟨⟨h.ok.see hw, h.length, h.value, ?_, ?_, ?_, h.versions⟩, h.value j _ _ hget, hle, ?_,
    ?_, see_view_of_ne w hij⟩
  · exact h.informed.see
      ((h.informed.threads i).sup (h.informed.messages _ _ (List.mem_of_getElem? hget)))
  · intro u
    by_cases hu : u = i
    · subst hu
      rw [see_view_self, Pi.sup_apply, h.own, sup_eq_left, ← h.now_eq]
      exact hw _
    · rw [see_view_of_ne w hu, h.own]
  · intro u
    by_cases hu : u = i
    · subst hu
      rw [see_view_self]
      exact (h.did u).mono fun d => le_sup_left
    · rw [see_view_of_ne w hu]
      exact h.did u
  · rw [← hstamp, ← h.now_eq]
    exact hw _
  · rw [see_view_self, Pi.sup_apply, hstamp, sup_eq_right]
    exact hle

theorem counter_ne (h : i ≠ j) : i.counter ≠ j.counter := by
  cases i <;> cases j <;> first | exact absurd rfl h | exact fun he => by cases he

/-- The release store hands on what its side has done. -/
theorem Sync.release (h : Sync cap m n busy) (hb : busy i = 1) :
    Sync cap (m.release i i.counter (UInt64.ofNat (n i + 1))) (Function.update n i (n i + 1))
      (Function.update busy i 0) := by
  have hdid : Knows cap i.part (n i + 1) (m.stamped i i.counter) := by
    have hd := h.did i
    rw [hb] at hd
    exact hd.mono fun d => stamped_inr.ge
  have hsum : ∀ u, Function.update n i (n i + 1) u + Function.update busy i 0 u = n u + busy u := by
    intro u
    by_cases hu : u = i
    · subst hu
      rw [Function.update_self, Function.update_self, hb]
    · rw [Function.update_of_ne hu, Function.update_of_ne hu]
  refine ⟨h.ok.release, ?_, ?_, ?_, ?_, ?_, ?_⟩
  · intro u
    by_cases hu : u = i
    · subst hu
      rw [release_history_self, List.length_append, h.length, Function.update_self]
      rfl
    · rw [release_history_of_ne (counter_ne hu), h.length, Function.update_of_ne hu]
  · intro u k msg hget
    by_cases hu : u = i
    · subst hu
      rw [release_history_self] at hget
      obtain ⟨-, hget⟩ | ⟨rfl, rfl⟩ := getElem?_concat_eq_some.mp hget
      · exact h.value u k msg hget
      · rw [h.length]
    · rw [release_history_of_ne (counter_ne hu)] at hget
      exact h.value u k msg hget
  · refine h.informed.release fun u => ?_
    by_cases hu : u = i
    · subst hu
      rw [stamped_self, h.length]
      exact hdid
    · rw [stamped_inl_of_ne (counter_ne hu)]
      exact (h.informed.threads i u).mono fun d => stamped_inr.ge
  · intro u
    by_cases hu : u = i
    · subst hu
      rw [release_view_self, stamped_self, h.length, Function.update_self]
    · rw [release_view_of_ne hu, h.own, Function.update_of_ne hu]
  · intro u
    rw [hsum]
    by_cases hu : u = i
    · subst hu
      rw [release_view_self, hb]
      exact hdid
    · rw [release_view_of_ne hu]
      exact h.did u
  · rw [hsum, hsum]
    exact h.versions

/-- The access to a slot, up to the number of accesses. -/
theorem Sync.access (h : Sync cap m n busy) (hb : busy i = 0)
    (hm : m.access i (n i % cap) = some m')
    (hacc : 2 * (n i / cap) + i.part ≤ m.accesses (n i % cap) + 1)
    (hv : Versions cap (n .producer + Function.update busy i 1 .producer)
      (n .consumer + Function.update busy i 1 .consumer) m'.accesses) :
    Sync cap m' n (Function.update busy i 1) := by
  have hmono : ∀ d, m.view i (.inr d) ≤ m.touched i (n i % cap) (.inr d) := by
    intro d
    by_cases hd : d = n i % cap
    · rw [hd, touched_self]
      exact (h.ok.view_le i _).trans (Nat.le_succ _)
    · rw [touched_inr_of_ne hd]
  refine ⟨h.ok.access hm, ?_, ?_, ?_, ?_, ?_, hv⟩
  · rw [access_history hm]
    exact h.length
  · rw [access_history hm]
    exact h.value
  · refine h.informed.access hm fun u => ?_
    rw [touched_inl]
    exact (h.informed.threads i u).mono hmono
  · intro u
    by_cases hu : u = i
    · subst hu
      rw [access_view_self hm, touched_inl, h.own]
    · rw [access_view_of_ne hm hu, h.own]
  · intro u
    by_cases hu : u = i
    · subst hu
      have hd := h.did u
      rw [hb] at hd
      rw [access_view_self hm, Function.update_self]
      exact (hd.mono hmono).succ (hacc.trans touched_self.ge)
    · rw [access_view_of_ne hm hu, Function.update_of_ne hu]
      exact h.did u

end sync

/-! ### The invariant of the two sides -/

variable {α : Type*}

/-- Slots that `try_push` has written without storing the counter yet. -/
def Producer.writing : Producer α → ℕ
  | .written .. => 1
  | .idle | .loaded .. | .admitted .. => 0

/-- Values that `try_pop` has found. -/
def Consumer.found : Consumer α → ℕ
  | .available _ | .taken .. => 1
  | .idle | .loaded _ => 0

namespace Shared

/-- The completed calls of a side that took effect. -/
def count (s : Shared α) : Side → ℕ
  | .producer => s.calls.accepted.length
  | .consumer => s.calls.returned.length

/-- The slots that a side has accessed ahead of its counter. -/
def busy (s : Shared α) : Side → ℕ
  | .producer => s.calls.producer.writing
  | .consumer => s.calls.consumer.taking

/-- The invariant: each side goes by what it has read of the other's counter, which may be old. -/
structure Inv (cap : ℕ) (s : Shared α) : Prop where
  calls : s.calls.Ok cap
  fifo : s.calls.returned <+: s.calls.accepted
  sync : Sync cap s.mem s.count s.busy
  room : s.calls.accepted.length + s.calls.producer.letIn.length ≤
    s.mem.view .producer (.inl .tail) + cap
  found : s.calls.returned.length + s.calls.consumer.found ≤ s.mem.view .consumer (.inl .head)

variable {cap k : ℕ} {moved : α → α} {s s' : Shared α} {a : Action α} {r : SpscRing α}
  {p : Producer α} {c : Consumer α} {arg v : α} {log : List (Call α)}
  {m m' : Memory Side Counter ℕ UInt64} {o : Overload} {h t : UInt64}

/-- What `try_push` reads of `tail_` and makes of it. -/
theorem Inv.isFull_iff (hI : Inv cap ⟨⟨r, .loaded o v h, c, arg, log⟩, m⟩)
    (hm : m.acquire .producer .tail k = some (t, m')) :
    { r with tail := t }.isFull h = true ↔ (accepted log).length = k + cap := by
  obtain ⟨-, ht, hseen, hle, -, -⟩ := hI.sync.acquire (j := .consumer) (by decide) hm
  have hcalls : SpscRing.Inv cap r (.loaded o v h) c (accepted log) (returned log) := hI.calls
  have hk : k ≤ (accepted log).length := le_trans hle hcalls.le
  have hroom : (accepted log).length ≤ m.view .producer (.inl .tail) + cap := hI.room
  have hcap : (accepted log).length ≤ k + cap := hroom.trans (Nat.add_le_add_right hseen cap)
  have hh : h = r.head := hcalls.producer
  have hlayout : Layout cap { r with tail := t } :=
    ⟨hcalls.layout.size, hcalls.layout.mask, hcalls.layout.shape⟩
  rw [hh, hcalls.head]
  exact SpscRing.isFull_iff hlayout ht hk hcap

/-- What `try_pop` reads of `head_` and makes of it. -/
theorem Inv.isEmpty_iff (hI : Inv cap ⟨⟨r, p, .loaded t, arg, log⟩, m⟩)
    (hm : m.acquire .consumer .head k = some (h, m')) : t = h ↔ (returned log).length = k := by
  obtain ⟨-, hh, hseen, hle, -, -⟩ := hI.sync.acquire (j := .producer) (by decide) hm
  have hcalls : SpscRing.Inv cap r p (.loaded t) (accepted log) (returned log) := hI.calls
  have hfound : (returned log).length ≤ m.view .consumer (.inl .head) := hI.found
  have hk : k ≤ (accepted log).length := hle
  have hbound := hcalls.bound
  have hsmall := hcalls.layout.cap_le
  have ht : t = r.tail := hcalls.consumer
  rw [ht, hcalls.tail, hh]
  exact ofNat_eq_iff (hfound.trans hseen) (by omega)

/-- The slot that `try_push` is about to write. -/
theorem Inv.slot_push (hI : Inv cap ⟨⟨r, .admitted o v h, c, arg, log⟩, m⟩) :
    r.slot h = (accepted log).length % cap := by
  have hcalls : SpscRing.Inv cap r (.admitted o v h) c (accepted log) (returned log) := hI.calls
  obtain ⟨hh, hroom⟩ : h = r.head ∧ (accepted log).length < (returned log).length + cap :=
    hcalls.producer
  have hle := hcalls.le
  rw [hh, hcalls.head, hcalls.layout.slot_eq (by omega)]

/-- The slot that `try_pop` is about to empty. -/
theorem Inv.slot_pop (hI : Inv cap ⟨⟨r, p, .available t, arg, log⟩, m⟩) :
    r.slot t = (returned log).length % cap := by
  have hcalls : SpscRing.Inv cap r p (.available t) (accepted log) (returned log) := hI.calls
  obtain ⟨ht, hlt⟩ : t = r.tail ∧ (returned log).length < (accepted log).length := hcalls.consumer
  have hbound := hcalls.bound
  rw [ht, hcalls.tail, hcalls.layout.slot_eq (by omega)]

/-- What the producer knows is enough to write: the slot was emptied a round ago, and the `tail_`
that let the value in came after that. -/
theorem Inv.accesses_push (hI : Inv cap ⟨⟨r, .admitted o v h, c, arg, log⟩, m⟩) :
    m.accesses (r.slot h) = 2 * ((accepted log).length / cap) ∧
      m.accesses (r.slot h) ≤ m.view .producer (.inr (r.slot h)) := by
  have hroom : (accepted log).length + 1 ≤ m.view .producer (.inl .tail) + cap := hI.room
  have hseen : m.view .producer (.inl .tail) ≤ (returned log).length :=
    hI.sync.seen_le .producer .consumer
  have hacc : m.accesses ((accepted log).length % cap) = 2 * ((accepted log).length / cap) := by
    refine hI.sync.versions.free _ le_rfl ?_
    show (accepted log).length < (returned log).length + c.taking + cap
    omega
  rw [hI.slot_push, hacc]
  refine ⟨rfl, ?_⟩
  by_cases hlt : (accepted log).length < cap
  · rw [Nat.div_eq_of_lt hlt]
    exact Nat.zero_le _
  · obtain ⟨j, hj⟩ := Nat.exists_eq_add_of_le' (Nat.not_lt.mp hlt)
    have hpos : 0 < cap := by
      have hle : (returned log).length ≤ (accepted log).length := SpscRing.Inv.le hI.calls
      omega
    have hknows := hI.sync.informed.threads .producer .consumer j
      (show j < m.view .producer (.inl .tail) by omega)
    rw [hj, Nat.add_mod_right, Nat.add_div_right j hpos, Nat.mul_succ]
    exact hknows

/-- What the consumer knows is enough to empty the slot: the `head_` that it found the value by came
after the write. -/
theorem Inv.accesses_pop (hI : Inv cap ⟨⟨r, p, .available t, arg, log⟩, m⟩) :
    m.accesses (r.slot t) = 2 * ((returned log).length / cap) + 1 ∧
      m.accesses (r.slot t) ≤ m.view .consumer (.inr (r.slot t)) := by
  have hfound : (returned log).length + 1 ≤ m.view .consumer (.inl .head) := hI.found
  have hseen : m.view .consumer (.inl .head) ≤ (accepted log).length :=
    hI.sync.seen_le .consumer .producer
  have hacc : m.accesses ((returned log).length % cap) = 2 * ((returned log).length / cap) + 1 := by
    refine hI.sync.versions.unread _ le_rfl ?_
    show (returned log).length < (accepted log).length + p.writing
    omega
  rw [hI.slot_pop, hacc]
  exact ⟨rfl, hI.sync.informed.threads .consumer .producer _ hfound⟩

/-! ### What a step keeps -/

theorem Inv.write (hI : Inv cap ⟨⟨r, .admitted o v h, c, arg, log⟩, m⟩)
    (hm : m.access .producer (r.slot h) = some m') :
    Inv cap ⟨⟨r.store (r.slot h) v, .written v h, c, o.leave moved v, log⟩, m'⟩ := by
  obtain ⟨hacc, -⟩ := hI.accesses_push
  have hcalls : SpscRing.Inv cap r (.admitted o v h) c (accepted log) (returned log) := hI.calls
  obtain ⟨-, hroom⟩ : h = r.head ∧ (accepted log).length < (returned log).length + cap :=
    hcalls.producer
  have hle : (returned log).length + c.taking ≤ (accepted log).length := by
    have hle := hcalls.le
    have hc := hcalls.consumer
    cases c with
    | idle | loaded | available => exact hle
    | taken t out => exact (List.getElem?_eq_some_iff.mp hc.2).1
  have hacc' : m.accesses (r.slot h) + 1 = 2 * ((accepted log).length / cap) + 1 := by rw [hacc]
  rw [hI.slot_push] at hm hacc'
  refine ⟨SpscRing.Inv.write hcalls, hI.fifo, ?_, ?_, ?_⟩
  · have hversions := hI.sync.versions.write hle (by
      show (accepted log).length < (returned log).length + c.taking + cap
      omega)
    have hsync := hI.sync.access (i := .producer) rfl hm hacc'.ge (by
      rw [access_accesses hm, Function.update_self, Function.update_of_ne (by decide)]
      exact hversions)
    exact hsync.congr (fun i => by cases i <;> rfl) (fun i => by cases i <;> rfl)
  · rw [access_view_self hm, touched_inl]
    exact hI.room
  · rw [access_view_of_ne hm (by decide)]
    exact hI.found

theorem Inv.take (hI : Inv cap ⟨⟨r, p, .available t, arg, log⟩, m⟩)
    (hv : r.buf[r.slot t]? = some v) (hm : m.access .consumer (r.slot t) = some m') :
    Inv cap ⟨⟨r.store (r.slot t) (moved v), p, .taken t v, arg, log⟩, m'⟩ := by
  obtain ⟨hacc, -⟩ := hI.accesses_pop
  have hcalls : SpscRing.Inv cap r p (.available t) (accepted log) (returned log) := hI.calls
  obtain ⟨-, hlt⟩ : t = r.tail ∧ (returned log).length < (accepted log).length := hcalls.consumer
  have hbound : (accepted log).length + p.writing ≤ (returned log).length + cap := by
    have hb := hcalls.bound
    have hp := hcalls.producer
    cases p with
    | idle | loaded | admitted => exact hb
    | written v h => exact hp.2.1
  have hacc' : m.accesses (r.slot t) + 1 = 2 * ((returned log).length / cap) + 2 := by rw [hacc]
  rw [hI.slot_pop] at hm hacc'
  refine ⟨SpscRing.Inv.take hcalls hv, hI.fifo, ?_, ?_, ?_⟩
  · have hversions := hI.sync.versions.take (by
      show (returned log).length < (accepted log).length + p.writing
      omega) hbound
    have hsync := hI.sync.access (i := .consumer) rfl hm hacc'.ge (by
      rw [access_accesses hm, Function.update_self, Function.update_of_ne (by decide)]
      exact hversions)
    exact hsync.congr (fun i => by cases i <;> rfl) (fun i => by cases i <;> rfl)
  · rw [access_view_of_ne hm (by decide)]
    exact hI.room
  · rw [access_view_self hm, touched_inl]
    exact hI.found

theorem Inv.commit (hI : Inv cap ⟨⟨r, .written v h, c, arg, log⟩, m⟩) :
    Inv cap ⟨⟨{ r with head := h + 1 }, .idle, c, arg, log ++ [.push v true]⟩,
      m.release .producer .head (h + 1)⟩ := by
  have hcalls : SpscRing.Inv cap r (.written v h) c (accepted log) (returned log) := hI.calls
  have hh : h = r.head := hcalls.producer.1
  have hnext : h + 1 = UInt64.ofNat ((accepted log).length + 1) := by
    rw [hh, hcalls.head, UInt64.ofNat_add]
    rfl
  have hsync := hI.sync.release (i := .producer) rfl
  have hroom : (accepted log).length + 1 ≤ m.view .producer (.inl .tail) + cap := hI.room
  refine ⟨?_, ?_, ?_, ?_, ?_⟩
  · simpa [State.Ok, State.accepted, State.returned] using hcalls.commit
  · simpa [State.accepted, State.returned] using hI.fifo.trans (List.prefix_append _ [v])
  · rw [hnext]
    exact hsync.congr (fun i => by cases i <;> simp [count, State.accepted, State.returned])
      (fun i => by cases i <;> rfl)
  · rw [release_view_self, stamped_inl_of_ne (by decide)]
    simpa [State.accepted, Producer.letIn] using hroom
  · rw [release_view_of_ne (by decide)]
    simpa [State.returned] using hI.found

theorem Inv.release (hI : Inv cap ⟨⟨r, p, .taken t v, arg, log⟩, m⟩) :
    Inv cap ⟨⟨{ r with tail := t + 1 }, p, .idle, arg, log ++ [.pop (some v)]⟩,
      m.release .consumer .tail (t + 1)⟩ := by
  have hcalls : SpscRing.Inv cap r p (.taken t v) (accepted log) (returned log) := hI.calls
  obtain ⟨ht, hout⟩ : t = r.tail ∧ (accepted log)[(returned log).length]? = some v :=
    hcalls.consumer
  obtain ⟨hlt, hget⟩ := List.getElem?_eq_some_iff.mp hout
  have hnext : t + 1 = UInt64.ofNat ((returned log).length + 1) := by
    rw [ht, hcalls.tail, UInt64.ofNat_add]
    rfl
  have hsync := hI.sync.release (i := .consumer) rfl
  have hfound : (returned log).length + 1 ≤ m.view .consumer (.inl .head) := hI.found
  refine ⟨?_, ?_, ?_, ?_, ?_⟩
  · simpa [State.Ok, State.accepted, State.returned] using hcalls.release
  · have hfifo : returned log <+: accepted log := hI.fifo
    have hconcat := List.concat_get_prefix hfifo hlt
    rw [List.get_eq_getElem, hget] at hconcat
    simpa [State.accepted, State.returned] using hconcat
  · rw [hnext]
    exact hsync.congr (fun i => by cases i <;> simp [count, State.accepted, State.returned])
      (fun i => by cases i <;> rfl)
  · rw [release_view_of_ne (by decide)]
    simpa [State.accepted] using hI.room
  · rw [release_view_self, stamped_inl_of_ne (by decide)]
    simpa [State.returned, Consumer.found] using hfound

/-- **Every step keeps the invariant**, whatever the loads read. -/
theorem inv_step (hI : Inv cap s) (hs : step moved s a = some s') : Inv cap s' := by
  cases moves_of_step hs with
  | push hm =>
      obtain ⟨hv, rfl⟩ := hI.sync.relaxed (i := .producer) hm
      exact ⟨{ hI.calls with producer := hv.trans hI.calls.head.symm }, hI.fifo, hI.sync, hI.room,
        hI.found⟩
  | @refuse r c arg log m m' o v h t k hm hfull =>
      obtain ⟨hsync, -, hseen, -, hview, hother⟩ :=
        hI.sync.acquire (j := .consumer) (by decide) hm
      have hcalls : SpscRing.Inv cap r (.loaded o v h) c (accepted log) (returned log) := hI.calls
      have hroom : (accepted log).length ≤ m.view .producer (.inl .tail) + cap := hI.room
      refine ⟨?_, ?_, ?_, ?_, ?_⟩
      · simpa [State.Ok, State.accepted, State.returned] using
          { hcalls with producer := trivial }
      · simpa [State.accepted, State.returned] using hI.fifo
      · exact hsync.congr (fun i => by cases i <;> simp [count, State.accepted, State.returned])
          (fun i => by cases i <;> rfl)
      · have hle : (accepted log).length ≤ m'.view .producer (.inl .tail) + cap :=
          hroom.trans (Nat.add_le_add_right (hseen.trans hview.ge) cap)
        simpa [State.accepted, Producer.letIn] using hle
      · rw [hother]
        simpa [State.returned] using hI.found
  | @accept r c arg log m m' o v h t k hm hfull =>
      obtain ⟨hsync, -, hseen, hle, hview, hother⟩ :=
        hI.sync.acquire (j := .consumer) (by decide) hm
      have hcalls : SpscRing.Inv cap r (.loaded o v h) c (accepted log) (returned log) := hI.calls
      have hroom : (accepted log).length ≤ m.view .producer (.inl .tail) + cap := hI.room
      have hlt : (accepted log).length < k + cap := by
        have hne := mt (hI.isFull_iff hm).mpr hfull
        have hcap := hroom.trans (Nat.add_le_add_right hseen cap)
        omega
      have hk : k ≤ (returned log).length := hle
      refine ⟨{ hcalls with producer := ⟨hcalls.producer, ?_⟩ }, hI.fifo, hsync, ?_, ?_⟩
      · show (accepted log).length < (returned log).length + cap
        omega
      · exact hlt.trans_le (Nat.add_le_add_right hview.ge cap)
      · rw [hother]
        exact hI.found
  | write hslot hm => exact hI.write hm
  | commit => exact hI.commit
  | pop hm =>
      obtain ⟨hv, rfl⟩ := hI.sync.relaxed (i := .consumer) hm
      exact ⟨{ hI.calls with slots := hI.calls.slots, consumer := hv.trans hI.calls.tail.symm },
        hI.fifo, hI.sync, hI.room, hI.found⟩
  | @miss r p arg log m m' t k hm =>
      obtain ⟨hsync, -, hseen, -, hview, hother⟩ :=
        hI.sync.acquire (j := .producer) (by decide) hm
      have hcalls : SpscRing.Inv cap r p (.loaded t) (accepted log) (returned log) := hI.calls
      have hfound : (returned log).length ≤ m.view .consumer (.inl .head) := hI.found
      refine ⟨?_, ?_, ?_, ?_, ?_⟩
      · simpa [State.Ok, State.accepted, State.returned] using
          { hcalls with consumer := trivial }
      · simpa [State.accepted, State.returned] using hI.fifo
      · exact hsync.congr (fun i => by cases i <;> simp [count, State.accepted, State.returned])
          (fun i => by cases i <;> rfl)
      · rw [hother]
        simpa [State.accepted] using hI.room
      · have hle : (returned log).length ≤ m'.view .consumer (.inl .head) :=
          hfound.trans (hseen.trans hview.ge)
        simpa [State.returned, Consumer.found] using hle
  | @find r p arg log m m' t h k hm hne =>
      obtain ⟨hsync, -, hseen, hle, hview, hother⟩ :=
        hI.sync.acquire (j := .producer) (by decide) hm
      have hcalls : SpscRing.Inv cap r p (.loaded t) (accepted log) (returned log) := hI.calls
      have hfound : (returned log).length ≤ m.view .consumer (.inl .head) := hI.found
      have hlt : (returned log).length < k := by
        have hne' := mt (hI.isEmpty_iff hm).mpr hne
        have hle' := hfound.trans hseen
        omega
      refine ⟨{ hcalls with consumer := ⟨hcalls.consumer, hlt.trans_le hle⟩ }, hI.fifo, hsync, ?_,
        ?_⟩
      · rw [hother]
        exact hI.room
      · exact Nat.succ_le_of_lt (hlt.trans_le hview.ge)
  | take hv hm => exact hI.take hv hm
  | release => exact hI.release

theorem inv_start [Inhabited α] {capacity : UInt64} (h : make capacity = some r) :
    Inv capacity.toNat (start r) where
  calls := ok_start h
  fifo := List.nil_prefix
  sync := by
    have hsingle : ∀ (x : Counter) (k : ℕ) (msg : Message Counter ℕ UInt64),
        [(⟨0, fun _ => 0⟩ : Message Counter ℕ UInt64)][k]? = some msg →
          msg.value = UInt64.ofNat k := by
      intro x k msg hget
      obtain ⟨hk, rfl⟩ := List.getElem?_eq_some_iff.mp hget
      obtain rfl : k = 0 := Nat.lt_one_iff.mp hk
      rfl
    refine ⟨Memory.ok_start _, ?_, fun i => hsingle i.counter, ?_, ?_, ?_, ?_⟩
    · intro i
      cases i <;> rfl
    · refine ⟨fun t i j hj => absurd hj (Nat.not_lt_zero j), fun x msg hmsg i j hj => ?_⟩
      obtain rfl := List.mem_singleton.mp hmsg
      exact absurd hj (Nat.not_lt_zero j)
    · intro i
      cases i <;> rfl
    · intro i j hj
      cases i <;> exact absurd hj (Nat.not_lt_zero j)
    · refine ⟨fun j _ hj => absurd hj (Nat.not_lt_zero j), fun j _ hj => ?_⟩
      have hlt : j < capacity.toNat := by
        have hz : j < 0 + 0 + capacity.toNat := hj
        omega
      rw [Nat.div_eq_of_lt hlt]
      rfl
  room := Nat.zero_le _
  found := le_rfl

theorem inv_run [Inhabited α] {capacity : UInt64} (hmake : make capacity = some r)
    {acts : List (Action α)} (hrun : run (step moved) (start r) acts = some s) :
    Inv capacity.toNat s :=
  run_preserves (P := Inv capacity.toNat) (inv_start hmake) (fun _ _ _ h hs => inv_step h hs) hrun

/-- What holds of a ring with `cap` slots under its memory orders. -/
structure RaceFree (moved : α → α) (cap : ℕ) (s : Shared α) : Prop where
  /-- Values come out in the order in which they went in, none twice and none missing. -/
  fifo : s.calls.returned <+: s.calls.accepted
  bounded : s.calls.unread.length ≤ cap
  /-- The slot about to be written is inside `buf_`, and every access so far happened before. -/
  write : ∀ o v h, s.calls.producer = .admitted o v h →
    s.calls.ring.slot h < s.calls.ring.buf.length ∧
      (s.mem.access .producer (s.calls.ring.slot h)).isSome
  /-- The same of the slot about to be read. -/
  read : ∀ t, s.calls.consumer = .available t →
    s.calls.ring.slot t < s.calls.ring.buf.length ∧
      (s.mem.access .consumer (s.calls.ring.slot t)).isSome
  /-- A push fails only on a `tail_` that was once stored and would have left no room. -/
  full : ∀ k s' v, step moved s (.producer k) = some s' →
    s'.calls.log = s.calls.log ++ [.push v false] →
    k ≤ s.calls.returned.length ∧ s.calls.accepted.length = k + cap
  /-- A pop fails only on a `head_` that was once stored and would have left no value. -/
  empty : ∀ k s', step moved s (.consumer k) = some s' →
    s'.calls.log = s.calls.log ++ [.pop none] →
    k ≤ s.calls.accepted.length ∧ s.calls.returned.length = k

theorem raceFree_of_inv (hI : Inv cap s) : RaceFree moved cap s where
  fifo := hI.fifo
  bounded := by
    have hlen := hI.calls.length_unread
    have hbound : s.calls.accepted.length ≤ s.calls.returned.length + cap := hI.calls.bound
    omega
  write := by
    obtain ⟨⟨r, p, c, arg, log⟩, m⟩ := s
    rintro o v h rfl
    have hcalls : SpscRing.Inv cap r (.admitted o v h) c (accepted log) (returned log) := hI.calls
    exact ⟨hcalls.slot_lt_push, hI.sync.ok.access_isSome hI.accesses_push.2⟩
  read := by
    obtain ⟨⟨r, p, c, arg, log⟩, m⟩ := s
    rintro t rfl
    have hcalls : SpscRing.Inv cap r p (.available t) (accepted log) (returned log) := hI.calls
    exact ⟨hcalls.slot_lt_pop, hI.sync.ok.access_isSome hI.accesses_pop.2⟩
  full := by
    intro k s' v hs hlog
    cases moves_of_step hs with
    | refuse hm hfull =>
        obtain ⟨-, -, -, hle, -, -⟩ := hI.sync.acquire (j := .consumer) (by decide) hm
        exact ⟨hle, (hI.isFull_iff hm).mp hfull⟩
    | accept | write => exact absurd (congrArg List.length hlog) (by simp)
    | commit => simp at hlog
  empty := by
    intro k s' hs hlog
    cases moves_of_step hs with
    | miss hm =>
        obtain ⟨-, -, -, hle, -, -⟩ := hI.sync.acquire (j := .producer) (by decide) hm
        exact ⟨hle, (hI.isEmpty_iff hm).mp rfl⟩
    | find | take => exact absurd (congrArg List.length hlog) (by simp)
    | release => simp at hlog

/-- **The memory orders are enough**: in every interleaving and whatever the loads read, no access
to a slot races and the values come out in order. -/
theorem race_free [Inhabited α] (moved : α → α) {capacity : UInt64} {r : SpscRing α}
    (hmake : make capacity = some r) (acts : List (Action α)) :
    States (step moved) (start r) (fun _ s => RaceFree moved capacity.toNat s) acts := by
  intro pre _ _ s hrun
  exact raceFree_of_inv (inv_run hmake hrun)

/-- Two slots.  The consumer goes by the first `head_` after both values are in, and the producer
by the first `tail_` after one is out. -/
def staleCalls : List (Action ℕ) :=
  [.push .rvalue 7 0, .producer 0, .producer 0, .producer 0,
    .push .rvalue 8 1, .producer 0, .producer 0, .producer 0,
    .pop 0, .consumer 1, .consumer 0, .consumer 0, .pop 1, .consumer 1,
    .push .rvalue 9 2, .producer 0]

theorem race_free_two : States (step id) (start (⟨1, [0, 0], 0, 0⟩ : SpscRing ℕ))
    (fun _ s => RaceFree id 2 s) staleCalls :=
  race_free id (show make (2 : UInt64) = some ⟨1, [0, 0], 0, 0⟩ from rfl) staleCalls

/-- The queue is half full when the pop finds it empty and the push finds it full. -/
example : (run (step id) (start (⟨1, [0, 0], 0, 0⟩ : SpscRing ℕ)) staleCalls).map (·.calls.log) =
    some [.push 7 true, .push 8 true, .pop (some 7), .pop none, .push 9 false] := by decide

/-! ### No side waits for the other -/

/-- The steps that a call may still have to take. -/
def pending (s : Shared α) : Side → ℕ
  | .producer =>
      match s.calls.producer with
      | .idle => 0
      | .loaded .. => 3
      | .admitted .. => 2
      | .written .. => 1
  | .consumer =>
      match s.calls.consumer with
      | .idle => 0
      | .loaded _ => 3
      | .available _ => 2
      | .taken .. => 1

/-- A side begins a call. -/
def Action.begins : Action α → Side → Bool
  | .push .., .producer => true
  | .pop _, .consumer => true
  | _, _ => false

/-- A side goes on with its call. -/
def Action.continues : Action α → Side → Bool
  | .producer _, .producer => true
  | .consumer _, .consumer => true
  | _, _ => false

/-- The first step of a call; it loads the side's own counter. -/
def Action.call (o : Overload) (v : α) (k : ℕ) : Side → Action α
  | .producer => .push o v k
  | .consumer => .pop k

/-- The next step of a side whose load is given the message `k`. -/
def Action.of (k : ℕ) : Side → Action α
  | .producer => .producer k
  | .consumer => .consumer k

theorem pending_le (s : Shared α) (i : Side) : s.pending i ≤ 3 := by
  obtain ⟨⟨r, p, c, arg, log⟩, m⟩ := s
  cases i with
  | producer => cases p <;> simp [pending]
  | consumer => cases c <;> simp [pending]

/-- A step brings a call that is under way closer to its end, if it is one of its own. -/
theorem pending_step {i : Side} (hs : step moved s a = some s') (hb : a.begins i = false) :
    s'.pending i + (if a.continues i then 1 else 0) ≤ s.pending i := by
  cases moves_of_step hs with
  | push => cases i with
    | producer => cases hb
    | consumer => exact le_rfl
  | refuse | accept | write | commit => cases i with
    | producer => simp [pending, Action.continues]
    | consumer => exact le_rfl
  | pop => cases i with
    | producer => exact le_rfl
    | consumer => cases hb
  | miss | find | take | release => cases i with
    | producer => exact le_rfl
    | consumer => simp [pending, Action.continues]

theorem pending_run {i : Side} : ∀ {acts : List (Action α)} {s : Shared α},
    (∀ a ∈ acts, a.begins i = false) → run (step moved) s acts = some s' →
      s'.pending i + acts.countP (·.continues i) ≤ s.pending i
  | [], s, _, hrun => by
      obtain rfl := Option.some_inj.mp hrun
      exact le_rfl
  | a :: acts, s, hb, hrun => by
      obtain ⟨t, hs, hrun⟩ := Option.bind_eq_some_iff.mp hrun
      have hstep := pending_step hs (hb a List.mem_cons_self)
      have hrest := pending_run (fun b hb' => hb b (List.mem_cons_of_mem a hb')) hrun
      rw [List.countP_cons]
      omega

/-- A load may be given any message that its side has not gone past. -/
theorem Inv.message_isSome (hI : Inv cap s) {i j : Side}
    (hk : s.mem.view i (.inl j.counter) ≤ k) (hlast : k ≤ s.count j) :
    (s.mem.message i j.counter k).isSome := by
  have hlt : k < (s.mem.history j.counter).length := by
    rw [hI.sync.length]
    omega
  unfold Memory.message
  rw [if_pos hk, List.getElem?_eq_getElem hlt]
  rfl

theorem Inv.acquire_isSome (hI : Inv cap s) {i j : Side}
    (hk : s.mem.view i (.inl j.counter) ≤ k) (hlast : k ≤ s.count j) :
    (s.mem.acquire i j.counter k).isSome := by
  unfold Memory.acquire
  rw [Option.isSome_map]
  exact hI.message_isSome hk hlast

/-- A side reads its own counter as it has stored it. -/
theorem Inv.relaxed_isSome (hI : Inv cap s) (i : Side) :
    (s.mem.relaxed i i.counter (s.count i)).isSome := by
  unfold Memory.relaxed
  rw [Option.isSome_map]
  exact hI.message_isSome (hI.sync.own i).le le_rfl

/-- A side that is idle can begin a call. -/
theorem Inv.call_isSome (hI : Inv cap s) {i : Side} (hp : s.pending i = 0) (o : Overload) (v : α) :
    (step moved s (.call o v (s.count i) i)).isSome := by
  have hload := hI.relaxed_isSome i
  obtain ⟨⟨r, p, c, arg, log⟩, m⟩ := s
  cases i with
  | producer =>
      cases p with
      | idle => simpa [Action.call, step, Side.counter] using hload
      | loaded | admitted | written => cases hp
  | consumer =>
      cases c with
      | idle => simpa [Action.call, step, Side.counter] using hload
      | loaded | available | taken => cases hp

/-- A call that is under way can go on. -/
theorem Inv.step_isSome (hI : Inv cap s) {i : Side} (hp : s.pending i ≠ 0)
    (hk : s.mem.view i (.inl i.other.counter) ≤ k) (hlast : k ≤ s.count i.other) :
    (step moved s (.of k i)).isSome := by
  obtain ⟨⟨r, p, c, arg, log⟩, m⟩ := s
  cases i with
  | producer =>
      show (stepProducer moved _ k).isSome
      cases p with
      | idle => exact absurd rfl hp
      | loaded o v h =>
          have hload : (m.acquire .producer .tail k).isSome :=
            hI.acquire_isSome (j := .consumer) hk hlast
          simpa [stepProducer] using hload
      | admitted o v h =>
          have hcalls : SpscRing.Inv cap r (.admitted o v h) c (accepted log) (returned log) :=
            hI.calls
          have haccess := hI.sync.ok.access_isSome hI.accesses_push.2
          simpa [stepProducer, hcalls.slot_lt_push] using haccess
      | written v h => rfl
  | consumer =>
      show (stepConsumer moved _ k).isSome
      cases c with
      | idle => exact absurd rfl hp
      | loaded t =>
          have hload : (m.acquire .consumer .head k).isSome :=
            hI.acquire_isSome (j := .producer) hk hlast
          simpa [stepConsumer] using hload
      | available t =>
          have hcalls : SpscRing.Inv cap r p (.available t) (accepted log) (returned log) :=
            hI.calls
          have haccess := hI.sync.ok.access_isSome hI.accesses_pop.2
          simpa [stepConsumer, List.getElem?_eq_getElem hcalls.slot_lt_pop] using haccess
      | taken t out => rfl

/-- **Neither side waits for the other.**  A side that is idle can begin a call in every state.  A
call that is under way can go on, whichever message its load is given, and it is over after at most
three steps of its own, however many steps of the other side come between them. -/
theorem wait_free [Inhabited α] {capacity : UInt64} {r : SpscRing α}
    (hmake : make capacity = some r) {acts : List (Action α)}
    (hrun : run (step moved) (start r) acts = some s) (i : Side) :
    (s.pending i = 0 → ∀ o v, (step moved s (.call o v (s.count i) i)).isSome) ∧
      (∀ k, s.pending i ≠ 0 → s.mem.view i (.inl i.other.counter) ≤ k → k ≤ s.count i.other →
        (step moved s (.of k i)).isSome) ∧
      ∀ later s', (∀ a ∈ later, a.begins i = false) → run (step moved) s later = some s' →
        s'.pending i + later.countP (·.continues i) ≤ 3 := by
  have hI := inv_run hmake hrun
  refine ⟨fun hp o v => hI.call_isSome hp o v,
    fun k hp hk hlast => hI.step_isSome hp hk hlast, fun later s' hb hlater => ?_⟩
  exact (pending_run hb hlater).trans (s.pending_le i)

/-- Two values are in; the consumer has begun a pop, and the producer is idle. -/
theorem wait_free_two : ∃ s : Shared ℕ,
    run (step id) (start ⟨1, [0, 0], 0, 0⟩) (staleCalls.take 9) = some s ∧
      (s.pending .producer = 0 ∧ s.pending .consumer = 3) ∧ ∀ i : Side,
      (s.pending i = 0 → ∀ o v, (step id s (.call o v (s.count i) i)).isSome) ∧
      (∀ k, s.pending i ≠ 0 → s.mem.view i (.inl i.other.counter) ≤ k → k ≤ s.count i.other →
        (step id s (.of k i)).isSome) ∧
      ∀ later s', (∀ a ∈ later, a.begins i = false) → run (step id) s later = some s' →
        s'.pending i + later.countP (·.continues i) ≤ 3 := by
  obtain ⟨s, hrun, hpending⟩ : ∃ s ∈ run (step id) (start (⟨1, [0, 0], 0, 0⟩ : SpscRing ℕ))
      (staleCalls.take 9), s.pending .producer = 0 ∧ s.pending .consumer = 3 := by decide
  exact ⟨s, hrun, hpending, fun i =>
    wait_free (show make (2 : UInt64) = some ⟨1, [0, 0], 0, 0⟩ from rfl) hrun i⟩

end Shared

end SpscRing
end Trading
