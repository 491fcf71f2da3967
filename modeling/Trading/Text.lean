import Mathlib.Data.List.TakeWhile

/-! # Strings

The parts of `std::string` and `std::stoul` that a reader of separated fields uses, on the list of
the characters of the string.

* A position is `none` where the library has `npos`; `npos + 1` is 0 (`next`).
* `substr` and `stoul` are `none` where they throw.  `unsigned long` has 64 bits.

A string is searched for a separator by `find_eq_some`, and cut by `substr_eq`.  `Numeral` says which
strings `stoul` reads, without its loops (`stoul_ne_none_iff`). -/

namespace Text

/-! ### Search and substrings -/

/-- `find(c, pos)`. -/
def find (s : List Char) (c : Char) (pos : ℕ) : Option ℕ := ((s.drop pos).idxOf? c).map (pos + ·)

/-- The position after another one. -/
def next : Option ℕ → ℕ
  | some p => p + 1
  | none => 0

/-- `substr(pos, n)`, to the end if there is no `n`. -/
def substr (s : List Char) (pos : ℕ) (n : Option ℕ) : Option (List Char) :=
  if pos ≤ s.length then some (n.elim (s.drop pos) fun n => (s.drop pos).take n) else none

section search
variable {c : Char} {s l m r : List Char} {pos n : ℕ}

theorem idxOf?_append_cons (h : c ∉ m) : (m ++ c :: r).idxOf? c = some m.length := by
  induction m with
  | nil => simp [List.idxOf?_cons]
  | cons x m ih =>
      obtain ⟨hx, hm⟩ := not_or.mp (mt List.mem_cons.mpr h)
      rw [List.cons_append, List.idxOf?_cons, if_neg (by simpa using Ne.symm hx), ih hm]
      rfl

/-- The first separator from the end of `l` on. -/
theorem find_eq_some (hs : s = l ++ (m ++ c :: r)) (hpos : pos = l.length) (h : c ∉ m) :
    find s c pos = some (pos + m.length) := by
  rw [find, hs, hpos, List.drop_left, idxOf?_append_cons h]
  rfl

theorem find_eq_none (hs : s = l ++ m) (hpos : pos = l.length) (h : c ∉ m) :
    find s c pos = none := by
  rw [find, hs, hpos, List.drop_left, List.idxOf?_eq_none_iff.mpr h]
  rfl

theorem substr_eq (hs : s = l ++ (m ++ r)) (hpos : pos = l.length) (hn : n = m.length) :
    substr s pos (some n) = some m := by
  rw [substr, hs, hpos, hn, if_pos (by simp), Option.elim_some, List.drop_left, List.take_left]

theorem substr_end_eq (hs : s = l ++ m) (hpos : pos = l.length) : substr s pos none = some m := by
  rw [substr, hs, hpos, if_pos (by simp), Option.elim_none, List.drop_left]

end search

/-! ### Numbers -/

/-- `isspace` in the C locale. -/
def isSpace (c : Char) : Bool := c = ' ' ∨ (9 ≤ c.toNat ∧ c.toNat ≤ 13)

/-- `ULONG_MAX`. -/
def ulongMax : ℕ := 0xffffffffffffffff

/-- The sign that `strtoul` takes, and what follows it. -/
def sign : List Char → Bool × List Char
  | '-' :: s => (true, s)
  | '+' :: s => (false, s)
  | s => (false, s)

/-- `std::stoul` in base 10: white space, a sign, the digits; the rest is not looked at. -/
def stoul (s : List Char) : Option ℕ :=
  let (negative, s) := sign (s.dropWhile isSpace)
  let digits := s.takeWhile Char.isDigit
  let v := Nat.ofDigitChars 10 digits 0
  if digits = [] ∨ ulongMax < v then none
  else some (if negative then (ulongMax + 1 - v) % (ulongMax + 1) else v)

/-- What `stoul` reads: white space, perhaps a sign, digits of a value that fits, and a rest that
does not go on with a digit. -/
def Numeral (s : List Char) : Prop :=
  ∃ blank sgn digits rest, s = blank ++ (sgn ++ (digits ++ rest)) ∧ (∀ c ∈ blank, isSpace c) ∧
    (sgn = [] ∨ sgn = ['-'] ∨ sgn = ['+']) ∧ digits ≠ [] ∧ (∀ c ∈ digits, c.isDigit) ∧
    (∀ c ∈ rest.head?, ¬ c.isDigit) ∧ Nat.ofDigitChars 10 digits 0 ≤ ulongMax

theorem dropWhile_append_of_head {p : Char → Bool} {l m : List Char} (hl : ∀ c ∈ l, p c)
    (hm : ∀ c ∈ m.head?, ¬ p c) : (l ++ m).dropWhile p = m := by
  rw [List.dropWhile_append_of_pos hl]
  cases m with
  | nil => rfl
  | cons c m => exact List.dropWhile_cons_of_neg (hm c rfl)

theorem takeWhile_append_of_head {p : Char → Bool} {l m : List Char} (hl : ∀ c ∈ l, p c)
    (hm : ∀ c ∈ m.head?, ¬ p c) : (l ++ m).takeWhile p = l := by
  rw [List.takeWhile_append_of_pos hl]
  cases m with
  | nil => simp
  | cons c m => rw [List.takeWhile_cons_of_neg (hm c rfl), List.append_nil]

theorem not_isSpace_of_isDigit {c : Char} (h : c.isDigit) : ¬ isSpace c := by
  rw [Char.isDigit_iff_toNat] at h
  have hne : c ≠ ' ' := by
    rintro rfl
    exact absurd h.1 (by decide)
  have h48 : '0'.toNat = 48 := rfl
  simp only [isSpace, hne, false_or, decide_eq_true_eq, not_and, not_le]
  omega

/-- No sign, before anything else. -/
theorem sign_of_head {s : List Char} (h : ∀ c ∈ s.head?, c ≠ '-' ∧ c ≠ '+') :
    sign s = (false, s) := by
  unfold sign
  split
  · exact absurd rfl (h '-' rfl).1
  · exact absurd rfl (h '+' rfl).2
  · rfl

/-- The three ways in which `strtoul` reads a sign. -/
theorem sign_cases (s : List Char) :
    ∃ sgn, (sgn = [] ∨ sgn = ['-'] ∨ sgn = ['+']) ∧ s = sgn ++ (sign s).2 := by
  unfold sign
  split
  · exact ⟨['-'], .inr (.inl rfl), rfl⟩
  · exact ⟨['+'], .inr (.inr rfl), rfl⟩
  · exact ⟨[], .inl rfl, rfl⟩

section numeral
variable {blank sgn digits rest : List Char}

theorem sign_append (hsgn : sgn = [] ∨ sgn = ['-'] ∨ sgn = ['+']) (hne : digits ≠ [])
    (hdigits : ∀ c ∈ digits, c.isDigit) :
    sign (sgn ++ (digits ++ rest)) = (decide (sgn = ['-']), digits ++ rest) := by
  obtain rfl | rfl | rfl := hsgn
  · obtain ⟨d, ds, rfl⟩ := List.exists_cons_of_ne_nil hne
    refine sign_of_head fun c hc => ?_
    obtain rfl := Option.some_inj.mp hc
    have hd := hdigits d List.mem_cons_self
    constructor
    · rintro rfl
      exact absurd hd (by decide)
    · rintro rfl
      exact absurd hd (by decide)
  · rfl
  · rfl

/-- `stoul` of white space, a sign and digits. -/
theorem stoul_append (hblank : ∀ c ∈ blank, isSpace c)
    (hsgn : sgn = [] ∨ sgn = ['-'] ∨ sgn = ['+']) (hne : digits ≠ [])
    (hdigits : ∀ c ∈ digits, c.isDigit) (hrest : ∀ c ∈ rest.head?, ¬ c.isDigit)
    (hv : Nat.ofDigitChars 10 digits 0 ≤ ulongMax) :
    stoul (blank ++ (sgn ++ (digits ++ rest))) = some (if sgn = ['-'] then
      (ulongMax + 1 - Nat.ofDigitChars 10 digits 0) % (ulongMax + 1)
        else Nat.ofDigitChars 10 digits 0) := by
  have hhead : ∀ c ∈ (sgn ++ (digits ++ rest)).head?, ¬ isSpace c := by
    intro c hc
    obtain rfl | rfl | rfl := hsgn
    · obtain ⟨d, ds, rfl⟩ := List.exists_cons_of_ne_nil hne
      obtain rfl := Option.some_inj.mp hc
      exact not_isSpace_of_isDigit (hdigits d List.mem_cons_self)
    · obtain rfl := Option.some_inj.mp hc
      decide
    · obtain rfl := Option.some_inj.mp hc
      decide
  unfold stoul
  rw [dropWhile_append_of_head hblank hhead, sign_append hsgn hne hdigits]
  dsimp only
  rw [takeWhile_append_of_head hdigits hrest, if_neg (by simp [hne, hv])]
  simp only [decide_eq_true_eq]

end numeral

/-- `stoul` reads the numerals, and throws on everything else. -/
theorem stoul_ne_none_iff {s : List Char} : stoul s ≠ none ↔ Numeral s := by
  constructor
  · intro h
    obtain ⟨sgn, hsgn, hs⟩ := sign_cases (s.dropWhile isSpace)
    obtain ⟨hne, hv⟩ := not_or.mp fun hbad => h (if_pos hbad)
    refine ⟨s.takeWhile isSpace, sgn, (sign (s.dropWhile isSpace)).2.takeWhile Char.isDigit,
      (sign (s.dropWhile isSpace)).2.dropWhile Char.isDigit, ?_, fun c => List.mem_takeWhile_imp,
      hsgn, hne, fun c => List.mem_takeWhile_imp, ?_, not_lt.mp hv⟩
    · rw [List.takeWhile_append_dropWhile, ← hs, List.takeWhile_append_dropWhile]
    · intro c hc
      have hnot := List.head?_dropWhile_not Char.isDigit (sign (s.dropWhile isSpace)).2
      rw [Option.mem_def.mp hc] at hnot
      simpa using hnot
  · rintro ⟨blank, sgn, digits, rest, rfl, hblank, hsgn, hne, hdigits, hrest, hv⟩
    rw [stoul_append hblank hsgn hne hdigits hrest hv]
    exact Option.some_ne_none _

/-- A number that fits is read back as printed. -/
theorem stoul_toDigits {n : ℕ} (h : n ≤ ulongMax) : stoul (Nat.toDigits 10 n) = some n := by
  have hv : Nat.ofDigitChars 10 (Nat.toDigits 10 n) 0 = n := Nat.ofDigitChars_ten_toDigits
  have hdigits : ∀ c ∈ Nat.toDigits 10 n, c.isDigit := fun c =>
    Nat.isDigit_of_mem_toDigits (by decide) (by decide)
  have hs : stoul ([] ++ ([] ++ (Nat.toDigits 10 n ++ []))) = _ :=
    stoul_append (by simp) (.inl rfl) Nat.toDigits_ne_nil hdigits (by simp) (hv.le.trans h)
  rw [hv] at hs
  simpa using hs

end Text
