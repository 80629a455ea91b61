import Mathlib.Data.Nat.Digits.Defs
import Mathlib.Data.List.DropRight
import ElfLinker.Lib.HexDump

/-!
Text in columns, as `printf` lays it out, and how to read it again: numbers in a base,
words between blanks from either end of a line, columns of a fixed width, and the lines
of a text.
-/

namespace Columns

open HexDump

def zero : UInt8 := 0x30
def minus : UInt8 := 0x2d

/-! ## Numbers -/

/-- `%u` in base 10, `%x` in base 16. -/
def number (b n : Nat) : List UInt8 :=
  (if n = 0 then [0] else (b.digits n).reverse).map Hexa.digit

/-- `%d`. -/
def signed (z : Int) : List UInt8 :=
  if z < 0 then minus :: number 10 z.natAbs else number 10 z.natAbs

def value (b : Nat) (text : List UInt8) : Nat := text.foldl (fun n c => b * n + Hexa.digitValue c) 0

def integer : List UInt8 → Int
  | [] => 0
  | c :: text => if c = minus then -value 10 text else value 10 (c :: text)

theorem value_append (b : Nat) (text : List UInt8) (c : UInt8) :
    value b (text ++ [c]) = b * value b text + Hexa.digitValue c := by
  simp [value]

theorem value_digits {b : Nat} {ds : List Nat} (h : ∀ d ∈ ds, d < 16) :
    value b (ds.reverse.map Hexa.digit) = Nat.ofDigits b ds := by
  induction ds with
  | nil => rfl
  | cons d ds ih =>
    rw [List.forall_mem_cons] at h
    rw [List.reverse_cons, List.map_append, List.map_singleton, value_append, ih h.2, Nat.ofDigits_cons,
      Hexa.digitValue_digit d h.1, Nat.add_comm]

section

variable {b : Nat} (hb : 1 < b) (hle : b ≤ 16)
include hb hle

theorem digit_lt (n : Nat) : ∀ d ∈ if n = 0 then [0] else (b.digits n).reverse, d < 16 := by
  intro d hd
  by_cases hn : n = 0
  · rw [if_pos hn, List.mem_singleton] at hd
    omega
  · rw [if_neg hn, List.mem_reverse] at hd
    have hlt := Nat.digits_lt_base hb hd
    omega

theorem value_number (n : Nat) : value b (number b n) = n := by
  rw [number]
  by_cases hn : n = 0
  · subst hn
    simp [value, Hexa.digit, Hexa.digitValue]
  · have hlt := digit_lt hb hle n
    rw [if_neg hn] at hlt ⊢
    rw [value_digits fun d hd => hlt d (List.mem_reverse.mpr hd), Nat.ofDigits_digits]

theorem isDigit_of_mem_number {n : Nat} {c : UInt8} (hc : c ∈ number b n) : Hexa.isDigit c = true := by
  obtain ⟨d, hd, rfl⟩ := List.mem_map.mp hc
  exact Hexa.isDigit_digit d (digit_lt hb hle n d hd)

end

theorem number_ne_nil (b n : Nat) : number b n ≠ [] := by
  intro h
  rw [number, List.map_eq_nil_iff] at h
  by_cases hn : n = 0
  · simp [hn] at h
  · rw [if_neg hn, List.reverse_eq_nil_iff, Nat.digits_eq_nil_iff_eq_zero] at h
    exact hn h

theorem not_mem_number {n : Nat} {c : UInt8} (b : Nat) (hb : 1 < b) (hle : b ≤ 16)
    (hc : Hexa.isDigit c = false) : c ∉ number b n := by
  intro hmem
  rw [isDigit_of_mem_number hb hle hmem] at hc
  cases hc

theorem integer_signed (z : Int) : integer (signed z) = z := by
  have hvalue := value_number (b := 10) (by decide) (by decide) z.natAbs
  rw [signed]
  by_cases hz : z < 0
  · rw [if_pos hz, integer, if_pos rfl, hvalue]
    omega
  · rw [if_neg hz]
    cases htext : number 10 z.natAbs with
    | nil => exact absurd htext (number_ne_nil _ _)
    | cons c text =>
      have hc : c ≠ minus := by
        rintro rfl
        have hmem : minus ∈ number 10 z.natAbs := htext ▸ List.mem_cons_self
        exact not_mem_number 10 (by decide) (by decide) rfl hmem
      rw [integer, if_neg hc, ← htext, hvalue]
      omega

theorem signed_ne_nil (z : Int) : signed z ≠ [] := by
  rw [signed]
  split
  · exact List.cons_ne_nil _ _
  · exact number_ne_nil _ _

theorem not_mem_signed {z : Int} {c : UInt8} (hc : Hexa.isDigit c = false) (hminus : c ≠ minus) :
    c ∉ signed z := by
  have hnumber : c ∉ number 10 z.natAbs := not_mem_number 10 (by decide) (by decide) hc
  rw [signed]
  split
  · simp [hminus, hnumber]
  · exact hnumber

/-- `%0<w>x`. -/
def zeros (w : Nat) (text : List UInt8) : List UInt8 := List.replicate (w - text.length) zero ++ text

theorem value_zeros (b w : Nat) (text : List UInt8) : value b (zeros w text) = value b text := by
  rw [zeros]
  induction w - text.length with
  | zero => rfl
  | succ n ih =>
    rw [List.replicate_succ, List.cons_append, ← ih, value, List.foldl_cons]
    rfl

theorem not_mem_zeros {w : Nat} {text : List UInt8} {c : UInt8} (h : c ∉ text) (hc : c ≠ zero) :
    c ∉ zeros w text := by
  rw [zeros, List.mem_append, List.mem_replicate]
  rintro (⟨_, rfl⟩ | hmem)
  · exact hc rfl
  · exact h hmem

theorem zeros_ne_nil {w : Nat} {text : List UInt8} (h : text ≠ []) : zeros w text ≠ [] :=
  List.append_ne_nil_of_right_ne_nil _ h

/-! ## Words -/

/-- `%<w>s`. -/
def padLeft (w : Nat) (text : List UInt8) : List UInt8 := List.replicate (w - text.length) blank ++ text

/-- The first word of a text, and what follows it. -/
def word (text : List UInt8) : List UInt8 × List UInt8 :=
  ((text.dropWhile (· == blank)).takeWhile (· != blank), (text.dropWhile (· == blank)).dropWhile (· != blank))

/-- What precedes the last word of a text, and the word. -/
def lastWord (text : List UInt8) : List UInt8 × List UInt8 :=
  ((word text.reverse).2.reverse, (word text.reverse).1.reverse)

@[simp] theorem word_blank (text : List UInt8) : word (blank :: text) = word text := rfl

@[simp] theorem word_padLeft (w : Nat) (text suite : List UInt8) :
    word (padLeft w text ++ suite) = word (text ++ suite) := by
  rw [padLeft, List.append_assoc]
  induction w - text.length with
  | zero => rfl
  | succ n ih => rw [List.replicate_succ, List.cons_append, word_blank, ih]

theorem word_append {w suite : List UInt8} (hw : blank ∉ w) (hne : w ≠ []) :
    word (w ++ blank :: suite) = (w, blank :: suite) := by
  have hall : ∀ c ∈ w, (c != blank) = true := by
    intro c hc
    simp only [bne_iff_ne]
    rintro rfl
    exact hw hc
  cases w with
  | nil => exact absurd rfl hne
  | cons c w =>
    have hc : (c == blank) = false := by simpa using hall c List.mem_cons_self
    have hdrop : (c :: w ++ blank :: suite).dropWhile (· == blank) = c :: w ++ blank :: suite :=
      List.dropWhile_cons_of_neg (by simp [hc])
    rw [word, hdrop, List.takeWhile_append_of_pos hall, List.dropWhile_append_of_pos hall]
    simp

/-- A word with a sign stuck to it, as `%2d]` prints one. -/
theorem word_padLeft_label {t : List UInt8} {c : UInt8} (ht : blank ∉ t) (hc : c ≠ blank) (w : Nat)
    (suite : List UInt8) : word (padLeft w t ++ c :: blank :: suite) = (t ++ [c], blank :: suite) := by
  have hnot : blank ∉ t ++ [c] := by simp [ht, Ne.symm hc]
  rw [word_padLeft, List.append_cons, word_append hnot (by simp)]

theorem lastWord_append {w suite : List UInt8} (hw : blank ∉ w) (hne : w ≠ []) :
    lastWord (suite ++ [blank] ++ w) = (suite ++ [blank], w) := by
  have hword := @word_append w.reverse suite.reverse (by simpa using hw) (by simpa using hne)
  have hrev : (suite ++ [blank] ++ w).reverse = w.reverse ++ blank :: suite.reverse := by simp
  rw [lastWord, hrev, hword]
  simp

/-! ## Columns -/

/-- `%-<w>s`. -/
def padRight (w : Nat) (text : List UInt8) : List UInt8 := text ++ List.replicate (w - text.length) blank

/-- A text without the blanks at its end. -/
def trim (text : List UInt8) : List UInt8 := text.rdropWhile (· == blank)

theorem trim_append_blanks (text : List UInt8) (n : Nat) :
    trim (text ++ List.replicate n blank) = trim text := by
  induction n with
  | zero => rw [List.replicate_zero, List.append_nil]
  | succ n ih =>
    rw [List.replicate_succ', ← List.append_assoc, trim, List.rdropWhile_concat_pos _ _ _ (by simp)]
    exact ih

theorem trim_padRight (w : Nat) (text : List UInt8) : trim (padRight w text) = trim text :=
  trim_append_blanks text _

theorem trim_of_not_mem {text : List UInt8} (h : blank ∉ text) : trim text = text := by
  rw [trim, List.rdropWhile_eq_self_iff]
  intro hne hlast
  rw [beq_iff_eq] at hlast
  exact h (hlast ▸ List.getLast_mem hne)

theorem length_padRight {w : Nat} {text : List UInt8} (h : text.length ≤ w) : (padRight w text).length = w := by
  rw [padRight, List.length_append, List.length_replicate]
  omega

/-- The column of width `w` at the start of a text. -/
def column (w : Nat) (text : List UInt8) : List UInt8 := trim (text.take w)

theorem column_append {w : Nat} {text : List UInt8} (hlen : text.length ≤ w) (hb : blank ∉ text)
    (suite : List UInt8) :
    column w (padRight w text ++ suite) = text ∧ (padRight w text ++ suite).drop w = suite := by
  have hw := length_padRight hlen
  constructor
  · rw [column, List.take_left' hw, trim_padRight, trim_of_not_mem hb]
  · exact List.drop_left' hw

/-! ## Lines -/

/-- A text on one line. -/
def OneLine (text : List UInt8) : Prop := newline ∉ text

instance (text : List UInt8) : Decidable (OneLine text) := inferInstanceAs (Decidable (_ ∉ _))

@[simp] theorem oneLine_append (text suite : List UInt8) :
    OneLine (text ++ suite) ↔ OneLine text ∧ OneLine suite := by
  simp [OneLine]

theorem oneLine_decimal (n : Nat) : OneLine (number 10 n) := not_mem_number 10 (by decide) (by decide) rfl

theorem oneLine_hexadecimal (n : Nat) : OneLine (number 16 n) := not_mem_number 16 (by decide) (by decide) rfl

theorem oneLine_signed (z : Int) : OneLine (signed z) := not_mem_signed rfl (by decide)

theorem oneLine_zeros {text : List UInt8} (h : OneLine text) (w : Nat) : OneLine (zeros w text) :=
  not_mem_zeros h (by decide)

theorem oneLine_padLeft {text : List UInt8} (h : OneLine text) (w : Nat) : OneLine (padLeft w text) := by
  rw [OneLine, padLeft, List.mem_append, List.mem_replicate]
  rintro (⟨_, hc⟩ | hmem)
  · exact absurd hc (by decide)
  · exact h hmem

theorem oneLine_padRight {text : List UInt8} (h : OneLine text) (w : Nat) : OneLine (padRight w text) := by
  rw [OneLine, padRight, List.mem_append, List.mem_replicate]
  rintro (hmem | ⟨_, hc⟩)
  · exact h hmem
  · exact absurd hc (by decide)

/-- The lines of a text. -/
def lines : List UInt8 → List (List UInt8)
  | [] => []
  | c :: text =>
    if c = newline then [] :: lines text
    else
      match lines text with
      | [] => [[c]]
      | l :: ls => (c :: l) :: ls

theorem lines_append {l : List UInt8} (hl : OneLine l) (text : List UInt8) :
    lines (l ++ newline :: text) = l :: lines text := by
  induction l with
  | nil => simp [lines]
  | cons c l ih =>
    rw [OneLine, List.mem_cons, not_or] at hl
    rw [List.cons_append, lines, if_neg (Ne.symm hl.1), ih hl.2]

theorem lines_unlines {ls : List (List UInt8)} (h : ∀ l ∈ ls, OneLine l) : lines (unlines ls) = ls := by
  induction ls with
  | nil => rfl
  | cons l ls ih =>
    rw [List.forall_mem_cons] at h
    rw [unlines, List.flatMap_cons, List.append_assoc, List.singleton_append, lines_append h.1]
    exact congrArg (l :: ·) (ih h.2)

end Columns
