import Mathlib.Tactic.Ring

/-!
Hexadecimal text in ASCII: what `printf` writes for a conversion with a width
that the value fills, and what `scanf` reads from a string of digits.
-/

namespace Hexa

/-- The digit of a value below 16. -/
def digit (d : Nat) : UInt8 := UInt8.ofNat (if d < 10 then 0x30 + d else 0x57 + d)

/-- The last `w` hexadecimal digits of `n`, most significant first. -/
def digits : Nat → Nat → List UInt8
  | 0, _ => []
  | w + 1, n => digits w (n / 16) ++ [digit (n % 16)]

/-- `0` to `9`, `a` to `f` and `A` to `F`. -/
def isDigit (c : UInt8) : Bool :=
  (0x30 ≤ c && c ≤ 0x39) || (0x61 ≤ c && c ≤ 0x66) || (0x41 ≤ c && c ≤ 0x46)

def digitValue (c : UInt8) : Nat :=
  if c ≤ 0x39 then c.toNat - 0x30 else if c ≤ 0x46 then c.toNat - 0x37 else c.toNat - 0x57

/-- The number that a string of digits stands for. -/
def value (cs : List UInt8) : Nat := cs.foldl (fun n c => 16 * n + digitValue c) 0

theorem digitValue_digit : ∀ d < 16, digitValue (digit d) = d := by decide

theorem isDigit_digit : ∀ d < 16, isDigit (digit d) = true := by decide

@[simp] theorem length_digits (w n : Nat) : (digits w n).length = w := by
  induction w generalizing n with
  | zero => rfl
  | succ w ih => rw [digits, List.length_append, ih, List.length_singleton]

theorem isDigit_of_mem_digits {w n : Nat} {c : UInt8} (h : c ∈ digits w n) : isDigit c = true := by
  induction w generalizing n with
  | zero => exact absurd h List.not_mem_nil
  | succ w ih =>
    rw [digits, List.mem_append, List.mem_singleton] at h
    cases h with
    | inl hc => exact ih hc
    | inr hc => exact hc ▸ isDigit_digit _ (Nat.mod_lt n (by decide))

theorem value_append (cs : List UInt8) (c : UInt8) : value (cs ++ [c]) = 16 * value cs + digitValue c := by
  rw [value, List.foldl_append, List.foldl_cons, List.foldl_nil, value]

/-- The digits of a number that fits their width stand for it. -/
theorem value_digits {w n : Nat} (h : n < 16 ^ w) : value (digits w n) = n := by
  induction w generalizing n with
  | zero =>
    rw [Nat.pow_zero] at h
    rw [show n = 0 by omega]
    rfl
  | succ w ih =>
    have hq : n / 16 < 16 ^ w := by
      rw [Nat.pow_succ] at h
      omega
    rw [digits, value_append, ih hq, digitValue_digit _ (Nat.mod_lt n (by decide))]
    omega

/-- The bytes written on two digits each. -/
def bytes : List UInt8 → List UInt8
  | a :: b :: cs => UInt8.ofNat (value [a, b]) :: bytes cs
  | _ => []

theorem bytes_digits (b : UInt8) (cs : List UInt8) : bytes (digits 2 b.toNat ++ cs) = b :: bytes cs := by
  have hdigits : digits 2 b.toNat = [digit (b.toNat / 16 % 16), digit (b.toNat % 16)] := rfl
  have hvalue := value_digits (show b.toNat < 16 ^ 2 from b.toNat_lt)
  rw [hdigits] at hvalue ⊢
  rw [List.cons_append, List.singleton_append, bytes, hvalue, UInt8.ofNat_toNat]

theorem bytes_flatMap_digits (xs : List UInt8) : bytes (xs.flatMap fun b => digits 2 b.toNat) = xs := by
  induction xs with
  | nil => rfl
  | cons b xs ih => rw [List.flatMap_cons, bytes_digits, ih]

/-- `%x` reads the digits at the start of the text. -/
def scan (text : List UInt8) : Nat := value (text.takeWhile isDigit)

end Hexa
