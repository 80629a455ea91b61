import Mathlib.Data.List.Induction
import ElfLinker.Lib.Codec

/-!
Unsigned integers in the two byte orders. `big = true` puts the most
significant byte first. The laws are facts about base 256 digits, so `omega`
proves them on the natural number behind the word.
-/

namespace Endian

/-- The four bytes of a word, most significant first when `big`. -/
def wordBytes (big : Bool) (x : UInt32) : List UInt8 :=
  let bytes := [UInt8.ofNat (x.toNat / 2 ^ 24), UInt8.ofNat (x.toNat / 2 ^ 16),
    UInt8.ofNat (x.toNat / 2 ^ 8), UInt8.ofNat x.toNat]
  if big then bytes else bytes.reverse

def wordValue (a b c d : UInt8) : UInt32 :=
  UInt32.ofNat (a.toNat * 2 ^ 24 + b.toNat * 2 ^ 16 + c.toNat * 2 ^ 8 + d.toNat)

def wordOf (big : Bool) : List UInt8 → UInt32
  | a :: b :: c :: d :: _ => if big then wordValue a b c d else wordValue d c b a
  | _ => 0

/-- The two bytes of a half word, most significant first when `big`. -/
def halfBytes (big : Bool) (x : UInt16) : List UInt8 :=
  let bytes := [UInt8.ofNat (x.toNat / 2 ^ 8), UInt8.ofNat x.toNat]
  if big then bytes else bytes.reverse

def halfValue (a b : UInt8) : UInt16 := UInt16.ofNat (a.toNat * 2 ^ 8 + b.toNat)

def halfOf (big : Bool) : List UInt8 → UInt16
  | a :: b :: _ => if big then halfValue a b else halfValue b a
  | _ => 0

theorem toNat_wordValue (a b c d : UInt8) : (wordValue a b c d).toNat =
    a.toNat * 2 ^ 24 + b.toNat * 2 ^ 16 + c.toNat * 2 ^ 8 + d.toNat := by
  have ha := a.toNat_lt
  have hb := b.toNat_lt
  have hc := c.toNat_lt
  have hd := d.toNat_lt
  rw [wordValue, UInt32.toNat_ofNat_of_lt' (by rw [UInt32.size]; omega)]

theorem toNat_halfValue (a b : UInt8) : (halfValue a b).toNat = a.toNat * 2 ^ 8 + b.toNat := by
  have ha := a.toNat_lt
  have hb := b.toNat_lt
  rw [halfValue, UInt16.toNat_ofNat_of_lt' (by rw [UInt16.size]; omega)]

/-- A word is made of its four bytes. -/
theorem wordValue_bytes (x : UInt32) :
    wordValue (UInt8.ofNat (x.toNat / 2 ^ 24)) (UInt8.ofNat (x.toNat / 2 ^ 16))
      (UInt8.ofNat (x.toNat / 2 ^ 8)) (UInt8.ofNat x.toNat) = x := by
  have hx := x.toNat_lt
  apply UInt32.toNat_inj.mp
  rw [toNat_wordValue]
  simp only [UInt8.toNat_ofNat', Nat.reducePow] at *
  omega

theorem halfValue_bytes (x : UInt16) :
    halfValue (UInt8.ofNat (x.toNat / 2 ^ 8)) (UInt8.ofNat x.toNat) = x := by
  have hx := x.toNat_lt
  apply UInt16.toNat_inj.mp
  rw [toNat_halfValue]
  simp only [UInt8.toNat_ofNat', Nat.reducePow] at *
  omega

/-- The bytes of the word made of `a`, `b`, `c` and `d` are those. -/
theorem wordBytes_wordValue (a b c d : UInt8) : wordBytes true (wordValue a b c d) = [a, b, c, d] := by
  have ha := a.toNat_lt
  have hb := b.toNat_lt
  have hc := c.toNat_lt
  have hd := d.toNat_lt
  simp only [wordBytes, if_true, toNat_wordValue, List.cons.injEq, and_true]
  refine ⟨?_, ?_, ?_, ?_⟩ <;>
    (apply UInt8.toNat_inj.mp; simp only [UInt8.toNat_ofNat', Nat.reducePow] at *; omega)

theorem halfBytes_halfValue (a b : UInt8) : halfBytes true (halfValue a b) = [a, b] := by
  have ha := a.toNat_lt
  have hb := b.toNat_lt
  simp only [halfBytes, if_true, toNat_halfValue, List.cons.injEq, and_true]
  refine ⟨?_, ?_⟩ <;>
    (apply UInt8.toNat_inj.mp; simp only [UInt8.toNat_ofNat', Nat.reducePow] at *; omega)

theorem wordBytes_little (x : UInt32) : wordBytes false x = (wordBytes true x).reverse := rfl

theorem halfBytes_little (x : UInt16) : halfBytes false x = (halfBytes true x).reverse := rfl

/-! ## Big-endian values of any width -/

def beNat (bytes : List UInt8) : Nat := bytes.foldl (fun v b => v * 256 + b.toNat) 0

theorem beNat_concat (bytes : List UInt8) (b : UInt8) : beNat (bytes ++ [b]) = beNat bytes * 256 + b.toNat := by
  rw [beNat, List.foldl_append]
  rfl

theorem beNat_append (l m : List UInt8) : beNat (l ++ m) = beNat l * 256 ^ m.length + beNat m := by
  induction m using List.reverseRecOn with
  | nil => simp [beNat]
  | append_singleton m b ih =>
    rw [← List.append_assoc, beNat_concat, ih, beNat_concat, List.length_append, List.length_singleton,
      Nat.pow_succ, Nat.add_mul, Nat.mul_assoc, Nat.add_assoc]

theorem beNat_lt (bytes : List UInt8) : beNat bytes < 256 ^ bytes.length := by
  induction bytes using List.reverseRecOn with
  | nil => decide
  | append_singleton bytes b ih =>
    have hb := b.toNat_lt
    rw [beNat_concat, List.length_append, List.length_singleton, Nat.pow_succ]
    omega

/-- The first bytes are the quotient and the others the remainder. -/
theorem beNat_take (bytes : List UInt8) (n : Nat) :
    beNat (bytes.take n) = beNat bytes / 256 ^ (bytes.length - n) := by
  have hsplit := beNat_append (bytes.take n) (bytes.drop n)
  have hlt := beNat_lt (bytes.drop n)
  rw [List.take_append_drop] at hsplit
  rw [List.length_drop] at hsplit hlt
  rw [hsplit, Nat.mul_comm, Nat.mul_add_div (Nat.lt_of_le_of_lt (Nat.zero_le _) hlt), Nat.div_eq_of_lt hlt,
    Nat.add_zero]

theorem beNat_drop (bytes : List UInt8) (n : Nat) :
    beNat (bytes.drop n) = beNat bytes % 256 ^ (bytes.length - n) := by
  have hsplit := beNat_append (bytes.take n) (bytes.drop n)
  have hlt := beNat_lt (bytes.drop n)
  rw [List.take_append_drop] at hsplit
  rw [List.length_drop] at hsplit hlt
  rw [hsplit, Nat.mul_comm, Nat.mul_add_mod, Nat.mod_eq_of_lt hlt]

/-- Strings of one length are told apart by their values. -/
theorem beNat_injective {l m : List UInt8} (hlen : l.length = m.length) (h : beNat l = beNat m) : l = m := by
  induction l using List.reverseRecOn generalizing m with
  | nil => exact (List.length_eq_zero_iff.mp hlen.symm).symm
  | append_singleton l a ih =>
    rcases List.eq_nil_or_concat m with rfl | ⟨m, b, rfl⟩
    · simp at hlen
    · have ha := a.toNat_lt
      have hb := b.toNat_lt
      rw [beNat_concat, List.concat_eq_append, beNat_concat] at h
      simp only [List.concat_eq_append, List.length_append, List.length_singleton,
        Nat.add_right_cancel_iff] at hlen
      rw [List.concat_eq_append, ih hlen (by omega), UInt8.toNat_inj.mp (show a.toNat = b.toNat by omega)]

theorem beNat_wordBytes (x : UInt32) : beNat (wordBytes true x) = x.toNat := by
  have hx := x.toNat_lt
  simp only [wordBytes, if_true, beNat, List.foldl_cons, List.foldl_nil, UInt8.toNat_ofNat', Nat.reducePow]
  omega

/-! ## The integers as codecs -/

def word (big : Bool) : Codec UInt32 where
  size := 4
  encode := wordBytes big
  decode := wordOf big
  length_encode x := by cases big <;> rfl
  decode_encode x rest := by cases big <;> exact wordValue_bytes x
  encode_decode bytes h := by
    match bytes, h with
    | a :: b :: c :: d :: _, _ =>
      cases big
      · change wordBytes false (wordValue d c b a) = [a, b, c, d]
        rw [wordBytes_little, wordBytes_wordValue]
        rfl
      · exact wordBytes_wordValue a b c d

def half (big : Bool) : Codec UInt16 where
  size := 2
  encode := halfBytes big
  decode := halfOf big
  length_encode x := by cases big <;> rfl
  decode_encode x rest := by cases big <;> exact halfValue_bytes x
  encode_decode bytes h := by
    match bytes, h with
    | a :: b :: _, _ =>
      cases big
      · change halfBytes false (halfValue b a) = [a, b]
        rw [halfBytes_little, halfBytes_halfValue]
        rfl
      · exact halfBytes_halfValue a b

def byte : Codec UInt8 where
  size := 1
  encode x := [x]
  decode bytes := bytes.headD 0
  length_encode _ := rfl
  decode_encode _ _ := rfl
  encode_decode bytes h := by
    match bytes, h with
    | a :: _, _ => rfl

/-- An array of `n` bytes. -/
def byteArray (n : Nat) : Codec (Vector UInt8 n) where
  size := n
  encode v := v.toList
  decode bytes := Vector.ofFn fun i => bytes.getD i 0
  length_encode v := v.length_toList
  decode_encode v rest := by
    ext i hi
    simp [List.getElem?_append_left]
  encode_decode bytes h := by
    apply List.ext_getElem
    · simpa using h
    · intro i h₁ h₂
      have hi : i < bytes.length := by rw [List.length_take] at h₂; omega
      simp [hi]

end Endian
