import Mathlib.Logic.Equiv.Defs
import Mathlib.Tactic.Ring

/-!
Fixed-size records as bytes. A `Codec` carries the laws that make it a layout:
every value takes `size` bytes, decoding reads an encoded value back whatever
follows it, and encoding a decoded value gives the bytes it was decoded from.
Codecs compose by `pair`, along an equivalence by `ofEquiv`, and to arrays by
`encodeAll` and `decodeAll`.
-/

/-- A fixed-size layout of the values of `α` as bytes. -/
structure Codec (α : Type) where
  size : Nat
  encode : α → List UInt8
  decode : List UInt8 → α
  length_encode : ∀ a, (encode a).length = size
  decode_encode : ∀ a rest, decode (encode a ++ rest) = a
  encode_decode : ∀ bytes, size ≤ bytes.length → encode (decode bytes) = bytes.take size

namespace Codec

variable {α β : Type}

attribute [simp] length_encode decode_encode

@[simp] theorem decode_encode_self (c : Codec α) (a : α) : c.decode (c.encode a) = a := by
  simpa using c.decode_encode a []

theorem encode_injective (c : Codec α) : Function.Injective c.encode := by
  intro a b h
  rw [← c.decode_encode_self a, h, c.decode_encode_self]

/-- A record is decoded from the bytes that encode it, and from no others. -/
theorem decode_eq_iff (c : Codec α) {bytes : List UInt8} (h : c.size ≤ bytes.length) {a : α} :
    c.decode bytes = a ↔ bytes.take c.size = c.encode a := by
  rw [← c.encode_decode bytes h]
  exact ⟨congrArg c.encode, fun heq => c.encode_injective heq⟩

theorem decode_eq_decode_iff (c : Codec α) {a b : List UInt8} (ha : c.size ≤ a.length)
    (hb : c.size ≤ b.length) : c.decode a = c.decode b ↔ a.take c.size = b.take c.size := by
  rw [c.decode_eq_iff ha, c.encode_decode b hb]

/-- Two records one after the other. -/
def pair (c : Codec α) (d : Codec β) : Codec (α × β) where
  size := c.size + d.size
  encode p := c.encode p.1 ++ d.encode p.2
  decode bytes := (c.decode bytes, d.decode (bytes.drop c.size))
  length_encode p := by simp
  decode_encode p rest := by
    rw [List.append_assoc, c.decode_encode, List.drop_left' (c.length_encode _), d.decode_encode]
  encode_decode bytes h := by
    simp only [List.take_add]
    rw [c.encode_decode bytes (by omega),
      d.encode_decode (bytes.drop c.size) (by rw [List.length_drop]; omega)]

/-- The layout of a type read through an equivalent one, such as a structure
read as the tuple of its fields. -/
def ofEquiv (e : α ≃ β) (c : Codec β) : Codec α where
  size := c.size
  encode a := c.encode (e a)
  decode bytes := e.symm (c.decode bytes)
  length_encode a := c.length_encode _
  decode_encode a rest := by simp
  encode_decode bytes h := by simpa using c.encode_decode bytes h

/-! ## Arrays of records -/

/-- Records one after the other. -/
def encodeAll (c : Codec α) (as : List α) : List UInt8 := as.flatMap c.encode

/-- The `n` records at the front of `bytes`. -/
def decodeAll (c : Codec α) : Nat → List UInt8 → List α
  | 0, _ => []
  | n + 1, bytes => c.decode bytes :: decodeAll c n (bytes.drop c.size)

@[simp] theorem encodeAll_nil (c : Codec α) : c.encodeAll [] = [] := rfl

@[simp] theorem encodeAll_cons (c : Codec α) (a : α) (as : List α) :
    c.encodeAll (a :: as) = c.encode a ++ c.encodeAll as := rfl

@[simp] theorem encodeAll_append (c : Codec α) (as bs : List α) :
    c.encodeAll (as ++ bs) = c.encodeAll as ++ c.encodeAll bs := by
  simp [encodeAll]

@[simp] theorem length_encodeAll (c : Codec α) (as : List α) :
    (c.encodeAll as).length = c.size * as.length := by
  induction as with
  | nil => simp
  | cons a as ih =>
    rw [encodeAll_cons, List.length_append, c.length_encode, ih, List.length_cons]
    ring

@[simp] theorem length_decodeAll (c : Codec α) (n : Nat) (bytes : List UInt8) :
    (c.decodeAll n bytes).length = n := by
  induction n generalizing bytes with
  | zero => rfl
  | succ n ih => simp [decodeAll, ih]

/-- An array is read back whatever follows it. -/
theorem decodeAll_encodeAll (c : Codec α) (as : List α) (rest : List UInt8) :
    c.decodeAll as.length (c.encodeAll as ++ rest) = as := by
  induction as with
  | nil => rfl
  | cons a as ih =>
    rw [List.length_cons, decodeAll, encodeAll_cons, List.append_assoc, c.decode_encode,
      List.drop_left' (c.length_encode a), ih]

/-- Encoding the records of an array gives back its bytes. -/
theorem encodeAll_decodeAll (c : Codec α) (n : Nat) (bytes : List UInt8)
    (h : c.size * n ≤ bytes.length) : c.encodeAll (c.decodeAll n bytes) = bytes.take (c.size * n) := by
  induction n generalizing bytes with
  | zero => simp [decodeAll]
  | succ n ih =>
    have hs : c.size * (n + 1) = c.size + c.size * n := by ring
    rw [hs] at h ⊢
    rw [decodeAll, encodeAll_cons, c.encode_decode bytes (by omega),
      ih (bytes.drop c.size) (by rw [List.length_drop]; omega), List.take_add]

theorem decodeAll_append (c : Codec α) (n : Nat) (bytes rest : List UInt8)
    (h : c.size * n ≤ bytes.length) : c.decodeAll n (bytes ++ rest) = c.decodeAll n bytes := by
  have hb : bytes = c.encodeAll (c.decodeAll n bytes) ++ bytes.drop (c.size * n) := by
    rw [c.encodeAll_decodeAll n bytes h, List.take_append_drop]
  have hn := c.length_decodeAll n bytes
  generalize c.decodeAll n bytes = as at hb hn
  subst hn
  rw [hb, List.append_assoc, c.decodeAll_encodeAll]

/-- Records that are whole in a file do not depend on how it goes on. -/
theorem decodeAll_drop_append (c : Codec α) (n : Nat) {f : List UInt8} {off : Nat} (g : List UInt8)
    (h : c.size * n ≤ f.length - off) : c.decodeAll n ((f ++ g).drop off) = c.decodeAll n (f.drop off) := by
  rw [List.drop_append, c.decodeAll_append n _ _ (by rwa [List.length_drop])]

theorem decodeAll_eq_iff (c : Codec α) {bytes : List UInt8} {as : List α}
    (h : c.size * as.length ≤ bytes.length) :
    c.decodeAll as.length bytes = as ↔ bytes.take (c.size * as.length) = c.encodeAll as := by
  constructor
  · intro heq
    rw [← c.encodeAll_decodeAll as.length bytes h, heq]
  · intro heq
    rw [← List.take_append_drop (c.size * as.length) bytes, heq, c.decodeAll_encodeAll]

/-- Decoding an array record by record: record `i` is at stride `size`. -/
theorem getElem?_decodeAll (c : Codec α) (n : Nat) (bytes : List UInt8) (i : Nat) (hi : i < n) :
    (c.decodeAll n bytes)[i]? = some (c.decode (bytes.drop (c.size * i))) := by
  induction n generalizing bytes i with
  | zero => omega
  | succ n ih =>
    cases i with
    | zero => simp [decodeAll]
    | succ i =>
      rw [decodeAll, List.getElem?_cons_succ, ih _ i (by omega), List.drop_drop]
      congr 3
      ring

/-- Byte `m` of an array is byte `m % size` of record `m / size`. -/
theorem getElem?_encodeAll (c : Codec α) (hc : 0 < c.size) (as : List α) (m : Nat) :
    (c.encodeAll as)[m]? = as[m / c.size]?.bind fun a => (c.encode a)[m % c.size]? := by
  induction as generalizing m with
  | nil => simp
  | cons a as ih =>
    rw [encodeAll_cons]
    rcases Nat.lt_or_ge m c.size with hm | hm
    · rw [List.getElem?_append_left (by rwa [c.length_encode]), Nat.div_eq_of_lt hm, Nat.mod_eq_of_lt hm]
      rfl
    · rw [List.getElem?_append_right (by rwa [c.length_encode]), c.length_encode, ih,
        Nat.div_eq_sub_div hc hm, Nat.mod_eq_sub_mod hm]
      rfl

/-! ## Two layouts of one type -/

/-- Changing a value by `f` turns its layout under `c` into its layout under `d`:
swapping the bytes of every field is the example. -/
structure Turns (c d : Codec α) (f : α → α) : Prop where
  size_eq : c.size = d.size
  encode_eq : ∀ a, c.encode (f a) = d.encode a
  decode_eq : ∀ bytes, f (c.decode bytes) = d.decode bytes

namespace Turns

variable {c d : Codec α} {c' d' : Codec β} {f : α → α} {g : β → β}

theorem refl (c : Codec α) : Turns c c id := ⟨rfl, fun _ => rfl, fun _ => rfl⟩

theorem pair (h : Turns c d f) (h' : Turns c' d' g) :
    Turns (c.pair c') (d.pair d') (Prod.map f g) where
  size_eq := congrArg₂ (· + ·) h.size_eq h'.size_eq
  encode_eq p := congrArg₂ (· ++ ·) (h.encode_eq p.1) (h'.encode_eq p.2)
  decode_eq bytes := by
    simp only [Codec.pair, Prod.map, h.decode_eq, h'.decode_eq, h.size_eq]

theorem ofEquiv (e : β ≃ α) (h : Turns c d f) (hg : ∀ b, e (g b) = f (e b)) :
    Turns (c.ofEquiv e) (d.ofEquiv e) g where
  size_eq := h.size_eq
  encode_eq b := by simp only [Codec.ofEquiv, hg, h.encode_eq]
  decode_eq bytes := by
    apply e.injective
    simp only [Codec.ofEquiv, hg, Equiv.apply_symm_apply, h.decode_eq]

theorem encodeAll_map (h : Turns c d f) (as : List α) :
    c.encodeAll (as.map f) = d.encodeAll as := by
  induction as with
  | nil => rfl
  | cons a as ih => rw [List.map_cons, encodeAll_cons, encodeAll_cons, h.encode_eq, ih]

theorem map_decodeAll (h : Turns c d f) (n : Nat) (bytes : List UInt8) :
    (c.decodeAll n bytes).map f = d.decodeAll n bytes := by
  induction n generalizing bytes with
  | zero => rfl
  | succ n ih => rw [decodeAll, decodeAll, List.map_cons, h.decode_eq, ih, h.size_eq]

end Turns

end Codec
