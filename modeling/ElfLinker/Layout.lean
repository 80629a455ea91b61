import ElfLinker.Lib.Endian
import ElfLinker.Types

/-!
The records in memory. On a host of either byte order a structure is its fields
one after the other in host order; the records of the file are big-endian. The
`swap_endianess_*` functions turn one layout into the other, so a structure that
was swapped on a little-endian host is written big-endian, and one read from the
file and swapped is decoded big-endian.
-/

namespace ElfLinker
open Endian

/-! ## Byte swapping (util.h) -/

def reverse2 (x : UInt16) : UInt16 := ((x &&& 0xFF) <<< 8) ||| ((x >>> 8) &&& 0xFF)

def reverse4 (x : UInt32) : UInt32 :=
  ((x &&& 0xFF) <<< 24) ||| (((x >>> 8) &&& 0xFF) <<< 16) |||
    (((x >>> 16) &&& 0xFF) <<< 8) ||| ((x >>> 24) &&& 0xFF)

private theorem mul_or_eq_add (a b k m : Nat) (hm : m = 2 ^ k) (hb : b < m) :
    (a * m) ||| b = a * m + b := by
  subst hm
  rw [← Nat.shiftLeft_eq, Nat.shiftLeft_add_eq_or_of_lt hb a]

private theorem and_255 (n : Nat) : n &&& 255 = n % 256 := Nat.and_two_pow_sub_one_eq_mod n 8

theorem toNat_reverse2 (x : UInt16) :
    (reverse2 x).toNat = x.toNat % 256 * 2 ^ 8 + x.toNat / 2 ^ 8 % 256 := by
  simp only [reverse2, UInt16.toNat_or, UInt16.toNat_and, UInt16.toNat_shiftLeft,
    UInt16.toNat_shiftRight, UInt16.reduceToNat, and_255, Nat.shiftLeft_eq,
    Nat.shiftRight_eq_div_pow, Nat.reduceMod, Nat.reducePow]
  rw [Nat.mod_eq_of_lt (show x.toNat % 256 * 256 < 65536 by omega), mul_or_eq_add _ _ 8 256 rfl (by omega)]

theorem toNat_reverse4 (x : UInt32) :
    (reverse4 x).toNat = x.toNat % 256 * 2 ^ 24 + x.toNat / 2 ^ 8 % 256 * 2 ^ 16 +
      x.toNat / 2 ^ 16 % 256 * 2 ^ 8 + x.toNat / 2 ^ 24 % 256 := by
  simp only [reverse4, UInt32.toNat_or, UInt32.toNat_and, UInt32.toNat_shiftLeft,
    UInt32.toNat_shiftRight, UInt32.reduceToNat, and_255, Nat.shiftLeft_eq,
    Nat.shiftRight_eq_div_pow, Nat.reduceMod, Nat.reducePow]
  have hx := x.toNat_lt
  rw [Nat.mod_eq_of_lt (show x.toNat % 256 * 16777216 < 4294967296 by omega),
    Nat.mod_eq_of_lt (show x.toNat / 256 % 256 * 65536 < 4294967296 by omega),
    Nat.mod_eq_of_lt (show x.toNat / 65536 % 256 * 256 < 4294967296 by omega)]
  -- the fields are joined from the top: each `|||` appends the next one below
  rw [mul_or_eq_add _ _ 24 16777216 rfl (by omega),
    show x.toNat % 256 * 16777216 + x.toNat / 256 % 256 * 65536 =
      (x.toNat % 256 * 256 + x.toNat / 256 % 256) * 65536 by omega,
    mul_or_eq_add _ _ 16 65536 rfl (by omega),
    show (x.toNat % 256 * 256 + x.toNat / 256 % 256) * 65536 + x.toNat / 65536 % 256 * 256 =
      (x.toNat % 256 * 65536 + x.toNat / 256 % 256 * 256 + x.toNat / 65536 % 256) * 256 by omega,
    mul_or_eq_add _ _ 8 256 rfl (by omega)]

theorem reverse2_halfValue (a b : UInt8) : reverse2 (halfValue a b) = halfValue b a := by
  have ha := a.toNat_lt
  have hb := b.toNat_lt
  apply UInt16.toNat_inj.mp
  rw [toNat_reverse2, toNat_halfValue, toNat_halfValue]
  omega

theorem reverse4_wordValue (a b c d : UInt8) : reverse4 (wordValue a b c d) = wordValue d c b a := by
  have ha := a.toNat_lt
  have hb := b.toNat_lt
  have hc := c.toNat_lt
  have hd := d.toNat_lt
  apply UInt32.toNat_inj.mp
  rw [toNat_reverse4, toNat_wordValue, toNat_wordValue]
  omega

/-- Swapping turns the little-endian layout into the big-endian one. -/
theorem turns_half : (half false).Turns (half true) reverse2 where
  size_eq := rfl
  encode_eq x := by
    change halfBytes false (reverse2 x) = halfBytes true x
    conv_lhs => rw [← halfValue_bytes x]
    rw [reverse2_halfValue, halfBytes_little, halfBytes_halfValue]
    rfl
  decode_eq bytes := by
    match bytes with
    | [] | [_] => exact (by decide : reverse2 0 = 0)
    | a :: b :: _ => exact reverse2_halfValue b a

theorem turns_word : (word false).Turns (word true) reverse4 where
  size_eq := rfl
  encode_eq x := by
    change wordBytes false (reverse4 x) = wordBytes true x
    conv_lhs => rw [← wordValue_bytes x]
    rw [reverse4_wordValue, wordBytes_little, wordBytes_wordValue]
    rfl
  decode_eq bytes := by
    match bytes with
    | [] | [_] | [_, _] | [_, _, _] => exact (by decide : reverse4 0 = 0)
    | a :: b :: c :: d :: _ => exact reverse4_wordValue d c b a

@[simp] theorem reverse2_reverse2 (x : UInt16) : reverse2 (reverse2 x) = x := by
  conv_lhs => rw [← halfValue_bytes x]
  rw [reverse2_halfValue, reverse2_halfValue, halfValue_bytes]

@[simp] theorem reverse4_reverse4 (x : UInt32) : reverse4 (reverse4 x) = x := by
  conv_lhs => rw [← wordValue_bytes x]
  rw [reverse4_wordValue, reverse4_wordValue, wordValue_bytes]

/-! ## Records as structures in host order -/

def ehdrFields : Elf32Ehdr ≃ Vector UInt8 16 × UInt16 × UInt16 × UInt32 × UInt32 × UInt32 × UInt32 ×
    UInt32 × UInt16 × UInt16 × UInt16 × UInt16 × UInt16 × UInt16 where
  toFun h := (h.eIdent, h.eType, h.eMachine, h.eVersion, h.eEntry, h.ePhoff, h.eShoff, h.eFlags,
    h.eEhsize, h.ePhentsize, h.ePhnum, h.eShentsize, h.eShnum, h.eShstrndx)
  invFun := fun (a, b, c, d, e, f, g, h, i, j, k, l, m, n) => ⟨a, b, c, d, e, f, g, h, i, j, k, l, m, n⟩
  left_inv _ := rfl
  right_inv _ := rfl

def shdrFields : Elf32Shdr ≃ UInt32 × UInt32 × UInt32 × UInt32 × UInt32 × UInt32 × UInt32 ×
    UInt32 × UInt32 × UInt32 where
  toFun s := (s.shName, s.shType, s.shFlags, s.shAddr, s.shOffset, s.shSize, s.shLink, s.shInfo,
    s.shAddralign, s.shEntsize)
  invFun := fun (a, b, c, d, e, f, g, h, i, j) => ⟨a, b, c, d, e, f, g, h, i, j⟩
  left_inv _ := rfl
  right_inv _ := rfl

def symFields : Elf32Sym ≃ UInt32 × UInt32 × UInt32 × UInt8 × UInt8 × UInt16 where
  toFun s := (s.stName, s.stValue, s.stSize, s.stInfo, s.stOther, s.stShndx)
  invFun := fun (a, b, c, d, e, f) => ⟨a, b, c, d, e, f⟩
  left_inv _ := rfl
  right_inv _ := rfl

def relFields : Elf32Rel ≃ UInt32 × UInt32 where
  toFun r := (r.rOffset, r.rInfo)
  invFun := fun (a, b) => ⟨a, b⟩
  left_inv _ := rfl
  right_inv _ := rfl

def relaFields : Elf32Rela ≃ UInt32 × UInt32 × UInt32 where
  toFun r := (r.rOffset, r.rInfo, r.rAddend)
  invFun := fun (a, b, c) => ⟨a, b, c⟩
  left_inv _ := rfl
  right_inv _ := rfl

/-- The fields of the header as they follow each other in the file. -/
def ehdrLayout (big : Bool) : Codec (Vector UInt8 16 × UInt16 × UInt16 × UInt32 × UInt32 × UInt32 ×
    UInt32 × UInt32 × UInt16 × UInt16 × UInt16 × UInt16 × UInt16 × UInt16) :=
  (byteArray 16).pair <| (half big).pair <| (half big).pair <|
    (word big).pair <| (word big).pair <| (word big).pair <| (word big).pair <| (word big).pair <|
    (half big).pair <| (half big).pair <| (half big).pair <| (half big).pair <|
    (half big).pair (half big)

def ehdr (big : Bool) : Codec Elf32Ehdr := Codec.ofEquiv ehdrFields (ehdrLayout big)

def shdr (big : Bool) : Codec Elf32Shdr :=
  Codec.ofEquiv shdrFields <| (word big).pair <| (word big).pair <| (word big).pair <|
    (word big).pair <| (word big).pair <| (word big).pair <| (word big).pair <|
    (word big).pair <| (word big).pair (word big)

def sym (big : Bool) : Codec Elf32Sym :=
  Codec.ofEquiv symFields <| (word big).pair <| (word big).pair <| (word big).pair <|
    byte.pair <| byte.pair (half big)

def rel (big : Bool) : Codec Elf32Rel :=
  Codec.ofEquiv relFields <| (word big).pair (word big)

def rela (big : Bool) : Codec Elf32Rela :=
  Codec.ofEquiv relaFields <| (word big).pair <| (word big).pair (word big)

@[simp] theorem size_ehdr (big : Bool) : (ehdr big).size = 52 := rfl
@[simp] theorem size_shdr (big : Bool) : (shdr big).size = 40 := rfl
@[simp] theorem size_sym (big : Bool) : (sym big).size = 16 := rfl
@[simp] theorem size_rel (big : Bool) : (rel big).size = 8 := rfl
@[simp] theorem size_rela (big : Bool) : (rela big).size = 12 := rfl
@[simp] theorem size_word (big : Bool) : (word big).size = 4 := rfl
@[simp] theorem size_half (big : Bool) : (half big).size = 2 := rfl

/-- `sh_addr` is bytes 12 to 15 of a section header. -/
theorem getElem?_encode_shAddr (s : Elf32Shdr) (addr : UInt32) {k : Nat} (hk : k < 12 ∨ 16 ≤ k) :
    ((shdr true).encode { s with shAddr := addr })[k]? = ((shdr true).encode s)[k]? := by
  let w := (word true).encode
  -- the fields before the address, the address, and the fields after it
  have hencode : ∀ a, (shdr true).encode { s with shAddr := a } =
      (w s.shName ++ w s.shType ++ w s.shFlags) ++ (w a ++
        (w s.shOffset ++ (w s.shSize ++ (w s.shLink ++ (w s.shInfo ++ (w s.shAddralign ++ w s.shEntsize)))))) := by
    intro a
    simp only [List.append_assoc]
    rfl
  have hpre : (w s.shName ++ w s.shType ++ w s.shFlags).length = 12 := by simp [w]
  have hs := hencode s.shAddr
  rw [show { s with shAddr := s.shAddr } = s from rfl] at hs
  rw [hencode addr, hs]
  generalize w s.shName ++ w s.shType ++ w s.shFlags = pre at hpre
  generalize w s.shOffset ++ _ = post
  have hafter : 16 ≤ k → ∀ a, (pre ++ (w a ++ post))[k]? = post[k - 16]? := fun hk a => by
    have hlen : (w a).length = 4 := (word true).length_encode a
    rw [List.getElem?_append_right (by omega), List.getElem?_append_right (by omega), hpre, hlen,
      Nat.sub_sub]
  rcases hk with hk | hk
  · rw [List.getElem?_append_left (by omega), List.getElem?_append_left (by omega)]
  · rw [hafter hk, hafter hk]

/-! ## swap_endianess_* -/

def swapEndianessElfhdr (entete : Elf32Ehdr) : Elf32Ehdr where
  eIdent := entete.eIdent
  eType := reverse2 entete.eType
  eMachine := reverse2 entete.eMachine
  eVersion := reverse4 entete.eVersion
  eEntry := reverse4 entete.eEntry
  ePhoff := reverse4 entete.ePhoff
  eShoff := reverse4 entete.eShoff
  eFlags := reverse4 entete.eFlags
  eEhsize := reverse2 entete.eEhsize
  ePhentsize := reverse2 entete.ePhentsize
  ePhnum := reverse2 entete.ePhnum
  eShentsize := reverse2 entete.eShentsize
  eShnum := reverse2 entete.eShnum
  eShstrndx := reverse2 entete.eShstrndx

def swapEndianessShtable (s : Elf32Shdr) : Elf32Shdr where
  shName := reverse4 s.shName
  shType := reverse4 s.shType
  shFlags := reverse4 s.shFlags
  shAddr := reverse4 s.shAddr
  shOffset := reverse4 s.shOffset
  shSize := reverse4 s.shSize
  shLink := reverse4 s.shLink
  shInfo := reverse4 s.shInfo
  shAddralign := reverse4 s.shAddralign
  shEntsize := reverse4 s.shEntsize

/-- `st_info` and `st_other` are single bytes and stay. -/
def swapEndianessSymbole (s : Elf32Sym) : Elf32Sym where
  stName := reverse4 s.stName
  stValue := reverse4 s.stValue
  stSize := reverse4 s.stSize
  stInfo := s.stInfo
  stOther := s.stOther
  stShndx := reverse2 s.stShndx

def swapEndianessRel (r : Elf32Rel) : Elf32Rel := ⟨reverse4 r.rOffset, reverse4 r.rInfo⟩

def swapEndianessRela (r : Elf32Rela) : Elf32Rela :=
  ⟨reverse4 r.rOffset, reverse4 r.rInfo, reverse4 r.rAddend⟩

@[simp] theorem swapEndianessElfhdr_twice (h : Elf32Ehdr) :
    swapEndianessElfhdr (swapEndianessElfhdr h) = h := by
  simp [swapEndianessElfhdr]

@[simp] theorem swapEndianessShtable_twice (s : Elf32Shdr) :
    swapEndianessShtable (swapEndianessShtable s) = s := by
  simp [swapEndianessShtable]

@[simp] theorem swapEndianessSymbole_twice (s : Elf32Sym) :
    swapEndianessSymbole (swapEndianessSymbole s) = s := by
  simp [swapEndianessSymbole]

theorem turns_ehdr : (ehdr false).Turns (ehdr true) swapEndianessElfhdr :=
  .ofEquiv _ ((Codec.Turns.refl _).pair <| turns_half.pair <| turns_half.pair <| turns_word.pair <|
    turns_word.pair <| turns_word.pair <| turns_word.pair <| turns_word.pair <| turns_half.pair <|
    turns_half.pair <| turns_half.pair <| turns_half.pair <| turns_half.pair turns_half)
    fun _ => rfl

theorem turns_shdr : (shdr false).Turns (shdr true) swapEndianessShtable :=
  .ofEquiv _ (turns_word.pair <| turns_word.pair <| turns_word.pair <| turns_word.pair <|
    turns_word.pair <| turns_word.pair <| turns_word.pair <| turns_word.pair <|
    turns_word.pair turns_word) fun _ => rfl

theorem turns_sym : (sym false).Turns (sym true) swapEndianessSymbole :=
  .ofEquiv _ (turns_word.pair <| turns_word.pair <| turns_word.pair <|
    (Codec.Turns.refl _).pair <| (Codec.Turns.refl _).pair turns_half) fun _ => rfl

theorem turns_rel : (rel false).Turns (rel true) swapEndianessRel :=
  .ofEquiv _ (turns_word.pair turns_word) fun _ => rfl

theorem turns_rela : (rela false).Turns (rela true) swapEndianessRela :=
  .ofEquiv _ (turns_word.pair <| turns_word.pair turns_word) fun _ => rfl

/-! ## Swapping on the host

The code swaps when `!is_big_endian()`; on either host the result is the file's
big-endian layout. -/

/-- `if (!is_big_endian()) swap(x)`. -/
def toHost {α : Type} (host : Bool) (swap : α → α) (a : α) : α := if host then a else swap a

theorem turns_host {α : Type} {c : Bool → Codec α} {swap : α → α}
    (h : (c false).Turns (c true) swap) (host : Bool) : (c host).Turns (c true) (toHost host swap) := by
  cases host
  · exact h
  · exact Codec.Turns.refl _

theorem toHost_twice {α : Type} {swap : α → α} (h : ∀ a, swap (swap a) = a) (host : Bool) (a : α) :
    toHost host swap (toHost host swap a) = a := by
  cases host
  · exact h a
  · rfl

end ElfLinker
