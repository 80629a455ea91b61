import Mathlib.Data.List.Basic
import ElfLinker.Lib.Hexa
import ElfLinker.Lib.Loop

/-!
A dump of bytes as text: sixteen to a line, each line with its address, the bytes in
hexadecimal in groups of four, and the bytes as characters.
-/

namespace HexDump

def blank : UInt8 := 0x20
def newline : UInt8 := 0x0a

/-! ## Lines -/

/-- A text of lines, each ended by a newline. -/
def unlines (lines : List (List UInt8)) : List UInt8 := lines.flatMap (· ++ [newline])

theorem append_newline_inj {l l' r r' : List UInt8} (hl : newline ∉ l) (hl' : newline ∉ l')
    (h : l ++ newline :: r = l' ++ newline :: r') : l = l' ∧ r = r' := by
  induction l generalizing l' with
  | nil =>
    cases l' with
    | nil => exact ⟨rfl, List.tail_eq_of_cons_eq h⟩
    | cons c l' =>
      obtain ⟨rfl, _⟩ := List.cons.inj h
      exact absurd List.mem_cons_self hl'
  | cons c l ih =>
    cases l' with
    | nil =>
      obtain ⟨rfl, _⟩ := List.cons.inj h
      exact absurd List.mem_cons_self hl
    | cons c' l' =>
      rw [List.mem_cons, not_or] at hl hl'
      obtain ⟨rfl, htail⟩ := List.cons.inj h
      obtain ⟨rfl, hr⟩ := ih hl.2 hl'.2 htail
      exact ⟨rfl, hr⟩

/-- A text is cut into lines in one way. -/
theorem unlines_inj {ls ls' : List (List UInt8)} (hls : ∀ l ∈ ls, newline ∉ l)
    (hls' : ∀ l ∈ ls', newline ∉ l) (h : unlines ls = unlines ls') : ls = ls' := by
  induction ls generalizing ls' with
  | nil =>
    cases ls' with
    | nil => rfl
    | cons l' ls' => simp [unlines] at h
  | cons l ls ih =>
    cases ls' with
    | nil => simp [unlines] at h
    | cons l' ls' =>
      rw [List.forall_mem_cons] at hls hls'
      simp only [unlines, List.flatMap_cons, List.append_assoc, List.singleton_append] at h
      obtain ⟨rfl, htail⟩ := append_newline_inj hls.1 hls'.1 h
      rw [ih hls.2 hls'.2 htail]

/-! ## One line -/

/-- What follows the byte at `i`. -/
def separator (i : Nat) : List UInt8 := if (i + 1) % 4 = 0 then [blank] else []

def printable (c : UInt8) : UInt8 := if 32 ≤ c ∧ c ≤ 126 then c else 0x2e

def address (a : UInt32) : List UInt8 := [0x30, 0x78] ++ Hexa.digits 8 a.toNat ++ [blank]

/-- The two columns of a byte, or of a place that holds none. -/
def cell : Option UInt8 → List UInt8
  | some c => Hexa.digits 2 c.toNat
  | none => [blank, blank]

def columns (cs : List UInt8) : List UInt8 :=
  (List.range 16).flatMap fun i => cell cs[i]? ++ separator i

def line (a : UInt32) (c : List UInt8) : List UInt8 := address a ++ columns c ++ c.map printable

/-- The bytes that the columns of a line stand for. -/
def readColumns (l : List UInt8) : List UInt8 :=
  Hexa.bytes (((l.drop 11).take 36).filter (· ≠ blank))

theorem length_address (a : UInt32) : (address a).length = 11 := by
  simp only [address, List.length_append, Hexa.length_digits]
  rfl

theorem address_injective : Function.Injective address := by
  intro a a' h
  have hdigits := List.append_cancel_left (List.append_cancel_right h)
  have hvalue := congrArg Hexa.value hdigits
  rw [Hexa.value_digits a.toNat_lt, Hexa.value_digits a'.toNat_lt] at hvalue
  exact UInt32.toNat_inj.mp hvalue

/-- The characters start at the same column on every line. -/
theorem length_columns (c : List UInt8) : (columns c).length = 36 := by
  have hcell : ∀ o, (cell o).length = 2 := by
    rintro (_ | b)
    · rfl
    · exact Hexa.length_digits 2 b.toNat
  simp only [columns, List.length_flatMap, List.length_append, hcell]
  rfl

/-- The columns of the bytes, then those of the places without one. -/
theorem columns_eq {c : List UInt8} (hc : c.length ≤ 16) : columns c =
    (List.range c.length).flatMap (fun i => Hexa.digits 2 (c.getD i 0).toNat ++ separator i) ++
      (List.range' c.length (16 - c.length)).flatMap fun i => [blank, blank] ++ separator i := by
  have hsplit : List.range 16 = List.range c.length ++ List.range' c.length (16 - c.length) := by
    have happ := @List.range'_append_1 0 c.length (16 - c.length)
    rw [Nat.zero_add, Nat.add_sub_cancel' hc] at happ
    rw [List.range_eq_range', List.range_eq_range', happ]
  rw [columns, hsplit, List.flatMap_append]
  congr 1
  · refine List.flatMap_congr fun i hi => ?_
    rw [List.getElem?_eq_getElem (List.mem_range.mp hi), List.getD_eq_getElem?_getD,
      List.getElem?_eq_getElem (List.mem_range.mp hi)]
    rfl
  · refine List.flatMap_congr fun i hi => ?_
    rw [List.getElem?_eq_none (List.mem_range'_1.mp hi).1]
    rfl

theorem ne_blank_of_mem_digits {w n : Nat} {c : UInt8} (h : c ∈ Hexa.digits w n) : c ≠ blank := by
  rintro rfl
  exact absurd (Hexa.isDigit_of_mem_digits h) (by decide)

theorem filter_separator (i : Nat) : (separator i).filter (· ≠ blank) = [] := by
  unfold separator
  split <;> rfl

theorem filter_columns {c : List UInt8} (hc : c.length ≤ 16) :
    (columns c).filter (· ≠ blank) = c.flatMap fun b => Hexa.digits 2 b.toNat := by
  have hdigits : ∀ n, (Hexa.digits 2 n).filter (· ≠ blank) = Hexa.digits 2 n := fun n =>
    List.filter_eq_self.mpr fun b hb => decide_eq_true (ne_blank_of_mem_digits hb)
  have hbytes := Loop.map_getD_range c fun _ => 0
  have hnone : ∀ i ∈ List.range' c.length (16 - c.length),
      ([blank, blank] ++ separator i).filter (· ≠ blank) = [] := fun i _ => by
    rw [List.filter_append, filter_separator]
    rfl
  conv_rhs => rw [← hbytes, List.flatMap_map]
  rw [columns_eq hc, List.filter_append, List.filter_flatMap, List.filter_flatMap,
    List.flatMap_eq_nil_iff.mpr hnone, List.append_nil]
  simp only [List.filter_append, filter_separator, hdigits, List.append_nil]

/-- The columns of a line read back give its bytes. -/
theorem readColumns_line (a : UInt32) {c : List UInt8} (hc : c.length ≤ 16) :
    readColumns (line a c) = c := by
  have hcolumns : ((line a c).drop 11).take 36 = columns c := by
    rw [line, List.append_assoc, ← length_address a, List.drop_left, ← length_columns c, List.take_left]
  rw [readColumns, hcolumns, filter_columns hc, Hexa.bytes_flatMap_digits]

theorem address_of_line_eq {a a' : UInt32} {c c' : List UInt8} (h : line a c = line a' c') : a = a' := by
  rw [line, line, List.append_assoc, List.append_assoc] at h
  exact address_injective (List.append_inj_left h (by rw [length_address, length_address]))

theorem drop_line (a : UInt32) (c : List UInt8) : (line a c).drop 47 = c.map printable := by
  have hlen : (address a ++ columns c).length = 47 := by
    rw [List.length_append, length_address, length_columns]
  rw [line, ← hlen, List.drop_left]

theorem newline_notMem_line (a : UInt32) {c : List UInt8} (hc : c.length ≤ 16) : newline ∉ line a c := by
  have hdigits : ∀ w n, newline ∉ Hexa.digits w n := fun w n h =>
    absurd (Hexa.isDigit_of_mem_digits h) (by decide)
  have hcolumns : newline ∉ columns c := fun h => by
    have hkept : newline ∈ (columns c).filter (· ≠ blank) := List.mem_filter.mpr ⟨h, by decide⟩
    rw [filter_columns hc, List.mem_flatMap] at hkept
    obtain ⟨b, _, hb⟩ := hkept
    exact hdigits 2 b.toNat hb
  have htext : newline ∉ c.map printable := fun h => by
    obtain ⟨b, _, hb⟩ := List.mem_map.mp h
    unfold printable at hb
    split at hb
    · next hrange => exact absurd (hb ▸ hrange) (by decide)
    · exact absurd hb (by decide)
  simp only [line, address, List.mem_append, not_or]
  exact ⟨⟨⟨⟨by decide, hdigits 8 _⟩, by decide⟩, hcolumns⟩, htext⟩

/-! ## The lines of a dump -/

/-- The bytes of line `k`. -/
def chunk (b : List UInt8) (k : Nat) : List UInt8 := (b.drop (16 * k)).take 16

theorem length_chunk_le (b : List UInt8) (k : Nat) : (chunk b k).length ≤ 16 := List.length_take_le _ _

/-- The lines of a dump whose addresses go up by `step`. -/
def dump (step : Nat) (a : UInt32) (b : List UInt8) : List (List UInt8) :=
  (List.range ((b.length + 15) / 16)).map fun k => line (a + UInt32.ofNat (step * k)) (chunk b k)

/-- A dump of one line has one address. -/
theorem dump_congr (step step' : Nat) (a : UInt32) {b : List UInt8} (hb : b.length ≤ 16) :
    dump step a b = dump step' a b := by
  refine List.map_congr_left fun k hk => ?_
  rw [List.mem_range] at hk
  obtain rfl : k = 0 := by omega
  rw [Nat.mul_zero, Nat.mul_zero]

theorem getElem?_dump {step : Nat} {a : UInt32} {b : List UInt8} {k : Nat} (hk : 16 * k < b.length) :
    (dump step a b)[k]? = some (line (a + UInt32.ofNat (step * k)) (chunk b k)) := by
  rw [dump, List.getElem?_map, List.getElem?_range (by omega), Option.map_some]

theorem newline_notMem_dump {step : Nat} {a : UInt32} {b : List UInt8} :
    ∀ l ∈ dump step a b, newline ∉ l := by
  intro l hl
  obtain ⟨k, _, rfl⟩ := List.mem_map.mp hl
  exact newline_notMem_line _ (length_chunk_le b k)

theorem flatMap_chunk (b : List UInt8) : (List.range ((b.length + 15) / 16)).flatMap (chunk b) = b := by
  have htake : ∀ m, (List.range m).flatMap (chunk b) = b.take (16 * m) := fun m => by
    induction m with
    | zero => rfl
    | succ m ih =>
      rw [List.range_succ, List.flatMap_append, ih, List.flatMap_singleton, chunk, Nat.mul_succ,
        List.take_add]
  rw [htake, List.take_of_length_le (by omega)]

theorem readColumns_dump (step : Nat) (a : UInt32) (b : List UInt8) :
    (dump step a b).flatMap readColumns = b := by
  rw [dump, List.flatMap_map]
  simp only [readColumns_line _ (length_chunk_le b _), flatMap_chunk]

end HexDump
