import ElfLinker.Lib.Loop
import ElfLinker.Layout

/-!
Looking a section up: `get_section_index` by name, `is_symtable` by type, and
`met_a_jour_shlink`, which rebuilds links from those two.
-/

namespace ElfLinker

/-! ## Names -/

/-- `!strcmp(name, &strtab[off])`, byte by byte up to the NUL that ends `name`. -/
def strcmpEq (h : Heap) (strtab : List UInt8) : List UInt8 → Nat → Bool
  | [], off => charAt h strtab off == 0
  | c :: name, off => charAt h strtab off == c && strcmpEq h strtab name (off + 1)

/-- The string at `tab + off`, up to its NUL. -/
def chaineDepuis (suite : Nat → UInt8) (tab : List UInt8) : Nat → Nat → List UInt8
  | 0, _ => []
  | n + 1, off =>
    if tab.getD off (suite off) = 0 then [] else tab.getD off (suite off) :: chaineDepuis suite tab n (off + 1)

/-- A string in a table, as `%s` prints it; `suite` is the memory past the table, where a
string that no NUL ends goes on. `printf` counts its bytes in an `int`. -/
def chaine (suite : Nat → UInt8) (tab : List UInt8) (off : UInt32) : List UInt8 :=
  chaineDepuis suite tab (2 ^ 31 - 1) off.toNat

/-- Section `k` is named `name`. -/
def nameIs (h : Heap) (e : Elf32) (name : List UInt8) (k : Nat) : Bool :=
  strcmpEq h e.shStrtab name (shdrAt h e.shtable k).shName.toNat

/-- The loop leaves `section_index` one past the section it tested last; the
decrement and the test after it return that section, or -1. -/
def getSectionIndex (h : Heap) (e : Elf32) (name : List UInt8) : Int :=
  let sectionIndex := Loop.first (nameIs h e name) e.shnum
  if sectionIndex < e.shnum then sectionIndex else -1

/-- The subscripts of the loop: one for each section tested. -/
def getSectionIndexSubs (h : Heap) (e : Elf32) (name : List UInt8) : List Int :=
  (List.range (min (Loop.first (nameIs h e name) e.shnum + 1) e.shnum)).map Int.ofNat

theorem getSectionIndex_eq_iff {h : Heap} {e : Elf32} {name : List UInt8} {k : Nat}
    (hk : k < e.shnum) : getSectionIndex h e name = k ↔
      nameIs h e name k = true ∧ ∀ j < k, nameIs h e name j = false := by
  rw [← Loop.first_eq_iff hk]
  simp only [getSectionIndex]
  split
  next => exact Int.ofNat_inj
  next hge => exact ⟨fun hc => by omega, fun hc => by omega⟩

theorem getSectionIndex_nonneg_iff {h : Heap} {e : Elf32} {name : List UInt8} :
    0 ≤ getSectionIndex h e name ↔ ∃ k < e.shnum, nameIs h e name k = true := by
  simp only [getSectionIndex]
  split
  next hlt => exact ⟨fun _ => ⟨_, hlt, Loop.of_first_lt hlt⟩, fun _ => Int.natCast_nonneg _⟩
  next hge =>
    have hn : Loop.first (nameIs h e name) e.shnum = e.shnum :=
      Nat.le_antisymm (Loop.first_le _ _) (Nat.le_of_not_lt hge)
    refine ⟨fun hc => absurd hc (by decide), fun ⟨k, hk, hname⟩ => ?_⟩
    rw [Loop.first_eq_bound_iff.mp hn k hk] at hname
    exact absurd hname Bool.false_ne_true

theorem getSectionIndex_lt (h : Heap) (e : Elf32) (name : List UInt8) :
    getSectionIndex h e name < e.shnum := by
  simp only [getSectionIndex]
  split <;> omega

theorem getSectionIndex_ge (h : Heap) (e : Elf32) (name : List UInt8) :
    -1 ≤ getSectionIndex h e name := by
  simp only [getSectionIndex]
  split <;> omega

theorem getSectionIndexSubs_bounds {h : Heap} {e : Elf32} {name : List UInt8} {i : Int}
    (hi : i ∈ getSectionIndexSubs h e name) : 0 ≤ i ∧ i < e.shnum := by
  simp only [getSectionIndexSubs, List.mem_map, List.mem_range] at hi
  obtain ⟨k, hk, rfl⟩ := hi
  exact ⟨Int.natCast_nonneg k, Int.ofNat_lt.mpr (Nat.lt_of_lt_of_le hk (Nat.min_le_right _ _))⟩

/-- The result depends on the number of sections and on which are named `name`. -/
theorem getSectionIndex_congr {h : Heap} {e e' : Elf32} {name : List UInt8}
    (hn : e'.shnum = e.shnum) (hname : ∀ k < e.shnum, nameIs h e' name k = nameIs h e name k) :
    getSectionIndex h e' name = getSectionIndex h e name := by
  simp only [getSectionIndex, hn, Loop.first_congr hname]

theorem getSectionIndexSubs_congr {h : Heap} {e e' : Elf32} {name : List UInt8}
    (hn : e'.shnum = e.shnum) (hname : ∀ k < e.shnum, nameIs h e' name k = nameIs h e name k) :
    getSectionIndexSubs h e' name = getSectionIndexSubs h e name := by
  simp only [getSectionIndexSubs, hn, Loop.first_congr hname]

/-- Stored in an `Elf32_Word` the result still tells which section was found. -/
theorem word_getSectionIndex_eq_iff {h : Heap} {e : Elf32} {name : List UInt8} {k : Nat}
    (hk : k < 2 ^ 32 - 1) :
    (UInt32.ofInt (getSectionIndex h e name)).toNat = k ↔ getSectionIndex h e name = k := by
  have hge := getSectionIndex_ge h e name
  have hlt := getSectionIndex_lt h e name
  have hn : e.shnum < 2 ^ 16 := e.elfhdr.eShnum.toNat_lt
  rw [UInt32.ofInt, UInt32.toNat_ofNat_of_lt' (by rw [UInt32.size]; omega)]
  omega

/-- In an `Elf32_Half` the failure is 0xffff. -/
theorem half_getSectionIndex_eq_iff {h : Heap} {e : Elf32} {name : List UInt8} {k : Nat}
    (hk : k < 2 ^ 16 - 1) :
    (UInt16.ofInt (getSectionIndex h e name)).toNat = k ↔ getSectionIndex h e name = k := by
  have hge := getSectionIndex_ge h e name
  have hlt := getSectionIndex_lt h e name
  have hn : e.shnum < 2 ^ 16 := e.elfhdr.eShnum.toNat_lt
  rw [UInt16.ofInt, UInt16.toNat_ofNat_of_lt' (by rw [UInt16.size]; omega)]
  omega

/-- Two names cannot both be the name of one section. -/
theorem strcmpEq_unique {h : Heap} {strtab : List UInt8} {a b : List UInt8} {off : Nat}
    (ha : strcmpEq h strtab a off = true) (hb : strcmpEq h strtab b off = true)
    (hna : 0 ∉ a) (hnb : 0 ∉ b) : a = b := by
  induction a generalizing b off with
  | nil =>
    cases b with
    | nil => rfl
    | cons d b =>
      simp only [strcmpEq, Bool.and_eq_true, beq_iff_eq] at ha hb
      rw [ha] at hb
      exact absurd (hb.1 ▸ List.mem_cons_self) hnb
  | cons c a ih =>
    cases b with
    | nil =>
      simp only [strcmpEq, Bool.and_eq_true, beq_iff_eq] at ha hb
      rw [hb] at ha
      exact absurd (ha.1 ▸ List.mem_cons_self) hna
    | cons d b =>
      simp only [strcmpEq, Bool.and_eq_true, beq_iff_eq] at ha hb
      rw [List.mem_cons, not_or] at hna hnb
      rw [ih ha.2 hb.2 hna.2 hnb.2, ← ha.1, hb.1]

/-- `is_symtable`. -/
def isSymtable (h : Heap) (t : List Elf32Shdr) (index : Nat) : Bool :=
  (shdrAt h t index).shType == shtSymtab

def isRel (type : UInt32) : Bool := type == shtRel
def isRela (type : UInt32) : Bool := type == shtRela

/-- `nombreDeSymboles`: the symbols that fit the section at `symtabIndex`. -/
def nombreDeSymboles (h : Heap) (e : Elf32) : Nat :=
  (shdrAt h e.shtable e.symtabIndex).shSize.toNat / 16

/-! ## met_a_jour_shlink -/

/-- The switch of `met_a_jour_shlink` on one section header. -/
def relink (strtabIndex symtabIndex : UInt32) (s : Elf32Shdr) : Elf32Shdr :=
  if s.shType = shtSymtab then { s with shLink := strtabIndex }
  else if s.shType = shtSymtabShndx ∨ s.shType = shtRel then { s with shLink := symtabIndex }
  else s

def metAJourShlink (h : Heap) (e : Elf32) : Elf32 :=
  let strtabIndex := UInt32.ofInt (getSectionIndex h e dotStrtab)
  let symtabIndex := UInt32.ofNat e.symtabIndex
  { e with shtable := Loop.mapUpTo e.shnum (relink strtabIndex symtabIndex) e.shtable }

def metAJourShlinkSubs (h : Heap) (e : Elf32) : List Int :=
  getSectionIndexSubs h e dotStrtab ++ (List.range e.shnum).map Int.ofNat

/-- A section header up to `sh_link`. -/
def sansLien (s : Elf32Shdr) : Elf32Shdr := { s with shLink := 0 }

@[simp] theorem sansLien_relink (a b : UInt32) (s : Elf32Shdr) :
    sansLien (relink a b s) = sansLien s := by
  unfold relink
  split
  · rfl
  · split <;> rfl

/-- Headers that agree up to `sh_link` have the same other fields. -/
theorem sansLien_field {α : Type} (f : Elf32Shdr → α) (hf : ∀ s, f (sansLien s) = f s)
    {s t : Elf32Shdr} (heq : sansLien s = sansLien t) : f s = f t := by
  rw [← hf, heq, hf]

/-- `relink` changes no field but `sh_link`. -/
theorem relink_field {α : Type} (f : Elf32Shdr → α) (hf : ∀ s, f (sansLien s) = f s) (a b : UInt32)
    (s : Elf32Shdr) : f (relink a b s) = f s :=
  sansLien_field f hf (sansLien_relink a b s)

@[simp] theorem relink_shType (a b : UInt32) (s : Elf32Shdr) : (relink a b s).shType = s.shType :=
  relink_field _ (fun _ => rfl) a b s
@[simp] theorem relink_shSize (a b : UInt32) (s : Elf32Shdr) : (relink a b s).shSize = s.shSize :=
  relink_field _ (fun _ => rfl) a b s
@[simp] theorem relink_shInfo (a b : UInt32) (s : Elf32Shdr) : (relink a b s).shInfo = s.shInfo :=
  relink_field _ (fun _ => rfl) a b s

theorem metAJourShlink_shtable {h : Heap} {e : Elf32} (hfull : e.TableFull) :
    (metAJourShlink h e).shtable = e.shtable.map
      (relink (UInt32.ofInt (getSectionIndex h e dotStrtab)) (UInt32.ofNat e.symtabIndex)) :=
  Loop.mapUpTo_of_length_le _ (Nat.le_of_eq hfull)

end ElfLinker
