import ElfLinker.Suppression
import ElfLinker.Reltab

/-!
The subscripts into the section table while a file is loaded. Two of them are the result
of a search: the section named `.strtab`, which is -1 when there is none, and the first
section of type `SHT_SYMTAB`, which is then `e_shnum`. Last, the entry size of the
header, by which the table is read but not used.
-/

namespace ElfLinker
open Endian

/-! ## The load sequence -/

/-- In `read_strtab`: the index of the header, or the search by name and its result. -/
def readStrtabSubs (h : Heap) (e : Elf32) (sectionName : List UInt8) : List Int :=
  if sectionName = dotShstrtab then [(e.elfhdr.eShstrndx.toNat : Int)]
  else if sectionName = dotStrtab then
    getSectionIndexSubs h e sectionName ++ [getSectionIndex h e sectionName]
  else []

/-- In `read_symtable`: the sections that `is_symtable` tests, then the one it found. -/
def readSymtableSubs (h : Heap) (elfhdr : Elf32Ehdr) (shtable : List Elf32Shdr) : List Int :=
  let symtabIndex := Loop.first (isSymtable h shtable) elfhdr.eShnum.toNat
  (List.range (min (symtabIndex + 1) elfhdr.eShnum.toNat)).map Int.ofNat ++ [(symtabIndex : Int)]

/-- In `read_reltab`: every section, until an `assert` fails. -/
def readReltabSubs (h : Heap) (f : List UInt8) (e : Elf32) : List Int :=
  (Loop.reached (complete h f e) (List.range e.shnum)).map Int.ofNat

/-- The subscripts that `main` makes from `read_header` to `read_reltab`. -/
def mainLectureSubs (h : Heap) (host : Bool) (f : List UInt8) : List Int :=
  (lireEntete host f).elim [] fun elfhdr =>
    (readShtable h host f elfhdr).elim [] fun shtable =>
      let e : Elf32 := ⟨elfhdr, shtable, [], ⟨[], 0⟩, [], [], 0⟩
      swapShtableSubs host e.shnum ++ readStrtabSubs h e dotShstrtab ++
        (readStrtab h f e dotShstrtab).elim [] fun e =>
          readStrtabSubs h e dotStrtab ++
            (readStrtab h f e dotStrtab).elim [] fun e =>
              readSymtableSubs h e.elfhdr e.shtable ++
                (readSymtable h host f e.elfhdr e.shtable).elim [] fun r =>
                  readReltabSubs h f { e with symtable := r.1, symtabIndex := r.2 }

theorem readSymtableSubs_bounds {h : Heap} {elfhdr : Elf32Ehdr} {shtable : List Elf32Shdr} :
    (∀ i ∈ readSymtableSubs h elfhdr shtable, 0 ≤ i ∧ i < elfhdr.eShnum.toNat) ↔
      ∃ k < elfhdr.eShnum.toNat, isSymtable h shtable k = true := by
  simp only [readSymtableSubs, List.mem_append, List.mem_map, List.mem_range, List.mem_singleton]
  constructor
  · intro hall
    have hlast := hall _ (Or.inr rfl)
    have hlt : Loop.first (isSymtable h shtable) elfhdr.eShnum.toNat < elfhdr.eShnum.toNat := by omega
    exact ⟨_, hlt, Loop.of_first_lt hlt⟩
  · rintro ⟨k, hk, hsymtab⟩ i hi
    have hle := Loop.first_le (isSymtable h shtable) elfhdr.eShnum.toNat
    have hne : Loop.first (isSymtable h shtable) elfhdr.eShnum.toNat ≠ elfhdr.eShnum.toNat := fun hc => by
      rw [Loop.first_eq_bound_iff.mp hc k hk] at hsymtab
      cases hsymtab
    rcases hi with ⟨j, hj, rfl⟩ | rfl
    · exact ⟨Int.natCast_nonneg j, Int.ofNat_lt.mpr (by omega)⟩
    · omega

theorem readReltabSubs_bounds {h : Heap} {f : List UInt8} {e : Elf32} {i : Int}
    (hi : i ∈ readReltabSubs h f e) : 0 ≤ i ∧ i < e.shnum := by
  obtain ⟨k, hk, rfl⟩ := List.mem_map.mp hi
  exact ⟨Int.natCast_nonneg k,
    Int.ofNat_lt.mpr (List.mem_range.mp (Loop.mem_of_mem_reached hk))⟩

/-! ## Names in the file -/

/-- `strcmp` with a string inside a table that ends with a NUL: the bytes of the name and
its NUL are there. -/
theorem strcmpEq_iff (h : Heap) {t name : List UInt8} {off : Nat} (hoff : off < t.length)
    (hnul : t.getLast? = some 0) (hname : 0 ∉ name) :
    strcmpEq h t name off = true ↔ name ++ [0] <+: t.drop off := by
  have hchar : ∀ {k} (hk : k < t.length), charAt h t k = t[k] := fun hk => by
    rw [charAt, List.getD_eq_getElem?_getD, List.getElem?_eq_getElem hk, Option.getD_some]
  induction name generalizing off with
  | nil =>
    rw [strcmpEq, hchar hoff, List.drop_eq_getElem_cons hoff, List.nil_append, List.cons_prefix_cons,
      beq_iff_eq]
    exact ⟨fun heq => ⟨heq.symm, List.nil_prefix⟩, fun heq => heq.1.symm⟩
  | cons c name ih =>
    rw [List.mem_cons, not_or] at hname
    rw [strcmpEq, hchar hoff, List.drop_eq_getElem_cons hoff, List.cons_append, List.cons_prefix_cons,
      Bool.and_eq_true, beq_iff_eq, eq_comm]
    refine and_congr_right fun hc => ih ?_ hname.2
    -- the last byte is a NUL and this one is not
    by_contra hlast
    obtain rfl : off = t.length - 1 := by omega
    rw [List.getLast?_eq_getElem?, List.getElem?_eq_getElem hoff, Option.some.injEq] at hnul
    exact hname.1 (hc.trans hnul).symm

/-- The header, the section table and the section names of an image. -/
def enteteDe (f : List UInt8) : Elf32Ehdr := (ehdr true).decode f

def tableDe (f : List UInt8) : List Elf32Shdr :=
  (shdr true).decodeAll (enteteDe f).eShnum.toNat (f.drop (enteteDe f).eShoff.toNat)

def nomsDe (f : List UInt8) : List UInt8 :=
  ((tableDe f)[(enteteDe f).eShstrndx.toNat]?.map (contenu f)).getD []

/-- The string at `sh_name` is `name`. -/
def nommee (f : List UInt8) (name : List UInt8) (s : Elf32Shdr) : Prop :=
  name ++ [0] <+: (nomsDe f).drop s.shName.toNat

instance (f name : List UInt8) (s : Elf32Shdr) : Decidable (nommee f name s) :=
  inferInstanceAs (Decidable (_ <+: _))

/-- An ELF32 image whose tables and names are inside it. -/
structure ImageValide (f : List UInt8) : Prop where
  header : 52 ≤ f.length
  elf32 : (enteteDe f).eIdent[eiClass] = elfclass32
  shentsize : (enteteDe f).eShentsize = 40
  shnum : 1 ≤ (enteteDe f).eShnum.toNat
  shstrndx : (enteteDe f).eShstrndx.toNat < (enteteDe f).eShnum.toNat
  table : (enteteDe f).eShoff.toNat + 40 * (enteteDe f).eShnum.toNat ≤ f.length
  names : ∀ s ∈ tableDe f, s.shName.toNat < (nomsDe f).length
  nul : (nomsDe f).getLast? = some 0

/-- Every subscript into the section table is in it. -/
def IndicesValides (h : Heap) (host : Bool) (f : List UInt8) : Prop :=
  ∀ i ∈ mainLectureSubs h host f, 0 ≤ i ∧ i < (enteteDe f).eShnum.toNat

section

variable {h : Heap} {host : Bool} {f : List UInt8}

theorem readShtable_valide (hv : ImageValide f) :
    readShtable h host f (enteteDe f) = some (tableDe f) := by
  rw [readShtable_eq h host f hv.shentsize, if_pos (Or.inr hv.table), tableDe]

theorem length_tableDe (f : List UInt8) : (tableDe f).length = (enteteDe f).eShnum.toNat :=
  Codec.length_decodeAll _ _ _

/-- `elfdata` when the section names have been read. -/
def elfAvecNoms (f : List UInt8) : Elf32 := ⟨enteteDe f, tableDe f, [], ⟨[], 0⟩, nomsDe f, [], 0⟩

@[simp] theorem elfhdr_elfAvecNoms (f : List UInt8) : (elfAvecNoms f).elfhdr = enteteDe f := rfl
@[simp] theorem shtable_elfAvecNoms (f : List UInt8) : (elfAvecNoms f).shtable = tableDe f := rfl
@[simp] theorem shStrtab_elfAvecNoms (f : List UInt8) : (elfAvecNoms f).shStrtab = nomsDe f := by
  rw [elfAvecNoms]
@[simp] theorem shnum_elfAvecNoms (f : List UInt8) :
    (elfAvecNoms f).shnum = (enteteDe f).eShnum.toNat := by
  rw [Elf32.shnum, elfhdr_elfAvecNoms]

theorem readStrtab_shstrtab (h : Heap) (hv : ImageValide f) :
    readStrtab h f ⟨enteteDe f, tableDe f, [], ⟨[], 0⟩, [], [], 0⟩ dotShstrtab =
      some (elfAvecNoms f) := by
  have hs := shdrAt_of_lt h (Nat.lt_of_lt_of_eq hv.shstrndx (length_tableDe f).symm)
  rw [readStrtab, if_pos rfl, elfAvecNoms, nomsDe, hs, Option.map_some, Option.getD_some, contenu]

/-- The name search of the program is the one in the file. -/
theorem getSectionIndex_nonneg_iff_nommee (h : Heap) (hv : ImageValide f) {name : List UInt8}
    (hname : 0 ∉ name) : 0 ≤ getSectionIndex h (elfAvecNoms f) name ↔ ∃ s ∈ tableDe f, nommee f name s := by
  have hiff : ∀ k (hk : k < (tableDe f).length),
      nameIs h (elfAvecNoms f) name k = true ↔ nommee f name (tableDe f)[k] := by
    intro k hk
    have hs : shdrAt h (tableDe f) k = (tableDe f)[k] := shdrAt_eq (List.getElem?_eq_getElem hk)
    rw [nameIs, shStrtab_elfAvecNoms, shtable_elfAvecNoms, hs, nommee]
    exact strcmpEq_iff h (hv.names _ (List.getElem_mem hk)) hv.nul hname
  rw [getSectionIndex_nonneg_iff]
  constructor
  · rintro ⟨k, hk, hfound⟩
    have hk' : k < (tableDe f).length := Nat.lt_of_lt_of_eq hk (length_tableDe f).symm
    exact ⟨_, List.getElem_mem hk', (hiff k hk').mp hfound⟩
  · rintro ⟨s, hs, hfound⟩
    obtain ⟨k, hk, rfl⟩ := List.mem_iff_getElem.mp hs
    exact ⟨k, Nat.lt_of_lt_of_eq hk (length_tableDe f), (hiff k hk).mpr hfound⟩

theorem isSymtable_iff_tableDe (h : Heap) (f : List UInt8) :
    (∃ k < (enteteDe f).eShnum.toNat, isSymtable h (tableDe f) k = true) ↔
      ∃ s ∈ tableDe f, s.shType = shtSymtab := by
  constructor
  · rintro ⟨k, hk, hsymtab⟩
    have hs := shdrAt_of_lt h (Nat.lt_of_lt_of_eq hk (length_tableDe f).symm)
    exact ⟨_, List.mem_of_getElem? hs, beq_iff_eq.mp hsymtab⟩
  · rintro ⟨s, hs, htype⟩
    obtain ⟨k, hk, rfl⟩ := List.mem_iff_getElem.mp hs
    refine ⟨k, Nat.lt_of_lt_of_eq hk (length_tableDe f), ?_⟩
    rw [isSymtable, shdrAt_eq (List.getElem?_eq_getElem hk), htype]
    rfl

/-- The subscripts made once the header, the section table and the names are read. -/
theorem mainLectureSubs_eq {elfhdr : Elf32Ehdr} {shtable : List Elf32Shdr} {e : Elf32}
    (hheader : lireEntete host f = some elfhdr)
    (hshtable : readShtable h host f elfhdr = some shtable)
    (hnoms : readStrtab h f ⟨elfhdr, shtable, [], ⟨[], 0⟩, [], [], 0⟩ dotShstrtab = some e) :
    ∃ last, (∀ i ∈ last, 0 ≤ i ∧ i < (e.shnum : Int)) ∧ mainLectureSubs h host f =
      swapShtableSubs host elfhdr.eShnum.toNat ++ [(elfhdr.eShstrndx.toNat : Int)] ++
        (getSectionIndexSubs h e dotStrtab ++ [getSectionIndex h e dotStrtab] ++
          (readSymtableSubs h e.elfhdr e.shtable ++ last)) := by
  have hstrtab : readStrtab h f e dotStrtab = some { e with
      symStrtab := contenu f (shdrAtInt h e.shtable (getSectionIndex h e dotStrtab)) } := by
    rw [readStrtab, if_neg (by decide), if_pos rfl]
    rfl
  refine ⟨(readSymtable h host f e.elfhdr e.shtable).elim [] fun r => readReltabSubs h f
    { e with
      symStrtab := contenu f (shdrAtInt h e.shtable (getSectionIndex h e dotStrtab))
      symtable := r.1, symtabIndex := r.2 }, fun i hi => ?_, ?_⟩
  · cases hsym : readSymtable h host f e.elfhdr e.shtable with
    | none =>
      rw [hsym] at hi
      exact absurd hi List.not_mem_nil
    | some r =>
      rw [hsym] at hi
      exact readReltabSubs_bounds hi
  · rw [mainLectureSubs, hheader, Option.elim_some, hshtable, Option.elim_some]
    dsimp only
    rw [hnoms, Option.elim_some, hstrtab, Option.elim_some]
    rfl

/-- Loading makes no subscript outside the section table exactly when the image has a
section named `.strtab` and one of type `SHT_SYMTAB`. -/
theorem indicesValides_iff (h : Heap) (host : Bool) (hv : ImageValide f) :
    IndicesValides h host f ↔
      (∃ s ∈ tableDe f, nommee f dotStrtab s) ∧ ∃ s ∈ tableDe f, s.shType = shtSymtab := by
  have hheader : readHeader host f = some (enteteDe f) := by
    rw [readHeader_eq, if_pos hv.header, enteteDe]
  obtain ⟨last, hlast, hsubs⟩ := mainLectureSubs_eq (lireEntete_some hheader hv.elf32)
    (readShtable_valide hv) (readStrtab_shstrtab h hv)
  have hlt := getSectionIndex_lt h (elfAvecNoms f) dotStrtab
  have hsearch := @getSectionIndexSubs_bounds h (elfAvecNoms f) dotStrtab
  rw [shnum_elfAvecNoms] at hlast hlt hsearch
  rw [elfhdr_elfAvecNoms, shtable_elfAvecNoms] at hsubs
  rw [IndicesValides, hsubs, ← getSectionIndex_nonneg_iff_nommee h hv (by decide),
    ← isSymtable_iff_tableDe h, ← readSymtableSubs_bounds]
  have hshstrndx := hv.shstrndx
  generalize (enteteDe f).eShnum.toNat = n at *
  constructor
  · intro hall
    exact ⟨(hall _ (by simp)).1, fun i hi => hall i (by simp [hi])⟩
  · rintro ⟨hstrtab, hsymtab⟩ i hi
    simp only [List.mem_append, List.mem_singleton] at hi
    rcases hi with (hi | rfl) | (hi | rfl) | hi | hi
    · exact swapShtableSubs_bounds hi
    · exact ⟨Int.natCast_nonneg _, Int.ofNat_lt.mpr hshstrndx⟩
    · exact hsearch hi
    · exact ⟨hstrtab, hlt⟩
    · exact hsymtab i hi
    · exact hlast i hi

end

/-! A file with its section names only, as `strip` leaves one without code. -/

def exempleNoms : List UInt8 := 0 :: dotShstrtab ++ [0]

def exempleReduit : List UInt8 :=
  (ehdr true).encode { exempleEntete with eShoff := 63, eShnum := 2, eShstrndx := 1 } ++ exempleNoms ++
    (shdr true).encodeAll [sectionNulle, ⟨1, 3, 0, 0, 52, 11, 0, 0, 1, 0⟩]

theorem exempleReduit_valide : ImageValide exempleReduit where
  header := by decide +kernel
  elf32 := by decide +kernel
  shentsize := by decide +kernel
  shnum := by decide +kernel
  shstrndx := by decide +kernel
  table := by decide +kernel
  names := by decide +kernel
  nul := by decide +kernel

theorem indicesValides_iff_exempleReduit : IndicesValides tasNul false exempleReduit ↔
    (∃ s ∈ tableDe exempleReduit, nommee exempleReduit dotStrtab s) ∧
      ∃ s ∈ tableDe exempleReduit, s.shType = shtSymtab :=
  indicesValides_iff tasNul false exempleReduit_valide

/-- Both searches fail, one in each way, and no error is reported; the contents of the
sections are in the file too. -/
theorem mainLecture_exempleReduit : ImageValide exempleReduit ∧
    (∀ s ∈ tableDe exempleReduit, s.shOffset.toNat + s.shSize.toNat ≤ exempleReduit.length) ∧
    (mainLecture tasNul false exempleReduit).isSome = true ∧
    (enteteDe exempleReduit).eShnum = 2 ∧
    -1 ∈ mainLectureSubs tasNul false exempleReduit ∧ 2 ∈ mainLectureSubs tasNul false exempleReduit ∧
    ¬IndicesValides tasNul false exempleReduit := by
  have hminus : -1 ∈ mainLectureSubs tasNul false exempleReduit := by decide +kernel
  refine ⟨exempleReduit_valide, by decide +kernel, by decide +kernel, by decide +kernel, hminus,
    by decide +kernel, ?_⟩
  exact fun hall => absurd (hall _ hminus).1 (by decide)

/-! ## The entry size of the header -/

/-- What reading the section table with the entry size of the header means: the size in
bytes fits an `int`, the swaps stay inside the memory of that size, and entry `i` of the
table is in it and is the header that the file has at `i` times the entry size. -/
structure TailleHonoree (h : Heap) (host : Bool) (f : List UInt8) (elfhdr : Elf32Ehdr) : Prop where
  taille : elfhdr.eShnum.toNat * elfhdr.eShentsize.toNat < 2 ^ 31
  memoire : ∀ i ∈ swapShtableSubs host elfhdr.eShnum.toNat,
    0 ≤ i ∧ 40 * (i + 1) ≤ elfhdr.eShnum.toNat * elfhdr.eShentsize.toNat
  entrees : ∀ t, readShtable h host f elfhdr = some t → ∀ i < elfhdr.eShnum.toNat,
    40 * (i + 1) ≤ elfhdr.eShnum.toNat * elfhdr.eShentsize.toNat ∧
      t[i]? = some ((shdr true).decode (f.drop (elfhdr.eShoff.toNat + elfhdr.eShentsize.toNat * i)))

/-- The headers one after the other are those at the entry size of the file. -/
structure MemesEntetes (f : List UInt8) (elfhdr : Elf32Ehdr) : Prop where
  large : 40 ≤ elfhdr.eShentsize.toNat
  taille : elfhdr.eShnum.toNat * elfhdr.eShentsize.toNat < 2 ^ 31
  bytes : ∀ i < elfhdr.eShnum.toNat, Patch.readAt f (elfhdr.eShoff.toNat + 40 * i) 40 =
    Patch.readAt f (elfhdr.eShoff.toNat + elfhdr.eShentsize.toNat * i) 40

/-- The entries of the size in the header are in the file. -/
def TableDansFichier (f : List UInt8) (elfhdr : Elf32Ehdr) : Prop :=
  elfhdr.eShnum.toNat * elfhdr.eShentsize.toNat ≤ (f.drop elfhdr.eShoff.toNat).length

section

variable {h : Heap} {host : Bool} {f : List UInt8} {elfhdr : Elf32Ehdr}

/-- The table is read, whatever the entry size, as long as its size fits an `int`. -/
theorem readShtable_isSome (hpos : 1 ≤ elfhdr.eShentsize.toNat) (hheld : TableDansFichier f elfhdr)
    (htaille : elfhdr.eShnum.toNat * elfhdr.eShentsize.toNat < 2 ^ 31) :
    ∃ t, readShtable h host f elfhdr = some t := by
  have hcount : freadCount f elfhdr.eShoff.toNat elfhdr.eShentsize.toNat elfhdr.eShnum.toNat =
      elfhdr.eShnum.toNat := by
    rw [freadCount_eq_iff _ _ _ _ hpos]
    rw [TableDansFichier, List.length_drop] at hheld
    rcases Nat.eq_zero_or_pos elfhdr.eShnum.toNat with hn | hn
    · exact Or.inl hn
    · have hbytes : 0 < elfhdr.eShnum.toNat * elfhdr.eShentsize.toNat := Nat.mul_pos hn hpos
      exact Or.inr (by omega)
  exact ⟨_, by rw [readShtable, if_neg (by omega), if_neg (not_not_intro hcount)]⟩

/-- With a larger entry size the headers are taken one after the other all the same. -/
theorem getElem?_readShtable (hlarge : 40 ≤ elfhdr.eShentsize.toNat) {t : List Elf32Shdr}
    (hread : readShtable h host f elfhdr = some t) {i : Nat} (hi : i < elfhdr.eShnum.toNat) :
    t[i]? = some ((shdr true).decode (f.drop (elfhdr.eShoff.toNat + 40 * i))) := by
  rw [(readShtable_some hlarge hread).1, Codec.getElem?_decodeAll _ _ _ _ hi, List.drop_drop, size_shdr]

/-- Two headers in the file are the same when their bytes are. -/
theorem entete_eq_iff {a b : Nat} (ha : a + 40 ≤ f.length) (hb : b + 40 ≤ f.length) :
    (shdr true).decode (f.drop a) = (shdr true).decode (f.drop b) ↔
      Patch.readAt f a 40 = Patch.readAt f b 40 := by
  refine (shdr true).decode_eq_decode_iff ?_ ?_
  · rw [List.length_drop, size_shdr]
    omega
  · rw [List.length_drop, size_shdr]
    omega

/-- With entries large enough, entry `i` ends where the table does at the latest. -/
theorem finEntree_le {n size i : Nat} (hi : i < n) (hlarge : 40 ≤ size) :
    size * i + 40 ≤ n * size ∧ 40 * i ≤ size * i := by
  have hnext := Nat.mul_le_mul_left size (Nat.succ_le_of_lt hi)
  rw [Nat.mul_succ] at hnext
  rw [Nat.mul_comm n]
  exact ⟨by omega, Nat.mul_le_mul_right i hlarge⟩

/-- Entry `i` of the table read is the one that the entry size puts there exactly when the file
has the same bytes in both places. -/
theorem entree_iff (hheld : TableDansFichier f elfhdr) (hlarge : 40 ≤ elfhdr.eShentsize.toNat)
    {t : List Elf32Shdr} (hread : readShtable h host f elfhdr = some t) {i : Nat}
    (hi : i < elfhdr.eShnum.toNat) :
    t[i]? = some ((shdr true).decode
        (f.drop (elfhdr.eShoff.toNat + elfhdr.eShentsize.toNat * i))) ↔
      Patch.readAt f (elfhdr.eShoff.toNat + 40 * i) 40 =
        Patch.readAt f (elfhdr.eShoff.toNat + elfhdr.eShentsize.toNat * i) 40 := by
  obtain ⟨hend, hle⟩ := finEntree_le hi hlarge
  rw [TableDansFichier, List.length_drop] at hheld
  rw [getElem?_readShtable hlarge hread hi, Option.some.injEq, entete_eq_iff (by omega) (by omega)]

theorem tailleHonoree_iff (hpos : 1 ≤ elfhdr.eShentsize.toNat) (hheld : TableDansFichier f elfhdr) :
    TailleHonoree h host f elfhdr ↔ elfhdr.eShnum.toNat = 0 ∨ MemesEntetes f elfhdr := by
  constructor
  · intro hh
    by_cases hn : elfhdr.eShnum.toNat = 0
    · exact Or.inl hn
    obtain ⟨t, hread⟩ : ∃ t, readShtable h host f elfhdr = some t :=
      readShtable_isSome hpos hheld hh.taille
    have hlarge : 40 ≤ elfhdr.eShentsize.toNat := by
      have hlast := (hh.entrees t hread (elfhdr.eShnum.toNat - 1) (by omega)).1
      rw [Nat.sub_add_cancel (by omega), Nat.mul_comm] at hlast
      exact Nat.le_of_mul_le_mul_left hlast (by omega)
    refine Or.inr ⟨hlarge, hh.taille, fun i hi => ?_⟩
    exact (entree_iff hheld hlarge hread hi).mp (hh.entrees t hread i hi).2
  · rintro (hn | hm)
    · refine ⟨by rw [hn, Nat.zero_mul]; decide, fun i hi => ?_, fun t _ i hi => by omega⟩
      have hbound := swapShtableSubs_bounds hi
      omega
    · refine ⟨hm.taille, fun i hi => ?_, fun t hread i hi => ?_⟩
      · have hbound := swapShtableSubs_bounds hi
        have hall := Nat.mul_le_mul_left elfhdr.eShnum.toNat hm.large
        omega
      · obtain ⟨hend, hle⟩ := finEntree_le hi hm.large
        exact ⟨by omega, (entree_iff hheld hm.large hread hi).mpr (hm.bytes i hi)⟩

end

/-- A file whose second header is not where entries larger than 40 bytes put it. -/
def fichierDecale (elfhdr : Elf32Ehdr) : List UInt8 :=
  List.replicate (elfhdr.eShoff.toNat + 40) 0 ++
    1 :: List.replicate (elfhdr.eShnum.toNat * elfhdr.eShentsize.toNat) 0

theorem fichierDecale_table (elfhdr : Elf32Ehdr) : TableDansFichier (fichierDecale elfhdr) elfhdr := by
  rw [TableDansFichier, fichierDecale, List.length_drop, List.length_append, List.length_cons, List.length_replicate,
    List.length_replicate]
  omega

theorem fichierDecale_entetes {elfhdr : Elf32Ehdr} (hn : 2 ≤ elfhdr.eShnum.toNat)
    (hsize : 40 < elfhdr.eShentsize.toNat) : ¬MemesEntetes (fichierDecale elfhdr) elfhdr := by
  intro hm
  have hsecond : Patch.readAt (fichierDecale elfhdr) (elfhdr.eShoff.toNat + 40) 40 =
      Patch.readAt (fichierDecale elfhdr) (elfhdr.eShoff.toNat + elfhdr.eShentsize.toNat) 40 := by
    simpa using hm.bytes 1 (by omega)
  have hbyte := congrArg (fun bytes => bytes[0]?) hsecond
  have hmul : 2 * elfhdr.eShentsize.toNat ≤ elfhdr.eShnum.toNat * elfhdr.eShentsize.toNat :=
    Nat.mul_le_mul_right _ hn
  simp only [Patch.getElem?_readAt, Nat.add_zero, fichierDecale] at hbyte
  rw [if_pos (by decide), if_pos (by decide), List.getElem?_append_right (by simp),
    List.getElem?_append_right (by rw [List.length_replicate]; omega), List.length_replicate, Nat.sub_self,
    Nat.add_sub_add_left, List.getElem?_cons_zero, List.getElem?_cons, if_neg (by omega),
    List.getElem?_replicate, if_pos (by omega)] at hbyte
  exact absurd (Option.some.inj hbyte) (by decide)

/-- `read_shtable` honours the entry size on a file when the headers one after the other
are those at that size, and on every file when there is one at most or the size is 40. -/
theorem readShtable_taille_iff (h : Heap) (host : Bool) {elfhdr : Elf32Ehdr}
    (hpos : 1 ≤ elfhdr.eShentsize.toNat) :
    (∀ f, TableDansFichier f elfhdr →
      (TailleHonoree h host f elfhdr ↔ elfhdr.eShnum.toNat = 0 ∨ MemesEntetes f elfhdr)) ∧
    ((∀ f, TableDansFichier f elfhdr → TailleHonoree h host f elfhdr) ↔
      elfhdr.eShnum.toNat = 0 ∨ elfhdr.eShentsize.toNat = 40 ∨
        elfhdr.eShnum.toNat = 1 ∧ 40 ≤ elfhdr.eShentsize.toNat) := by
  refine ⟨fun f hheld => tailleHonoree_iff hpos hheld, ?_⟩
  have hn := elfhdr.eShnum.toNat_lt
  have hs := elfhdr.eShentsize.toNat_lt
  constructor
  · intro hall
    have hheld := fichierDecale_table elfhdr
    rcases (tailleHonoree_iff hpos hheld).mp (hall _ hheld) with hzero | hm
    · exact Or.inl hzero
    · have hlarge := hm.large
      by_contra hne
      exact fichierDecale_entetes (by omega) (by omega) hm
  · intro hsize f hheld
    rw [tailleHonoree_iff hpos hheld]
    rcases hsize with hzero | hsize | ⟨hone, hlarge⟩
    · exact Or.inl hzero
    · exact Or.inr ⟨by omega, by rw [hsize]; omega, fun i _ => by rw [hsize]⟩
    · refine Or.inr ⟨hlarge, by rw [hone]; omega, fun i hi => ?_⟩
      obtain rfl : i = 0 := by omega
      rfl

theorem readShtable_taille_iff_exemple :
    (∀ f, TableDansFichier f exempleEntete → (TailleHonoree tasNul false f exempleEntete ↔
      exempleEntete.eShnum.toNat = 0 ∨ MemesEntetes f exempleEntete)) ∧
    ((∀ f, TableDansFichier f exempleEntete → TailleHonoree tasNul false f exempleEntete) ↔
      exempleEntete.eShnum.toNat = 0 ∨ exempleEntete.eShentsize.toNat = 40 ∨
        exempleEntete.eShnum.toNat = 1 ∧ 40 ≤ exempleEntete.eShentsize.toNat) :=
  readShtable_taille_iff tasNul false (by decide)

/-- Two headers of 64 bytes. -/
def enteteLarge : Elf32Ehdr := { exempleEntete with eShoff := 0, eShentsize := 64, eShnum := 2 }

/-- The second one is taken 40 bytes after the first, where the file has a 1. -/
theorem readShtable_enteteLarge :
    TableDansFichier (fichierDecale enteteLarge) enteteLarge ∧
    (∃ t, readShtable tasNul false (fichierDecale enteteLarge) enteteLarge = some t ∧
      t[1]?.map Elf32Shdr.shName = some 0x01000000) ∧
    ((shdr true).decode ((fichierDecale enteteLarge).drop 64)).shName = 0 ∧
    ¬TailleHonoree tasNul false (fichierDecale enteteLarge) enteteLarge := by
  have hread : (readShtable tasNul false (fichierDecale enteteLarge) enteteLarge).map
      (fun t => t[1]?.map Elf32Shdr.shName) = some (some 0x01000000) := by decide +kernel
  obtain ⟨t, ht, hname⟩ := Option.map_eq_some_iff.mp hread
  have hfile : ((shdr true).decode ((fichierDecale enteteLarge).drop 64)).shName = 0 := by decide +kernel
  refine ⟨fichierDecale_table enteteLarge, ⟨t, ht, hname⟩, hfile, fun hh => ?_⟩
  have hentry := (hh.entrees t ht 1 (by decide)).2
  rw [hentry, Option.map_some, Option.some.injEq] at hname
  exact absurd (hname.symm.trans hfile) (by decide)

end ElfLinker
