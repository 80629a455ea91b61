import ElfLinker.Lecture
import ElfLinker.Lib.Columns

/-!
The tables that `my_readelf` prints for `-h`, `-S`, `-s` and `-r`, and what can be read
again in the last three: every number and every name comes back, the name of a section
short of the blanks at its end, and of a type the text that stands for it.
-/

namespace ElfLinker

open HexDump Columns

/-! ## Texts -/

/-- A C string literal, in UTF-8. -/
def texte (s : String) : List UInt8 := s.toUTF8.data.toList

theorem texte_newline : texte "\n" = [HexDump.newline] := rfl

/-- A `switch` that returns a text for each case. -/
def choix (cas : List (Nat × String)) (defaut : String) (n : Nat) : List UInt8 :=
  texte ((cas.lookup n).getD defaut)

def sectionTypes : List (Nat × String) :=
  [(0, "NULL"), (1, "PROGBITS"), (2, "SYMTAB"), (3, "STRTAB"), (4, "RELA"), (5, "HASH"), (6, "DYNAMIC"),
    (7, "NOTE"), (8, "NOBITS"), (9, "REL"), (10, "SHLIB"), (11, "DYNSYM"), (0x70000000, "LOPROC"),
    (0x7fffffff, "HIPROC"), (0x80000000, "LOUSER"), (0x8fffffff, "HIUSER"), (0x70000003, "ARM_ATTRIBUTES")]

def getSectionType (type : UInt32) : List UInt8 := choix sectionTypes "UNKNOWN" type.toNat

def sectionsReservees : List (Nat × String) :=
  [(0, "UND"), (0xff00, "LOR"), (0xff1f, "HIP"), (0xfff1, "ABS"), (0xfff2, "COM"), (0xffff, "HIR")]

/-- `none` is the pointer `NULL`. -/
def getStShndx (stShndx : UInt16) : Option (List UInt8) :=
  (sectionsReservees.lookup stShndx.toNat).map texte

/-- `ELF32_ST_VISIBILITY`, `ELF32_ST_BIND` and `ELF32_ST_TYPE`. -/
def elf32StVisibility (other : UInt8) : Nat := other.toNat % 4
def elf32StBind (info : UInt8) : Nat := info.toNat / 16
def elf32StType (info : UInt8) : Nat := info.toNat % 16

def visibilites : List (Nat × String) :=
  [(0, "DEFAULT"), (1, "INTERNAL"), (2, "HIDDEN"), (3, "PROTECTED")]

def getStVisibility (stOther : UInt8) : List UInt8 := choix visibilites "UNKNOWN" (elf32StVisibility stOther)

def liaisons : List (Nat × String) :=
  [(0, "LOCAL"), (1, "GLOBAL"), (2, "WEAK"), (13, "LOPROC"), (15, "HIPROC")]

def getSymbind (stInfo : UInt8) : List UInt8 := choix liaisons "UNKNOWN" (elf32StBind stInfo)

def sttSection : Nat := 3

def symboleTypes : List (Nat × String) :=
  [(0, "NOTYPE"), (1, "OBJECT"), (2, "FUNC"), (sttSection, "SECTION"), (4, "FILE"), (13, "LOPROC"), (15, "HIPROC")]

def getSymtype (stInfo : UInt8) : List UInt8 := choix symboleTypes "UNKNOWN" (elf32StType stInfo)

def relocationTypes : List (Nat × String) :=
  [(2, "R_ARM_ABS32"), (5, "R_ARM_ABS16"), (8, "R_ARM_ABS8"), (28, "R_ARM_CALL"), (29, "R_ARM_JUMP24")]

def getRelocType (type : UInt32) : List UInt8 := choix relocationTypes "UNKNOWN" (elf32RType type).toNat

/-- `%0<w>x`. -/
def hexa (w n : Nat) : List UInt8 := zeros w (number 16 n)

/-- `%d` of an unsigned word. -/
def motSigne (x : UInt32) : Int := x.toBitVec.toInt

/-! ## affiche_header -/

/-- `e_ident[i]`. -/
def ident (entete : Elf32Ehdr) (i : Nat) : UInt8 := entete.eIdent.toList.getD i 0

theorem ident_eiClass (entete : Elf32Ehdr) : ident entete eiClass = entete.eIdent[eiClass] := by
  simp [ident, eiClass, List.getD_eq_getElem?_getD]

def machines : List (Nat × String) :=
  [(0, "No machine\n"), (1, "AT&T WE 32100\n"), (2, "SPARC\n"), (3, "Intel Architecture\n"),
    (4, "Motorola 68000\n"), (5, "Motorola 88000\n"), (7, "Intel 80860\n"), (8, "MIPS RS3000 Big-Endian\n")]

def fichierTypes : List (Nat × String) :=
  [(1, "REL (Relocatable file)\n"), (2, "EXEC (Executable file)\n"), (3, "Shared object file\n"),
    (4, "Core file\n"), (0xff00, "Processor-specific (LOPROC)\n"), (0xffff, "Processor-specific (HIPROC)\n")]

def encodages : List (Nat × String) :=
  [(0, "Invalid data encoding\n"), (1, "2's complement, little endian\n"), (2, "2's complement, big endian\n")]

/-- `none` is the `assert` on the data encoding. -/
def afficheHeader (entete : Elf32Ehdr) : Option (List UInt8) := do
  let data ← encodages.lookup (ident entete 5).toNat
  return texte "ELF Header:\n" ++
    texte "  Magic:   " ++ entete.eIdent.toList.flatMap (fun c => hexa 2 c.toNat ++ [blank]) ++ texte "\n" ++
    texte "  Class:                             " ++
    texte (if ident entete eiClass = elfclass32 then "ELF32\n" else "pas ELF32\n") ++
    texte "  Data:                              " ++ texte data ++
    texte "  Version:                           " ++
    texte (if ident entete 6 = 1 then "1 (current)\n" else "invalid versionn\n") ++
    texte "  Type:                              " ++
    (match fichierTypes.lookup entete.eType.toNat with
      | some s => texte s
      | none => texte "No file type (should be 0, actual value: [0x" ++
          hexa 4 (reverse2 entete.eType).toNat ++ texte "] )\n") ++
    texte "  Machine:                           " ++
    (match machines.lookup entete.eMachine.toNat with
      | some s => texte s
      | none => texte "Reserved value [0x" ++ hexa 4 entete.eMachine.toNat ++ texte "]\n") ++
    texte "  Version:                           0x" ++ number 16 entete.eVersion.toNat ++ texte "\n" ++
    texte "  Entry point address:               0x" ++ number 16 entete.eEntry.toNat ++ texte "\n" ++
    texte "  Start of program headers:          " ++ signed (motSigne entete.ePhoff) ++
    texte " (bytes into file)\n" ++
    texte "  Start of section headers:          " ++ signed (motSigne entete.eShoff) ++
    texte " (bytes into file)\n" ++
    texte "  Flags:                             0x" ++ number 16 entete.eFlags.toNat ++ texte "\n" ++
    texte "  Size of this header:               " ++ number 10 entete.eEhsize.toNat ++ texte " (bytes)\n" ++
    texte "  Size of program headers:           " ++ number 10 entete.ePhentsize.toNat ++ texte " (bytes)\n" ++
    texte "  Number of program headers:         " ++ number 10 entete.ePhnum.toNat ++ texte "\n" ++
    texte "  Size of section headers:           " ++ number 10 entete.eShentsize.toNat ++ texte " (bytes)\n" ++
    texte "  Number of section headers:         " ++ number 10 entete.eShnum.toNat ++ texte "\n" ++
    texte "  Section header string table index: " ++ number 10 entete.eShstrndx.toNat ++ texte "\n"

/-! ## affiche_shtable -/

/-- The arguments of the `printf` in the loop, short of its newline. -/
def ligneSection (h : Heap) (shstrtabData : List UInt8) (i : Nat) (s : Elf32Shdr) : List UInt8 :=
  texte "  [" ++ padLeft 2 (number 10 i) ++ texte "] " ++ padRight 18 (chaine h.strtab shstrtabData s.shName) ++
    padRight 15 (getSectionType s.shType) ++ texte " " ++ hexa 8 s.shAddr.toNat ++ texte " " ++
    hexa 6 s.shOffset.toNat ++ texte " " ++ hexa 6 s.shSize.toNat

def afficheShtable (h : Heap) (elfhdr : Elf32Ehdr) (shtable : List Elf32Shdr) (shstrtabData : List UInt8) :
    List UInt8 :=
  texte "There are " ++ number 10 elfhdr.eShnum.toNat ++ texte " section headers, starting at offset 0x" ++
    number 16 elfhdr.eShoff.toNat ++ texte ":\n\n" ++
    texte "Section Headers:\n" ++
    texte "  [Nr] Name              Type            Addr     Off    Size\n" ++
    (List.range elfhdr.eShnum.toNat).flatMap fun i =>
      ligneSection h shstrtabData i (shdrAt h shtable i) ++ texte "\n"

/-! ## affiche_symtable -/

/-- What the heap holds after the arrays that only the printing reads past their ends. -/
structure Apres where
  rela : Nat → Elf32Rela
  symStrtab : Nat → UInt8

/-- The two `printf` of the loop differ in the column `Ndx` alone, of width 3 in both: at
the right for a number, at the left for a text. -/
def ligneSymbole (apres : Apres) (symStrtab : List UInt8) (i : Nat) (s : Elf32Sym) : List UInt8 :=
  texte "   " ++ padLeft 3 (number 10 i) ++ texte ": " ++ hexa 8 s.stValue.toNat ++ texte "  " ++
    padLeft 4 (signed (motSigne s.stSize)) ++ texte " " ++ padRight 8 (getSymtype s.stInfo) ++
    padRight 7 (getSymbind s.stInfo) ++ padRight 9 (getStVisibility s.stOther) ++
    (match getStShndx s.stShndx with
      | none => padLeft 3 (number 10 s.stShndx.toNat)
      | some stShndxStr => padRight 3 stShndxStr) ++
    texte " " ++ chaine apres.symStrtab symStrtab s.stName

def afficheSymtable (h : Heap) (apres : Apres) (e : Elf32) : List UInt8 :=
  let symtableSection := shdrAt h e.shtable e.symtabIndex
  let nombreDeSymboles := symtableSection.shSize.toNat / 16
  texte "Symbol table '" ++ chaine h.strtab e.shStrtab symtableSection.shName ++ texte "' contains " ++
    number 10 nombreDeSymboles ++ texte " entries:\n" ++
    texte "   Num:    Value  Size Type    Bind   Vis      Ndx Name\n" ++
    (List.range nombreDeSymboles).flatMap fun i =>
      ligneSymbole apres e.symStrtab i (symAt h e.symtable i) ++ texte "\n"

/-! ## affiche_reltab -/

/-- The name of a section for its symbol, and of the symbol for any other. -/
def symName (h : Heap) (apres : Apres) (e : Elf32) (s : Elf32Sym) : List UInt8 :=
  if elf32StType s.stInfo = sttSection then
    chaine h.strtab e.shStrtab (shdrAt h e.shtable s.stShndx.toNat).shName
  else chaine apres.symStrtab e.symStrtab s.stName

def ligneRel (h : Heap) (apres : Apres) (e : Elf32) (r : Elf32Rel) : List UInt8 :=
  let s := symAt h e.symtable (elf32RSym r.rInfo).toNat
  hexa 8 r.rOffset.toNat ++ texte "  " ++ hexa 8 r.rInfo.toNat ++ texte " " ++
    padRight 15 (getRelocType r.rInfo) ++ texte "   " ++ hexa 8 s.stValue.toNat ++ texte "   " ++ symName h apres e s

def ligneRela (h : Heap) (apres : Apres) (e : Elf32) (r : Elf32Rela) : List UInt8 :=
  ligneRel h apres e ⟨r.rOffset, r.rInfo⟩ ++ texte " + " ++ number 16 r.rAddend.toNat

def colonnesRel : List UInt8 := texte " Offset     Info    Type            Sym.Value  Sym. Name"
def colonnesRela : List UInt8 := texte " Offset     Info    Type            Sym.Value  Sym. Name + Addend"

/-- One turn of the loop over the tables. The loop on `relnum` can leave the array `rela`. -/
def afficheEntree (h : Heap) (apres : Apres) (e : Elf32) (entry : Elf32RelEntry) : List UInt8 :=
  let s := shdrAt h e.shtable entry.shndx
  texte "Relocation section '" ++ chaine h.strtab e.shStrtab s.shName ++ texte "' at offset 0x" ++
    number 16 s.shOffset.toNat ++ texte " contains " ++ number 10 entry.relnum ++ texte " entries:\n" ++
    if isRel s.shType then
      colonnesRel ++ texte "\n" ++
        (List.range entry.relnum).flatMap fun j => ligneRel h apres e (relAt h entry.rel j) ++ texte "\n"
    else
      colonnesRela ++ texte "\n" ++
        (List.range entry.relnum).flatMap fun j =>
          ligneRela h apres e (entry.rela.getD j (apres.rela j)) ++ texte "\n"

/-- Without a table, the loop makes no turn. -/
def afficheReltab (h : Heap) (apres : Apres) (e : Elf32) : List UInt8 :=
  (List.range e.reltab.entrynum).flatMap fun i => afficheEntree h apres e (entryAt h e.reltab.entries i)

/-! ## What the texts are made of -/

theorem choix_of_forall {P : List UInt8 → Prop} {cas : List (Nat × String)} {defaut : String}
    (hcas : ∀ c ∈ cas, P (texte c.2)) (hdefaut : P (texte defaut)) (n : Nat) : P (choix cas defaut n) := by
  rw [choix]
  cases hlookup : cas.lookup n with
  | none => exact hdefaut
  | some s =>
    obtain ⟨l₁, l₂, rfl, _⟩ := List.lookup_eq_some_iff.mp hlookup
    exact hcas (n, s) (by simp)

/-- A text that fills a column of width `w` and no more. -/
structure Colonne (w : Nat) (t : List UInt8) : Prop where
  length_le : t.length ≤ w
  blank : blank ∉ t
  oneLine : OneLine t

instance (w : Nat) (t : List UInt8) : Decidable (Colonne w t) :=
  decidable_of_iff (t.length ≤ w ∧ HexDump.blank ∉ t ∧ OneLine t)
    ⟨fun h => ⟨h.1, h.2.1, h.2.2⟩, fun h => ⟨h.length_le, h.blank, h.oneLine⟩⟩

theorem colonne_getSectionType (type : UInt32) : Colonne 15 (getSectionType type) :=
  choix_of_forall (by decide) (by decide) _

theorem colonne_getSymtype (stInfo : UInt8) : Colonne 8 (getSymtype stInfo) :=
  choix_of_forall (by decide) (by decide) _

theorem colonne_getSymbind (stInfo : UInt8) : Colonne 7 (getSymbind stInfo) :=
  choix_of_forall (by decide) (by decide) _

theorem colonne_getStVisibility (stOther : UInt8) : Colonne 9 (getStVisibility stOther) :=
  choix_of_forall (by decide) (by decide) _

theorem colonne_getRelocType (type : UInt32) : Colonne 15 (getRelocType type) :=
  choix_of_forall (by decide) (by decide) _

theorem value_hexa (w n : Nat) : value 16 (hexa w n) = n := by
  rw [hexa, value_zeros, value_number (by decide) (by decide)]

theorem not_mem_hexa {c : UInt8} (hc : Hexa.isDigit c = false) (w n : Nat) : c ∉ hexa w n := by
  refine not_mem_zeros (not_mem_number 16 (by decide) (by decide) hc) ?_
  rintro rfl
  cases hc

theorem hexa_ne_nil (w n : Nat) : hexa w n ≠ [] := zeros_ne_nil (number_ne_nil 16 n)

theorem not_mem_decimal {c : UInt8} (hc : Hexa.isDigit c = false) (n : Nat) : c ∉ number 10 n :=
  not_mem_number 10 (by decide) (by decide) hc

theorem lastWord_hexa (suite : List UInt8) (w n : Nat) :
    lastWord (suite ++ [blank] ++ hexa w n) = (suite ++ [blank], hexa w n) :=
  lastWord_append (not_mem_hexa rfl w n) (hexa_ne_nil w n)

theorem word_hexa (w n : Nat) (suite : List UInt8) :
    word (hexa w n ++ blank :: suite) = (hexa w n, blank :: suite) :=
  word_append (not_mem_hexa rfl w n) (hexa_ne_nil w n)

theorem oneLine_hexa (w n : Nat) : OneLine (hexa w n) := oneLine_zeros (oneLine_hexadecimal n) w

/-! ## The section table read again -/

/-- What a line of `-S` says of a section. -/
structure VueSection where
  num : Nat
  nom : List UInt8
  type : List UInt8
  addr : Nat
  off : Nat
  size : Nat
  deriving DecidableEq

def vueSection (h : Heap) (shstrtabData : List UInt8) (i : Nat) (s : Elf32Shdr) : VueSection :=
  ⟨i, trim (chaine h.strtab shstrtabData s.shName), getSectionType s.shType, s.shAddr.toNat, s.shOffset.toNat,
    s.shSize.toNat⟩

/-- From the right, as a name may hold blanks. -/
def lireLigneSection (l : List UInt8) : VueSection :=
  let size := lastWord l
  let off := lastWord size.1.dropLast
  let addr := lastWord off.1.dropLast
  let gauche := addr.1.dropLast
  let num := word ((gauche.take (gauche.length - 15)).drop 3)
  ⟨value 10 num.1.dropLast, trim (num.2.drop 1), trim (gauche.drop (gauche.length - 15)), value 16 addr.2,
    value 16 off.2, value 16 size.2⟩

theorem lireLigneSection_ligne (h : Heap) (shstrtabData : List UInt8) (i : Nat) (s : Elf32Shdr) :
    lireLigneSection (ligneSection h shstrtabData i s) = vueSection h shstrtabData i s := by
  have htype := colonne_getSectionType s.shType
  have hblank : texte " " = [blank] := rfl
  have hnum : ∀ nom, word (texte "  [" ++ padLeft 2 (number 10 i) ++ texte "] " ++ nom |>.drop 3) =
      (number 10 i ++ [0x5d], blank :: nom) := by
    intro nom
    rw [List.append_assoc, List.append_assoc]
    exact word_padLeft_label (not_mem_decimal rfl i) (by decide) 2 nom
  have hlen : ∀ debut : List UInt8, (debut ++ padRight 15 (getSectionType s.shType)).length - 15 = debut.length := by
    intro debut
    rw [List.length_append, length_padRight htype.length_le, Nat.add_sub_cancel]
  simp only [lireLigneSection, ligneSection, hblank, lastWord_hexa, List.dropLast_concat, hlen, List.take_left,
    List.drop_left, hnum, value_hexa, List.drop_succ_cons, List.drop_zero, trim_padRight, trim_of_not_mem htype.blank,
    value_number (b := 10) (by decide) (by decide), vueSection]

theorem oneLine_ligneSection {h : Heap} {shstrtabData : List UInt8} {s : Elf32Shdr}
    (hnom : OneLine (chaine h.strtab shstrtabData s.shName)) (i : Nat) :
    OneLine (ligneSection h shstrtabData i s) := by
  have hnom := oneLine_padRight hnom 18
  have htype := oneLine_padRight (colonne_getSectionType s.shType).oneLine 15
  have hnum := oneLine_padLeft (oneLine_decimal i) 2
  have hsep : OneLine (texte "  [") ∧ OneLine (texte "] ") ∧ OneLine (texte " ") := by decide
  simp [ligneSection, hnom, htype, hnum, oneLine_hexa, hsep]

/-- The table without its title. -/
def lireShtable (text : List UInt8) : List VueSection := ((lines text).drop 4).map lireLigneSection

theorem lireShtable_affiche (h : Heap) (elfhdr : Elf32Ehdr) (shtable : List Elf32Shdr)
    {shstrtabData : List UInt8}
    (hnoms : ∀ i < elfhdr.eShnum.toNat, OneLine (chaine h.strtab shstrtabData (shdrAt h shtable i).shName)) :
    lireShtable (afficheShtable h elfhdr shtable shstrtabData) =
      (List.range elfhdr.eShnum.toNat).map fun i => vueSection h shstrtabData i (shdrAt h shtable i) := by
  have htitre : OneLine (texte "There are " ++ number 10 elfhdr.eShnum.toNat ++
      texte " section headers, starting at offset 0x" ++ number 16 elfhdr.eShoff.toNat ++ texte ":") := by
    have hlit : OneLine (texte "There are ") ∧ OneLine (texte " section headers, starting at offset 0x") ∧
        OneLine (texte ":") := by decide
    simp [hlit, oneLine_decimal, oneLine_hexadecimal]
  have hlines : afficheShtable h elfhdr shtable shstrtabData = unlines (
      [texte "There are " ++ number 10 elfhdr.eShnum.toNat ++
        texte " section headers, starting at offset 0x" ++ number 16 elfhdr.eShoff.toNat ++ texte ":",
        [], texte "Section Headers:", texte "  [Nr] Name              Type            Addr     Off    Size"] ++
      (List.range elfhdr.eShnum.toNat).map fun i => ligneSection h shstrtabData i (shdrAt h shtable i)) := by
    have hfin : texte ":\n\n" = texte ":" ++ texte "\n" ++ texte "\n" := by decide
    have hentete : texte "Section Headers:\n" = texte "Section Headers:" ++ texte "\n" := by decide
    have hcolonnes : texte "  [Nr] Name              Type            Addr     Off    Size\n" =
        texte "  [Nr] Name              Type            Addr     Off    Size" ++ texte "\n" := by decide
    rw [afficheShtable, hfin, hentete, hcolonnes]
    simp [unlines, List.flatMap_map, texte_newline]
  rw [lireShtable, hlines, lines_unlines]
  · simp only [List.cons_append, List.nil_append, List.drop_succ_cons, List.drop_zero, List.map_map]
    exact List.map_congr_left fun i _ => lireLigneSection_ligne h shstrtabData i _
  · intro l hl
    rw [List.mem_append, List.mem_map] at hl
    rcases hl with hl | ⟨i, hi, rfl⟩
    · simp only [List.mem_cons, List.not_mem_nil, or_false] at hl
      rcases hl with rfl | rfl | rfl | rfl
      · exact htitre
      · decide
      · decide
      · decide
    · exact oneLine_ligneSection (hnoms i (List.mem_range.mp hi)) i

/-! ## The symbol table read again -/

/-- What a line of `-s` says of a symbol. -/
structure VueSymbole where
  num : Nat
  value : Nat
  size : Int
  type : List UInt8
  bind : List UInt8
  vis : List UInt8
  shndx : Nat
  nom : List UInt8
  deriving DecidableEq

def vueSymbole (apres : Apres) (symStrtab : List UInt8) (i : Nat) (s : Elf32Sym) : VueSymbole :=
  ⟨i, s.stValue.toNat, motSigne s.stSize, getSymtype s.stInfo, getSymbind s.stInfo,
    getStVisibility s.stOther, s.stShndx.toNat, chaine apres.symStrtab symStrtab s.stName⟩

/-- What the column `Ndx` holds. -/
def texteNdx (stShndx : UInt16) : List UInt8 := (getStShndx stShndx).getD (number 10 stShndx.toNat)

/-- A reserved index from its text, any other from its number. -/
def lireNdx (t : List UInt8) : Nat :=
  ((sectionsReservees.find? fun c => texte c.2 = t).map Prod.fst).getD (value 10 t)

theorem lireNdx_texteNdx (stShndx : UInt16) : lireNdx (texteNdx stShndx) = stShndx.toNat := by
  rw [texteNdx, getStShndx]
  cases hlookup : sectionsReservees.lookup stShndx.toNat with
  | none =>
    have hfind : (sectionsReservees.find? fun c => texte c.2 = number 10 stShndx.toNat) = none := by
      rw [List.find?_eq_none]
      intro c hc htexte
      -- the first letter is not a digit
      have hlettre : ∀ c ∈ sectionsReservees, ∃ d ∈ texte c.2, Hexa.isDigit d = false := by decide
      obtain ⟨d, hd, hdigit⟩ := hlettre c hc
      rw [decide_eq_true_eq] at htexte
      rw [htexte] at hd
      exact not_mem_decimal hdigit _ hd
    simp [lireNdx, hfind, value_number]
  | some s =>
    obtain ⟨l₁, l₂, hsplit, _⟩ := List.lookup_eq_some_iff.mp hlookup
    have hmem : (stShndx.toNat, s) ∈ sectionsReservees := by simp [hsplit]
    have hall : ∀ c ∈ sectionsReservees, lireNdx (texte c.2) = c.1 := by decide
    exact hall _ hmem

/-- A reserved index fills the column as a number does. -/
theorem ligneSymbole_eq (apres : Apres) (symStrtab : List UInt8) (i : Nat) (s : Elf32Sym) :
    ligneSymbole apres symStrtab i s = texte "   " ++ padLeft 3 (number 10 i) ++ texte ": " ++
      hexa 8 s.stValue.toNat ++ texte "  " ++ padLeft 4 (signed (motSigne s.stSize)) ++ texte " " ++
      padRight 8 (getSymtype s.stInfo) ++ padRight 7 (getSymbind s.stInfo) ++ padRight 9 (getStVisibility s.stOther) ++
      padLeft 3 (texteNdx s.stShndx) ++ texte " " ++ chaine apres.symStrtab symStrtab s.stName := by
  rw [ligneSymbole, texteNdx, getStShndx]
  cases hlookup : sectionsReservees.lookup s.stShndx.toNat with
  | none => rfl
  | some t =>
    obtain ⟨l₁, l₂, hsplit, _⟩ := List.lookup_eq_some_iff.mp hlookup
    have hmem : (s.stShndx.toNat, t) ∈ sectionsReservees := by simp [hsplit]
    have hall : ∀ c ∈ sectionsReservees, padRight 3 (texte c.2) = padLeft 3 (texte c.2) := by decide
    have hpad : padRight 3 (texte t) = padLeft 3 (texte t) := hall _ hmem
    simp only [Option.map_some, Option.getD_some, hpad]

theorem texteNdx_mot (stShndx : UInt16) :
    blank ∉ texteNdx stShndx ∧ OneLine (texteNdx stShndx) ∧ texteNdx stShndx ≠ [] := by
  rw [texteNdx, getStShndx]
  cases hlookup : sectionsReservees.lookup stShndx.toNat with
  | none => exact ⟨not_mem_decimal rfl _, oneLine_decimal _, number_ne_nil 10 _⟩
  | some t =>
    obtain ⟨l₁, l₂, hsplit, _⟩ := List.lookup_eq_some_iff.mp hlookup
    have hmem : (stShndx.toNat, t) ∈ sectionsReservees := by simp [hsplit]
    have hall : ∀ c ∈ sectionsReservees, blank ∉ texte c.2 ∧ OneLine (texte c.2) ∧ texte c.2 ≠ [] := by
      decide
    exact hall _ hmem

def lireLigneSymbole (l : List UInt8) : VueSymbole :=
  let num := word l
  let valeur := word num.2
  let size := word valeur.2
  let champs := size.2.drop 1
  let ndx := word (champs.drop 24)
  ⟨value 10 num.1.dropLast, value 16 valeur.1, integer size.1, column 8 champs, column 7 (champs.drop 8),
    column 9 (champs.drop 15), lireNdx ndx.1, ndx.2.drop 1⟩

theorem lireLigneSymbole_ligne (apres : Apres) (symStrtab : List UInt8) (i : Nat) (s : Elf32Sym) :
    lireLigneSymbole (ligneSymbole apres symStrtab i s) = vueSymbole apres symStrtab i s := by
  obtain ⟨hblank, _, hne⟩ := texteNdx_mot s.stShndx
  have htype := colonne_getSymtype s.stInfo
  have hbind := colonne_getSymbind s.stInfo
  have hvis := colonne_getStVisibility s.stOther
  generalize hnom : chaine apres.symStrtab symStrtab s.stName = nom
  -- the line from each of its words on
  let fin := padLeft 3 (texteNdx s.stShndx) ++ blank :: nom
  let champs := padRight 8 (getSymtype s.stInfo) ++ (padRight 7 (getSymbind s.stInfo) ++
    (padRight 9 (getStVisibility s.stOther) ++ fin))
  let suite := padLeft 4 (signed (motSigne s.stSize)) ++ blank :: champs
  have hligne : ligneSymbole apres symStrtab i s = blank :: blank :: blank :: (padLeft 3 (number 10 i) ++
      0x3a :: blank :: (hexa 8 s.stValue.toNat ++ blank :: blank :: suite)) := by
    have h3 : texte "   " = [blank, blank, blank] := rfl
    have h2 : texte "  " = [blank, blank] := rfl
    have h1 : texte " " = [blank] := rfl
    have hd : texte ": " = [0x3a, blank] := rfl
    rw [ligneSymbole_eq, hnom, h1, h2, h3, hd]
    simp [suite, champs, fin]
  have hfin : word fin = (texteNdx s.stShndx, blank :: nom) := by
    rw [word_padLeft, word_append hblank hne]
  have hsuite : word suite = (signed (motSigne s.stSize), blank :: champs) := by
    rw [word_padLeft, word_append (not_mem_signed rfl (by decide)) (signed_ne_nil _)]
  have h8 := column_append htype.length_le htype.blank (padRight 7 (getSymbind s.stInfo) ++
    (padRight 9 (getStVisibility s.stOther) ++ fin))
  have h7 := column_append hbind.length_le hbind.blank (padRight 9 (getStVisibility s.stOther) ++ fin)
  have h9 := column_append hvis.length_le hvis.blank fin
  have h15 : champs.drop 15 = padRight 9 (getStVisibility s.stOther) ++ fin := by
    rw [show (15 : Nat) = 8 + 7 from rfl, ← List.drop_drop, h8.2, h7.2]
  have h24 : champs.drop 24 = fin := by
    rw [show (24 : Nat) = 15 + 9 from rfl, ← List.drop_drop, h15, h9.2]
  have hnum : word (ligneSymbole apres symStrtab i s) =
      (number 10 i ++ [0x3a], blank :: (hexa 8 s.stValue.toNat ++ blank :: blank :: suite)) := by
    rw [hligne, word_blank, word_blank, word_blank,
      word_padLeft_label (not_mem_decimal rfl i) (by decide)]
  simp only [lireLigneSymbole, hnum, word_blank, word_hexa, hsuite, List.drop_succ_cons, List.drop_zero, h8.1,
    h8.2, h7.1, h15, h9.1, h24, hfin, List.dropLast_concat, value_number (b := 10) (by decide) (by decide),
    value_hexa, integer_signed, lireNdx_texteNdx, vueSymbole, hnom, champs]

theorem oneLine_ligneSymbole {apres : Apres} {symStrtab : List UInt8} {s : Elf32Sym}
    (hnom : OneLine (chaine apres.symStrtab symStrtab s.stName)) (i : Nat) :
    OneLine (ligneSymbole apres symStrtab i s) := by
  have htype := oneLine_padRight (colonne_getSymtype s.stInfo).oneLine 8
  have hbind := oneLine_padRight (colonne_getSymbind s.stInfo).oneLine 7
  have hvis := oneLine_padRight (colonne_getStVisibility s.stOther).oneLine 9
  have hnum := oneLine_padLeft (oneLine_decimal i) 3
  have hsize := oneLine_padLeft (oneLine_signed (motSigne s.stSize)) 4
  have hndx := oneLine_padLeft (texteNdx_mot s.stShndx).2.1 3
  have hsep : OneLine (texte "   ") ∧ OneLine (texte ": ") ∧ OneLine (texte "  ") ∧ OneLine (texte " ") := by
    decide
  rw [ligneSymbole_eq]
  simp [hnom, htype, hbind, hvis, hnum, hsize, hndx, oneLine_hexa, hsep]

/-- The symbols without the title. -/
def lireSymtable (text : List UInt8) : List VueSymbole := ((lines text).drop 2).map lireLigneSymbole

theorem lireSymtable_affiche {h : Heap} {apres : Apres} {e : Elf32}
    (hsymtable : OneLine (chaine h.strtab e.shStrtab (shdrAt h e.shtable e.symtabIndex).shName))
    (hnoms : ∀ i < (shdrAt h e.shtable e.symtabIndex).shSize.toNat / 16,
      OneLine (chaine apres.symStrtab e.symStrtab (symAt h e.symtable i).stName)) :
    lireSymtable (afficheSymtable h apres e) =
      (List.range ((shdrAt h e.shtable e.symtabIndex).shSize.toNat / 16)).map fun i =>
        vueSymbole apres e.symStrtab i (symAt h e.symtable i) := by
  generalize hs : shdrAt h e.shtable e.symtabIndex = s at hsymtable hnoms ⊢
  have htitre : OneLine (texte "Symbol table '" ++ chaine h.strtab e.shStrtab s.shName ++ texte "' contains " ++
      number 10 (s.shSize.toNat / 16) ++ texte " entries:") := by
    have hlit : OneLine (texte "Symbol table '") ∧ OneLine (texte "' contains ") ∧
        OneLine (texte " entries:") := by decide
    simp [hlit, oneLine_decimal, hsymtable]
  have hlines : afficheSymtable h apres e = unlines (
      [texte "Symbol table '" ++ chaine h.strtab e.shStrtab s.shName ++ texte "' contains " ++
        number 10 (s.shSize.toNat / 16) ++ texte " entries:",
        texte "   Num:    Value  Size Type    Bind   Vis      Ndx Name"] ++
      (List.range (s.shSize.toNat / 16)).map fun i => ligneSymbole apres e.symStrtab i (symAt h e.symtable i)) := by
    have hfin : texte " entries:\n" = texte " entries:" ++ texte "\n" := by decide
    have hcolonnes : texte "   Num:    Value  Size Type    Bind   Vis      Ndx Name\n" =
        texte "   Num:    Value  Size Type    Bind   Vis      Ndx Name" ++ texte "\n" := by decide
    rw [afficheSymtable, hfin, hcolonnes]
    simp [unlines, List.flatMap_map, texte_newline, hs]
  rw [lireSymtable, hlines, lines_unlines]
  · simp only [List.cons_append, List.nil_append, List.drop_succ_cons, List.drop_zero, List.map_map]
    exact List.map_congr_left fun i _ => lireLigneSymbole_ligne apres e.symStrtab i _
  · intro l hl
    rw [List.mem_append, List.mem_map] at hl
    rcases hl with hl | ⟨i, hi, rfl⟩
    · simp only [List.mem_cons, List.not_mem_nil, or_false] at hl
      rcases hl with rfl | rfl
      · exact htitre
      · decide
    · exact oneLine_ligneSymbole (hnoms i (List.mem_range.mp hi)) i

/-! ## The relocations read again -/

/-- What a line of `-r` says of a relocation. -/
structure VueRelocation where
  offset : Nat
  info : Nat
  type : List UInt8
  value : Nat
  nom : List UInt8
  addend : Option Nat
  deriving DecidableEq

structure VueTable where
  nom : List UInt8
  offset : Nat
  lignes : List VueRelocation
  deriving DecidableEq

def vueRel (h : Heap) (apres : Apres) (e : Elf32) (r : Elf32Rel) : VueRelocation :=
  let s := symAt h e.symtable (elf32RSym r.rInfo).toNat
  ⟨r.rOffset.toNat, r.rInfo.toNat, getRelocType r.rInfo, s.stValue.toNat, symName h apres e s, none⟩

def vueRela (h : Heap) (apres : Apres) (e : Elf32) (r : Elf32Rela) : VueRelocation :=
  { vueRel h apres e ⟨r.rOffset, r.rInfo⟩ with addend := some r.rAddend.toNat }

def vueEntree (h : Heap) (apres : Apres) (e : Elf32) (entry : Elf32RelEntry) : VueTable :=
  let s := shdrAt h e.shtable entry.shndx
  ⟨chaine h.strtab e.shStrtab s.shName, s.shOffset.toNat,
    if isRel s.shType then (List.range entry.relnum).map fun j => vueRel h apres e (relAt h entry.rel j)
    else (List.range entry.relnum).map fun j => vueRela h apres e (entry.rela.getD j (apres.rela j))⟩

def lireLigneRel (l : List UInt8) : VueRelocation :=
  let offset := word l
  let info := word offset.2
  let champs := info.2.drop 1
  let valeur := word (champs.drop 15)
  ⟨value 16 offset.1, value 16 info.1, column 15 champs, value 16 valeur.1, valeur.2.drop 3, none⟩

/-- The addend is the last word, after ` + `. -/
def lireLigneRela (l : List UInt8) : VueRelocation :=
  let addend := lastWord l
  { lireLigneRel (addend.1.take (addend.1.length - 3)) with addend := some (value 16 addend.2) }

theorem lireLigneRel_ligne (h : Heap) (apres : Apres) (e : Elf32) (r : Elf32Rel) :
    lireLigneRel (ligneRel h apres e r) = vueRel h apres e r := by
  have htype := colonne_getRelocType r.rInfo
  generalize hs : symAt h e.symtable (elf32RSym r.rInfo).toNat = s
  let fin := hexa 8 s.stValue.toNat ++ blank :: blank :: blank :: symName h apres e s
  let champs := padRight 15 (getRelocType r.rInfo) ++ (blank :: blank :: blank :: fin)
  have hligne : ligneRel h apres e r =
      hexa 8 r.rOffset.toNat ++ blank :: blank :: (hexa 8 r.rInfo.toNat ++ blank :: champs) := by
    have h3 : texte "   " = [blank, blank, blank] := rfl
    have h2 : texte "  " = [blank, blank] := rfl
    have h1 : texte " " = [blank] := rfl
    rw [ligneRel, hs, h1, h2, h3]
    simp [champs, fin]
  have h15 := column_append htype.length_le htype.blank (blank :: blank :: blank :: fin)
  have hfin : word fin = (hexa 8 s.stValue.toNat, blank :: blank :: blank :: symName h apres e s) := word_hexa _ _ _
  simp only [lireLigneRel, hligne, word_hexa, word_blank, List.drop_succ_cons, List.drop_zero, champs, h15.1, h15.2,
    hfin, value_hexa, vueRel, hs]

theorem lireLigneRela_ligne (h : Heap) (apres : Apres) (e : Elf32) (r : Elf32Rela) :
    lireLigneRela (ligneRela h apres e r) = vueRela h apres e r := by
  generalize hligne : ligneRel h apres e ⟨r.rOffset, r.rInfo⟩ = ligne
  have hplus : ligneRela h apres e r = ligne ++ [blank, 0x2b] ++ [blank] ++ number 16 r.rAddend.toNat := by
    have hsep : texte " + " = [blank, 0x2b] ++ [blank] := rfl
    rw [ligneRela, hligne, hsep]
    simp only [List.append_assoc]
  have hword : lastWord (ligneRela h apres e r) = (ligne ++ [blank, 0x2b] ++ [blank], number 16 r.rAddend.toNat) := by
    rw [hplus, lastWord_append (not_mem_number 16 (by decide) (by decide) rfl) (number_ne_nil 16 _)]
  have hlen : (ligne ++ [blank, 0x2b] ++ [blank]).length - 3 = ligne.length := by simp
  have htake : (ligne ++ [blank, 0x2b] ++ [blank]).take ligne.length = ligne := by
    rw [List.append_assoc, List.take_left]
  rw [lireLigneRela, hword]
  simp only [hlen, htake, value_number (b := 16) (by decide) (by decide)]
  rw [← hligne, lireLigneRel_ligne, vueRela]

/-- The title of a table, by its words. -/
def titreTable (nom : List UInt8) (offset relnum : Nat) : List UInt8 :=
  texte "Relocation section '" ++ nom ++ texte "'" ++ [blank] ++ texte "at" ++ [blank] ++ texte "offset" ++
    [blank] ++ (texte "0x" ++ number 16 offset) ++ [blank] ++ texte "contains" ++ [blank] ++
    number 10 relnum ++ [blank] ++ texte "entries:"

/-- The name, the offset and the count of a title. -/
def lireTitre (l : List UInt8) : List UInt8 × Nat × Nat :=
  let relnum := lastWord (lastWord l).1.dropLast
  let offset := lastWord (lastWord relnum.1.dropLast).1.dropLast
  let nom := lastWord (lastWord offset.1.dropLast).1.dropLast
  ((nom.1.dropLast.dropLast).drop 20, value 16 (offset.2.drop 2), value 10 relnum.2)

theorem lireTitre_titreTable (nom : List UInt8) (offset relnum : Nat) :
    lireTitre (titreTable nom offset relnum) = (nom, offset, relnum) := by
  have hat : ∀ suite, lastWord (suite ++ [blank] ++ texte "at") = (suite ++ [blank], texte "at") :=
    fun _ => lastWord_append (by decide) (by decide)
  have hoffset : ∀ suite, lastWord (suite ++ [blank] ++ texte "offset") = (suite ++ [blank], texte "offset") :=
    fun _ => lastWord_append (by decide) (by decide)
  have hcontains : ∀ suite, lastWord (suite ++ [blank] ++ texte "contains") = (suite ++ [blank], texte "contains") :=
    fun _ => lastWord_append (by decide) (by decide)
  have hentries : ∀ suite, lastWord (suite ++ [blank] ++ texte "entries:") = (suite ++ [blank], texte "entries:") :=
    fun _ => lastWord_append (by decide) (by decide)
  have hrelnum : ∀ suite, lastWord (suite ++ [blank] ++ number 10 relnum) = (suite ++ [blank], number 10 relnum) :=
    fun _ => lastWord_append (not_mem_decimal rfl relnum) (number_ne_nil 10 relnum)
  have h0x : ∀ suite, lastWord (suite ++ [blank] ++ (texte "0x" ++ number 16 offset)) =
      (suite ++ [blank], texte "0x" ++ number 16 offset) := by
    intro suite
    have hlit : blank ∉ texte "0x" := by decide
    have hnum : blank ∉ number 16 offset := not_mem_number 16 (by decide) (by decide) rfl
    exact lastWord_append (by simp [hlit, hnum]) (by simp [number_ne_nil])
  have hquote : texte "'" = [0x27] := rfl
  have hdebut : (texte "Relocation section '" ++ nom).drop 20 = nom := List.drop_left' rfl
  have hoff : (texte "0x" ++ number 16 offset).drop 2 = number 16 offset := List.drop_left' rfl
  simp only [lireTitre, titreTable, hentries, hrelnum, hcontains, h0x, hoffset, hat, List.dropLast_concat, hquote,
    hdebut, hoff, value_number (b := 10) (by decide) (by decide), value_number (b := 16) (by decide) (by decide)]

/-- The lines of the turn of the loop over the tables. -/
def lignesEntree (h : Heap) (apres : Apres) (e : Elf32) (entry : Elf32RelEntry) : List (List UInt8) :=
  let s := shdrAt h e.shtable entry.shndx
  titreTable (chaine h.strtab e.shStrtab s.shName) s.shOffset.toNat entry.relnum ::
    if isRel s.shType then
      colonnesRel :: (List.range entry.relnum).map fun j => ligneRel h apres e (relAt h entry.rel j)
    else colonnesRela :: (List.range entry.relnum).map fun j => ligneRela h apres e (entry.rela.getD j (apres.rela j))

theorem afficheEntree_eq (h : Heap) (apres : Apres) (e : Elf32) (entry : Elf32RelEntry) :
    afficheEntree h apres e entry = unlines (lignesEntree h apres e entry) := by
  have hoffset : texte "' at offset 0x" =
      texte "'" ++ [blank] ++ texte "at" ++ [blank] ++ texte "offset" ++ [blank] ++ texte "0x" := by decide
  have hcontains : texte " contains " = [blank] ++ texte "contains" ++ [blank] := by decide
  have hentries : texte " entries:\n" = [blank] ++ texte "entries:" ++ texte "\n" := by decide
  rw [afficheEntree, lignesEntree, hoffset, hcontains, hentries]
  split <;> simp [titreTable, unlines, List.flatMap_map, texte_newline]

/-- The tables from the lines. -/
def lireTables : List (List UInt8) → List VueTable
  | titre :: colonnes :: ls =>
    let n := (lireTitre titre).2.2
    let lire := if colonnes = colonnesRela then lireLigneRela else lireLigneRel
    ⟨(lireTitre titre).1, (lireTitre titre).2.1, (ls.take n).map lire⟩ :: lireTables (ls.drop n)
  | _ => []
termination_by ls => ls.length
decreasing_by
  simp only [List.length_drop, List.length_cons]
  omega

theorem lireTables_entree (h : Heap) (apres : Apres) (e : Elf32) (entry : Elf32RelEntry)
    (suite : List (List UInt8)) : lireTables (lignesEntree h apres e entry ++ suite) =
      vueEntree h apres e entry :: lireTables suite := by
  rw [lignesEntree, vueEntree]
  cases isRel (shdrAt h e.shtable entry.shndx).shType with
  | true =>
    have hne : colonnesRel ≠ colonnesRela := by decide
    simp only [if_true, List.cons_append]
    rw [lireTables, lireTitre_titreTable, if_neg hne]
    dsimp only
    rw [List.take_left' (by simp), List.drop_left' (by simp), List.map_map]
    simp only [Function.comp_def, lireLigneRel_ligne]
  | false =>
    simp only [Bool.false_eq_true, if_false, List.cons_append]
    rw [lireTables, lireTitre_titreTable, if_pos rfl]
    dsimp only
    rw [List.take_left' (by simp), List.drop_left' (by simp), List.map_map]
    simp only [Function.comp_def, lireLigneRela_ligne]

theorem oneLine_ligneRel {h : Heap} {apres : Apres} {e : Elf32} {r : Elf32Rel}
    (hnom : OneLine (vueRel h apres e r).nom) : OneLine (ligneRel h apres e r) := by
  have htype := oneLine_padRight (colonne_getRelocType r.rInfo).oneLine 15
  have hnom : OneLine (symName h apres e (symAt h e.symtable (elf32RSym r.rInfo).toNat)) := hnom
  have hsep : OneLine (texte "   ") ∧ OneLine (texte "  ") ∧ OneLine (texte " ") := by decide
  simp [ligneRel, htype, hnom, oneLine_hexa, hsep]

theorem oneLine_ligneRela {h : Heap} {apres : Apres} {e : Elf32} {r : Elf32Rela}
    (hnom : OneLine (vueRela h apres e r).nom) : OneLine (ligneRela h apres e r) := by
  have hplus : OneLine (texte " + ") := by decide
  have hligne : OneLine (ligneRel h apres e ⟨r.rOffset, r.rInfo⟩) := oneLine_ligneRel hnom
  simp [ligneRela, hligne, hplus, oneLine_hexadecimal]

theorem oneLine_titreTable {nom : List UInt8} (hnom : OneLine nom) (offset relnum : Nat) :
    OneLine (titreTable nom offset relnum) := by
  have hlit : OneLine (texte "Relocation section '") ∧ OneLine (texte "'") ∧ OneLine (texte "at") ∧
      OneLine (texte "offset") ∧ OneLine (texte "0x") ∧ OneLine (texte "contains") ∧
      OneLine (texte "entries:") ∧ OneLine [blank] := by decide
  simp only [titreTable, oneLine_append]
  simp [hnom, oneLine_decimal, oneLine_hexadecimal, hlit]

theorem oneLine_lignesEntree {h : Heap} {apres : Apres} {e : Elf32} {entry : Elf32RelEntry}
    (htable : OneLine (vueEntree h apres e entry).nom)
    (hnoms : ∀ v ∈ (vueEntree h apres e entry).lignes, OneLine v.nom) :
    ∀ l ∈ lignesEntree h apres e entry, OneLine l := by
  intro l hl
  rw [lignesEntree, List.mem_cons] at hl
  simp only [vueEntree] at hnoms
  rcases hl with rfl | hl
  · exact oneLine_titreTable htable _ _
  split at hl
  next hrel =>
    rw [if_pos hrel, List.forall_mem_map] at hnoms
    rw [List.mem_cons, List.mem_map] at hl
    rcases hl with rfl | ⟨j, hj, rfl⟩
    · decide
    · exact oneLine_ligneRel (hnoms j hj)
  next hrela =>
    rw [if_neg hrela, List.forall_mem_map] at hnoms
    rw [List.mem_cons, List.mem_map] at hl
    rcases hl with rfl | ⟨j, hj, rfl⟩
    · decide
    · exact oneLine_ligneRela (hnoms j hj)

def lireReltab (text : List UInt8) : List VueTable := lireTables (lines text)

/-- What `-r` says of the file. -/
def vueReltab (h : Heap) (apres : Apres) (e : Elf32) : List VueTable :=
  (List.range e.reltab.entrynum).map fun i => vueEntree h apres e (entryAt h e.reltab.entries i)

theorem lireReltab_affiche {h : Heap} {apres : Apres} {e : Elf32}
    (hnoms : ∀ t ∈ vueReltab h apres e, OneLine t.nom ∧ ∀ v ∈ t.lignes, OneLine v.nom) :
    lireReltab (afficheReltab h apres e) = vueReltab h apres e := by
  rw [vueReltab, List.forall_mem_map] at hnoms
  rw [vueReltab]
  generalize hrange : List.range e.reltab.entrynum = is at hnoms ⊢
  have hlines : afficheReltab h apres e =
      unlines (is.flatMap fun i => lignesEntree h apres e (entryAt h e.reltab.entries i)) := by
    rw [afficheReltab, hrange, unlines, List.flatMap_assoc]
    exact List.flatMap_congr fun i _ => afficheEntree_eq h apres e _
  rw [lireReltab, hlines, lines_unlines]
  · clear hrange hlines hnoms
    induction is with
    | nil => rw [List.flatMap_nil, List.map_nil, lireTables]; simp
    | cons i is ih => rw [List.flatMap_cons, lireTables_entree, ih, List.map_cons]
  · intro l hl
    obtain ⟨i, hi, hl⟩ := List.mem_flatMap.mp hl
    exact oneLine_lignesEntree (hnoms i hi).1 (hnoms i hi).2 l hl

/-- No name that is printed holds a newline. -/
structure NomsSurUneLigne (h : Heap) (apres : Apres) (e : Elf32) : Prop where
  sections : ∀ i < e.shnum, OneLine (chaine h.strtab e.shStrtab (shdrAt h e.shtable i).shName)
  symtable : OneLine (chaine h.strtab e.shStrtab (shdrAt h e.shtable e.symtabIndex).shName)
  symboles : ∀ i < (shdrAt h e.shtable e.symtabIndex).shSize.toNat / 16,
    OneLine (chaine apres.symStrtab e.symStrtab (symAt h e.symtable i).stName)
  reltab : ∀ t ∈ vueReltab h apres e, OneLine t.nom ∧ ∀ v ∈ t.lignes, OneLine v.nom

/-- What `-S`, `-s` and `-r` print can be read again: every number of the sections, the
symbols and the relocations, every name, for a section up to blanks at its end, and the
text of every type. -/
theorem tableaux_relus {h : Heap} {apres : Apres} {e : Elf32} (hnoms : NomsSurUneLigne h apres e) :
    lireShtable (afficheShtable h e.elfhdr e.shtable e.shStrtab) =
        (List.range e.shnum).map (fun i => vueSection h e.shStrtab i (shdrAt h e.shtable i)) ∧
      lireSymtable (afficheSymtable h apres e) =
        (List.range ((shdrAt h e.shtable e.symtabIndex).shSize.toNat / 16)).map
          (fun i => vueSymbole apres e.symStrtab i (symAt h e.symtable i)) ∧
      lireReltab (afficheReltab h apres e) = vueReltab h apres e :=
  ⟨lireShtable_affiche h e.elfhdr e.shtable hnoms.sections,
    lireSymtable_affiche hnoms.symtable hnoms.symboles, lireReltab_affiche hnoms.reltab⟩

/-- Zeros after the arrays. -/
def apresNul : Apres := ⟨fun _ => ⟨0, 0, 0⟩, fun _ => 0⟩

theorem exemple_surUneLigne : NomsSurUneLigne tasNul apresNul (exemple 0x102) :=
  ⟨by decide +kernel, by decide +kernel, by decide +kernel, by decide +kernel⟩

theorem tableaux_relus_exemple :
    lireShtable (afficheShtable tasNul (exemple 0x102).elfhdr (exemple 0x102).shtable exempleShstrtab) =
        (List.range 7).map (fun i => vueSection tasNul exempleShstrtab i (shdrAt tasNul (exemple 0x102).shtable i)) ∧
      lireSymtable (afficheSymtable tasNul apresNul (exemple 0x102)) =
        (List.range 3).map (fun i => vueSymbole apresNul exempleStrtab i (symAt tasNul (exemple 0x102).symtable i)) ∧
      lireReltab (afficheReltab tasNul apresNul (exemple 0x102)) =
        [⟨cstr ['.', 'r', 'e', 'l'] ++ dotText, 0x3c,
          [⟨4, 0x102, texte "R_ARM_ABS32", 4, cstr ['f'], none⟩]⟩] :=
  tableaux_relus exemple_surUneLigne

end ElfLinker
