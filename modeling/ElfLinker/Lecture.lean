import ElfLinker.Sections

/-!
The loading phase: `read_header`, `read_shtable`, `read_strtab`, `read_symtable`
and `read_reltab`, in the order `main` runs them. `none` is an `assert` that
fails or an `exit(1)`. On either host what is read is the big-endian decoding of
the file, except in `read_reltab`, which swaps without asking for the host.
-/

namespace ElfLinker
open Endian

/-! ## Streams -/

/-- A reader of the bytes that follow the position in a stream. -/
abbrev Lecteur (α : Type) := StateT (List UInt8) Option α

/-- `fread` of one record, asserted to be read in full. -/
def fread {α : Type} (c : Codec α) : Lecteur α := fun s =>
  if c.size ≤ s.length then some (c.decode s, s.drop c.size) else none

/-- `fread` of `n` records in a loop. -/
def freadAll {α : Type} (c : Codec α) : Nat → Lecteur (List α)
  | 0 => pure []
  | n + 1 => do
    let a ← fread c
    let as ← freadAll c n
    return a :: as

/-- Reading two records is reading the pair of them. -/
theorem fread_pair {α β γ : Type} (c : Codec α) (d : Codec β) (k : α → β → Lecteur γ) :
    (do let a ← fread c; let b ← fread d; k a b) = (do let p ← fread (c.pair d); k p.1 p.2) := by
  funext s
  simp only [bind, StateT.bind, fread, Codec.pair]
  by_cases hc : c.size ≤ s.length
  · by_cases hd : d.size ≤ (s.drop c.size).length
    · have hcd : c.size + d.size ≤ s.length := by rw [List.length_drop] at hd; omega
      simp only [hc, hd, hcd, if_true, Option.bind, List.drop_drop]
    · have hcd : ¬c.size + d.size ≤ s.length := by rw [List.length_drop] at hd; omega
      simp only [hc, hd, hcd, if_true, if_false, Option.bind]
  · have hcd : ¬c.size + d.size ≤ s.length := by omega
    simp only [hc, hcd, if_false, Option.bind]

theorem run'_fread {α β : Type} (c : Codec α) (g : α → β) (f : List UInt8) :
    StateT.run' (do let a ← fread c; return g a) f =
      if c.size ≤ f.length then some (g (c.decode f)) else none := by
  simp only [StateT.run', bind, StateT.bind, fread]
  split <;> rfl

theorem freadAll_eq {α : Type} (c : Codec α) (n : Nat) (s : List UInt8) :
    freadAll c n s =
      if c.size * n ≤ s.length then some (c.decodeAll n s, s.drop (c.size * n)) else none := by
  induction n generalizing s with
  | zero =>
    rw [Nat.mul_zero, if_pos (Nat.zero_le _), List.drop_zero]
    rfl
  | succ n ih =>
    have hs : c.size * (n + 1) = c.size + c.size * n := by rw [Nat.mul_succ, Nat.add_comm]
    simp only [freadAll, bind, StateT.bind, fread]
    by_cases hc : c.size ≤ s.length
    · simp only [hc, if_true, Option.bind, ih, List.length_drop, hs]
      by_cases hn : c.size * n ≤ s.length - c.size
      · rw [if_pos hn, if_pos (by omega), ← List.drop_drop]
        rfl
      · rw [if_neg hn, if_neg (by omega)]
    · rw [if_neg hc, if_neg (by omega)]
      rfl

/-! ## read_header -/

def readHalf (host : Bool) : Lecteur UInt16 := fread (half host)
def readWord (host : Bool) : Lecteur UInt32 := fread (word host)
def readAddr (host : Bool) : Lecteur UInt32 := fread (word host)
def readOff (host : Bool) : Lecteur UInt32 := fread (word host)

/-- The header field by field, then swapped as a whole. -/
def readHeader (host : Bool) (f : List UInt8) : Option Elf32Ehdr :=
  let lecture : Lecteur Elf32Ehdr := do
    let eIdent ← fread (byteArray 16)
    let eType ← readHalf host
    let eMachine ← readHalf host
    let eVersion ← readWord host
    let eEntry ← readAddr host
    let ePhoff ← readOff host
    let eShoff ← readOff host
    let eFlags ← readWord host
    let eEhsize ← readHalf host
    let ePhentsize ← readHalf host
    let ePhnum ← readHalf host
    let eShentsize ← readHalf host
    let eShnum ← readHalf host
    let eShstrndx ← readHalf host
    let entete : Elf32Ehdr := ⟨eIdent, eType, eMachine, eVersion, eEntry, ePhoff, eShoff, eFlags,
      eEhsize, ePhentsize, ePhnum, eShentsize, eShnum, eShstrndx⟩
    return toHost host swapEndianessElfhdr entete
  lecture.run' f

/-- Field by field or as one structure, the header is its big-endian decoding. -/
theorem readHeader_eq (host : Bool) (f : List UInt8) :
    readHeader host f = if 52 ≤ f.length then some ((ehdr true).decode f) else none := by
  rw [← (turns_host turns_ehdr host).decode_eq]
  simp only [readHeader, readHalf, readWord, readAddr, readOff, fread_pair]
  exact run'_fread (ehdrLayout host) (fun p => toHost host swapEndianessElfhdr (ehdrFields.symm p)) f

theorem readHeader_append (host : Bool) {f : List UInt8} (hfit : 52 ≤ f.length) (g : List UInt8) :
    readHeader host (f ++ g) = readHeader host f := by
  have hdecode := (ehdr true).decodeAll_append 1 f g hfit
  rw [readHeader_eq, readHeader_eq, if_pos hfit, if_pos (by rw [List.length_append]; omega)]
  exact congrArg some (List.cons.inj hdecode).1

theorem readHeader_append_of_some {host : Bool} {f : List UInt8} {elfhdr : Elf32Ehdr}
    (hread : readHeader host f = some elfhdr) (g : List UInt8) : readHeader host (f ++ g) = some elfhdr := by
  have hfit := hread
  rw [readHeader_eq] at hfit
  split at hfit
  next hle => rw [readHeader_append host hle, hread]
  next => cases hfit

/-! ## read_shtable -/

/-- `fread` of `n` entries of `size` bytes returns how many whole entries it read. -/
def freadCount (f : List UInt8) (off size n : Nat) : Nat :=
  if size = 0 then 0 else min n ((f.length - off) / size)

theorem freadCount_eq_iff (f : List UInt8) (off size n : Nat) (hs : 0 < size) :
    freadCount f off size n = n ↔ n = 0 ∨ off + n * size ≤ f.length := by
  rw [freadCount, if_neg (by omega), min_eq_left_iff, Nat.le_div_iff_mul_le hs]
  rcases Nat.eq_zero_or_pos n with rfl | hn
  · simp
  · have : 0 < n * size := Nat.mul_pos hn hs
    omega

/-- The table is read with the entry size of the header and then used as an array
of `Elf32_Shdr`. `taille_shtable` is a product of two `int`s: where it overflows
`malloc` is asked for a size it cannot give. -/
def readShtable (h : Heap) (host : Bool) (f : List UInt8) (elfhdr : Elf32Ehdr) :
    Option (List Elf32Shdr) :=
  let numberOfEntries := elfhdr.eShnum.toNat
  let eachEntrySize := elfhdr.eShentsize.toNat
  let tailleShtable := numberOfEntries * eachEntrySize
  if 2 ^ 31 ≤ tailleShtable then none
  else if freadCount f elfhdr.eShoff.toNat eachEntrySize numberOfEntries ≠ numberOfEntries then none
  else
    let past := (List.range' tailleShtable (40 * numberOfEntries - tailleShtable)).map h.bytes
    let memoire := Patch.readAt f elfhdr.eShoff.toNat tailleShtable ++ past
    some (((shdr host).decodeAll numberOfEntries memoire).map (toHost host swapEndianessShtable))

/-- With entries of the size of an `Elf32_Shdr` the table is its decoding. -/
theorem readShtable_eq (h : Heap) (host : Bool) (f : List UInt8) {elfhdr : Elf32Ehdr}
    (hsize : elfhdr.eShentsize = 40) : readShtable h host f elfhdr =
      if elfhdr.eShnum = 0 ∨ elfhdr.eShoff.toNat + 40 * elfhdr.eShnum.toNat ≤ f.length then
        some ((shdr true).decodeAll elfhdr.eShnum.toNat (f.drop elfhdr.eShoff.toNat))
      else none := by
  have hs : elfhdr.eShentsize.toNat = 40 := by rw [hsize]; rfl
  have hn := elfhdr.eShnum.toNat_lt
  have hzero : elfhdr.eShnum = 0 ↔ elfhdr.eShnum.toNat = 0 := by
    rw [← UInt16.toNat_inj]
    rfl
  simp only [readShtable, hs, hzero, ne_eq, freadCount_eq_iff f _ 40 _ (by decide)]
  generalize elfhdr.eShnum.toNat = n at *
  generalize elfhdr.eShoff.toNat = off at *
  rw [if_neg (by omega), Nat.mul_comm n 40]
  by_cases hfit : n = 0 ∨ off + 40 * n ≤ f.length
  · have hlen : (shdr true).size * n ≤ (Patch.readAt f off (40 * n)).length := by
      rw [Patch.length_readAt, size_shdr]
      omega
    rw [if_neg (not_not_intro hfit), if_pos hfit, (turns_host turns_shdr host).map_decodeAll,
      Nat.sub_self, List.range'_zero, List.map_nil, List.append_nil]
    have happ := (shdr true).decodeAll_append n _ ((f.drop off).drop (40 * n)) hlen
    rw [Patch.readAt, List.take_append_drop] at happ
    rw [happ, Patch.readAt]
  · rw [if_pos hfit, if_neg hfit]

theorem readShtable_append (h : Heap) (host : Bool) {f : List UInt8} {elfhdr : Elf32Ehdr}
    (hsize : elfhdr.eShentsize = 40)
    (hfit : elfhdr.eShnum = 0 ∨ elfhdr.eShoff.toNat + 40 * elfhdr.eShnum.toNat ≤ f.length) (g : List UInt8) :
    readShtable h host (f ++ g) elfhdr = readShtable h host f elfhdr := by
  have hfit' : elfhdr.eShnum = 0 ∨ elfhdr.eShoff.toNat + 40 * elfhdr.eShnum.toNat ≤ (f ++ g).length := by
    rw [List.length_append]
    exact hfit.imp id (by omega)
  rw [readShtable_eq h host _ hsize, readShtable_eq h host _ hsize, if_pos hfit, if_pos hfit',
    Codec.decodeAll_drop_append]
  rw [size_shdr]
  rcases hfit with hzero | hle
  · rw [hzero]
    exact Nat.zero_le _
  · omega

theorem readShtable_append_of_some {h : Heap} {host : Bool} {f : List UInt8} {elfhdr : Elf32Ehdr}
    {t : List Elf32Shdr} (hsize : elfhdr.eShentsize = 40) (hread : readShtable h host f elfhdr = some t)
    (g : List UInt8) : readShtable h host (f ++ g) elfhdr = some t := by
  have hfit := hread
  rw [readShtable_eq h host _ hsize] at hfit
  split at hfit
  next hle => rw [readShtable_append h host hsize hle, hread]
  next => cases hfit

/-- A table read with entries at least as large is at `e_shoff` in the file. -/
theorem readShtable_some {h : Heap} {host : Bool} {f : List UInt8} {elfhdr : Elf32Ehdr}
    {t : List Elf32Shdr} (hsize : 40 ≤ elfhdr.eShentsize.toNat)
    (hread : readShtable h host f elfhdr = some t) :
    t = (shdr true).decodeAll elfhdr.eShnum.toNat (f.drop elfhdr.eShoff.toNat) ∧
      (elfhdr.eShnum.toNat = 0 ∨ elfhdr.eShoff.toNat + 40 * elfhdr.eShnum.toNat ≤ f.length) := by
  simp only [readShtable, ne_eq, freadCount_eq_iff f _ _ _ (show 0 < elfhdr.eShentsize.toNat by omega)]
    at hread
  generalize elfhdr.eShnum.toNat = n at *
  generalize elfhdr.eShentsize.toNat = size at *
  generalize elfhdr.eShoff.toNat = off at *
  have hmul : 40 * n ≤ n * size := by
    rw [Nat.mul_comm]
    exact Nat.mul_le_mul_left n hsize
  split at hread
  · cases hread
  split at hread
  · cases hread
  next hfit =>
    rw [Decidable.not_not] at hfit
    have hlen : (shdr true).size * n ≤ (Patch.readAt f off (n * size)).length := by
      rw [Patch.length_readAt, size_shdr]
      rcases hfit with rfl | hfit <;> omega
    rw [(turns_host turns_shdr host).map_decodeAll, Option.some.injEq, Nat.sub_eq_zero_of_le hmul,
      List.range'_zero, List.map_nil, List.append_nil] at hread
    have happ := (shdr true).decodeAll_append n _ ((f.drop off).drop (n * size)) hlen
    rw [Patch.readAt, List.take_append_drop] at happ
    refine ⟨?_, by omega⟩
    rw [happ, ← hread, Patch.readAt]

/-! ## read_strtab -/

/-- Both calls of `main`: `.shstrtab` is found by the header's index, `.strtab` by
its name. Bytes past the end of the file stay whatever the heap holds. -/
def readStrtab (h : Heap) (f : List UInt8) (e : Elf32) (sectionName : List UInt8) : Option Elf32 :=
  if sectionName = dotShstrtab then
    let s := shdrAt h e.shtable e.elfhdr.eShstrndx.toNat
    some { e with shStrtab := Patch.readAt f s.shOffset.toNat s.shSize.toNat }
  else if sectionName = dotStrtab then
    let s := shdrAtInt h e.shtable (getSectionIndex h e sectionName)
    some { e with symStrtab := Patch.readAt f s.shOffset.toNat s.shSize.toNat }
  else none

/-! ## read_symtable -/

/-- The symbols of the first section of type `SHT_SYMTAB`, and its index; where no
section has this type the loop ends at `e_shnum`, which is used all the same. -/
def readSymtable (h : Heap) (host : Bool) (f : List UInt8) (elfhdr : Elf32Ehdr)
    (shtable : List Elf32Shdr) : Option (List Elf32Sym × Nat) := do
  let symtabIndex := Loop.first (isSymtable h shtable) elfhdr.eShnum.toNat
  let shSymtable := shdrAt h shtable symtabIndex
  let nombreDeSymboles := shSymtable.shSize.toNat / 16
  let symtable ← (freadAll (sym host) nombreDeSymboles).run' (f.drop shSymtable.shOffset.toNat)
  some (symtable.map (toHost host swapEndianessSymbole), symtabIndex)

theorem readSymtable_eq (h : Heap) (host : Bool) (f : List UInt8) (elfhdr : Elf32Ehdr)
    (shtable : List Elf32Shdr) : readSymtable h host f elfhdr shtable =
      let symtabIndex := Loop.first (isSymtable h shtable) elfhdr.eShnum.toNat
      let s := shdrAt h shtable symtabIndex
      if 16 * (s.shSize.toNat / 16) ≤ f.length - s.shOffset.toNat then
        some ((sym true).decodeAll (s.shSize.toNat / 16) (f.drop s.shOffset.toNat), symtabIndex)
      else none := by
  simp only [readSymtable, StateT.run', freadAll_eq, size_sym, List.length_drop]
  split
  next => simp [(turns_host turns_sym host).map_decodeAll]
  next => rfl

theorem readSymtable_append (h : Heap) (host : Bool) {f : List UInt8} {elfhdr : Elf32Ehdr}
    {shtable : List Elf32Shdr} {s : Elf32Shdr}
    (hs : shdrAt h shtable (Loop.first (isSymtable h shtable) elfhdr.eShnum.toNat) = s)
    (hfit : 16 * (s.shSize.toNat / 16) ≤ f.length - s.shOffset.toNat) (g : List UInt8) :
    readSymtable h host (f ++ g) elfhdr shtable = readSymtable h host f elfhdr shtable := by
  simp only [readSymtable_eq, hs]
  rw [if_pos hfit, if_pos (by rw [List.length_append]; omega), Codec.decodeAll_drop_append]
  exact hfit

theorem readSymtable_append_of_some {h : Heap} {host : Bool} {f : List UInt8} {elfhdr : Elf32Ehdr}
    {shtable : List Elf32Shdr} {symboles : List Elf32Sym × Nat}
    (hread : readSymtable h host f elfhdr shtable = some symboles) (g : List UInt8) :
    readSymtable h host (f ++ g) elfhdr shtable = some symboles := by
  have hfit := hread
  rw [readSymtable_eq] at hfit
  dsimp only at hfit
  split at hfit
  next hle => rw [readSymtable_append h host rfl hle, hread]
  next => cases hfit

/-! ## read_reltab -/

/-- One turn of the loop over the sections: a relocation table gets an entry. -/
def readReltabEntry (h : Heap) (host : Bool) (f : List UInt8) (e : Elf32) (reltab : Elf32Reltab)
    (i : Nat) : Option Elf32Reltab :=
  let shReltab := shdrAt h e.shtable i
  if isRel shReltab.shType || isRela shReltab.shType then
    let reltabSize := shReltab.shSize.toNat
    let nombreDeRelocations := reltabSize / 8
    let data := Patch.readAt f shReltab.shOffset.toNat reltabSize
    if data.length ≠ reltabSize then none
    else
      let rel := if isRel shReltab.shType then
        Loop.mapUpTo nombreDeRelocations swapEndianessRel ((rel host).decodeAll (reltabSize / 8) data)
        else []
      let rela := if isRel shReltab.shType then []
        else Loop.mapUpTo nombreDeRelocations swapEndianessRela
          ((rela host).decodeAll (reltabSize / 12) data)
      let entry : Elf32RelEntry :=
        ⟨rel, rela, i, shReltab.shType.toUInt8, nombreDeRelocations⟩
      some ⟨reltab.entries ++ [entry], reltab.entrynum + 1⟩
  else some reltab

def readReltab (h : Heap) (host : Bool) (f : List UInt8) (e : Elf32) : Option Elf32 := do
  let reltab ← (List.range e.shnum).foldlM (readReltabEntry h host f e) ⟨[], 0⟩
  some { e with reltab := reltab }

/-! ## The loading phase of main -/

/-- `main` from `read_header` to `read_reltab`. -/
def mainLecture (h : Heap) (host : Bool) (f : List UInt8) : Option Elf32 := do
  let elfhdr ← readHeader host f
  if elfhdr.eIdent[eiClass] ≠ elfclass32 then none
  let shtable ← readShtable h host f elfhdr
  let e : Elf32 := ⟨elfhdr, shtable, [], ⟨[], 0⟩, [], [], 0⟩
  let e ← readStrtab h f e dotShstrtab
  let e ← readStrtab h f e dotStrtab
  let (symtable, symtabIndex) ← readSymtable h host f e.elfhdr e.shtable
  readReltab h host f { e with symtable := symtable, symtabIndex := symtabIndex }

/-- The header of a file that `main` goes on with. -/
def lireEntete (host : Bool) (f : List UInt8) : Option Elf32Ehdr := do
  let elfhdr ← readHeader host f
  if elfhdr.eIdent[eiClass] ≠ elfclass32 then none
  return elfhdr

theorem lireEntete_some {host : Bool} {f : List UInt8} {elfhdr : Elf32Ehdr}
    (hheader : readHeader host f = some elfhdr) (helf32 : elfhdr.eIdent[eiClass] = elfclass32) :
    lireEntete host f = some elfhdr := by
  simp [lireEntete, hheader, helf32]

theorem readStrtab_frame {h : Heap} {f : List UInt8} {e e' : Elf32} {sectionName : List UInt8}
    (hread : readStrtab h f e sectionName = some e') : e'.elfhdr = e.elfhdr ∧ e'.shtable = e.shtable := by
  unfold readStrtab at hread
  split at hread
  · cases hread
    exact ⟨rfl, rfl⟩
  split at hread
  · cases hread
    exact ⟨rfl, rfl⟩
  · cases hread

/-- What has been read when the loading phase returns. -/
theorem mainLecture_some {h : Heap} {host : Bool} {f : List UInt8} {e : Elf32}
    (hload : mainLecture h host f = some e) :
    readHeader host f = some e.elfhdr ∧ readShtable h host f e.elfhdr = some e.shtable ∧
      readSymtable h host f e.elfhdr e.shtable = some (e.symtable, e.symtabIndex) := by
  simp only [mainLecture, Option.bind_eq_bind] at hload
  obtain ⟨elfhdr, hhdr, hload⟩ := Option.bind_eq_some_iff.mp hload
  split at hload
  · cases hload
  obtain ⟨shtable, hshtable, hload⟩ := Option.bind_eq_some_iff.mp hload
  obtain ⟨e₁, hsh, hload⟩ := Option.bind_eq_some_iff.mp hload
  obtain ⟨e₂, hstr, hload⟩ := Option.bind_eq_some_iff.mp hload
  obtain ⟨⟨symtable, symtabIndex⟩, hsym, hload⟩ := Option.bind_eq_some_iff.mp hload
  obtain ⟨reltab, -, hload⟩ := Option.bind_eq_some_iff.mp hload
  obtain ⟨hhdr₁, htab₁⟩ := readStrtab_frame hsh
  obtain ⟨hhdr₂, htab₂⟩ := readStrtab_frame hstr
  rw [Option.some.injEq] at hload
  subst hload
  refine ⟨hhdr.trans ?_, ?_, hsym⟩
  · rw [hhdr₂, hhdr₁]
  · rw [hhdr₂, hhdr₁, htab₂, htab₁]
    exact hshtable

/-! ## A small object file

Seven sections: `.text` and `.data`, the relocations of `.text`, the symbols and the
two string tables. The only relocation is at offset 4 of `.text`; symbol 1 is
defined in `.text`, symbol 2 in `.data`. -/

def sectionNulle : Elf32Shdr := ⟨0, 0, 0, 0, 0, 0, 0, 0, 0, 0⟩

/-- Memory filled with zeros. -/
def tasNul : Heap where
  shtable _ := sectionNulle
  symtable _ := ⟨0, 0, 0, 0, 0, 0⟩
  entries _ := ⟨[], [], 0, 0, 0⟩
  rel _ := ⟨0, 0⟩
  strtab _ := 0
  bytes _ := 0

def exempleShstrtab : List UInt8 :=
  0 :: cstr ['.', 'r', 'e', 'l'] ++ dotText ++ 0 :: cstr ['.', 'r', 'e', 'l'] ++ dotData ++
    0 :: cstr ['.', 's', 'y', 'm', 't', 'a', 'b'] ++ 0 :: dotStrtab ++ 0 :: dotShstrtab ++ [0]

def exempleStrtab : List UInt8 := [0, 102, 0, 100, 0]

def exempleEntete : Elf32Ehdr where
  eIdent := ⟨#[0x7f, 0x45, 0x4c, 0x46, 1, 2, 1, 0, 0, 0, 0, 0, 0, 0, 0, 0], rfl⟩
  eType := 1
  eMachine := 40
  eVersion := 1
  eEntry := 0
  ePhoff := 0
  eShoff := 176
  eFlags := 0
  eEhsize := 52
  ePhentsize := 0
  ePhnum := 0
  eShentsize := 40
  eShnum := 7
  eShstrndx := 6

def exempleSections : List Elf32Shdr :=
  [sectionNulle,
   ⟨5, 1, 6, 0, 52, 8, 0, 0, 4, 0⟩,
   ⟨1, 9, 0, 0, 60, 8, 4, 1, 4, 8⟩,
   ⟨15, 1, 3, 0, 68, 8, 0, 0, 4, 0⟩,
   ⟨21, 2, 0, 0, 76, 48, 5, 3, 4, 16⟩,
   ⟨29, 3, 0, 0, 124, 5, 0, 0, 1, 0⟩,
   ⟨37, 3, 0, 0, 129, 47, 0, 0, 1, 0⟩]

def exempleSymboles : List Elf32Sym := [⟨0, 0, 0, 0, 0, 0⟩, ⟨1, 4, 0, 0, 0, 1⟩, ⟨3, 0, 0, 0, 0, 3⟩]

/-- What `main` loads, `info` being the `r_info` of the relocation. -/
def exemple (info : UInt32) : Elf32 :=
  ⟨exempleEntete, exempleSections, exempleSymboles, ⟨[⟨[⟨4, info⟩], [], 2, 9, 1⟩], 1⟩,
    exempleShstrtab, exempleStrtab, 4⟩

def exempleImage (info : UInt32) : List UInt8 :=
  (ehdr true).encode exempleEntete ++ [0xe1, 0xa0, 0xf0, 0x0e, 0, 0, 0, 0] ++
    (rel true).encode ⟨4, info⟩ ++ [0, 0, 0, 1, 0, 0, 0, 2] ++
    (sym true).encodeAll exempleSymboles ++ exempleStrtab ++ exempleShstrtab ++
    (shdr true).encodeAll exempleSections

example : mainLecture tasNul false (exempleImage 0x102) = some (exemple 0x102) := by decide +kernel

end ElfLinker
