import ElfLinker.Decalage
import ElfLinker.Adresses
import ElfLinker.Reltab

/-!
The destination mirrors `elfdata`: reading the header, the section table and the symbol
table back gives the structures in memory. `copy_file` establishes it where the bytes that
it copies hold the three parts, and each function that rewrites one of them preserves it,
so it holds after any sequence of their calls.
-/

namespace ElfLinker

/-- `taille_buffer`: the size of the file in an `int`. -/
def tailleBuffer (source : List UInt8) : Int := (BitVec.ofNat 32 source.length).toInt

/-- `copy_file`, both streams at their start: as many bytes as the `int` says. There is no
array of a negative size, so the run is lost then. The stack that holds the array is taken
to be large enough. -/
def copyFile (source dest : List UInt8) : Option (List UInt8) :=
  if tailleBuffer source < 0 then none
  else some (Patch.writeAt dest 0 (Patch.readAt source 0 (tailleBuffer source).toNat))

theorem tailleBuffer_eq {source : List UInt8} (hlt : source.length % 2 ^ 32 < 2 ^ 31) :
    tailleBuffer source = ((source.length % 2 ^ 32 : Nat) : Int) := by
  rw [tailleBuffer, BitVec.toInt_ofNat', Int.bmod_def]
  omega

theorem tailleBuffer_neg {source : List UInt8} (hge : 2 ^ 31 ≤ source.length % 2 ^ 32) :
    tailleBuffer source < 0 := by
  rw [tailleBuffer, BitVec.toInt_ofNat', Int.bmod_def]
  omega

theorem copyFile_eq (source dest : List UInt8) : copyFile source dest =
    if source.length % 2 ^ 32 < 2 ^ 31 then
      some (Patch.writeAt dest 0 (source.take (source.length % 2 ^ 32)))
    else none := by
  by_cases hlt : source.length % 2 ^ 32 < 2 ^ 31
  · have htaille := tailleBuffer_eq hlt
    have hpos : ¬tailleBuffer source < 0 := by omega
    rw [copyFile, if_pos hlt, if_neg hpos, htaille, Int.toNat_natCast, Patch.readAt, List.drop_zero]
  · rw [copyFile, if_neg hlt, if_pos (tailleBuffer_neg (Nat.le_of_not_lt hlt))]

/-- A file whose size an `int` holds is copied as it is. -/
theorem copyFile_empty {source : List UInt8} (hlen : source.length < 2 ^ 31) :
    copyFile source [] = some source := by
  have hmod : source.length % 2 ^ 32 = source.length := Nat.mod_eq_of_lt (by omega)
  rw [copyFile_eq, hmod, if_pos hlen, List.take_length, Patch.writeAt_new]

/-- Reading the destination back gives `elfdata`. -/
structure Coherent (h : Heap) (host : Bool) (dest : List UInt8) (e : Elf32) : Prop where
  header : readHeader host dest = some e.elfhdr
  shtable : readShtable h host dest e.elfhdr = some e.shtable
  symtable : readSymtable h host dest e.elfhdr e.shtable = some (e.symtable, e.symtabIndex)

/-- The layout of a file of `n` bytes: the three parts that mirror `elfdata` lie inside
it, apart from each other. -/
structure Disposition (h : Heap) (e : Elf32) (n : Nat) : Prop where
  entsize : e.elfhdr.eShentsize = 40
  unique : e.UniqueSymtab
  loaded : e.SymbolsLoaded
  header_in : 52 ≤ n
  sht_in : e.elfhdr.eShoff.toNat + 40 * e.shnum ≤ n
  symtab_in : (shdrAt h e.shtable e.symtabIndex).shOffset.toNat +
    (shdrAt h e.shtable e.symtabIndex).shSize.toNat ≤ n
  header_sht : Disjoint enteteWindow (shtWindow e)
  header_symtab : Disjoint enteteWindow (symtabWindow h e)
  sht_symtab : Disjoint (shtWindow e) (symtabWindow h e)

/-- The three parts of the file hold the encodings of the structures. -/
structure Reflete (h : Heap) (dest : List UInt8) (e : Elf32) : Prop where
  header : Patch.readAt dest 0 52 = (ehdr true).encode e.elfhdr
  shtable : Patch.readAt dest e.elfhdr.eShoff.toNat (40 * e.shnum) = (shdr true).encodeAll e.shtable
  symtable : Patch.readAt dest (shdrAt h e.shtable e.symtabIndex).shOffset.toNat
    (16 * nombreDeSymboles h e) = (sym true).encodeAll e.symtable

/-! ## Reading back -/

section

variable {h : Heap} (host : Bool) {e : Elf32} {dest : List UInt8}

/-- The search of `read_symtable` finds the symbol table. -/
theorem first_isSymtable (hu : e.UniqueSymtab) :
    Loop.first (isSymtable h e.shtable) e.shnum = e.symtabIndex := by
  rw [Loop.first_eq_iff hu.inTable]
  refine ⟨(hu.isSymtable_iff hu.inTable).mpr rfl, fun j hj => ?_⟩
  rw [Bool.eq_false_iff]
  intro hc
  exact absurd ((hu.isSymtable_iff (Nat.lt_trans hj hu.inTable)).mp hc) (Nat.ne_of_lt hj)

theorem readHeader_eq_some_iff (hlen : 52 ≤ dest.length) (elfhdr : Elf32Ehdr) :
    readHeader host dest = some elfhdr ↔ Patch.readAt dest 0 52 = (ehdr true).encode elfhdr := by
  rw [readHeader_eq, if_pos hlen, Option.some.injEq, (ehdr true).decode_eq_iff hlen]
  rfl

theorem readShtable_eq_some_iff (hd : Disposition h e dest.length) :
    readShtable h host dest e.elfhdr = some e.shtable ↔
      Patch.readAt dest e.elfhdr.eShoff.toNat (40 * e.shnum) = (shdr true).encodeAll e.shtable := by
  have hlen : e.shtable.length = e.shnum := hd.unique.full
  have hin := hd.sht_in
  rw [readShtable_eq h host dest hd.entsize,
    show e.elfhdr.eShnum.toNat = e.shtable.length from hlen.symm, if_pos (Or.inr (by omega)),
    Option.some.injEq, Codec.decodeAll_eq_iff, hlen]
  · rfl
  · rw [size_shdr, List.length_drop, hlen]
    omega

theorem readSymtable_eq_some_iff (hd : Disposition h e dest.length) :
    readSymtable h host dest e.elfhdr e.shtable = some (e.symtable, e.symtabIndex) ↔
      Patch.readAt dest (shdrAt h e.shtable e.symtabIndex).shOffset.toNat
        (16 * nombreDeSymboles h e) = (sym true).encodeAll e.symtable := by
  have hcount := hd.unique.length_symtable (h := h) hd.loaded
  have hin := hd.symtab_in
  have hnum : nombreDeSymboles h e = (shdrAt h e.shtable e.symtabIndex).shSize.toNat / 16 := rfl
  simp only [readSymtable_eq]
  rw [show Loop.first (isSymtable h e.shtable) e.elfhdr.eShnum.toNat = e.symtabIndex from
    first_isSymtable hd.unique, if_pos (by omega), Option.some.injEq, Prod.mk.injEq,
    and_iff_left rfl, ← hnum, ← hcount, Codec.decodeAll_eq_iff]
  · rfl
  · rw [size_sym, List.length_drop, hcount, hnum]
    omega

/-- In a file with this layout the readers give `elfdata` exactly when its three parts
are the encodings of the structures. -/
theorem coherent_iff (hd : Disposition h e dest.length) :
    Coherent h host dest e ↔ Reflete h dest e := by
  have hheader := readHeader_eq_some_iff host hd.header_in e.elfhdr
  have hshtable := readShtable_eq_some_iff host hd
  have hsymtable := readSymtable_eq_some_iff host hd
  exact ⟨fun hc => ⟨hheader.mp hc.header, hshtable.mp hc.shtable, hsymtable.mp hc.symtable⟩,
    fun hr => ⟨hheader.mpr hr.header, hshtable.mpr hr.shtable, hsymtable.mpr hr.symtable⟩⟩
end

/-- The bytes that mirror `elfdata`. -/
def partsWindow (h : Heap) (e : Elf32) : Set Nat := enteteWindow ∪ shtWindow e ∪ symtabWindow h e

/-- The symbols of `symtable` are inside the window of their section. -/
theorem window_symbols_subset (h : Heap) (e : Elf32) :
    Patch.window (shdrAt h e.shtable e.symtabIndex).shOffset.toNat (16 * nombreDeSymboles h e) ⊆
      symtabWindow h e :=
  Patch.window_mono (Nat.mul_div_le _ 16)

/-- Changes elsewhere in the file leave the mirror as it is. -/
theorem Reflete.of_sameOutside {h : Heap} {e : Elf32} {dest dest' : List UInt8} {R : Set Nat}
    (hr : Reflete h dest e) (hso : Patch.SameOutside R dest dest') (hR : Disjoint (partsWindow h e) R) :
    Reflete h dest' e := by
  obtain ⟨hleft, hsymtab⟩ := Set.disjoint_union_left.mp hR
  obtain ⟨hheader, hsht⟩ := Set.disjoint_union_left.mp hleft
  exact ⟨(hso.readAt_eq hheader).trans hr.header, (hso.readAt_eq hsht).trans hr.shtable,
    (hso.readAt_eq (hsymtab.mono_left (window_symbols_subset h e))).trans hr.symtable⟩

/-! ## The operations -/

/-- A call that rewrites part of the destination. -/
inductive Operation where
  | fwriteShAddrTestData (addrText addrData : UInt32)
  | corrigerSymboles (addrText addrData : UInt32)
  | supprimeSh (index : Nat)

namespace Operation

def run (h : Heap) (host : Bool) (w : World) : Operation → Outcome
  | fwriteShAddrTestData addrText addrData => .ok (ElfLinker.fwriteShAddrTestData h host addrText addrData w)
  | corrigerSymboles addrText addrData => .ok (ElfLinker.corrigerSymboles h host addrText addrData w)
  | supprimeSh index => ElfLinker.supprimeSh h host index w

/-- When the call is made: the sections it names exist, and a section that is deleted is
a relocation section, with no symbol table past the end of the section table. -/
def Allowed (h : Heap) (e : Elf32) : Operation → Prop
  | fwriteShAddrTestData _ _ =>
    0 ≤ getSectionIndex h e dotText ∧ 0 ≤ getSectionIndex h e dotData
  | corrigerSymboles _ _ => True
  | supprimeSh index =>
    (∃ r, e.shtable[index]? = some r ∧ isRel r.shType = true) ∧ ¬pastIsSymtab h e.shnum

/-- The bytes that the call may change. -/
def region (h : Heap) (e : Elf32) : Operation → Set Nat
  | fwriteShAddrTestData _ _ => shtWindow e
  | corrigerSymboles _ _ => symtabWindow h e
  | supprimeSh _ => partsWindow h e

end Operation

/-! ## One operation -/

section

variable {h : Heap} (host : Bool) {w : World}

theorem symtabWindow_adresser (h : Heap) (e : Elf32) (addrText addrData : UInt32) :
    symtabWindow h (adresser h e addrText addrData) = symtabWindow h e := by
  simp only [symtabWindow, show (adresser h e addrText addrData).symtabIndex = e.symtabIndex from rfl,
    shOffset_adresser, shSize_adresser]

theorem uniqueSymtab_adresser {e : Elf32} (hu : e.UniqueSymtab) (addrText addrData : UInt32) :
    (adresser h e addrText addrData).UniqueSymtab := by
  refine ⟨tableFull_adresser h addrText addrData hu.full, hu.inTable, fun k s hs => ?_⟩
  rw [getElem?_adresser, Option.map_eq_some_iff] at hs
  obtain ⟨t, ht, rfl⟩ := hs
  exact hu.symtab_iff k t ht

theorem symbolsLoaded_adresser {e : Elf32} (hsym : e.SymbolsLoaded) (addrText addrData : UInt32) :
    (adresser h e addrText addrData).SymbolsLoaded := by
  intro s hs
  rw [getElem?_adresser, Option.map_eq_some_iff] at hs
  obtain ⟨t, ht, rfl⟩ := hs
  exact hsym t ht

theorem disposition_adresser {e : Elf32} {n : Nat} (hd : Disposition h e n) (addrText addrData : UInt32) :
    Disposition h (adresser h e addrText addrData) n where
  entsize := hd.entsize
  unique := uniqueSymtab_adresser hd.unique addrText addrData
  loaded := symbolsLoaded_adresser hd.loaded addrText addrData
  header_in := hd.header_in
  sht_in := hd.sht_in
  symtab_in := by
    rw [shOffset_adresser, shSize_adresser]
    exact hd.symtab_in
  header_sht := hd.header_sht
  header_symtab := symtabWindow_adresser h e addrText addrData ▸ hd.header_symtab
  sht_symtab := symtabWindow_adresser h e addrText addrData ▸ hd.sht_symtab

theorem fwriteShAddrTestData_sameOutside (hd : Disposition h w.elf w.dest.length)
    (addrText addrData : UInt32) :
    Patch.SameOutside (shtWindow w.elf) w.dest
      (fwriteShAddrTestData h host addrText addrData w).dest := by
  rw [fwriteShAddrTestData_dest h host addrText addrData w hd.unique.full]
  exact Patch.sameOutside_writeAt
    (tableFull_adresser h addrText addrData hd.unique.full).length_encodeAll hd.sht_in

theorem reflete_fwriteShAddrTestData (hd : Disposition h w.elf w.dest.length)
    (hr : Reflete h w.dest w.elf) (addrText addrData : UInt32) :
    Reflete h (fwriteShAddrTestData h host addrText addrData w).dest
      (adresser h w.elf addrText addrData) := by
  have hso := fwriteShAddrTestData_sameOutside host hd addrText addrData
  refine ⟨(hso.readAt_eq hd.header_sht).trans hr.header, ?_, ?_⟩
  · rw [fwriteShAddrTestData_dest h host addrText addrData w hd.unique.full]
    exact Patch.readAt_writeAt_self _ _
      (tableFull_adresser h addrText addrData hd.unique.full).length_encodeAll
  · rw [show nombreDeSymboles h (adresser h w.elf addrText addrData) = nombreDeSymboles h w.elf from
      congrArg (·.toNat / 16) (shSize_adresser h w.elf addrText addrData w.elf.symtabIndex),
      shOffset_adresser]
    exact (hso.readAt_eq (hd.sht_symtab.symm.mono_left (window_symbols_subset h w.elf))).trans hr.symtable

theorem disposition_corrigerSymboles {n : Nat} (hd : Disposition h w.elf n) (addrText addrData : UInt32) :
    Disposition h (corrigerSymboles h host addrText addrData w).elf n := by
  rw [corrigerSymboles_elf]
  refine { hd with unique := ⟨hd.unique.full, hd.unique.inTable, hd.unique.symtab_iff⟩, loaded := ?_ }
  intro s hs
  rw [← hd.loaded s hs]
  exact Loop.length_mapUpTo _ _ _

theorem corrigerSymboles_sameOutside (hd : Disposition h w.elf w.dest.length)
    (addrText addrData : UInt32) :
    Patch.SameOutside (symtabWindow h w.elf) w.dest (corrigerSymboles h host addrText addrData w).dest := by
  rw [corrigerSymboles_dest]
  exact Patch.sameOutside_writeAt (length_symtableBytes _ _ _ _) hd.symtab_in

theorem reflete_corrigerSymboles (hd : Disposition h w.elf w.dest.length)
    (hr : Reflete h w.dest w.elf) (addrText addrData : UInt32) :
    Reflete h (corrigerSymboles h host addrText addrData w).dest
      (corrigerSymboles h host addrText addrData w).elf := by
  have hso := corrigerSymboles_sameOutside host hd addrText addrData
  have hlen : (corrigerSymboles h host addrText addrData w).elf.symtable.length =
      nombreDeSymboles h w.elf := by
    rw [corrigerSymboles_elf, ← hd.unique.length_symtable (h := h) hd.loaded]
    exact Loop.length_mapUpTo _ _ _
  have hsymtable := readAt_symtableBytes h host w.dest
    (shdrAt h w.elf.shtable w.elf.symtabIndex).shOffset.toNat hlen
  refine ⟨?_, ?_, ?_⟩
  · rw [hso.readAt_eq hd.header_symtab, hr.header, corrigerSymboles_elf]
  · rw [corrigerSymboles_elf]
    exact (hso.readAt_eq hd.sht_symtab).trans hr.shtable
  · rw [← corrigerSymboles_dest] at hsymtable
    rw [← hsymtable, corrigerSymboles_elf]
    rfl

/-- The header of the symbol table after a deletion, links apart. -/
theorem shdrAt_suppression_symtab {e : Elf32} {index : Nat} (hu : e.UniqueSymtab)
    (hi : index < e.shnum) (hne : index ≠ e.symtabIndex) (hpast : ¬pastIsSymtab h e.shnum) :
    sansLien (shdrAt h (suppression h e index).shtable (suppression h e index).symtabIndex) =
      sansLien (shdrAt h e.shtable e.symtabIndex) := by
  have hindex := hu.decalage_symtabIndex_end (h := h) hi
  rw [if_neg hpast] at hindex
  have hentry := suppression_entry (h := h) hu.full hi (suppression h e index).symtabIndex
  rw [suppression_symtabIndex, hindex, Deletion.origin_renumber (Ne.symm hne),
    shdrAt_of_lt h (Nat.lt_of_lt_of_eq hu.inTable hu.full.symm), Option.map_some] at hentry
  rw [suppression_symtabIndex, hindex, shdrAt_eq hentry, sansLien_relink]

/-- A deletion keeps the layout: the section table gets shorter and the symbols stay. -/
theorem disposition_suppression {e : Elf32} {n index : Nat} (hd : Disposition h e n)
    (hi : index < e.shnum) (hne : index ≠ e.symtabIndex) (hpast : ¬pastIsSymtab h e.shnum) :
    Disposition h (suppression h e index) n ∧ shtWindow (suppression h e index) ⊆ shtWindow e ∧
      symtabWindow h (suppression h e index) = symtabWindow h e := by
  have hsymtab := shdrAt_suppression_symtab hd.unique hi hne hpast
  have hoff := sansLien_field Elf32Shdr.shOffset (fun _ => rfl) hsymtab
  have hsize := sansLien_field Elf32Shdr.shSize (fun _ => rfl) hsymtab
  have hcount := suppression_shnum (h := h) hi
  have hshoff : (suppression h e index).elfhdr.eShoff = e.elfhdr.eShoff := by rw [suppression_elfhdr]
  have hsht : shtWindow (suppression h e index) ⊆ shtWindow e := by
    rw [shtWindow, shtWindow, hshoff, hcount]
    exact Patch.window_mono (Nat.mul_le_mul_left 40 (Nat.sub_le _ _))
  have hwindow : symtabWindow h (suppression h e index) = symtabWindow h e := by
    simp only [symtabWindow, hoff, hsize]
  refine ⟨⟨?_, suppression_uniqueSymtab hd.unique hi hne hpast,
    suppression_symbolsLoaded hd.unique hd.loaded hi hne hpast, hd.header_in, ?_, ?_,
    hd.header_sht.mono_right hsht, ?_, ?_⟩, hsht, hwindow⟩
  · rw [suppression_elfhdr]
    exact hd.entsize
  · have hin := hd.sht_in
    rw [hshoff, hcount]
    omega
  · rw [hoff, hsize]
    exact hd.symtab_in
  · rw [hwindow]
    exact hd.header_symtab
  · rw [hwindow]
    exact hd.sht_symtab.mono_left hsht

/-- The three writes go to three parts apart from each other, so each is read back. -/
theorem reflete_ecrire (hd : Disposition h w.elf w.dest.length) :
    Reflete h (ecrire h host w).dest w.elf ∧
      Patch.SameOutside (partsWindow h w.elf) w.dest
        (ecrire h host w).dest := by
  have hlen := hd.unique.full.length_encodeAll
  have hhdr : ((ehdr true).encode w.elf.elfhdr).length = 52 := (ehdr true).length_encode _
  have hcount := hd.unique.length_symtable (h := h) hd.loaded
  rw [ecrire_dest h host w hd.unique.full]
  dsimp only
  let symoff := (shdrAt h w.elf.shtable w.elf.symtabIndex).shOffset.toNat
  let f₁ := Patch.writeAt w.dest 0 ((ehdr true).encode w.elf.elfhdr)
  let f₂ := Patch.writeAt f₁ w.elf.elfhdr.eShoff.toNat ((shdr true).encodeAll w.elf.shtable)
  let bytes := symtableBytes h host (shdrAt h w.elf.shtable w.elf.symtabIndex).shSize.toNat
    (toHost host (Loop.mapUpTo ((shdrAt h w.elf.shtable w.elf.symtabIndex).shSize.toNat / 16)
      swapEndianessSymbole) w.elf.symtable)
  have h₁ : Patch.SameOutside enteteWindow w.dest f₁ :=
    Patch.sameOutside_writeAt hhdr ((Nat.zero_add 52).le.trans hd.header_in)
  have h₂ : Patch.SameOutside (shtWindow w.elf) f₁ f₂ :=
    Patch.sameOutside_writeAt hlen (h₁.length_eq ▸ hd.sht_in)
  have h₃ : Patch.SameOutside (symtabWindow h w.elf) f₂ (Patch.writeAt f₂ symoff bytes) :=
    Patch.sameOutside_writeAt (length_symtableBytes _ _ _ _)
      ((h₂.length_eq.trans h₁.length_eq) ▸ hd.symtab_in)
  have hself₁ := Patch.readAt_writeAt_self w.dest 0 hhdr
  have hself₂ := Patch.readAt_writeAt_self f₁ w.elf.elfhdr.eShoff.toNat hlen
  refine ⟨⟨?_, ?_, readAt_symtableBytes h host f₂ symoff hcount⟩, ?_⟩
  · exact (h₃.readAt_eq hd.header_symtab).trans ((h₂.readAt_eq hd.header_sht).trans hself₁)
  · exact (h₃.readAt_eq hd.sht_symtab).trans hself₂
  · refine ((h₁.mono ?_).trans (h₂.mono ?_)).trans (h₃.mono ?_)
    · exact Set.subset_union_left.trans Set.subset_union_left
    · exact Set.subset_union_right.trans Set.subset_union_left
    · exact Set.subset_union_right

/-- A deletion that returned: the layout is kept and the file mirrors `elfdata`. -/
theorem supprimeSh_coherent {host : Bool} {w' : World} {index : Nat} {r : Elf32Shdr}
    (hd : Disposition h w.elf w.dest.length) (hr : w.elf.shtable[index]? = some r)
    (hrel : isRel r.shType = true) (hpast : ¬pastIsSymtab h w.elf.shnum)
    (hrun : supprimeSh h host index w = .ok w') :
    Disposition h w'.elf w'.dest.length ∧ Reflete h w'.dest w'.elf ∧
      shtWindow w'.elf ⊆ shtWindow w.elf ∧ symtabWindow h w'.elf = symtabWindow h w.elf ∧
      Patch.SameOutside (partsWindow h w.elf) w.dest w'.dest := by
  have hi := hd.unique.full.lt_shnum hr
  have hne := hd.unique.ne_symtabIndex hr hrel
  obtain ⟨hd', hsht, hsymtab⟩ := disposition_suppression hd hi hne hpast
  obtain ⟨-, -, w₁, rfl, helf, hdest⟩ := supprimeSh_ok hrun
  rw [← helf] at hd' hsht hsymtab
  rw [← hdest] at hd' ⊢
  obtain ⟨hreflete, hso⟩ := reflete_ecrire host hd'
  rw [ecrire_elf, hso.length_eq]
  refine ⟨hd', hreflete, hsht, hsymtab, hso.mono ?_⟩
  rw [partsWindow, hsymtab]
  exact Set.union_subset_union_left _ (Set.union_subset_union_right _ hsht)

/-- A section header up to what the operations change in it. -/
def identite (s : Elf32Shdr) : Elf32Shdr := sansLien (sansAdresse s)

/-- What operations leave between `w` and `w'` when they change bytes of `R` only. -/
structure Etape (h : Heap) (R : Set Nat) (w w' : World) : Prop where
  disposition : Disposition h w'.elf w'.dest.length
  reflete : Reflete h w'.dest w'.elf
  sht : shtWindow w'.elf ⊆ shtWindow w.elf
  symtab : symtabWindow h w'.elf = symtabWindow h w.elf
  dest : Patch.SameOutside R w.dest w'.dest
  sections : ∀ s' ∈ w'.elf.shtable, ∃ s ∈ w.elf.shtable, identite s' = identite s

theorem etape_fwriteShAddrTestData (hd : Disposition h w.elf w.dest.length)
    (hr : Reflete h w.dest w.elf) (addrText addrData : UInt32) :
    Etape h (shtWindow w.elf) w (fwriteShAddrTestData h host addrText addrData w) := by
  have hso := fwriteShAddrTestData_sameOutside host hd addrText addrData
  refine ⟨?_, ?_, ?_, ?_, hso, fun s' hs' => ?_⟩
  · rw [fwriteShAddrTestData_elf, hso.length_eq]
    exact disposition_adresser hd addrText addrData
  · rw [fwriteShAddrTestData_elf]
    exact reflete_fwriteShAddrTestData host hd hr addrText addrData
  · rw [fwriteShAddrTestData_elf]
    exact subset_rfl
  · rw [fwriteShAddrTestData_elf, symtabWindow_adresser]
  · rw [fwriteShAddrTestData_elf] at hs'
    obtain ⟨k, hk⟩ := List.mem_iff_getElem?.mp hs'
    rw [getElem?_adresser, Option.map_eq_some_iff] at hk
    obtain ⟨s, hs, rfl⟩ := hk
    exact ⟨s, List.mem_of_getElem? hs, rfl⟩

theorem etape_corrigerSymboles (hd : Disposition h w.elf w.dest.length)
    (hr : Reflete h w.dest w.elf) (addrText addrData : UInt32) :
    Etape h (symtabWindow h w.elf) w (corrigerSymboles h host addrText addrData w) := by
  have hso := corrigerSymboles_sameOutside host hd addrText addrData
  have helf := corrigerSymboles_elf h host addrText addrData w
  refine ⟨?_, reflete_corrigerSymboles host hd hr addrText addrData, ?_, ?_, hso, fun s' hs' => ?_⟩
  · rw [hso.length_eq]
    exact disposition_corrigerSymboles host hd addrText addrData
  · rw [helf]
    exact subset_rfl
  · rw [helf]
    rfl
  · rw [helf] at hs'
    exact ⟨s', hs', rfl⟩

theorem etape_supprimeSh (hd : Disposition h w.elf w.dest.length) {index : Nat} {r : Elf32Shdr}
    (hr : w.elf.shtable[index]? = some r) (hrel : isRel r.shType = true)
    (hpast : ¬pastIsSymtab h w.elf.shnum) :
    ∃ w', supprimeSh h host index w = .ok w' ∧ Etape h (partsWindow h w.elf) w w' := by
  have hi := hd.unique.full.lt_shnum hr
  have hne := hd.unique.ne_symtabIndex hr hrel
  have hin := hd.unique.inTable
  obtain ⟨w₁, hrun, -⟩ := supprimeSh_eq h host hi (show 2 ≤ w.elf.shnum by omega)
  obtain ⟨hd', hreflete, hsht, hsymtab, hso⟩ := supprimeSh_coherent hd hr hrel hpast hrun
  refine ⟨_, hrun, ⟨hd', hreflete, hsht, hsymtab, hso, fun s' hs' => ?_⟩⟩
  rw [supprimeSh_elf hrun, suppression_shtable hd.unique.full hi] at hs'
  obtain ⟨s, hs, rfl⟩ := List.mem_map.mp hs'
  exact ⟨s, List.mem_of_mem_eraseIdx hs, congrArg sansAdresse (sansLien_relink _ _ s)⟩

/-- Every operation that is allowed returns and leaves the file coherent. -/
theorem Operation.etape (hd : Disposition h w.elf w.dest.length) (hr : Reflete h w.dest w.elf)
    {op : Operation} (hallowed : op.Allowed h w.elf) :
    ∃ w', op.run h host w = .ok w' ∧ Etape h (op.region h w.elf) w w' := by
  cases op with
  | fwriteShAddrTestData addrText addrData =>
    exact ⟨_, rfl, etape_fwriteShAddrTestData host hd hr addrText addrData⟩
  | corrigerSymboles addrText addrData =>
    exact ⟨_, rfl, etape_corrigerSymboles host hd hr addrText addrData⟩
  | supprimeSh index =>
    obtain ⟨⟨r, hr', hrel⟩, hpast⟩ := hallowed
    exact etape_supprimeSh host hd hr' hrel hpast

end

/-! ## Sequences of operations -/

/-- `w'` is reached from `w` by allowed calls. -/
inductive Suite (h : Heap) (host : Bool) (w : World) : World → Prop where
  | refl : Suite h host w w
  | step {w' w'' : World} (op : Operation) : Suite h host w w' → op.Allowed h w'.elf →
      op.run h host w' = .ok w'' → Suite h host w w''

theorem Operation.region_subset (h : Heap) (e : Elf32) (op : Operation) :
    op.region h e ⊆ partsWindow h e := by
  cases op with
  | fwriteShAddrTestData => exact Set.subset_union_right.trans Set.subset_union_left
  | corrigerSymboles => exact Set.subset_union_right
  | supprimeSh => exact subset_rfl

theorem Suite.etape {h : Heap} {host : Bool} {w w' : World} (hd : Disposition h w.elf w.dest.length)
    (hr : Reflete h w.dest w.elf) (hs : Suite h host w w') : Etape h (partsWindow h w.elf) w w' := by
  induction hs with
  | refl => exact ⟨hd, hr, subset_rfl, rfl, Patch.SameOutside.refl _ _, fun s hs => ⟨s, hs, rfl⟩⟩
  | step op _ hallowed hrun ih =>
    obtain ⟨w₁, hrun₁, hstep⟩ := Operation.etape host ih.disposition ih.reflete hallowed
    rw [hrun, Except.ok.injEq] at hrun₁
    subst hrun₁
    refine ⟨hstep.disposition, hstep.reflete, hstep.sht.trans ih.sht, hstep.symtab.trans ih.symtab,
      ih.dest.trans (hstep.dest.mono ((op.region_subset h _).trans ?_)), fun s hs => ?_⟩
    · rw [partsWindow, ih.symtab]
      exact Set.union_subset_union_left _ (Set.union_subset_union_right _ ih.sht)
    · obtain ⟨s₁, hs₁, heq₁⟩ := hstep.sections s hs
      obtain ⟨s₀, hs₀, heq₀⟩ := ih.sections s₁ hs₁
      exact ⟨s₀, hs₀, heq₁.trans heq₀⟩

/-! ## The loaded image -/

/-- An image of `n` bytes with one symbol table, whose three parts are apart. -/
structure ImageReguliere (h : Heap) (e : Elf32) (n : Nat) : Prop where
  entsize : e.elfhdr.eShentsize = 40
  one_symtab : ∃! k : Nat, ∃ s, e.shtable[k]? = some s ∧ s.shType = shtSymtab
  symtab_in : (shdrAt h e.shtable e.symtabIndex).shOffset.toNat +
    (shdrAt h e.shtable e.symtabIndex).shSize.toNat ≤ n
  header_sht : Disjoint enteteWindow (shtWindow e)
  header_symtab : Disjoint enteteWindow (symtabWindow h e)
  sht_symtab : Disjoint (shtWindow e) (symtabWindow h e)

/-- The search of `read_symtable` stops at the only section of its type. -/
theorem uniqueSymtab_of_search {h : Heap} {e : Elf32} (hfull : e.TableFull)
    (hone : ∃! k : Nat, ∃ s, e.shtable[k]? = some s ∧ s.shType = shtSymtab)
    (hindex : Loop.first (isSymtable h e.shtable) e.shnum = e.symtabIndex) : e.UniqueSymtab := by
  have hlen : e.shtable.length = e.shnum := hfull
  obtain ⟨k, ⟨s, hs, htype⟩, huniq⟩ := hone
  have hk := hfull.lt_shnum hs
  have hfirst : Loop.first (isSymtable h e.shtable) e.shnum = k := by
    rw [Loop.first_eq_iff hk]
    refine ⟨by rw [isSymtable, shdrAt_eq hs, htype]; rfl, fun j hj => ?_⟩
    rw [Bool.eq_false_iff, isSymtable, ne_eq, beq_iff_eq]
    intro hc
    exact absurd (huniq j ⟨_, shdrAt_of_lt h (show j < e.shtable.length by omega), hc⟩) (Nat.ne_of_lt hj)
  obtain rfl : e.symtabIndex = k := hindex.symm.trans hfirst
  refine ⟨hfull, hk, fun j t ht => ⟨fun hc => huniq j ⟨t, ht, hc⟩, fun hj => ?_⟩⟩
  rw [hj, hs, Option.some.injEq] at ht
  rw [← ht, htype]

/-- The image that was loaded is itself coherent with what was loaded. -/
theorem coherent_of_load {h : Heap} {host : Bool} {f : List UInt8} {e : Elf32}
    (hload : mainLecture h host f = some e) : Coherent h host f e := by
  obtain ⟨hheader, hshtable, hsymtable⟩ := mainLecture_some hload
  exact ⟨hheader, hshtable, hsymtable⟩

/-- Reading finds the symbol table and its symbols. -/
theorem disposition_of_coherent {h : Heap} {host : Bool} {f : List UInt8} {e : Elf32}
    (hc : Coherent h host f e) (himg : ImageReguliere h e f.length) : Disposition h e f.length := by
  obtain ⟨hheader, hshtable, hsymtable⟩ := hc
  obtain ⟨htable, hfit⟩ := readShtable_some (by rw [himg.entsize]; decide) hshtable
  have hfull : e.TableFull := by
    rw [Elf32.TableFull, htable, Codec.length_decodeAll]
    rfl
  rw [readSymtable_eq] at hsymtable
  dsimp only at hsymtable
  split at hsymtable
  next =>
    simp only [Option.some.injEq, Prod.mk.injEq] at hsymtable
    obtain ⟨hsymbols, hindex⟩ := hsymtable
    have hu := uniqueSymtab_of_search hfull himg.one_symtab hindex
    have hin := hu.inTable
    refine ⟨himg.entsize, hu, fun t ht => ?_, ?_, ?_, himg.symtab_in, himg.header_sht,
      himg.header_symtab, himg.sht_symtab⟩
    · rw [← hsymbols, Codec.length_decodeAll, hindex, shdrAt_eq ht]
    · rw [readHeader_eq] at hheader
      split at hheader
      next hle => exact hle
      next => cases hheader
    · exact hfit.resolve_left (show e.shnum ≠ 0 by omega)
  next => cases hsymtable

/-- From any coherent pair every sequence of operations leads to coherent pairs: each call
returns and changes only its own parts of the file, so the length and the contents of the
sections stay. -/
def OperationsCoherentes (h : Heap) (host : Bool) : Prop :=
  ∀ w₀ w, ImageReguliere h w₀.elf w₀.dest.length → Coherent h host w₀.dest w₀.elf →
    Suite h host w₀ w →
    Coherent h host w.dest w.elf ∧ w.dest.length = w₀.dest.length ∧
    (∀ op : Operation, op.Allowed h w.elf → ∃ w', op.run h host w = .ok w' ∧
      Coherent h host w'.dest w'.elf ∧ Patch.SameOutside (op.region h w.elf) w.dest w'.dest) ∧
    ∀ s ∈ w.elf.shtable, (∃ s₀ ∈ w₀.elf.shtable, identite s = identite s₀) ∧
      (Disjoint (Patch.window s.shOffset.toNat s.shSize.toNat) (partsWindow h w₀.elf) →
        Patch.readAt w.dest s.shOffset.toNat s.shSize.toNat =
          Patch.readAt w₀.dest s.shOffset.toNat s.shSize.toNat)

theorem operationsCoherentes (h : Heap) (host : Bool) : OperationsCoherentes h host := by
  intro w₀ w himg hc hs
  have hd := disposition_of_coherent hc himg
  have hrun := Suite.etape hd ((coherent_iff host hd).mp hc) hs
  refine ⟨(coherent_iff host hrun.disposition).mpr hrun.reflete, hrun.dest.length_eq,
    fun op hallowed => ?_, fun s hs => ⟨hrun.sections s hs, fun hdisj => hrun.dest.readAt_eq hdisj⟩⟩
  obtain ⟨w', hok, hstep⟩ := Operation.etape host hrun.disposition hrun.reflete hallowed
  exact ⟨w', hok, (coherent_iff host hstep.disposition).mpr hstep.reflete, hstep.dest⟩

/-! ## The copy -/

/-- The first `n` bytes hold the header, the section table and the symbols, and `n` is the
size of an array. -/
structure CopieEntiere (h : Heap) (e : Elf32) (n : Nat) : Prop where
  int : n < 2 ^ 31
  header : 52 ≤ n
  shtable : e.elfhdr.eShoff.toNat + 40 * e.shnum ≤ n
  symtable : nombreDeSymboles h e = 0 ∨
    (shdrAt h e.shtable e.symtabIndex).shOffset.toNat + 16 * nombreDeSymboles h e ≤ n

section

variable {h : Heap} {host : Bool} {f g : List UInt8} {e : Elf32}

variable (host) in
/-- What is read of a file that goes on is read of its start, when it is in there. -/
theorem coherent_append_iff (hd : Disposition h e (f ++ g).length) (hc : Coherent h host (f ++ g) e) :
    Coherent h host f e ↔ 52 ≤ f.length ∧ e.elfhdr.eShoff.toNat + 40 * e.shnum ≤ f.length ∧
      (nombreDeSymboles h e = 0 ∨
        (shdrAt h e.shtable e.symtabIndex).shOffset.toNat + 16 * nombreDeSymboles h e ≤ f.length) := by
  have hindex : Loop.first (isSymtable h e.shtable) e.elfhdr.eShnum.toNat = e.symtabIndex :=
    first_isSymtable hd.unique
  have hpos : e.elfhdr.eShnum ≠ 0 := fun hzero => by
    have hin := hd.unique.inTable
    rw [Elf32.shnum, hzero] at hin
    exact Nat.not_lt_zero _ hin
  constructor
  · rintro ⟨hheader, hshtable, hsymtable⟩
    rw [readHeader_eq] at hheader
    rw [readShtable_eq h host _ hd.entsize, ← Elf32.shnum] at hshtable
    simp only [readSymtable_eq, hindex] at hsymtable
    refine ⟨?_, ?_, ?_⟩
    · by_contra hn
      rw [if_neg hn] at hheader
      cases hheader
    · by_contra hn
      rw [if_neg (not_or.mpr ⟨hpos, hn⟩)] at hshtable
      cases hshtable
    · by_contra hn
      rw [nombreDeSymboles] at hn
      rw [if_neg (by omega)] at hsymtable
      cases hsymtable
  · rintro ⟨hheader, hshtable, hsymtable⟩
    rw [nombreDeSymboles] at hsymtable
    refine ⟨?_, ?_, ?_⟩
    · rw [← readHeader_append host hheader g]
      exact hc.header
    · rw [← readShtable_append h host hd.entsize (Or.inr hshtable) g]
      exact hc.shtable
    · rw [← readSymtable_append h host (congrArg (shdrAt h e.shtable) hindex) (by omega) g]
      exact hc.symtable

theorem ImageReguliere.mono {n m : Nat} (himg : ImageReguliere h e n) (hle : n ≤ m) : ImageReguliere h e m :=
  { himg with symtab_in := himg.symtab_in.trans hle }

end

/-- The destination always mirrors `elfdata` exactly when the copy does, that is when the
size of the source as an `int` reaches over the three parts; from there on every sequence
of operations preserves it. -/
theorem destination_coherent (h : Heap) (host : Bool) {f : List UInt8} {e : Elf32}
    (hload : mainLecture h host f = some e) (himg : ImageReguliere h e f.length) :
    (∃ dest, copyFile f [] = some dest ∧ Coherent h host dest e) ∧ OperationsCoherentes h host ↔
      CopieEntiere h e (f.length % 2 ^ 32) := by
  have hc := coherent_of_load hload
  have hd := disposition_of_coherent hc himg
  have hsplit : f.take (f.length % 2 ^ 32) ++ f.drop (f.length % 2 ^ 32) = f := List.take_append_drop _ _
  have hlen : (f.take (f.length % 2 ^ 32)).length = f.length % 2 ^ 32 := by
    rw [List.length_take]
    exact Nat.min_eq_left (Nat.mod_le _ _)
  have hread := coherent_append_iff host (hsplit.symm ▸ hd) (hsplit.symm ▸ hc)
  rw [hlen] at hread
  rw [and_iff_left (operationsCoherentes h host), copyFile_eq, Patch.writeAt_new]
  constructor
  · rintro ⟨dest, hcopy, hcoherent⟩
    split at hcopy
    next hint =>
      cases hcopy
      obtain ⟨hheader, hshtable, hsymtable⟩ := hread.mp hcoherent
      exact ⟨hint, hheader, hshtable, hsymtable⟩
    next => cases hcopy
  · rintro ⟨hint, hheader, hshtable, hsymtable⟩
    exact ⟨_, if_pos hint, hread.mpr ⟨hheader, hshtable, hsymtable⟩⟩

theorem exemple_reguliere : ImageReguliere tasNul (exemple 0x102) (exempleImage 0x102).length where
  entsize := rfl
  one_symtab := by
    have hu : (exemple 0x102).UniqueSymtab := by decide +kernel
    exact ⟨4, ⟨⟨21, 2, 0, 0, 76, 48, 5, 3, 4, 16⟩, rfl, rfl⟩,
      fun k ⟨s, hs, htype⟩ => (hu.symtab_iff k s hs).mp htype⟩
  symtab_in := by decide +kernel
  header_sht := Patch.disjoint_window (Or.inl (by decide +kernel))
  header_symtab := Patch.disjoint_window (Or.inl (by decide +kernel))
  sht_symtab := Patch.disjoint_window (Or.inr (by decide +kernel))

theorem destination_coherent_exemple :
    (∃ dest, copyFile (exempleImage 0x102) [] = some dest ∧ Coherent tasNul false dest (exemple 0x102)) ∧
        OperationsCoherentes tasNul false ↔
      CopieEntiere tasNul (exemple 0x102) ((exempleImage 0x102).length % 2 ^ 32) :=
  destination_coherent tasNul false (by decide +kernel) exemple_reguliere

/-- The small object file followed by zeros up to 2^31 bytes. -/
def exempleLong : List UInt8 := exempleImage 0x102 ++ List.replicate (2 ^ 31 - 456) 0

theorem length_exempleLong : exempleLong.length = 2 ^ 31 := by
  have hlen : (exempleImage 0x102).length = 456 := by decide +kernel
  rw [exempleLong, List.length_append, List.length_replicate, hlen]
  omega

/-- It is loaded as the small one is, and its size is negative as an `int`. -/
theorem copyFile_exempleLong : mainLecture tasNul false exempleLong = some (exemple 0x102) ∧
    ImageReguliere tasNul (exemple 0x102) exempleLong.length ∧ tailleBuffer exempleLong < 0 ∧
    ¬((∃ dest, copyFile exempleLong [] = some dest ∧ Coherent tasNul false dest (exemple 0x102)) ∧
      OperationsCoherentes tasNul false) := by
  have hload : mainLecture tasNul false (exempleImage 0x102) = some (exemple 0x102) := by decide +kernel
  have hlong := (mainLecture_eq_some_iff.mp hload).append (by decide +kernel) (by decide +kernel) (by decide +kernel)
    (List.replicate (2 ^ 31 - 456) 0)
  have himg := exemple_reguliere.mono (m := exempleLong.length)
    (by rw [exempleLong, List.length_append]; exact Nat.le_add_right _ _)
  refine ⟨mainLecture_eq_some_iff.mpr hlong, himg, ?_, ?_⟩
  · exact tailleBuffer_neg (by rw [length_exempleLong]; decide)
  · rintro ⟨⟨dest, hcopy, -⟩, -⟩
    rw [copyFile_eq, length_exempleLong, if_neg (by decide)] at hcopy
    cases hcopy

end ElfLinker
