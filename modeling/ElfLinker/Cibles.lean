import ElfLinker.Relocation

/-!
What the relocations change: the value an absolute relocation leaves and the bytes
that stay, then the place where a relocation is applied against the place it is
meant for, and the parts of the file it must not touch.
-/

namespace ElfLinker
open Endian

/-- The bytes of an entry's word in the files. -/
def fenetre (h : Heap) (e : Elf32) (x : Relocation) : Set Nat := Patch.window (place h e x.rel) 4

/-! ## Result and frame -/

/-- Every subscript of `appliquer_relocations` is inside its array, that of the symbols
being as long as their section says. -/
structure SubscriptsInRange (h : Heap) (e : Elf32) : Prop where
  full : e.TableFull
  text : 0 ≤ getSectionIndex h e dotText
  data : 0 ≤ getSectionIndex h e dotData
  entries : e.reltab.entrynum ≤ e.reltab.entries.length
  rels : ∀ t ∈ e.reltab.entries, isRel t.relType.toUInt32 = true → t.relnum ≤ t.rel.length
  loaded : nombreDeSymboles h e ≤ e.symtable.length
  symbols : ∀ x ∈ relocations h e, (elf32RSym x.rel.rInfo).toNat < nombreDeSymboles h e
  sections : ∀ x ∈ relocations h e, (symboleDe h e x.rel).stShndx.toNat < e.shnum

/-- The address that a relocation uses for a symbol is the value that
`corriger_symboles` gives it. -/
theorem stValue_corrigerSymbole (h : Heap) (e : Elf32) (addrText addrData : UInt32) (s : Elf32Sym) :
    (corrigerSymbole h e addrText addrData s).stValue = adresseAbsolueSymbole h e addrText addrData s := by
  unfold corrigerSymbole adresseAbsolueSymbole
  by_cases hres : s.stShndx = shnUndef ∨ s.stShndx = shnAbs
  · rw [if_pos hres, if_neg (by tauto)]
  · have hne : s.stShndx ≠ shnAbs ∧ s.stShndx ≠ shnUndef := by tauto
    have hcomm : ∀ name, (getSectionIndex h e name = s.stShndx.toNat) =
        (s.stShndx.toNat = getSectionIndex h e name) := fun _ => propext eq_comm
    simp only [if_neg hres, if_pos hne, hcomm]
    by_cases htext : (s.stShndx.toNat : Int) = getSectionIndex h e dotText
    · simp only [if_pos htext]
      split <;> rfl
    · simp only [if_neg htext]
      split <;> rfl

section

variable {h : Heap} {host : Bool} {e : Elf32} {source : List UInt8} {addrText addrData : UInt32}

theorem atteintes_eq (hin : ∀ x ∈ relocations h e, place h e x.rel + 4 ≤ source.length) :
    atteintes h e source = relocations h e :=
  Loop.reached_of_all fun x hx => decide_eq_true (hin x hx)

/-- The symbol of an entry after the correction of the symbols. -/
theorem stValue_symAt_corrigerSymboles {w : World} (helf : w.elf = adresser h e addrText addrData)
    (hloaded : nombreDeSymboles h e ≤ e.symtable.length) {k : Nat} (hk : k < nombreDeSymboles h e) :
    (symAt h (corrigerSymboles h host addrText addrData w).elf.symtable k).stValue =
      adresseAbsolueSymbole h e addrText addrData (symAt h e.symtable k) := by
  have hcount : nombreDeSymboles h (adresser h e addrText addrData) = nombreDeSymboles h e :=
    congrArg (·.toNat / 16) (shSize_adresser h e addrText addrData e.symtabIndex)
  have hsym : (corrigerSymboles h host addrText addrData w).elf.symtable[k]? =
      some (corrigerSymbole h (adresser h e addrText addrData) addrText addrData
        (symAt h e.symtable k)) := by
    rw [corrigerSymboles_elf, helf]
    change (Loop.mapUpTo _ _ e.symtable)[k]? = _
    rw [Loop.getElem?_mapUpTo, hcount, if_pos hk, symAt_of_lt h (Nat.lt_of_lt_of_le hk hloaded),
      Option.map_some]
  rw [symAt_eq hsym, stValue_corrigerSymbole, adresseAbsolueSymbole_adresser]

variable (host) in
/-- The word of an entry, when no other entry writes there. -/
theorem readAt_bilan_correction {w : World}
    (hin : ∀ x ∈ relocations h w.elf, place h w.elf x.rel + 4 ≤ source.length)
    {x : Relocation} (hx : x ∈ relocations h w.elf) {p : Patch}
    (hp : correction h w.elf source addrText addrData x = some p)
    (halone : ∀ y ∈ relocations h w.elf, y ≠ x → y.supported = true →
      Disjoint (fenetre h w.elf x) (fenetre h w.elf y)) :
    Patch.readAt (bilan h source addrText addrData host w).dest (place h w.elf x.rel) 4 = p.bytes := by
  -- the entries after this one are others, so their words are elsewhere
  obtain ⟨pre, post, hsplit⟩ := List.append_of_mem hx
  have hnodup := nodup_relocations h w.elf
  rw [hsplit, List.nodup_append, List.nodup_cons] at hnodup
  have hpatches : (atteintes h w.elf source).filterMap (correction h w.elf source addrText addrData) =
      pre.filterMap (correction h w.elf source addrText addrData) ++
        p :: post.filterMap (correction h w.elf source addrText addrData) := by
    rw [atteintes_eq hin, hsplit, List.filterMap_append, List.filterMap_cons_some hp]
  obtain ⟨hoff, hlen, -, -⟩ := correction_eq_some hp
  rw [bilan, hpatches, ← hoff, ← hlen]
  refine Patch.readAt_applyAll fun q hq => ?_
  obtain ⟨y, hy, hqy⟩ := List.mem_filterMap.mp hq
  obtain ⟨hoff', hlen', -, hsup⟩ := correction_eq_some hqy
  have hmem : y ∈ relocations h w.elf := by
    rw [hsplit]
    exact List.mem_append_right _ (List.mem_cons_of_mem _ hy)
  have hne : y ≠ x := fun heq => hnodup.2.1.1 (heq ▸ hy)
  have hdisj := halone y hmem hne hsup
  rw [Patch.positions, Patch.positions, hoff, hlen, hoff', hlen']
  exact hdisj

/-- The word of an absolute relocation that no other entry writes. -/
theorem readAt_bilan_abs32 {w : World}
    (hin : ∀ x ∈ relocations h w.elf, place h w.elf x.rel + 4 ≤ source.length)
    {x : Relocation} (hx : x ∈ relocations h w.elf) (habs : elf32RType x.rel.rInfo = rArmAbs32)
    (halone : ∀ y ∈ relocations h w.elf, y ≠ x → y.supported = true →
      Disjoint (fenetre h w.elf x) (fenetre h w.elf y)) :
    Patch.readAt (bilan h source addrText addrData host w).dest (place h w.elf x.rel) 4 =
      (word true).encode ((word true).decode (Patch.readAt source (place h w.elf x.rel) 4) +
        adresseAbsolueSymbole h w.elf addrText addrData (symboleDe h w.elf x.rel)) := by
  refine readAt_bilan_correction host (p := ⟨place h w.elf x.rel, _⟩) hin hx ?_ halone
  rw [correction, lisible, if_pos (decide_eq_true (hin x hx)), valeurCorrigee, if_pos habs]
  rfl

/-- A byte outside the section header table and the words of the supported entries. -/
theorem getElem?_bilan {w : World} (hfull : w.elf.TableFull) {k : Nat} (hk : k < w.dest.length)
    (hsht : k ∉ shtWindow w.elf)
    (hout : ∀ x ∈ relocations h w.elf, x.supported = true → k ∉ fenetre h w.elf x) :
    (bilan h source addrText addrData host w).dest[k]? = w.dest[k]? := by
  have hdest := fwriteShAddrTestData_dest h host addrText addrData w hfull
  have hlen : ((shdr true).encodeAll (adresser h w.elf addrText addrData).shtable).length =
      40 * w.elf.shnum := (tableFull_adresser h addrText addrData hfull).length_encodeAll
  change (Patch.applyAll _ (fwriteShAddrTestData h host addrText addrData w).dest)[k]? = _
  rw [hdest, Patch.getElem?_applyAll (Nat.lt_of_lt_of_le hk (Patch.length_le_writeAt _ _ _)),
    Patch.getElem?_writeAt_of_notMem hk (by rwa [hlen])]
  intro p hp
  obtain ⟨x, hx, hpx⟩ := List.mem_filterMap.mp hp
  obtain ⟨hoff, hlen, -, hsup⟩ := correction_eq_some hpx
  rw [Patch.positions, hoff, hlen]
  exact hout x (Loop.mem_of_mem_reached hx) hsup

end

/-- Absolute relocations leave the sum of the word in the source and the corrected value
of the symbol; the words written are those of the supported entries, all of them, and
nothing else changes outside the section header table. -/
theorem appliquerRelocations_result (h : Heap) (host : Bool) (e : Elf32) (source : List UInt8)
    (addrText addrData : UInt32) (hsub : SubscriptsInRange h e)
    (hin : ∀ x ∈ relocations h e, place h e x.rel + 4 ≤ source.length) :
    ∃ w', appliquerRelocations h host source addrText addrData ⟨e, source, []⟩ = .ok w' ∧
      (∀ x ∈ relocations h e, elf32RType x.rel.rInfo = rArmAbs32 →
        (∀ y ∈ relocations h e, y ≠ x → y.supported = true →
          Disjoint (fenetre h e x) (fenetre h e y)) →
        Patch.readAt w'.dest (place h e x.rel) 4 = (word true).encode
          ((word true).decode (Patch.readAt source (place h e x.rel) 4) +
            (symAt h (corrigerSymboles h host addrText addrData w').elf.symtable
              (elf32RSym x.rel.rInfo).toNat).stValue)) ∧
      (∀ k < source.length, k ∉ shtWindow e →
        (∀ x ∈ relocations h e, x.supported = true → k ∉ fenetre h e x) →
        w'.dest[k]? = source[k]?) ∧
      ∀ i j, (∃ off bytes, Access.patch i j off bytes ∈ w'.log) ↔
        ∃ x ∈ relocations h e, x.supported = true ∧ x.i = i ∧ x.j = j := by
  have hall : (relocations h e).all (lisible h e source) = true :=
    List.all_eq_true.mpr fun x hx => decide_eq_true (hin x hx)
  refine ⟨bilan h source addrText addrData host ⟨e, source, []⟩, ?_, fun x hx habs halone => ?_,
    fun k hk hsht hout => getElem?_bilan (w := ⟨e, source, []⟩) hsub.full hk hsht hout, fun i j => ?_⟩
  · rw [appliquerRelocations_eq, if_pos hall]
  · have helf : (bilan h source addrText addrData host ⟨e, source, []⟩).elf =
        adresser h e addrText addrData :=
      fwriteShAddrTestData_elf h host addrText addrData ⟨e, source, []⟩
    rw [stValue_symAt_corrigerSymboles helf hsub.loaded (hsub.symbols x hx)]
    exact readAt_bilan_abs32 (w := ⟨e, source, []⟩) hin hx habs halone
  · simp only [patch_mem_bilan, List.not_mem_nil, false_or, atteintes_eq hin]
    constructor
    · rintro ⟨off, bytes, x, hx, hi, hj, hp⟩
      exact ⟨x, hx, (correction_eq_some hp).2.2.2, hi, hj⟩
    · rintro ⟨x, hx, hsup, hi, hj⟩
      have hsome := correction_isSome h e source addrText addrData x
      rw [hsup, lisible, decide_eq_true (hin x hx), Bool.and_true] at hsome
      obtain ⟨p, hp⟩ := Option.isSome_iff_exists.mp hsome
      exact ⟨p.off, p.bytes, x, hx, hi, hj, hp⟩

theorem exemple_subscripts : SubscriptsInRange tasNul (exemple 0x102) where
  full := by decide +kernel
  text := by decide +kernel
  data := by decide +kernel
  entries := by decide
  rels := by decide
  loaded := by decide +kernel
  symbols := by decide +kernel
  sections := by decide +kernel

theorem appliquerRelocations_result_exemple :
    ∃ w', appliquerRelocations tasNul false (exempleImage 0x102) 0x20 0x2800
        ⟨exemple 0x102, exempleImage 0x102, []⟩ = .ok w' ∧
      (∀ x ∈ relocations tasNul (exemple 0x102), elf32RType x.rel.rInfo = rArmAbs32 →
        (∀ y ∈ relocations tasNul (exemple 0x102), y ≠ x → y.supported = true →
          Disjoint (fenetre tasNul (exemple 0x102) x) (fenetre tasNul (exemple 0x102) y)) →
        Patch.readAt w'.dest (place tasNul (exemple 0x102) x.rel) 4 = (word true).encode
          ((word true).decode
              (Patch.readAt (exempleImage 0x102) (place tasNul (exemple 0x102) x.rel) 4) +
            (symAt tasNul (corrigerSymboles tasNul false 0x20 0x2800 w').elf.symtable
              (elf32RSym x.rel.rInfo).toNat).stValue)) ∧
      (∀ k < (exempleImage 0x102).length, k ∉ shtWindow (exemple 0x102) →
        (∀ x ∈ relocations tasNul (exemple 0x102), x.supported = true →
          k ∉ fenetre tasNul (exemple 0x102) x) →
        w'.dest[k]? = (exempleImage 0x102)[k]?) ∧
      ∀ i j, (∃ off bytes, Access.patch i j off bytes ∈ w'.log) ↔
        ∃ x ∈ relocations tasNul (exemple 0x102), x.supported = true ∧ x.i = i ∧ x.j = j :=
  appliquerRelocations_result tasNul false (exemple 0x102) (exempleImage 0x102) 0x20 0x2800
    exemple_subscripts (by decide +kernel)

/-! ## The place of a relocation -/

/-- The section that a relocation table applies to: the one its `sh_info` designates. -/
def sectionVisee (h : Heap) (e : Elf32) (x : Relocation) : Elf32Shdr :=
  shdrAt h e.shtable
    (shdrAt h e.shtable (entryAt h e.reltab.entries x.i).shndx).shInfo.toNat

/-- The section that defines the symbol of the entry. -/
def sectionSymbole (h : Heap) (e : Elf32) (x : Relocation) : Elf32Shdr :=
  shdrAt h e.shtable (symboleDe h e x.rel).stShndx.toNat

/-- Where the entry is meant to be applied: at `r_offset` in the section of its table. -/
def lieuAttendu (h : Heap) (e : Elf32) (x : Relocation) : Nat :=
  (sectionVisee h e x).shOffset.toNat + x.rel.rOffset.toNat

/-- The run read the word of the entry at `off` and, unless it stopped there, wrote the
result back at `off`; it read and wrote for this entry nowhere else. -/
structure AppliedAt (source : List UInt8) (log : List Access) (x : Relocation) (off : Nat) : Prop where
  read : Access.addend x.i x.j off ∈ log
  written : x.supported = true → off + 4 ≤ source.length →
    ∃ bytes, Access.patch x.i x.j off bytes ∈ log
  only_read : ∀ off', Access.addend x.i x.j off' ∈ log → off' = off
  only_written : ∀ off' bytes, Access.patch x.i x.j off' bytes ∈ log → off' = off

/-- An entry that the run gets to is applied at the place computed from the section of
its symbol. -/
theorem appliedAt_iff (h : Heap) (host : Bool) (e : Elf32) (source dest : List UInt8)
    (addrText addrData : UInt32) {x : Relocation} (hx : x ∈ atteintes h e source) (off : Nat) :
    AppliedAt source (bilan h source addrText addrData host ⟨e, dest, []⟩).log x off ↔
      off = place h e x.rel := by
  have hsame : ∀ y ∈ atteintes h e source, x.i = y.i → x.j = y.j → x = y := fun y hy hi hj =>
    relocations_ext (Loop.mem_of_mem_reached hx) (Loop.mem_of_mem_reached hy) hi hj
  constructor
  · rintro ⟨hread, -, -, -⟩
    rw [addend_mem_bilan] at hread
    obtain ⟨y, hy, hi, hj, hoff⟩ := hread.resolve_left List.not_mem_nil
    rw [hsame y hy hi hj, hoff]
  · rintro rfl
    refine ⟨?_, fun hsup hin => ?_, fun off' hread => ?_, fun off' bytes hwritten => ?_⟩
    · rw [addend_mem_bilan]
      exact Or.inr ⟨x, hx, rfl, rfl, rfl⟩
    · have hsome := correction_isSome h e source addrText addrData x
      rw [hsup, lisible, decide_eq_true hin] at hsome
      obtain ⟨p, hp⟩ := Option.isSome_iff_exists.mp hsome
      obtain ⟨off, bytes⟩ := p
      obtain rfl := (correction_eq_some hp).1
      exact ⟨bytes, (patch_mem_bilan ..).mpr (Or.inr ⟨x, hx, rfl, rfl, hp⟩)⟩
    · rw [addend_mem_bilan] at hread
      obtain ⟨y, hy, hi, hj, hoff⟩ := hread.resolve_left List.not_mem_nil
      rw [hsame y hy hi hj, hoff]
    · rw [patch_mem_bilan] at hwritten
      obtain ⟨y, hy, hi, hj, hp⟩ := hwritten.resolve_left List.not_mem_nil
      rw [hsame y hy hi.symm hj.symm]
      exact (correction_eq_some hp).1

/-- A relocation is applied in the section of its table exactly when that section and
the one that defines its symbol start at the same offset. -/
theorem appliquerRelocations_place_iff (h : Heap) (host : Bool) (e : Elf32)
    (source dest : List UInt8) (addrText addrData : UInt32) {x : Relocation}
    (hx : x ∈ atteintes h e source) :
    AppliedAt source (appliquerRelocations h host source addrText addrData ⟨e, dest, []⟩).world.log x
        (lieuAttendu h e x) ↔
      (sectionSymbole h e x).shOffset = (sectionVisee h e x).shOffset ∧
        lieuAttendu h e x < 2 ^ 32 := by
  have hs := (sectionSymbole h e x).shOffset.toNat_lt
  have hv := (sectionVisee h e x).shOffset.toNat_lt
  have hr := x.rel.rOffset.toNat_lt
  have hplace : place h e x.rel =
      ((sectionSymbole h e x).shOffset.toNat + x.rel.rOffset.toNat) % 2 ^ 32 := by
    rw [place, UInt32.toNat_add]
    rfl
  rw [appliquerRelocations_world, appliedAt_iff h host e source dest addrText addrData hx, hplace,
    lieuAttendu, ← UInt32.toNat_inj]
  omega

theorem appliquerRelocations_place_iff_exemple :
    AppliedAt (exempleImage 0x102) (appliquerRelocations tasNul false (exempleImage 0x102)
        0x20 0x2800 ⟨exemple 0x102, exempleImage 0x102, []⟩).world.log ⟨0, 0, ⟨4, 0x102⟩⟩
        (lieuAttendu tasNul (exemple 0x102) ⟨0, 0, ⟨4, 0x102⟩⟩) ↔
      (sectionSymbole tasNul (exemple 0x102) ⟨0, 0, ⟨4, 0x102⟩⟩).shOffset =
          (sectionVisee tasNul (exemple 0x102) ⟨0, 0, ⟨4, 0x102⟩⟩).shOffset ∧
        lieuAttendu tasNul (exemple 0x102) ⟨0, 0, ⟨4, 0x102⟩⟩ < 2 ^ 32 :=
  appliquerRelocations_place_iff tasNul false (exemple 0x102) (exempleImage 0x102)
    (exempleImage 0x102) 0x20 0x2800 (by decide +kernel)

/-- A word of `.text` that refers to a symbol of `.data`: offset 56 is meant, and the
word at offset 72, in `.data`, is the one changed. -/
theorem relocation_in_data_exemple :
    mainLecture tasNul false (exempleImage 0x202) = some (exemple 0x202) ∧
      ⟨0, 0, ⟨4, 0x202⟩⟩ ∈ relocations tasNul (exemple 0x202) ∧
      4 + 4 ≤ (sectionVisee tasNul (exemple 0x202) ⟨0, 0, ⟨4, 0x202⟩⟩).shSize.toNat ∧
      lieuAttendu tasNul (exemple 0x202) ⟨0, 0, ⟨4, 0x202⟩⟩ = 56 ∧
      ¬AppliedAt (exempleImage 0x202) (appliquerRelocations tasNul false (exempleImage 0x202)
        0x20 0x2800 ⟨exemple 0x202, exempleImage 0x202, []⟩).world.log ⟨0, 0, ⟨4, 0x202⟩⟩ 56 := by
  refine ⟨by decide +kernel, by decide +kernel, by decide +kernel, by decide +kernel,
    fun happlied => ?_⟩
  exact absurd (happlied.only_written 72 [0, 0, 0x28, 2] (by decide +kernel)) (by decide)

/-! ## What must not be touched -/

/-- Byte `k` of the file is in the header, the section header table, the symbol table or
a string table. -/
def Protege (e : Elf32) (k : Nat) : Prop :=
  k < 52 ∨ k ∈ shtWindow e ∨ ∃ s ∈ e.shtable, (s.shType = shtSymtab ∨ s.shType = shtStrtab) ∧
    k ∈ Patch.window s.shOffset.toNat s.shSize.toNat

instance (e : Elf32) (k : Nat) : Decidable (Protege e k) :=
  inferInstanceAs (Decidable (_ ∨ k ∈ Patch.window _ _ ∨ ∃ s ∈ e.shtable, _ ∧ k ∈ Patch.window _ _))

/-- Byte `k` is in the `sh_addr` of the header of `.text` or `.data`. -/
def AdresseTextData (h : Heap) (e : Elf32) (k : Nat) : Prop :=
  ∃ i : Nat, (getSectionIndex h e dotText = i ∨ getSectionIndex h e dotData = i) ∧
    k ∈ Patch.window (e.elfhdr.eShoff.toNat + 40 * i + 12) 4

/-- Every subscript of the run is inside the section table and no relocation writes a
protected byte. -/
structure TouchesContentsOnly (e : Elf32) (log : List Access) : Prop where
  subscripts : ∀ i : Int, Access.shtable i ∈ log → 0 ≤ i ∧ i < e.shnum
  patches : ∀ i j off bytes, Access.patch i j off bytes ∈ log →
    ∀ k ∈ Patch.window off bytes.length, ¬Protege e k

/-- The word at `off` lies on one side of the header, of the section header table and of
each symbol or string table. -/
def MotLibre (e : Elf32) (off : Nat) : Prop :=
  52 ≤ off ∧ (off + 4 ≤ e.elfhdr.eShoff.toNat ∨ e.elfhdr.eShoff.toNat + 40 * e.shnum ≤ off) ∧
    ∀ s ∈ e.shtable, s.shType = shtSymtab ∨ s.shType = shtStrtab → s.shSize.toNat = 0 ∨
      off + 4 ≤ s.shOffset.toNat ∨ s.shOffset.toNat + s.shSize.toNat ≤ off

instance (e : Elf32) (off : Nat) : Decidable (MotLibre e off) :=
  inferInstanceAs (Decidable (_ ∧ _ ∧ ∀ s ∈ e.shtable, _))

theorem motLibre_iff {e : Elf32} {off : Nat} (hn : 0 < e.shnum) :
    MotLibre e off ↔ ∀ k ∈ Patch.window off 4, ¬Protege e k := by
  have hsht : Disjoint (Patch.window off 4) (shtWindow e) ↔
      off + 4 ≤ e.elfhdr.eShoff.toNat ∨ e.elfhdr.eShoff.toNat + 40 * e.shnum ≤ off := by
    rw [shtWindow, Patch.disjoint_window_iff]
    omega
  have htable : ∀ s : Elf32Shdr,
      Disjoint (Patch.window off 4) (Patch.window s.shOffset.toNat s.shSize.toNat) ↔
      s.shSize.toNat = 0 ∨ off + 4 ≤ s.shOffset.toNat ∨ s.shOffset.toNat + s.shSize.toNat ≤ off := by
    intro s
    rw [Patch.disjoint_window_iff]
    omega
  simp only [MotLibre, ← hsht, ← htable, Set.disjoint_left]
  constructor
  · rintro ⟨hheader, hout, houts⟩ k hk (hc | hc | ⟨s, hs, htype, hc⟩)
    · rw [Patch.mem_window] at hk
      omega
    · exact hout hk hc
    · exact houts s hs htype hk hc
  · intro hfree
    refine ⟨?_, fun k hk hc => hfree k hk (Or.inr (Or.inl hc)),
      fun s hs htype k hk hc => hfree k hk (Or.inr (Or.inr ⟨s, hs, htype, hc⟩))⟩
    by_contra hc
    exact hfree off (Patch.mem_window.mpr (by omega)) (Or.inl (by omega))

/-- `.text` and `.data` exist, and every entry the run gets to has a symbol defined in a
section and, if it is to be written, a word apart from the tables. -/
structure Confined (h : Heap) (e : Elf32) (source : List UInt8) : Prop where
  text : 0 ≤ getSectionIndex h e dotText
  data : 0 ≤ getSectionIndex h e dotData
  sections : ∀ x ∈ atteintes h e source, (symboleDe h e x.rel).stShndx.toNat < e.shnum
  words : ∀ x ∈ atteintes h e source, lisible h e source x = true → x.supported = true →
    MotLibre e (place h e x.rel)

theorem Confined.unprotected {h : Heap} {e : Elf32} {source : List UInt8} (hconf : Confined h e source)
    {x : Relocation} (hx : x ∈ atteintes h e source) (hl : lisible h e source x = true)
    (hsup : x.supported = true) : ∀ k ∈ fenetre h e x, ¬Protege e k :=
  (motLibre_iff (Nat.lt_of_le_of_lt (Nat.zero_le _) (hconf.sections x hx))).mp (hconf.words x hx hl hsup)

section

variable {h : Heap} {host : Bool} {e : Elf32} {source dest : List UInt8} {addrText addrData : UInt32}

theorem relocationSubs_bounds {s : Elf32Sym} (hs : s.stShndx.toNat < e.shnum) {i : Int}
    (hi : i ∈ relocationSubs h e s) : 0 ≤ i ∧ i < e.shnum := by
  rcases List.mem_cons.mp hi with rfl | hi
  · exact ⟨Int.natCast_nonneg _, Int.ofNat_lt.mpr hs⟩
  · split at hi
    · rcases List.mem_append.mp hi with hi | hi
      · exact getSectionIndexSubs_bounds hi
      · exact getSectionIndexSubs_bounds hi
    · exact absurd hi List.not_mem_nil

theorem confined_of_touchesContentsOnly
    (htouches : TouchesContentsOnly e (bilan h source addrText addrData host ⟨e, dest, []⟩).log) :
    Confined h e source := by
  obtain ⟨hsub, hpatch⟩ := htouches
  have hin : ∀ i ∈ affecteSubs h e, 0 ≤ i := fun i hi =>
    (hsub i ((shtable_mem_bilan ..).mpr (Or.inr (Or.inl hi)))).1
  have hsection : ∀ x ∈ atteintes h e source, (symboleDe h e x.rel).stShndx.toNat < e.shnum := by
    intro x hx
    have hmem := hsub _ ((shtable_mem_bilan ..).mpr
      (Or.inr (Or.inr (Or.inr ⟨x, hx, List.mem_cons_self⟩))))
    exact Int.ofNat_lt.mp hmem.2
  refine ⟨hin _ (by simp [affecteSubs]), hin _ (by simp [affecteSubs]), hsection,
    fun x hx hl hsup => ?_⟩
  refine (motLibre_iff (Nat.lt_of_le_of_lt (Nat.zero_le _) (hsection x hx))).mpr fun k hk => ?_
  have hsome := correction_isSome h e source addrText addrData x
  rw [hl, hsup] at hsome
  obtain ⟨⟨off, bytes⟩, hp⟩ := Option.isSome_iff_exists.mp hsome
  obtain ⟨hoff, hlen, -, -⟩ := correction_eq_some hp
  refine hpatch x.i x.j off bytes ((patch_mem_bilan ..).mpr (Or.inr ⟨x, hx, rfl, rfl, hp⟩)) k ?_
  rw [show off = _ from hoff, show bytes.length = _ from hlen]
  exact hk

theorem Confined.touchesContentsOnly (hconf : Confined h e source) :
    TouchesContentsOnly e (bilan h source addrText addrData host ⟨e, dest, []⟩).log where
  subscripts i hi := by
    rw [shtable_mem_bilan] at hi
    rcases hi.resolve_left List.not_mem_nil with hi | hi | ⟨x, hx, hi⟩
    · exact affecteSubs_bounds_iff.mpr ⟨hconf.text, hconf.data⟩ i hi
    · exact swapShtableSubs_bounds hi
    · exact relocationSubs_bounds (hconf.sections x hx) hi
  patches i j off bytes hp k hk := by
    rw [patch_mem_bilan] at hp
    obtain ⟨x, hx, -, -, hp⟩ := hp.resolve_left List.not_mem_nil
    obtain ⟨hoff, hlen, hl, hsup⟩ := correction_eq_some hp
    rw [show off = _ from hoff, show bytes.length = _ from hlen] at hk
    exact hconf.unprotected hx hl hsup k hk

/-- Rewriting the section table with its addresses changes the two addresses. -/
theorem getElem?_writeAt_adresser (hfull : e.TableFull)
    (hsht : Patch.readAt dest e.elfhdr.eShoff.toNat (40 * e.shnum) = (shdr true).encodeAll e.shtable)
    {k : Nat} (hk : k < dest.length) (hout : ¬AdresseTextData h e k) :
    (Patch.writeAt dest e.elfhdr.eShoff.toNat
      ((shdr true).encodeAll (adresser h e addrText addrData).shtable))[k]? = dest[k]? := by
  have hlen : ((shdr true).encodeAll (adresser h e addrText addrData).shtable).length = 40 * e.shnum :=
    (tableFull_adresser h addrText addrData hfull).length_encodeAll
  rw [Patch.getElem?_writeAt _ _ _ _ (Or.inl hk), hlen]
  split
  next hin =>
    -- the byte is byte `r` of entry `q` of the table
    have hread := Patch.getElem?_readAt dest e.elfhdr.eShoff.toNat (40 * e.shnum) (k - e.elfhdr.eShoff.toNat)
    rw [if_pos (by omega), Nat.add_sub_of_le hin.1, hsht] at hread
    rw [← hread, Codec.getElem?_encodeAll _ (by decide), Codec.getElem?_encodeAll _ (by decide),
      getElem?_adresser, size_shdr]
    cases e.shtable[(k - e.elfhdr.eShoff.toNat) / 40]? with
    | none => rfl
    | some s =>
      simp only [Option.map_some, Option.bind_some]
      by_cases hr : (k - e.elfhdr.eShoff.toNat) % 40 < 12 ∨ 16 ≤ (k - e.elfhdr.eShoff.toNat) % 40
      · exact getElem?_encode_shAddr s _ hr
      · have hne : ∀ name, name = dotText ∨ name = dotData →
            ¬getSectionIndex h e name = ((k - e.elfhdr.eShoff.toNat) / 40 : Nat) := by
          rintro name hname hi
          refine hout ⟨(k - e.elfhdr.eShoff.toNat) / 40, ?_, by rw [Patch.mem_window]; omega⟩
          rcases hname with rfl | rfl
          · exact Or.inl hi
          · exact Or.inr hi
        rw [if_neg (hne _ (Or.inr rfl)), if_neg (hne _ (Or.inl rfl))]
  next => rfl

end

/-- The run stays inside the section table and writes no protected byte exactly when the
entries are confined; then no protected byte of the destination changes but those of
the addresses of `.text` and `.data`. -/
theorem appliquerRelocations_contents_only (h : Heap) (host : Bool) {e : Elf32} {f : List UInt8}
    (addrText addrData : UInt32) (hload : mainLecture h host f = some e) :
    (TouchesContentsOnly e
        (appliquerRelocations h host f addrText addrData ⟨e, f, []⟩).world.log ↔ Confined h e f) ∧
      (40 ≤ e.elfhdr.eShentsize.toNat → Confined h e f →
        ∀ k < f.length, Protege e k → ¬AdresseTextData h e k →
          (appliquerRelocations h host f addrText addrData ⟨e, f, []⟩).world.dest[k]? = f[k]?) := by
  rw [appliquerRelocations_world]
  refine ⟨⟨confined_of_touchesContentsOnly, fun hconf => hconf.touchesContentsOnly⟩,
    fun hsize hconf k hk hprot hout => ?_⟩
  obtain ⟨-, hread, -⟩ := mainLecture_some hload
  obtain ⟨htable, hfit⟩ := readShtable_some hsize hread
  have hfull : e.TableFull := by rw [Elf32.TableFull, htable, Codec.length_decodeAll]; rfl
  have hsht : Patch.readAt f e.elfhdr.eShoff.toNat (40 * e.shnum) = (shdr true).encodeAll e.shtable := by
    rw [htable, Codec.encodeAll_decodeAll]
    · rfl
    · rw [size_shdr, List.length_drop]
      omega
  have hdest := fwriteShAddrTestData_dest h host addrText addrData ⟨e, f, []⟩ hfull
  change (Patch.applyAll _ (fwriteShAddrTestData h host addrText addrData ⟨e, f, []⟩).dest)[k]? = _
  rw [hdest, Patch.getElem?_applyAll (Nat.lt_of_lt_of_le hk (Patch.length_le_writeAt _ _ _)),
    getElem?_writeAt_adresser hfull hsht hk hout]
  intro p hp hkp
  obtain ⟨x, hx, hpx⟩ := List.mem_filterMap.mp hp
  obtain ⟨hoff, hlen, hl, hsup⟩ := correction_eq_some hpx
  rw [Patch.positions, hoff, hlen] at hkp
  exact hconf.unprotected hx hl hsup k hkp hprot

theorem exemple_confined : Confined tasNul (exemple 0x102) (exempleImage 0x102) where
  text := by decide +kernel
  data := by decide +kernel
  sections := by decide +kernel
  words := by decide +kernel

theorem appliquerRelocations_contents_only_exemple :
    TouchesContentsOnly (exemple 0x102) (appliquerRelocations tasNul false (exempleImage 0x102)
        0x20 0x2800 ⟨exemple 0x102, exempleImage 0x102, []⟩).world.log ∧
      ∀ k < (exempleImage 0x102).length, Protege (exemple 0x102) k →
        ¬AdresseTextData tasNul (exemple 0x102) k →
        (appliquerRelocations tasNul false (exempleImage 0x102) 0x20 0x2800
          ⟨exemple 0x102, exempleImage 0x102, []⟩).world.dest[k]? = (exempleImage 0x102)[k]? := by
  have hresult := appliquerRelocations_contents_only tasNul false 0x20 0x2800
    (show mainLecture tasNul false (exempleImage 0x102) = some (exemple 0x102) by decide +kernel)
  exact ⟨hresult.1.mpr exemple_confined, hresult.2 (by decide +kernel) exemple_confined⟩

/-- A branch to an undefined symbol: its word is taken at offset 4 of the file, and byte 7
of the ELF header changes. -/
theorem relocation_in_header_exemple :
    mainLecture tasNul false (exempleImage 0x1c) = some (exemple 0x1c) ∧
      Protege (exemple 0x1c) 7 ∧ ¬AdresseTextData tasNul (exemple 0x1c) 7 ∧
      (exempleImage 0x1c)[7]? = some 0 ∧
      (appliquerRelocations tasNul false (exempleImage 0x1c) 0x20 0x2800
        ⟨exemple 0x1c, exempleImage 0x1c, []⟩).world.dest[7]? = some 0xfc := by
  refine ⟨by decide +kernel, Or.inl (by decide), ?_, by decide +kernel, by decide +kernel⟩
  rintro ⟨i, -, hk⟩
  rw [Patch.mem_window, show (exemple 0x1c).elfhdr.eShoff.toNat = 176 from rfl] at hk
  omega

end ElfLinker
