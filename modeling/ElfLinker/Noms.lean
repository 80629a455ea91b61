import ElfLinker.Coherence

/-!
The table of section names. The loader finds it by `e_shstrndx`, a deletion looks it up
again by the name `.shstrtab`; the two agree exactly when the section is the first that
stays under this name.
-/

namespace ElfLinker

/-- The loader up to the section names. -/
def relireNoms (h : Heap) (host : Bool) (f : List UInt8) : Option Elf32 := do
  let elfhdr ← readHeader host f
  let shtable ← readShtable h host f elfhdr
  readStrtab h f ⟨elfhdr, shtable, [], ⟨[], 0⟩, [], [], 0⟩ dotShstrtab

/-- The destination has the layout that `elfdata` says, with the section names apart
from the parts that a deletion rewrites. -/
structure NamesApart (h : Heap) (w : World) : Prop where
  disposition : Disposition h w.elf w.dest.length
  past : ¬pastIsSymtab h w.elf.shnum
  strings : ∀ s, w.elf.shtable[w.elf.elfhdr.eShstrndx.toNat]? = some s →
    Patch.readAt w.dest s.shOffset.toNat s.shSize.toNat = w.elf.shStrtab ∧
      Disjoint (Patch.window s.shOffset.toNat s.shSize.toNat) (partsWindow h w.elf)

/-- After the deletion of section `index` the header, in memory and as it was written,
designates the same table of names, and what is read back has the same names. -/
structure NamesKept (h : Heap) (host : Bool) (index : Nat) (w w' : World) : Prop where
  memory : w'.elf.elfhdr.eShstrndx.toNat = Deletion.renumber index w.elf.elfhdr.eShstrndx.toNat
  written : Access.write 0 ((ehdr true).encode w'.elf.elfhdr) ∈ w'.log
  names : NamesApart h w → ∃ e, relireNoms h host w'.dest = some e ∧
    e.elfhdr.eShstrndx = w'.elf.elfhdr.eShstrndx ∧ e.shStrtab = w.elf.shStrtab ∧
    ∀ k s, k ≠ index → w.elf.shtable[k]? = some s →
      ∃ s', e.shtable[Deletion.renumber index k]? = some s' ∧ s'.shName = s.shName

section

variable {h : Heap} {host : Bool} {w w' : World} {index : Nat} {r : Elf32Shdr}

/-- The new `e_shstrndx` is right when the search by name stops at the table. -/
theorem shstrndx_suppression_iff {e : Elf32} (hfull : e.TableFull) (hi : index < e.shnum)
    (hstr : e.elfhdr.eShstrndx.toNat < e.shnum) (hne : e.elfhdr.eShstrndx.toNat ≠ index) :
    (suppression h e index).elfhdr.eShstrndx.toNat =
        Deletion.renumber index e.elfhdr.eShstrndx.toNat ↔
      nameIs h e dotShstrtab e.elfhdr.eShstrndx.toNat = true ∧
        ∀ j < e.elfhdr.eShstrndx.toNat, j ≠ index → nameIs h e dotShstrtab j = false := by
  have hlt : e.shnum < 2 ^ 16 := e.elfhdr.eShnum.toNat_lt
  have hnew := Deletion.renumber_lt hstr hi hne
  rw [← getSectionIndex_retrecir_eq_iff hfull hi hstr hne, suppression_elfhdr]
  exact half_getSectionIndex_eq_iff (by omega)

/-- A file that mirrors `elfdata` gives its names back when the table of names is still
where its header says. -/
theorem relireNoms_eq {e : Elf32} {dest : List UInt8} (hc : Coherent h host dest e) :
    relireNoms h host dest = some ⟨e.elfhdr, e.shtable, [], ⟨[], 0⟩,
      Patch.readAt dest (shdrAt h e.shtable e.elfhdr.eShstrndx.toNat).shOffset.toNat
        (shdrAt h e.shtable e.elfhdr.eShstrndx.toNat).shSize.toNat, [], 0⟩ := by
  rw [relireNoms, hc.header]
  simp only [Option.bind_eq_bind, Option.bind_some, hc.shtable, readStrtab, if_true]

theorem names_of_memory (hr : w.elf.shtable[index]? = some r) (hrel : isRel r.shType = true)
    (hstr : w.elf.elfhdr.eShstrndx.toNat < w.elf.shnum)
    (hne : w.elf.elfhdr.eShstrndx.toNat ≠ index) (hrun : supprimeSh h host index w = .ok w')
    (hmem : w'.elf.elfhdr.eShstrndx.toNat = Deletion.renumber index w.elf.elfhdr.eShstrndx.toNat)
    (hapart : NamesApart h w) :
    ∃ e, relireNoms h host w'.dest = some e ∧ e.elfhdr.eShstrndx = w'.elf.elfhdr.eShstrndx ∧
      e.shStrtab = w.elf.shStrtab ∧
      ∀ k s, k ≠ index → w.elf.shtable[k]? = some s →
        ∃ s', e.shtable[Deletion.renumber index k]? = some s' ∧ s'.shName = s.shName := by
  have hfull := hapart.disposition.unique.full
  have hi := hfull.lt_shnum hr
  obtain ⟨hd', hreflete, -, -, hso⟩ := supprimeSh_coherent hapart.disposition hr hrel hapart.past hrun
  have hentry : ∀ k s, k ≠ index → w.elf.shtable[k]? = some s →
      ∃ s', w'.elf.shtable[Deletion.renumber index k]? = some s' ∧ sansLien s' = sansLien s := by
    intro k s hk hs
    rw [supprimeSh_elf hrun, suppression_entry hfull hi, Deletion.origin_renumber hk, hs]
    exact ⟨_, rfl, sansLien_relink _ _ s⟩
  have hs := shdrAt_of_lt h (Nat.lt_of_lt_of_eq hstr hfull.symm)
  obtain ⟨hstrings, hdisj⟩ := hapart.strings _ hs
  obtain ⟨s', hs', heq⟩ := hentry _ _ hne hs
  refine ⟨_, relireNoms_eq ((coherent_iff host hd').mpr hreflete), rfl, ?_, fun k s hk hks => ?_⟩
  · rw [hmem, shdrAt_eq hs', sansLien_field Elf32Shdr.shOffset (fun _ => rfl) heq,
      sansLien_field Elf32Shdr.shSize (fun _ => rfl) heq, ← hstrings]
    exact hso.readAt_eq hdisj
  · obtain ⟨t, ht, hname⟩ := hentry k s hk hks
    exact ⟨t, ht, sansLien_field Elf32Shdr.shName (fun _ => rfl) hname⟩

end

/-- A deletion keeps the table of section names designated exactly when that table is
named `.shstrtab` and no section that stays before it is. -/
theorem supprimeSh_names_iff (h : Heap) (host : Bool) {w : World} {index : Nat} {r : Elf32Shdr}
    (hfull : w.elf.TableFull) (hr : w.elf.shtable[index]? = some r) (hrel : isRel r.shType = true)
    (hstr : w.elf.elfhdr.eShstrndx.toNat < w.elf.shnum)
    (hne : w.elf.elfhdr.eShstrndx.toNat ≠ index) :
    ∃ w', supprimeSh h host index w = .ok w' ∧
      (NamesKept h host index w w' ↔
        nameIs h w.elf dotShstrtab w.elf.elfhdr.eShstrndx.toNat = true ∧
          ∀ j < w.elf.elfhdr.eShstrndx.toNat, j ≠ index → nameIs h w.elf dotShstrtab j = false) := by
  have hi := hfull.lt_shnum hr
  obtain ⟨w₁, hrun, helf, -, -⟩ := supprimeSh_eq h host hi (show 2 ≤ w.elf.shnum by omega)
  have hiff := shstrndx_suppression_iff (h := h) hfull hi hstr hne
  rw [← supprimeSh_elf hrun] at hiff
  refine ⟨_, hrun, fun hkept => hiff.mp hkept.memory, fun hcond => ?_⟩
  have hmem := hiff.mpr hcond
  have hlog := ecrire_log_header h host w₁
  rw [← ecrire_elf h host w₁] at hlog
  exact ⟨hmem, hlog, names_of_memory hr hrel hstr hne hrun hmem⟩

theorem supprimeSh_names_iff_exemple :
    ∃ w', supprimeSh tasNul false 2 ⟨exemple 0x102, exempleImage 0x102, []⟩ = .ok w' ∧
      (NamesKept tasNul false 2 ⟨exemple 0x102, exempleImage 0x102, []⟩ w' ↔
        nameIs tasNul (exemple 0x102) dotShstrtab 6 = true ∧
          ∀ j < 6, j ≠ 2 → nameIs tasNul (exemple 0x102) dotShstrtab j = false) :=
  supprimeSh_names_iff tasNul false (w := ⟨exemple 0x102, exempleImage 0x102, []⟩)
    (r := ⟨1, 9, 0, 0, 60, 8, 4, 1, 4, 8⟩) (by decide +kernel) rfl (by decide) (by decide +kernel)
    (by decide +kernel)

/-- The small object file with its two string tables merged into one, named `.strtab`. -/
def exempleFusion : Elf32 :=
  { exemple 0x102 with
    elfhdr := { exempleEntete with eShnum := 6, eShstrndx := 5 }
    shtable := (exempleSections.take 5) ++ [⟨29, 3, 0, 0, 129, 47, 0, 0, 1, 0⟩] }

/-- No section is named `.shstrtab`: `e_shstrndx` becomes 0xffff. -/
theorem supprimeSh_names_exempleFusion :
    exempleFusion.UniqueSymtab ∧
      (supprimeSh tasNul false 2 ⟨exempleFusion, [], []⟩).world.elf.elfhdr.eShstrndx = 0xffff ∧
      ∀ w', supprimeSh tasNul false 2 ⟨exempleFusion, [], []⟩ = .ok w' →
        ¬NamesKept tasNul false 2 ⟨exempleFusion, [], []⟩ w' := by
  have hshstrndx :
      (supprimeSh tasNul false 2 ⟨exempleFusion, [], []⟩).world.elf.elfhdr.eShstrndx = 0xffff := by
    decide +kernel
  refine ⟨by decide +kernel, hshstrndx, fun w' hrun hkept => ?_⟩
  have hmem := hkept.memory
  rw [hrun] at hshstrndx
  rw [show w'.elf.elfhdr.eShstrndx = 0xffff from hshstrndx] at hmem
  exact absurd hmem (by decide)

end ElfLinker
