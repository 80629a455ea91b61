import ElfLinker.Filtrage

/-!
What a deletion does to the indices kept elsewhere: the memory past the section
table, the references between sections, and the relocation tables of `elfdata`.
-/

namespace ElfLinker

/-! ## Memory past the table -/

/-- The same heap with `past` from entry `n` of the section table on. -/
def Heap.withPast (h : Heap) (n : Nat) (past : Nat → Elf32Shdr) : Heap :=
  { h with shtable := fun i => if (n : Int) ≤ i then past i.toNat else h.shtable i }

/-- Two runs end with the same structures and the same destination. -/
structure SameResult (w w' : World) : Prop where
  shnum : w.elf.shnum = w'.elf.shnum
  shtable : w.elf.shtable = w'.elf.shtable
  symtable : w.elf.symtable = w'.elf.symtable
  symtabIndex : w.elf.symtabIndex = w'.elf.symtabIndex
  dest : w.dest = w'.dest

/-- The deletion of section `index` uses the section table and nothing past it. -/
structure UsesTableOnly (h : Heap) (host : Bool) (e : Elf32) (dest : List UInt8) (index : Nat) :
    Prop where
  subscripts : ∀ i : Int,
    Access.shtable i ∈ (supprimeSh h host index ⟨e, dest, []⟩).world.log → i < e.shnum
  same : ∀ past past', SameResult
    (supprimeSh (h.withPast e.shnum past) host index ⟨e, dest, []⟩).world
    (supprimeSh (h.withPast e.shnum past') host index ⟨e, dest, []⟩).world

/-- The last turn of the loop copies the entry past the end. -/
theorem shnum_mem_decaler_log (h : Heap) (w : World) {index n : Nat} (hi : index < n) :
    Access.shtable n ∈ ((List.range' index (n - index)).foldl (decaler h) w).log := by
  rw [show n - index = (n - 1 - index) + 1 by omega, List.range'_1_concat, List.foldl_append]
  have hlast : index + (n - 1 - index) + 1 = n := by omega
  simp only [List.foldl_cons, List.foldl_nil, decaler, World.step_log, decaleSubs, hlast]
  simp

theorem supprimeSh_log_past (h : Heap) (host : Bool) (w : World) {index : Nat}
    (hi : index < w.elf.shnum) :
    Access.shtable w.elf.shnum ∈ (supprimeSh h host index w).world.log := by
  have hmem := shnum_mem_decaler_log h w hi
  by_cases htwo : 2 ≤ w.elf.shnum
  · obtain ⟨w₁, hrun, -, -, hgrows⟩ := supprimeSh_eq h host hi htwo
    rw [hrun]
    exact (ecrire_log_grows h host w₁).subset (hgrows.subset hmem)
  · simp only [supprimeSh, hi, show w.elf.shnum - 1 = 0 by omega, if_true]
    exact hmem

/-- No deletion stays inside the table: the loop runs one turn too far. -/
theorem supprimeSh_not_usesTableOnly (h : Heap) (host : Bool) (e : Elf32) (dest : List UInt8)
    {index : Nat} (hi : index < e.shnum) : ¬UsesTableOnly h host e dest index := by
  intro huse
  exact absurd (huse.subscripts _ (supprimeSh_log_past h host ⟨e, dest, []⟩ hi)) (Int.lt_irrefl _)

theorem supprimeSh_not_usesTableOnly_exemple :
    ¬UsesTableOnly tasNul false (exemple 0x102) (exempleImage 0x102) 2 :=
  supprimeSh_not_usesTableOnly tasNul false (exemple 0x102) (exempleImage 0x102) (by decide +kernel)

/-- The relocation section of a table of seven entries is deleted: entry 7 is read, and
where it has the type of a symbol table `symtabIndex` goes to 6 instead of 3. -/
theorem supprimeSh_past_exemple :
    (¬∀ i : Int, Access.shtable i ∈
        (supprimeSh tasNul false 2 ⟨exemple 0x102, exempleImage 0x102, []⟩).world.log → i < 7) ∧
      ¬∀ past past', SameResult
        (supprimeSh (tasNul.withPast 7 past) false 2 ⟨exemple 0x102, exempleImage 0x102, []⟩).world
        (supprimeSh (tasNul.withPast 7 past') false 2 ⟨exemple 0x102, exempleImage 0x102, []⟩).world := by
  constructor
  · intro hsub
    exact absurd (hsub 7 (by decide +kernel)) (by decide)
  · intro hsame
    have hindex := (hsame (fun _ => sectionNulle)
      fun _ => { sectionNulle with shType := shtSymtab }).symtabIndex
    revert hindex
    decide +kernel

/-! ## References between sections -/

/-- The types whose `sh_link` is a section the program knows how to follow. -/
def linkType (type : UInt32) : Prop :=
  type = shtSymtab ∨ type = shtRel ∨ type = shtRela ∨ type = shtGroup ∨ type = shtSymtabShndx

/-- The types whose `sh_info` is a section. -/
def infoType (type : UInt32) : Prop := type = shtRel ∨ type = shtRela

/-- `ref` designates a section that the deletion of section `index` keeps. -/
def designates (e : Elf32) (index : Nat) (ref : UInt32) : Prop :=
  ref.toNat < e.shnum ∧ ref.toNat ≠ index

/-- Between `e` and `e'` section `index` was deleted, and the references of the
sections that stay to sections that stay were renumbered. -/
def ReferencesKept (index : Nat) (e e' : Elf32) : Prop :=
  ∀ j s, j ≠ index → e.shtable[j]? = some s →
    ∃ s', e'.shtable[Deletion.renumber index j]? = some s' ∧
      (linkType s.shType → designates e index s.shLink →
        s'.shLink.toNat = Deletion.renumber index s.shLink.toNat) ∧
      (infoType s.shType → designates e index s.shInfo →
        s'.shInfo.toNat = Deletion.renumber index s.shInfo.toNat)

/-- What the code needs to rebuild the link of a section of a type: for the symbol
table its string table is found by name; for `SHT_REL` and `SHT_SYMTAB_SHNDX` it is
the symbol table, and that one is still followed; the others are left as they are. -/
def linkRebuilt (h : Heap) (e : Elf32) (index : Nat) (s : Elf32Shdr) : Prop :=
  if s.shType = shtSymtab then
    nameIs h e dotStrtab s.shLink.toNat = true ∧
      ∀ k < s.shLink.toNat, k ≠ index → nameIs h e dotStrtab k = false
  else if s.shType = shtSymtabShndx ∨ s.shType = shtRel then
    s.shLink.toNat = e.symtabIndex ∧ ¬pastIsSymtab h e.shnum
  else s.shLink.toNat < index

def ReferencesRebuilt (h : Heap) (e : Elf32) (index : Nat) : Prop :=
  ∀ j s, j ≠ index → e.shtable[j]? = some s →
    (linkType s.shType → designates e index s.shLink → linkRebuilt h e index s) ∧
      (infoType s.shType → designates e index s.shInfo → s.shInfo.toNat < index)

/-- A reference that is left as it is stays right when it is below the deleted index. -/
theorem eq_renumber_iff {index : Nat} {ref : UInt32} (hne : ref.toNat ≠ index) :
    ref.toNat = Deletion.renumber index ref.toNat ↔ ref.toNat < index := by
  rw [eq_comm, Deletion.renumber_eq_self_iff]
  omega

section

variable {h : Heap} {e : Elf32} {index : Nat} {r : Elf32Shdr}

/-- One link after the deletion. -/
theorem relink_link_iff (hu : e.UniqueSymtab) (hr : e.shtable[index]? = some r)
    (hrel : isRel r.shType = true) (s : Elf32Shdr) (hd : designates e index s.shLink) :
    (relink (UInt32.ofInt (getSectionIndex h (retrecir (decalage h e index e.shnum)) dotStrtab))
        (UInt32.ofNat (suppression h e index).symtabIndex) s).shLink.toNat =
      Deletion.renumber index s.shLink.toNat ↔ linkRebuilt h e index s := by
  have hi := hu.full.lt_shnum hr
  have hne := hu.ne_symtabIndex hr hrel
  have hin := hu.inTable
  have hlt : e.shnum < 65536 := e.elfhdr.eShnum.toNat_lt
  have hnew := Deletion.renumber_lt hd.1 hi hd.2
  unfold relink linkRebuilt
  split
  next =>
    rw [← getSectionIndex_retrecir_eq_iff hu.full hi hd.1 hd.2]
    exact word_getSectionIndex_eq_iff (by omega)
  next =>
    split
    next =>
      have hend := hu.decalage_symtabIndex_end (h := h) hi
      have hinj := Deletion.renumber_inj (Ne.symm hne) hd.2
      have hsym := Deletion.renumber_lt hin hi (Ne.symm hne)
      simp only [suppression_symtabIndex, hend]
      split
      next hpast =>
        rw [UInt32.toNat_ofNat_of_lt' (by rw [UInt32.size]; omega)]
        exact ⟨fun hc => by omega, fun hc => absurd hpast hc.2⟩
      next hpast =>
        rw [UInt32.toNat_ofNat_of_lt' (by rw [UInt32.size]; omega), hinj]
        exact ⟨fun hc => ⟨hc.symm, hpast⟩, fun hc => hc.1.symm⟩
    next => exact eq_renumber_iff hd.2

/-- A deletion keeps the references exactly when each of them is one that the code
rebuilds, or one below the deleted section. -/
theorem supprimeSh_references_iff (h : Heap) (host : Bool) {w : World} {index : Nat} {r : Elf32Shdr}
    (hu : w.elf.UniqueSymtab) (hr : w.elf.shtable[index]? = some r) (hrel : isRel r.shType = true) :
    ∃ w', supprimeSh h host index w = .ok w' ∧
      (ReferencesKept index w.elf w'.elf ↔ ReferencesRebuilt h w.elf index) := by
  have hi := hu.full.lt_shnum hr
  have hne := hu.ne_symtabIndex hr hrel
  have hin := hu.inTable
  obtain ⟨w₁, hrun, helf, -, -⟩ := supprimeSh_eq h host hi (show 2 ≤ w.elf.shnum by omega)
  refine ⟨_, hrun, forall₄_congr fun j s hj hs => ?_⟩
  have hentry := suppression_entry (h := h) hu.full hi (Deletion.renumber index j)
  rw [Deletion.origin_renumber hj, hs, Option.map_some] at hentry
  rw [ecrire_elf, helf, hentry]
  simp only [Option.some.injEq, exists_eq_left', relink_shInfo]
  refine and_congr ?_ ?_
  · exact forall₂_congr fun _ hd => relink_link_iff hu hr hrel s hd
  · exact forall₂_congr fun _ hd => eq_renumber_iff hd.2

end

theorem supprimeSh_references_iff_exemple :
    ∃ w', supprimeSh tasNul false 2 ⟨exemple 0x102, exempleImage 0x102, []⟩ = .ok w' ∧
      (ReferencesKept 2 (exemple 0x102) w'.elf ↔ ReferencesRebuilt tasNul (exemple 0x102) 2) :=
  supprimeSh_references_iff tasNul false (w := ⟨exemple 0x102, exempleImage 0x102, []⟩)
    (r := ⟨1, 9, 0, 0, 60, 8, 4, 1, 4, 8⟩) (by decide +kernel) (by decide +kernel) (by decide)

/-- The small object file with a second, empty relocation section for `.data`. -/
def exempleDeux : Elf32 where
  elfhdr := { exempleEntete with eShnum := 8, eShstrndx := 7 }
  shtable :=
    [sectionNulle,
     ⟨5, 1, 6, 0, 52, 8, 0, 0, 4, 0⟩,
     ⟨1, 9, 0, 0, 60, 8, 5, 1, 4, 8⟩,
     ⟨15, 1, 3, 0, 68, 8, 0, 0, 4, 0⟩,
     ⟨11, 9, 0, 0, 76, 0, 5, 3, 4, 8⟩,
     ⟨21, 2, 0, 0, 76, 48, 6, 3, 4, 16⟩,
     ⟨29, 3, 0, 0, 124, 5, 0, 0, 1, 0⟩,
     ⟨37, 3, 0, 0, 129, 47, 0, 0, 1, 0⟩]
  symtable := exempleSymboles
  reltab := ⟨[⟨[⟨4, 0x102⟩], [], 2, 9, 1⟩, ⟨[], [], 4, 9, 0⟩], 2⟩
  shStrtab := exempleShstrtab
  symStrtab := exempleStrtab
  symtabIndex := 5

/-- Section 2 goes, `.data` moves from 3 to 2, and the `sh_info` of the relocation
section of `.data` stays 3. -/
theorem supprimeSh_references_exempleDeux :
    exempleDeux.UniqueSymtab ∧
      ¬ReferencesKept 2 exempleDeux (supprimeSh tasNul false 2 ⟨exempleDeux, [], []⟩).world.elf := by
  refine ⟨by decide +kernel, fun hkept => ?_⟩
  obtain ⟨s', hs', -, hinfo⟩ := hkept 4 ⟨11, 9, 0, 0, 76, 0, 5, 3, 4, 8⟩ (by decide) (by decide +kernel)
  have hentry : (supprimeSh tasNul false 2 ⟨exempleDeux, [], []⟩).world.elf.shtable[3]? =
      some ⟨11, 9, 0, 0, 76, 0, 4, 3, 4, 8⟩ := by
    decide +kernel
  rw [show Deletion.renumber 2 4 = 3 by decide, hentry, Option.some.injEq] at hs'
  subst hs'
  exact absurd (hinfo (Or.inl rfl) ⟨by decide +kernel, by decide⟩) (by decide)

/-! ## The structure elfdata -/

/-- `sh_type` is that of a relocation table, `SHT_REL` or `SHT_RELA`. -/
def isRelTable (s : Elf32Shdr) : Bool := isRel s.shType || isRela s.shType

/-- The indices that `elfdata` keeps are right: `symtabIndex` is the symbol table and
`symtable` its symbols, and `reltab` has one entry for each relocation table, which
designates a section of the type it says. -/
structure Elf32.Consistent (e : Elf32) : Prop where
  full : e.TableFull
  symtab : ∃ s, e.shtable[e.symtabIndex]? = some s ∧ s.shType = shtSymtab ∧
    e.symtable.length = s.shSize.toNat / 16
  entries : ∀ k < e.reltab.entrynum, ∃ t, e.reltab.entries[k]? = some t ∧
    ∃ s, e.shtable[t.shndx]? = some s ∧ s.shType = t.relType.toUInt32
  entrynum : e.reltab.entrynum = e.shtable.countP isRelTable

section

variable {h : Heap} {host : Bool} {index : Nat} {r : Elf32Shdr} {w w' : World}

/-- A deletion removes one relocation table from the section table and none from
`reltab`. -/
theorem countP_isRelTable_supprimeSh (hfull : w.elf.TableFull) (hr : w.elf.shtable[index]? = some r)
    (hrel : isRel r.shType = true) (hrun : supprimeSh h host index w = .ok w') :
    w'.elf.shtable.countP isRelTable + 1 = w.elf.shtable.countP isRelTable ∧
      w'.elf.reltab = w.elf.reltab := by
  have helf := supprimeSh_elf hrun
  have hq : isRelTable r = true := by rw [isRelTable, hrel]; rfl
  refine ⟨?_, by rw [helf, suppression_reltab]⟩
  rw [helf, suppression_shtable hfull (hfull.lt_shnum hr), List.countP_map,
    ← Deletion.countP_eraseIdx hr hq]
  congr 1
  exact List.countP_congr fun s _ => by rw [Function.comp, isRelTable, relink_shType, isRelTable]

theorem Elf32.Consistent.not_supprimeSh (hc : w.elf.Consistent) (hr : w.elf.shtable[index]? = some r)
    (hrel : isRel r.shType = true) (hrun : supprimeSh h host index w = .ok w') :
    ¬w'.elf.Consistent := by
  intro hc'
  obtain ⟨hcount, hreltab⟩ := countP_isRelTable_supprimeSh hc.full hr hrel hrun
  have hold := hc.entrynum
  have hnew := hc'.entrynum
  rw [hreltab] at hnew
  omega

theorem Elf32.Consistent.kept {e : Elf32} (hc : e.Consistent) : ∃ s ∈ e.shtable, gardee s = true := by
  obtain ⟨s, hs, htype, -⟩ := hc.symtab
  exact ⟨s, List.mem_of_getElem? hs, gardee_symtab htype⟩

/-- Deletions lead from `e₀` to `e`: `reltab` is still that of `e₀`, which has too many
entries as soon as one section is gone. -/
structure ReltabPerime (e₀ e : Elf32) : Prop where
  full : e.TableFull
  kept : ∃ s ∈ e.shtable, gardee s = true
  reltab : e.reltab = e₀.reltab
  stale : e = e₀ ∨ e.shtable.countP isRelTable < e₀.reltab.entrynum ∧
    ∃ s ∈ e₀.shtable, isRel s.shType = true

theorem ReltabPerime.step {e₀ : Elf32} (hc : e₀.Consistent) (hw : ReltabPerime e₀ w.elf)
    (hr : w.elf.shtable[index]? = some r) (hrel : isRel r.shType = true)
    (hrun : supprimeSh h host index w = .ok w') : ReltabPerime e₀ w'.elf := by
  have hi := hw.full.lt_shnum hr
  have helf := supprimeSh_elf hrun
  obtain ⟨hcount, hreltab⟩ := countP_isRelTable_supprimeSh hw.full hr hrel hrun
  refine ⟨?_, ?_, hreltab.trans hw.reltab, Or.inr ?_⟩
  · rw [helf]
    exact suppression_tableFull hw.full hi
  · rw [helf]
    exact kept_suppression hw.full hi hr (gardee_eq_false hrel) hw.kept
  · rcases hw.stale with heq | ⟨hlt, hex⟩
    · have hentrynum := hc.entrynum
      rw [← heq] at hentrynum ⊢
      exact ⟨by omega, r, List.mem_of_getElem? hr, hrel⟩
    · exact ⟨by omega, hex⟩

theorem ReltabPerime.consistent_iff {e₀ e : Elf32} (hc : e₀.Consistent) (he : ReltabPerime e₀ e)
    (hall : ∀ s ∈ e.shtable, gardee s = true) :
    e.Consistent ↔ ∀ s ∈ e₀.shtable, isRel s.shType = false := by
  rcases he.stale with heq | ⟨hlt, s, hs, hrel⟩
  · subst heq
    refine ⟨fun _ s hs => ?_, fun _ => hc⟩
    have hkept := hall s hs
    rwa [gardee, Bool.not_eq_true'] at hkept
  · refine ⟨fun hc' => ?_, fun hnone => ?_⟩
    · have hentrynum := hc'.entrynum
      rw [he.reltab] at hentrynum
      omega
    · rw [hnone s hs] at hrel
      exact Bool.noConfusion hrel

end

theorem exemple_consistent (info : UInt32) : (exemple info).Consistent where
  full := rfl
  symtab := ⟨⟨21, 2, 0, 0, 76, 48, 5, 3, 4, 16⟩, rfl, rfl, rfl⟩
  entries k hk := by
    obtain rfl : k = 0 := Nat.lt_one_iff.mp hk
    exact ⟨_, rfl, ⟨1, 9, 0, 0, 60, 8, 4, 1, 4, 8⟩, rfl, rfl⟩
  entrynum := rfl

/-- From a consistent structure `supprime_sh` never leaves a consistent one, and
`supprime_rel_sections` does only when it has nothing to delete. -/
theorem supprime_consistent_iff (h : Heap) (host : Bool) {w : World} (hc : w.elf.Consistent) :
    (∀ index r, w.elf.shtable[index]? = some r → isRel r.shType = true →
        ∃ w', supprimeSh h host index w = .ok w' ∧ ¬w'.elf.Consistent) ∧
      ∃ w', (∀ fuel, w.elf.shnum < fuel → supprimeRelSections h host fuel w = some (.ok w')) ∧
        (w'.elf.Consistent ↔ ∀ s ∈ w.elf.shtable, isRel s.shType = false) := by
  refine ⟨fun index r hr hrel => ?_, ?_⟩
  · obtain ⟨w₁, hrun, -⟩ := supprimeSh_eq h host (hc.full.lt_shnum hr)
      (hc.full.two_le hr (gardee_eq_false hrel) hc.kept)
    exact ⟨_, hrun, hc.not_supprimeSh hr hrel hrun⟩
  · have hkeep : ∀ e (d : List UInt8), ReltabPerime w.elf e → e.TableFull ∧ ∃ s ∈ e.shtable, gardee s = true :=
      fun _ _ he => ⟨he.full, he.kept⟩
    obtain ⟨w', hrun, hend, hall⟩ := supprimeRelSections_rule (P := fun e _ => ReltabPerime w.elf e) h host w
      hkeep (fun _ _ _ _ hv hr hrel hdel => hv.step hc hr hrel hdel) ⟨hc.full, hc.kept, rfl, Or.inl rfl⟩
    exact ⟨w', hrun, hend.consistent_iff hc hall⟩

theorem supprime_consistent_iff_exemple :
    (∀ index r, (exemple 0x102).shtable[index]? = some r → isRel r.shType = true →
        ∃ w', supprimeSh tasNul false index ⟨exemple 0x102, exempleImage 0x102, []⟩ = .ok w' ∧
          ¬w'.elf.Consistent) ∧
      ∃ w', (∀ fuel, 7 < fuel → supprimeRelSections tasNul false fuel
          ⟨exemple 0x102, exempleImage 0x102, []⟩ = some (.ok w')) ∧
        (w'.elf.Consistent ↔ ∀ s ∈ (exemple 0x102).shtable, isRel s.shType = false) :=
  supprime_consistent_iff tasNul false (w := ⟨exemple 0x102, exempleImage 0x102, []⟩)
    (exemple_consistent 0x102)

/-- The only relocation section is deleted and `entrynum` stays 1. -/
theorem supprimeSh_consistent_exemple :
    (exemple 0x102).Consistent ∧
      ¬(supprimeSh tasNul false 2 ⟨exemple 0x102, exempleImage 0x102, []⟩).world.elf.Consistent :=
  ⟨exemple_consistent 0x102, fun hc => absurd hc.entrynum (by decide +kernel)⟩

end ElfLinker
