import Mathlib.Logic.Relation
import ElfLinker.Filtrage
import ElfLinker.Coherence

/-!
The order of the deletions. Whichever relocation section is deleted first, what is left
to do leads to the same `elfdata`: the sections that stay with their links rebuilt, each
symbol at the rank of its section. The destinations differ at most in the part of the
section table that is no longer used.
-/

namespace ElfLinker

/-! ## The end of a deletion -/

/-- The last two assignments of `supprime_sh` to `elfdata`. -/
def recale (h : Heap) (e : Elf32) : Elf32 := metAJourShlink h (majShstrndx h e)

theorem suppression_eq_recale (h : Heap) (e : Elf32) (index : Nat) :
    suppression h e index = recale h (retrecir (decalage h e index e.shnum)) := rfl

theorem relink_relink (a b a' b' : UInt32) (s : Elf32Shdr) : relink a b (relink a' b' s) = relink a b s := by
  unfold relink
  by_cases hsymtab : s.shType = shtSymtab
  · rw [if_pos hsymtab, if_pos hsymtab, if_pos hsymtab]
  · rw [if_neg hsymtab, if_neg hsymtab]
    by_cases hrel : s.shType = shtSymtabShndx ∨ s.shType = shtRel
    · rw [if_pos hrel, if_pos hrel, if_neg hsymtab, if_pos hrel]
    · rw [if_neg hrel, if_neg hrel, if_neg hsymtab]

/-- The same up to what those assignments change. -/
structure AuxLiensPres (e e' : Elf32) : Prop where
  elfhdr : { e'.elfhdr with eShstrndx := e.elfhdr.eShstrndx } = e.elfhdr
  shtable : e'.shtable.map (relink 0 0) = e.shtable.map (relink 0 0)
  symtable : e'.symtable = e.symtable
  reltab : e'.reltab = e.reltab
  shStrtab : e'.shStrtab = e.shStrtab
  symStrtab : e'.symStrtab = e.symStrtab
  symtabIndex : e'.symtabIndex = e.symtabIndex

section

variable {h : Heap} {e e' : Elf32}

theorem recale_eq (hfull : e.TableFull) : recale h e = { e with
    elfhdr := { e.elfhdr with eShstrndx := UInt16.ofInt (getSectionIndex h e dotShstrtab) }
    shtable := e.shtable.map
      (relink (UInt32.ofInt (getSectionIndex h e dotStrtab)) (UInt32.ofNat e.symtabIndex)) } := by
  have hmaj : (majShstrndx h e).TableFull := hfull
  have hindex : getSectionIndex h (majShstrndx h e) dotStrtab = getSectionIndex h e dotStrtab :=
    getSectionIndex_congr rfl fun k _ => rfl
  have htable : (recale h e).shtable = _ := metAJourShlink_shtable hmaj
  rw [hindex] at htable
  change { majShstrndx h e with shtable := (recale h e).shtable } = _
  rw [htable]
  rfl

theorem AuxLiensPres.getSectionIndex (hp : AuxLiensPres e e') (name : List UInt8) :
    getSectionIndex h e' name = getSectionIndex h e name := by
  have hshnum : e'.shnum = e.shnum := (congrArg (fun hdr : Elf32Ehdr => hdr.eShnum.toNat) hp.elfhdr :)
  refine getSectionIndex_congr hshnum fun k _ => ?_
  have hentry := congrArg (·[k]?) hp.shtable
  simp only [List.getElem?_map] at hentry
  have hname : (shdrAt h e'.shtable k).shName = (shdrAt h e.shtable k).shName := by
    rw [shdrAt, shdrAt, List.getD_eq_getElem?_getD, List.getD_eq_getElem?_getD]
    cases hs : e.shtable[k]? with
    | none =>
      rw [hs, Option.map_none, Option.map_eq_none_iff] at hentry
      rw [hentry]
    | some s =>
      rw [hs, Option.map_some, Option.map_eq_some_iff] at hentry
      obtain ⟨s', hs', heq⟩ := hentry
      have hfield := congrArg Elf32Shdr.shName heq
      rw [relink_field Elf32Shdr.shName (fun _ => rfl), relink_field Elf32Shdr.shName (fun _ => rfl)] at hfield
      rw [hs']
      exact hfield
  rw [nameIs, nameIs, hp.shStrtab, hname]

theorem recale_congr (hfull : e.TableFull) (hfull' : e'.TableFull) (hp : AuxLiensPres e e') :
    recale h e' = recale h e := by
  have hlinks : ∀ a b, e'.shtable.map (relink a b) = e.shtable.map (relink a b) := by
    intro a b
    have hmap := congrArg (List.map (relink a b)) hp.shtable
    simpa only [List.map_map, Function.comp_def, relink_relink] using hmap
  have hhdr : ∀ v, { e'.elfhdr with eShstrndx := v } = { e.elfhdr with eShstrndx := v } := fun v =>
    (congrArg (fun hdr : Elf32Ehdr => { hdr with eShstrndx := v }) hp.elfhdr :)
  rw [recale_eq hfull, recale_eq hfull', hp.getSectionIndex, hp.getSectionIndex, hlinks, hhdr, hp.symtable,
    hp.reltab, hp.shStrtab, hp.symStrtab, hp.symtabIndex]

theorem auxLiensPres_recale (hfull : e.TableFull) : AuxLiensPres e (recale h e) := by
  rw [recale_eq hfull]
  refine ⟨rfl, ?_, rfl, rfl, rfl, rfl, rfl⟩
  simp only [List.map_map, Function.comp_def, relink_relink]

/-- To rebuild the links twice is to rebuild them once. -/
theorem recale_recale (hfull : e.TableFull) : recale h (recale h e) = recale h e := by
  refine recale_congr hfull ?_ (auxLiensPres_recale hfull)
  rw [Elf32.TableFull, recale_eq hfull, List.length_map]
  exact hfull

end

/-! ## What is left of elfdata in the end -/

/-- A symbol at the rank of its section among those that stay; `n` sections in all. -/
def rangSym (t : List Elf32Shdr) (n : Nat) (s : Elf32Sym) : Elf32Sym :=
  if s.stShndx.toNat ≤ n then
    { s with stShndx := UInt16.ofNat (Deletion.rank gardee t s.stShndx.toNat) }
  else s

/-- `elfdata` without its relocation sections, its links as they were. -/
def sansRelocations (e : Elf32) : Elf32 :=
  { e with
    elfhdr := { e.elfhdr with eShnum := UInt16.ofNat (e.shtable.filter gardee).length }
    shtable := e.shtable.filter gardee
    symtable := e.symtable.map (rangSym e.shtable e.shnum)
    symtabIndex := Deletion.rank gardee e.shtable e.symtabIndex }

def filtre (h : Heap) (e : Elf32) : Elf32 := recale h (sansRelocations e)

theorem tableFull_sansRelocations {e : Elf32} (hfull : e.TableFull) : (sansRelocations e).TableFull := by
  have hle : (e.shtable.filter gardee).length ≤ e.shnum := hfull ▸ List.length_filter_le gardee e.shtable
  have hlt : e.shnum < 2 ^ 16 := e.elfhdr.eShnum.toNat_lt
  have hcount : (UInt16.ofNat (e.shtable.filter gardee).length).toNat = (e.shtable.filter gardee).length :=
    UInt16.toNat_ofNat_of_lt' (by rw [UInt16.size]; omega)
  exact hcount.symm

section

variable {h : Heap} {e : Elf32} {index : Nat} {r : Elf32Shdr}

/-- A symbol through one deletion ends where it would without it. -/
theorem rangSym_renumberSym (hu : e.UniqueSymtab) (hi : index < e.shnum) (hr : e.shtable[index]? = some r)
    (hdrop : gardee r = false) (s : Elf32Sym) :
    rangSym (suppression h e index).shtable (e.shnum - 1) (renumberSym index e.shnum s) =
      rangSym e.shtable e.shnum s := by
  by_cases hs : s.stShndx.toNat ≤ e.shnum
  · have hnew := stShndx_renumberSym index hs
    have hle : Deletion.renumber index s.stShndx.toNat ≤ e.shnum - 1 := by
      unfold Deletion.renumber
      split <;> omega
    rw [rangSym, rangSym, hnew, if_pos hle, if_pos hs, rank_suppression hu hi hr hdrop]
    exact congrArg (fun t : Elf32Sym => { t with
      stShndx := UInt16.ofNat (Deletion.rank gardee e.shtable s.stShndx.toNat) })
      (renumberSym_fields index e.shnum s)
  · rw [renumberSym_of_lt index (by omega), rangSym, rangSym, if_neg hs, if_neg (by omega)]

/-- One deletion does not change what is left in the end. -/
theorem filtre_suppression (hu : e.UniqueSymtab) (hsym : e.SymbolsLoaded)
    (hr : e.shtable[index]? = some r) (hrel : isRel r.shType = true) (hpast : ¬pastIsSymtab h e.shnum) :
    filtre h (suppression h e index) = filtre h e := by
  have hi := hu.full.lt_shnum hr
  have hne := hu.ne_symtabIndex hr hrel
  have hdrop := gardee_eq_false hrel
  have hfilter := filter_suppression (h := h) hu.full hi hr hdrop
  have hsymbols := suppression_symbols hu hsym hi hne hpast
  have hindex := hu.decalage_symtabIndex_end (h := h) hi
  rw [if_neg hpast] at hindex
  refine recale_congr (tableFull_sansRelocations hu.full)
    (tableFull_sansRelocations (suppression_tableFull hu.full hi)) ⟨?_, ?_, ?_, ?_, ?_, ?_, ?_⟩
  · simp only [sansRelocations, hfilter, List.length_map, suppression_elfhdr]
  · simp only [sansRelocations, hfilter, List.map_map, Function.comp_def, relink_relink]
  · simp only [sansRelocations, suppression_shnum hi, hsymbols, List.map_map]
    exact List.map_congr_left fun s _ => rangSym_renumberSym hu hi hr hdrop s
  · exact suppression_reltab h e index
  · exact (decalage_frame h e index e.shnum).2.2.1
  · exact (decalage_frame h e index e.shnum).2.2.2
  · simp only [sansRelocations, suppression_symtabIndex, hindex, rank_suppression hu hi hr hdrop]

/-- Without a relocation section nothing is dropped. -/
theorem sansRelocations_eq_self (hfull : e.TableFull) (hin : e.symtabIndex < e.shnum)
    (hall : ∀ s ∈ e.shtable, gardee s = true) : sansRelocations e = e := by
  have hlen : e.shtable.length = e.shnum := hfull
  have hfilter : e.shtable.filter gardee = e.shtable := List.filter_eq_self.mpr hall
  have hsymbols : e.symtable.map (rangSym e.shtable e.shnum) = e.symtable := by
    refine (List.map_congr_left fun s _ => ?_).trans (List.map_id _)
    unfold rangSym
    split
    next hs => rw [Deletion.rank_of_forall (by omega) hall, UInt16.ofNat_toNat, id]
    next => rfl
  have hcount : UInt16.ofNat e.shtable.length = e.elfhdr.eShnum := by
    rw [hlen, Elf32.shnum, UInt16.ofNat_toNat]
  rw [sansRelocations, hfilter, hsymbols, hcount, Deletion.rank_of_forall (by omega) hall]

/-- After a deletion with which none is left to delete, nothing is left to do. -/
theorem filtre_eq_self (hfull : e.TableFull) (hin : e.symtabIndex < e.shnum)
    (hall : ∀ s ∈ e.shtable, gardee s = true) (hrecale : recale h e = e) : filtre h e = e := by
  rw [filtre, sansRelocations_eq_self hfull hin hall, hrecale]

theorem recale_suppression (hfull : e.TableFull) (hi : index < e.shnum) :
    recale h (suppression h e index) = suppression h e index := by
  rw [suppression_eq_recale, recale_recale]
  have hlen : e.shtable.length = e.shnum := hfull
  change (retrecir (decalage h e index e.shnum)).shtable.length = (suppression h e index).shnum
  rw [retrecir_shtable hfull hi, suppression_shnum hi, List.length_eraseIdx_of_lt (by omega), hlen]

end

/-! ## Any order -/

/-- One deletion of a relocation section, whichever: `elfdata` and the destination before
and after it. -/
def Supprime (h : Heap) (host : Bool) (x y : Elf32 × List UInt8) : Prop :=
  ∃ i r w w', x.1.shtable[i]? = some r ∧ isRel r.shType = true ∧ w.elf = x.1 ∧ w.dest = x.2 ∧
    supprimeSh h host i w = .ok w' ∧ y = (w'.elf, w'.dest)

/-- No relocation section is left. -/
def SansRel (e : Elf32) : Prop := ∀ s ∈ e.shtable, gardee s = true

/-- What deletions from `e₀` and `d₀` on preserve. -/
structure Reste (h : Heap) (e₀ : Elf32) (d₀ : List UInt8) (e : Elf32) (d : List UInt8) : Prop where
  disposition : Disposition h e d.length
  shoff : e.elfhdr.eShoff = e₀.elfhdr.eShoff
  shnum_le : e.shnum ≤ e₀.shnum
  symtab : symtabWindow h e = symtabWindow h e₀
  filtre : filtre h e = filtre h e₀
  dest : Patch.SameOutside (partsWindow h e₀) d₀ d

/-- `d` is what `supprime_sh` writes of `e` at its end. -/
structure Ecrite (h : Heap) (host : Bool) (e₀ : Elf32) (d₀ : List UInt8) (e : Elf32) (d : List UInt8) :
    Prop where
  recale : recale h e = e
  dest : ∃ w, w.elf = e ∧ Patch.SameOutside (partsWindow h e₀) d₀ w.dest ∧ d = (ecrire h host w).dest

section

variable {h : Heap} {host : Bool} {e₀ : Elf32} {d₀ : List UInt8}

theorem Reste.parts {e : Elf32} {d : List UInt8} (hreste : Reste h e₀ d₀ e d) :
    partsWindow h e ⊆ partsWindow h e₀ := by
  rw [partsWindow, partsWindow, hreste.symtab, shtWindow, shtWindow, hreste.shoff]
  exact Set.union_subset_union_left _ (Set.union_subset_union_right _
    (Patch.window_mono (Nat.mul_le_mul_left 40 hreste.shnum_le)))

/-- What one deletion preserves and leaves. -/
theorem Reste.step {x y : Elf32 × List UInt8} (hreste : Reste h e₀ d₀ x.1 x.2)
    (hpast : ∀ n ≤ e₀.shnum, ¬pastIsSymtab h n) (hstep : Supprime h host x y) :
    Reste h e₀ d₀ y.1 y.2 ∧ Ecrite h host e₀ d₀ y.1 y.2 := by
  obtain ⟨e, d⟩ := x
  obtain ⟨i, r, w, w', hr, hrel, rfl, rfl, hrun, rfl⟩ := hstep
  have hd := hreste.disposition
  have hnopast := hpast _ hreste.shnum_le
  have hi := hd.unique.full.lt_shnum hr
  obtain ⟨hd', -, -, hsymtab, hso⟩ := supprimeSh_coherent hd hr hrel hnopast hrun
  obtain ⟨-, -, w₁, hw₁, helf₁, hdest₁⟩ := supprimeSh_ok hrun
  have helf : w'.elf = suppression h w.elf i := supprimeSh_elf hrun
  refine ⟨⟨hd', ?_, ?_, hsymtab.trans hreste.symtab, ?_, hreste.dest.trans (hso.mono hreste.parts)⟩, ?_, ?_⟩
  · rw [helf, suppression_elfhdr]
    exact hreste.shoff
  · rw [helf, suppression_shnum hi]
    exact Nat.le_trans (Nat.sub_le _ _) hreste.shnum_le
  · rw [helf, filtre_suppression hd.unique hd.loaded hr hrel hnopast]
    exact hreste.filtre
  · rw [helf, recale_suppression hd.unique.full hi]
  · exact ⟨w₁, helf₁.trans helf.symm, hdest₁ ▸ hreste.dest, by rw [hw₁]⟩

theorem reste_of_star {x : Elf32 × List UInt8} (hstart : Reste h e₀ d₀ e₀ d₀)
    (hpast : ∀ n ≤ e₀.shnum, ¬pastIsSymtab h n)
    (hstar : Relation.ReflTransGen (Supprime h host) (e₀, d₀) x) :
    Reste h e₀ d₀ x.1 x.2 ∧ (x = (e₀, d₀) ∨ Ecrite h host e₀ d₀ x.1 x.2) := by
  induction hstar with
  | refl => exact ⟨hstart, Or.inl rfl⟩
  | tail _ hstep ih =>
    obtain ⟨hreste, hecrite⟩ := ih.1.step hpast hstep
    exact ⟨hreste, Or.inr hecrite⟩

/-- The loop of `supprime_rel_sections` makes such deletions, to the end. -/
theorem supprimeRelSections_star (host : Bool) {w : World} (hreste : Reste h e₀ d₀ w.elf w.dest)
    (hpast : ∀ n ≤ e₀.shnum, ¬pastIsSymtab h n) : ∃ w',
    (∀ fuel, w.elf.shnum < fuel → supprimeRelSections h host fuel w = some (.ok w')) ∧
      Relation.ReflTransGen (Supprime h host) (w.elf, w.dest) (w'.elf, w'.dest) ∧ SansRel w'.elf := by
  have hstep : ∀ (v v' : World) (i : Nat) (r : Elf32Shdr),
      Reste h e₀ d₀ v.elf v.dest ∧ Relation.ReflTransGen (Supprime h host) (w.elf, w.dest) (v.elf, v.dest) →
      v.elf.shtable[i]? = some r → isRel r.shType = true → supprimeSh h host i v = .ok v' →
      Reste h e₀ d₀ v'.elf v'.dest ∧
        Relation.ReflTransGen (Supprime h host) (w.elf, w.dest) (v'.elf, v'.dest) := by
    intro v v' i r hv hr hrel hrun
    have hone : Supprime h host (v.elf, v.dest) (v'.elf, v'.dest) :=
      ⟨i, r, v, v', hr, hrel, rfl, rfl, hrun, rfl⟩
    exact ⟨(hv.1.step hpast hone).1, hv.2.tail hone⟩
  obtain ⟨w', hrun, ⟨-, hstar⟩, hall⟩ := supprimeRelSections_rule
    (P := fun e d => Reste h e₀ d₀ e d ∧ Relation.ReflTransGen (Supprime h host) (w.elf, w.dest) (e, d))
    h host w (fun e _ he => ⟨he.1.disposition.unique.full, he.1.disposition.unique.kept⟩)
    hstep ⟨hreste, .refl⟩
  exact ⟨w', hrun, hstar, hall⟩

/-- Without a relocation section there is nothing to delete. -/
theorem eq_of_star_sansRel {x y : Elf32 × List UInt8} (hend : SansRel x.1)
    (hstar : Relation.ReflTransGen (Supprime h host) x y) : y = x := by
  rcases Relation.ReflTransGen.cases_head hstar with rfl | ⟨z, ⟨i, r, _, _, hr, hrel, _⟩, _⟩
  · rfl
  · have hkept := hend r (List.mem_of_getElem? hr)
    rw [gardee_eq_false hrel] at hkept
    cases hkept

/-- The `elfdata` of an end that deletions lead to. -/
theorem Reste.elf_eq {e : Elf32} {d : List UInt8} (hreste : Reste h e₀ d₀ e d)
    (hecrite : Ecrite h host e₀ d₀ e d) (hend : SansRel e) : e = ElfLinker.filtre h e₀ := by
  have hu := hreste.disposition.unique
  rw [← hreste.filtre, filtre_eq_self hu.full hu.inTable hend hecrite.recale]

/-- The writes of one `elfdata` over two files leave the same bytes in the three parts. -/
theorem getElem?_ecrire {w₁ w₂ : World} (helf : w₁.elf = w₂.elf) (hfull : w₁.elf.TableFull) {k : Nat}
    (h₁ : k < w₁.dest.length) (h₂ : k < w₂.dest.length)
    (hk : k ∈ partsWindow h w₁.elf ∨ w₁.dest[k]? = w₂.dest[k]?) :
    (ecrire h host w₁).dest[k]? = (ecrire h host w₂).dest[k]? := by
  let symtab := shdrAt h w₁.elf.shtable w₁.elf.symtabIndex
  let ps : List Patch := [⟨0, (ehdr true).encode w₁.elf.elfhdr⟩,
    ⟨w₁.elf.elfhdr.eShoff.toNat, (shdr true).encodeAll w₁.elf.shtable⟩,
    ⟨symtab.shOffset.toNat, symtableBytes h host symtab.shSize.toNat
      (toHost host (Loop.mapUpTo (symtab.shSize.toNat / 16) swapEndianessSymbole) w₁.elf.symtable)⟩]
  have hw₁ : (ecrire h host w₁).dest = Patch.applyAll ps w₁.dest := ecrire_dest h host w₁ hfull
  have hw₂ : (ecrire h host w₂).dest = Patch.applyAll ps w₂.dest := by
    rw [ecrire_dest h host w₂ (helf ▸ hfull), ← helf]
    rfl
  rw [hw₁, hw₂, Patch.getElem?_applyAll_eq h₁, Patch.getElem?_applyAll_eq h₂]
  rcases hk with hk | hk
  · have hsome : (Patch.byteAt ps k).isSome = true := by
      rw [Patch.byteAt_isSome_iff]
      rcases hk with (hk | hk) | hk
      · refine ⟨_, List.mem_cons_self, ?_⟩
        rwa [Patch.positions, Codec.length_encode]
      · refine ⟨_, List.mem_cons_of_mem _ List.mem_cons_self, ?_⟩
        rwa [Patch.positions, hfull.length_encodeAll]
      · refine ⟨_, List.mem_cons_of_mem _ (List.mem_cons_of_mem _ List.mem_cons_self), ?_⟩
        rwa [Patch.positions, length_symtableBytes]
    obtain ⟨b, hb⟩ := Option.isSome_iff_exists.mp hsome
    rw [hb, Option.some_or, Option.some_or]
  · rw [hk]

end

/-- The entries that the section table of `e` has no longer, in the file. -/
def entreesPerdues (e : Elf32) (shnum : Nat) : Set Nat :=
  Patch.window (e.elfhdr.eShoff.toNat + 40 * shnum) (40 * (e.shnum - shnum))

section

variable {h : Heap} {host : Bool} {e₀ : Elf32} {d₀ : List UInt8}

/-- Two destinations of one `elfdata`. -/
theorem sameOutside_entreesPerdues {e : Elf32} {d d' : List UInt8} (hr : Reste h e₀ d₀ e d)
    (hr' : Reste h e₀ d₀ e d') (hw : Ecrite h host e₀ d₀ e d) (hw' : Ecrite h host e₀ d₀ e d') :
    Patch.SameOutside (entreesPerdues e₀ e.shnum) d d' := by
  refine ⟨hr'.dest.length_eq.trans hr.dest.length_eq.symm, fun k hk => ?_⟩
  obtain ⟨w₁, rfl, hso₁, rfl⟩ := hw.dest
  obtain ⟨w₂, helf, hso₂, rfl⟩ := hw'.dest
  have hlen₁ := hr.dest.length_eq
  have hlen₂ := hr'.dest.length_eq
  by_cases hin : k < d₀.length
  · refine getElem?_ecrire helf (helf ▸ hr.disposition.unique.full) (by rwa [hso₂.length_eq])
      (by rwa [hso₁.length_eq]) ?_
    by_cases hparts : k ∈ partsWindow h w₂.elf
    · exact Or.inl hparts
    · refine Or.inr ?_
      have hout : k ∉ partsWindow h e₀ := by
        rw [helf, partsWindow, hr.symtab] at hparts
        rw [partsWindow]
        rintro ((hc | hc) | hc)
        · exact hparts (Or.inl (Or.inl hc))
        · refine hk ?_
          have hnot : k ∉ shtWindow w₁.elf := fun hc' => hparts (Or.inl (Or.inr hc'))
          have hshoff := hr.shoff
          have hle := hr.shnum_le
          rw [shtWindow, Patch.mem_window] at hc hnot
          rw [hshoff] at hnot
          rw [entreesPerdues, Patch.mem_window]
          omega
        · exact hparts (Or.inr hc)
      rw [hso₁.byte_eq k hout, hso₂.byte_eq k hout]
  · rw [List.getElem?_eq_none (by omega), List.getElem?_eq_none (by omega)]

end

/-- From a coherent image, deletions of relocation sections in any order can be brought
to an end, and all that are at an end have the `elfdata` that `supprime_rel_sections`
leaves, and its destination but for the entries that the section table has lost. -/
theorem supprimeRelSections_confluente (h : Heap) (host : Bool) {e : Elf32} {d : List UInt8}
    (hc : Coherent h host d e) (himg : ImageReguliere h e d.length)
    (hpast : ∀ n ≤ e.shnum, ¬pastIsSymtab h n) : ∃ w',
    (∀ fuel, e.shnum < fuel → supprimeRelSections h host fuel ⟨e, d, []⟩ = some (.ok w')) ∧
    ∀ x, Relation.ReflTransGen (Supprime h host) (e, d) x →
      (∃ y, Relation.ReflTransGen (Supprime h host) x y ∧ SansRel y.1) ∧
      (SansRel x.1 → x.1 = w'.elf ∧ Patch.SameOutside (entreesPerdues e w'.elf.shnum) w'.dest x.2) := by
  have hstart : Reste h e d e d :=
    ⟨disposition_of_coherent hc himg, rfl, Nat.le_refl _, rfl, rfl, Patch.SameOutside.refl _ _⟩
  obtain ⟨w', hrun, hstar', hend'⟩ := supprimeRelSections_star host (w := ⟨e, d, []⟩) hstart hpast
  obtain ⟨hreste', hcases'⟩ := reste_of_star hstart hpast hstar'
  refine ⟨w', hrun, fun x hstar => ?_⟩
  obtain ⟨hreste, hcases⟩ := reste_of_star hstart hpast hstar
  refine ⟨?_, fun hend => ?_⟩
  · obtain ⟨v, -, hv, hvend⟩ := supprimeRelSections_star host (w := ⟨x.1, x.2, []⟩) hreste hpast
    exact ⟨_, hv, hvend⟩
  by_cases hnone : SansRel e
  · have hx : x = (e, d) := eq_of_star_sansRel (x := (e, d)) hnone hstar
    have hw' : (w'.elf, w'.dest) = (e, d) := eq_of_star_sansRel (x := (e, d)) hnone hstar'
    rw [Prod.mk.injEq] at hw'
    rw [hx, hw'.1, hw'.2]
    exact ⟨rfl, Patch.SameOutside.refl _ _⟩
  · -- some section was deleted on both ways
    have hecrite := hcases.resolve_left fun hx => by
      have hx1 : x.1 = e := congrArg Prod.fst hx
      exact hnone (hx1 ▸ hend)
    have hecrite' := hcases'.resolve_left fun hx => by
      have hw1 : w'.elf = e := congrArg Prod.fst hx
      exact hnone (hw1 ▸ hend')
    have helf : x.1 = w'.elf :=
      (hreste.elf_eq hecrite hend).trans (hreste'.elf_eq hecrite' hend').symm
    rw [helf] at hreste hecrite
    exact ⟨helf, sameOutside_entreesPerdues hreste' hreste hecrite' hecrite⟩

/-! The small object file with a relocation of `.data` too. -/

def exempleDoubleEntete : Elf32Ehdr := { exempleEntete with eShoff := 184, eShnum := 8, eShstrndx := 7 }

def exempleDoubleSections : List Elf32Shdr :=
  [sectionNulle,
   ⟨5, 1, 6, 0, 52, 8, 0, 0, 4, 0⟩,
   ⟨1, 9, 0, 0, 60, 8, 5, 1, 4, 8⟩,
   ⟨15, 1, 3, 0, 68, 8, 0, 0, 4, 0⟩,
   ⟨11, 9, 0, 0, 176, 8, 5, 3, 4, 8⟩,
   ⟨21, 2, 0, 0, 76, 48, 6, 3, 4, 16⟩,
   ⟨29, 3, 0, 0, 124, 5, 0, 0, 1, 0⟩,
   ⟨37, 3, 0, 0, 129, 47, 0, 0, 1, 0⟩]

def exempleDouble : Elf32 :=
  ⟨exempleDoubleEntete, exempleDoubleSections, exempleSymboles,
    ⟨[⟨[⟨4, 0x102⟩], [], 2, 9, 1⟩, ⟨[⟨0, 0x202⟩], [], 4, 9, 1⟩], 2⟩, exempleShstrtab, exempleStrtab, 5⟩

def exempleDoubleImage : List UInt8 :=
  (ehdr true).encode exempleDoubleEntete ++ [0xe1, 0xa0, 0xf0, 0x0e, 0, 0, 0, 0] ++
    (rel true).encode ⟨4, 0x102⟩ ++ [0, 0, 0, 1, 0, 0, 0, 2] ++
    (sym true).encodeAll exempleSymboles ++ exempleStrtab ++ exempleShstrtab ++
    (rel true).encode ⟨0, 0x202⟩ ++ (shdr true).encodeAll exempleDoubleSections

theorem exempleDouble_reguliere : ImageReguliere tasNul exempleDouble exempleDoubleImage.length where
  entsize := rfl
  one_symtab := by
    have hu : exempleDouble.UniqueSymtab := by decide +kernel
    exact ⟨5, ⟨⟨21, 2, 0, 0, 76, 48, 6, 3, 4, 16⟩, rfl, rfl⟩,
      fun k ⟨s, hs, htype⟩ => (hu.symtab_iff k s hs).mp htype⟩
  symtab_in := by decide +kernel
  header_sht := Patch.disjoint_window (Or.inl (by decide +kernel))
  header_symtab := Patch.disjoint_window (Or.inl (by decide +kernel))
  sht_symtab := Patch.disjoint_window (Or.inr (by decide +kernel))

theorem supprimeRelSections_confluente_exemple : ∃ w',
    (∀ fuel, exempleDouble.shnum < fuel → supprimeRelSections tasNul false fuel
      ⟨exempleDouble, exempleDoubleImage, []⟩ = some (.ok w')) ∧
    ∀ x, Relation.ReflTransGen (Supprime tasNul false) (exempleDouble, exempleDoubleImage) x →
      (∃ y, Relation.ReflTransGen (Supprime tasNul false) x y ∧ SansRel y.1) ∧
      (SansRel x.1 → x.1 = w'.elf ∧
        Patch.SameOutside (entreesPerdues exempleDouble w'.elf.shnum) w'.dest x.2) := by
  have hload : mainLecture tasNul false exempleDoubleImage = some exempleDouble := by
    decide +kernel
  exact supprimeRelSections_confluente tasNul false (coherent_of_load hload) exempleDouble_reguliere
    fun _ _ => show (0 : UInt32) ≠ shtSymtab by decide

end ElfLinker
