import ElfLinker.Champs
import ElfLinker.Confluence
import ElfLinker.Ordre

/-!
The file that `-R` leaves. Each section that stays has its own bytes but for the words of
its entries, and these are measured against the meaning of their types; the values of the
symbols are those that the file itself holds, and the words that are added to come from
the source.
-/

namespace ElfLinker
open Endian

/-! ## The end of the deletions -/

/-- `supprime_rel_sections` on a world that mirrors its `elfdata`: what it leaves is
exactly known, and the destination mirrors it. -/
theorem supprimeRelSections_fin {h : Heap} (host : Bool) {w : World} (hd : Disposition h w.elf w.dest.length)
    (hr : Reflete h w.dest w.elf) (hpast : ∀ n ≤ w.elf.shnum, ¬pastIsSymtab h n) :
    ∃ w', (∀ fuel, w.elf.shnum < fuel → supprimeRelSections h host fuel w = some (.ok w')) ∧
      Disposition h w'.elf w'.dest.length ∧ Reflete h w'.dest w'.elf ∧
      Patch.SameOutside (partsWindow h w.elf) w.dest w'.dest ∧
      (w'.elf = w.elf ∧ SansRel w.elf ∨ w'.elf = filtre h w.elf) := by
  have hstart : Reste h w.elf w.dest w.elf w.dest :=
    ⟨hd, rfl, Nat.le_refl _, rfl, rfl, Patch.SameOutside.refl _ _⟩
  obtain ⟨w', hrun, hstar, hend⟩ := supprimeRelSections_star host hstart hpast
  obtain ⟨hreste, hcases⟩ : Reste h w.elf w.dest w'.elf w'.dest ∧ ((w'.elf, w'.dest) = (w.elf, w.dest) ∨
    Ecrite h host w.elf w.dest w'.elf w'.dest) := reste_of_star hstart hpast hstar
  refine ⟨w', hrun, hreste.disposition, ?_, hreste.dest, ?_⟩
  · rcases hcases with hnone | hecrite
    · rw [Prod.mk.injEq] at hnone
      rw [hnone.1, hnone.2]
      exact hr
    · obtain ⟨w₁, helf, hso, hdest⟩ := hecrite.dest
      have hd₁ : Disposition h w₁.elf w₁.dest.length := by
        rw [helf, hso.length_eq, ← hreste.dest.length_eq]
        exact hreste.disposition
      have hreflete := (reflete_ecrire host hd₁).1
      rw [hdest]
      exact helf ▸ hreflete
  · rcases hcases with hnone | hecrite
    · have helf : w'.elf = w.elf := congrArg Prod.fst hnone
      exact Or.inl ⟨helf, helf ▸ hend⟩
    · exact Or.inr (hreste.elf_eq hecrite hend)

theorem AuxLiensPres.sansLien {e e' : Elf32} (hp : AuxLiensPres e e') :
    e'.shtable.map ElfLinker.sansLien = e.shtable.map ElfLinker.sansLien := by
  have hmap := congrArg (List.map ElfLinker.sansLien) hp.shtable
  simpa only [List.map_map, Function.comp_def, sansLien_relink] using hmap

section

variable {h : Heap} {host : Bool} {f : List UInt8} {e e' : Elf32} {addrText addrData : UInt32}

/-- The corrected `elfdata` before the deletions. -/
def corriger (h : Heap) (e : Elf32) (addrText addrData : UInt32) : Elf32 :=
  { adresser h e addrText addrData with
    symtable := e.symtable.map (corrigerSymbole h e addrText addrData) }

variable (h host addrText addrData) in
/-- The whole run: it returns, and its end is known. -/
theorem mainR_fin (hlen : f.length < 2 ^ 31) (hload : mainLecture h host f = some e)
    (himg : ImageRelogeable h e f) (hin : ∀ x ∈ relocations h e, place h e x.rel + 4 ≤ f.length) :
    ∃ w', (∀ fuel, e.shnum < fuel → mainR h host f addrText addrData fuel e = some (.ok w')) ∧
      Disposition h w'.elf w'.dest.length ∧ Reflete h w'.dest w'.elf ∧
      Patch.SameOutside (partsWindow h e) (bilan h f addrText addrData host ⟨e, f, []⟩).dest w'.dest ∧
      (w'.elf = corriger h e addrText addrData ∧ SansRel (corriger h e addrText addrData) ∨
        w'.elf = filtre h (corriger h e addrText addrData)) := by
  have hc := coherent_of_load hload
  have hd := disposition_of_coherent hc himg.regular
  have hr := (coherent_iff host hd).mp hc
  let w₁ := bilan h f addrText addrData host ⟨e, f, []⟩
  let w := corrigerSymboles h host addrText addrData w₁
  obtain ⟨hdw, hrw, helf⟩ : Disposition h w.elf w.dest.length ∧ Reflete h w.dest w.elf ∧
      w.elf = corriger h e addrText addrData :=
    corrigerSymboles_bilan host addrText addrData hd hr hin himg.apart rfl
  have hparts : partsWindow h w.elf = partsWindow h e := by
    rw [helf]
    change enteteWindow ∪ shtWindow e ∪ symtabWindow h (adresser h e addrText addrData) = _
    rw [symtabWindow_adresser, partsWindow]
  have hsymbols : Patch.SameOutside (partsWindow h e) w₁.dest w.dest := by
    have helf₁ : w₁.elf = adresser h e addrText addrData :=
      fwriteShAddrTestData_elf h host addrText addrData ⟨e, f, []⟩
    have hd₁ : Disposition h w₁.elf w₁.dest.length := by
      rw [helf₁, (reflete_bilan host addrText addrData hd hr hin himg.apart).1]
      exact disposition_adresser hd addrText addrData
    have hso := corrigerSymboles_sameOutside host hd₁ addrText addrData
    rw [helf₁, symtabWindow_adresser] at hso
    exact hso.mono Set.subset_union_right
  have hshnum : w.elf.shnum = e.shnum := by
    rw [helf]
    rfl
  obtain ⟨w', hrun, hd', hr', hso, hfin⟩ := supprimeRelSections_fin host hdw hrw
    fun n hn => himg.past n (hshnum ▸ hn)
  rw [hparts] at hso
  rw [helf] at hfin
  rw [hshnum] at hrun
  refine ⟨w', fun fuel hfuel => ?_, hd', hr', hsymbols.trans hso, hfin⟩
  have hall : (relocations h e).all (lisible h e f) = true :=
    List.all_eq_true.mpr fun x hx => decide_eq_true (hin x hx)
  rw [mainR_eq_relier hlen, relier_eq, if_pos hall]
  exact hrun fuel hfuel

end

def shtNobits : UInt32 := 8

section

variable {h : Heap} {host : Bool} {f dest : List UInt8} {e e' : Elf32} {addrText addrData : UInt32}

end

end ElfLinker
