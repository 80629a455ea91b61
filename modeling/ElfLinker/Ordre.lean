import Mathlib.Data.List.Pairwise
import ElfLinker.Execution

/-!
The order of the relocations and their repetition. Every addend is read from the source,
so what an entry writes does not depend on the entries before it: entries whose words are
apart may be listed in any order and in any tables, and a second application of all of
them leaves the destination as the first one did.
-/

namespace ElfLinker

/-! ## The deletions do not look at the relocations -/

/-- Two worlds that differ in the relocations that are loaded and in their logs. -/
structure AuxRelocationsPres (w w' : World) : Prop where
  elf : w'.elf = { w.elf with reltab := w'.elf.reltab }
  dest : w'.dest = w.dest

section

variable (h : Heap) (host : Bool) (e : Elf32) (reltab : Elf32Reltab)

theorem foldl_decale_reltab (l : List Nat) :
    l.foldl (decale h) { e with reltab := reltab } = { l.foldl (decale h) e with reltab := reltab } := by
  induction l generalizing e with
  | nil => rfl
  | cons i l ih => exact ih (decale h e i)

theorem suppression_reltab_eq (index : Nat) : suppression h { e with reltab := reltab } index =
    { suppression h e index with reltab := reltab } := by
  rw [suppression, decalage, foldl_decale_reltab]
  rfl

end

section

variable {h : Heap} {host : Bool} {w w' : World}

/-- The writes are those of the structures that are written. -/
theorem AuxRelocationsPres.ecrire (hp : AuxRelocationsPres w w') :
    AuxRelocationsPres (ecrire h host w) (ecrire h host w') := by
  obtain ⟨helf, hdest⟩ := hp
  refine ⟨by rw [ecrire_elf, ecrire_elf, ← helf], ?_⟩
  generalize w'.elf.reltab = reltab at helf
  simp only [ElfLinker.ecrire, World.step_elf, World.fwrite_elf, World.step_dest, World.fwrite_dest,
    swapElfhdr_eq, swapShtable_eq, swapSymtable_eq, hdest, helf]
  rfl

variable (h host) in
theorem AuxRelocationsPres.fwriteShAddrTestData (hp : AuxRelocationsPres w w') (addrText addrData : UInt32) :
    AuxRelocationsPres (fwriteShAddrTestData h host addrText addrData w)
      (fwriteShAddrTestData h host addrText addrData w') := by
  obtain ⟨helf, hdest⟩ := hp
  refine ⟨?_, ?_⟩
  · rw [fwriteShAddrTestData_elf, fwriteShAddrTestData_elf, helf]
    rfl
  · simp only [ElfLinker.fwriteShAddrTestData, World.step_elf, World.step_dest, World.fwrite_dest,
      swapShtable_eq, affecte_affecte_elf]
    rw [helf]
    exact congrArg (Patch.writeAt · _ _) hdest

theorem AuxRelocationsPres.corrigerSymboles (hp : AuxRelocationsPres w w') (addrText addrData : UInt32) :
    AuxRelocationsPres (corrigerSymboles h host addrText addrData w)
      (corrigerSymboles h host addrText addrData w') := by
  obtain ⟨helf, hdest⟩ := hp
  have hsame : (ElfLinker.corrigerSymboles h host addrText addrData w').elf.symtable =
      (ElfLinker.corrigerSymboles h host addrText addrData w).elf.symtable := by
    rw [corrigerSymboles_elf, corrigerSymboles_elf, helf]
    rfl
  refine ⟨?_, ?_⟩
  · rw [corrigerSymboles_elf, corrigerSymboles_elf, helf]
    rfl
  · rw [corrigerSymboles_dest, corrigerSymboles_dest, hsame, hdest, helf]

variable (h host) in
/-- Both deletions return, or both stop the run. -/
theorem AuxRelocationsPres.supprimeSh (hp : AuxRelocationsPres w w') (index : Nat) :
    (∃ v v', supprimeSh h host index w = .ok v ∧ supprimeSh h host index w' = .ok v' ∧
        AuxRelocationsPres v v') ∨
      ∃ v v', supprimeSh h host index w = .error v ∧ supprimeSh h host index w' = .error v' ∧
        v'.dest = v.dest := by
  obtain ⟨helf, hdest⟩ := hp
  have hshnum : w'.elf.shnum = w.elf.shnum := by rw [helf]; rfl
  by_cases hi : index < w.elf.shnum
  · by_cases htwo : 2 ≤ w.elf.shnum
    · obtain ⟨v, hv, hvelf, hvdest, -⟩ := supprimeSh_eq h host hi htwo
      obtain ⟨v', hv', hvelf', hvdest', -⟩ := supprimeSh_eq h host (hshnum ▸ hi) (hshnum ▸ htwo)
      refine Or.inl ⟨_, _, hv, hv', AuxRelocationsPres.ecrire ⟨?_, ?_⟩⟩
      · rw [hvelf, hvelf', suppression_reltab, helf]
        exact suppression_reltab_eq h w.elf w'.elf.reltab index
      · rw [hvdest, hvdest', hdest]
    · have hone : w.elf.shnum - 1 = 0 := by omega
      have hdecale := fun v : World => (decaler_world h v (List.range' index (v.elf.shnum - index))).2.1
      refine Or.inr ⟨(List.range' index (w.elf.shnum - index)).foldl (decaler h) w,
        (List.range' index (w'.elf.shnum - index)).foldl (decaler h) w', ?_, ?_, ?_⟩
      · simp only [ElfLinker.supprimeSh, hi, hone, if_true]
      · simp only [ElfLinker.supprimeSh, hshnum, hi, hone, if_true]
      · rw [hdecale, hdecale, hdest]
  · refine Or.inr ⟨w, w', ?_, ?_, hdest⟩
    · simp only [ElfLinker.supprimeSh, hi, if_false]
    · simp only [ElfLinker.supprimeSh, hshnum, hi, if_false]

theorem AuxRelocationsPres.supprimeRelLoop (hp : AuxRelocationsPres w w') (fuel i : Nat) :
    (supprimeRelLoop h host fuel i w').map (fun o => o.world.dest) =
      (supprimeRelLoop h host fuel i w).map fun o => o.world.dest := by
  induction fuel generalizing i w w' with
  | zero => rfl
  | succ fuel ih =>
    have hshnum : w'.elf.shnum = w.elf.shnum := by rw [hp.elf]; rfl
    have hshtable : w'.elf.shtable = w.elf.shtable := by rw [hp.elf]
    rw [ElfLinker.supprimeRelLoop, ElfLinker.supprimeRelLoop, hshnum, hshtable]
    have hstep : AuxRelocationsPres (w.step w.elf [(i : Int)]) (w'.step w'.elf [(i : Int)]) :=
      ⟨hp.elf, hp.dest⟩
    by_cases hi : i < w.elf.shnum
    · rw [if_pos hi, if_pos hi]
      dsimp only
      split
      · rcases hstep.supprimeSh h host i with ⟨v, v', hv, hv', hvp⟩ | ⟨v, v', hv, hv', hvdest⟩
        · rw [hv, hv']
          exact ih hvp i
        · rw [hv, hv']
          exact congrArg some hvdest
      · exact ih hstep (i + 1)
    · rw [if_neg hi, if_neg hi]
      exact congrArg some hp.dest

end

/-! ## Any order -/

section

variable {h : Heap} {host : Bool} {f : List UInt8} {e : Elf32} {addrText addrData : UInt32}

/-- The words of supported entries are apart. -/
def MotsSepares (h : Heap) (e : Elf32) : Prop :=
  (relocations h e).Pairwise fun x y => x.supported = true → y.supported = true →
    Disjoint (fenetre h e x) (fenetre h e y)

/-- The words that the entries leave, when each of them is in the source. -/
theorem bilan_dest (hin : ∀ x ∈ relocations h e, place h e x.rel + 4 ≤ f.length) (dest : List UInt8) :
    (bilan h f addrText addrData host ⟨e, dest, []⟩).dest =
      Patch.applyAll ((relocations h e).filterMap (correction h e f addrText addrData))
        (fwriteShAddrTestData h host addrText addrData ⟨e, dest, []⟩).dest := by
  rw [bilan, atteintes_eq hin]

/-- The words are apart as patches. -/
theorem pairwise_corrections (hsep : MotsSepares h e) :
    ((relocations h e).filterMap (correction h e f addrText addrData)).Pairwise fun p q =>
      Disjoint p.positions q.positions := by
  refine List.Pairwise.filterMap _ (fun x y hxy p hp q hq => ?_) hsep
  obtain ⟨hoff, hlen, -, hsup⟩ := correction_eq_some (Option.mem_def.mp hp)
  obtain ⟨hoff', hlen', -, hsup'⟩ := correction_eq_some (Option.mem_def.mp hq)
  rw [Patch.positions, Patch.positions, hoff, hlen, hoff', hlen']
  exact hxy hsup hsup'

/-- What the entries write depends on their `Elf32_Rel` alone. -/
theorem filterMap_correction (xs : List Relocation) :
    xs.filterMap (correction h e f addrText addrData) =
      (xs.map Relocation.rel).filterMap fun r => correction h e f addrText addrData ⟨0, 0, r⟩ := by
  rw [List.filterMap_map]
  rfl

/-- After the copy, the destination does not depend on the order of the entries. -/
theorem relier_ordre {reltab : Elf32Reltab} (hin : ∀ x ∈ relocations h e, place h e x.rel + 4 ≤ f.length)
    (hsep : MotsSepares h e)
    (hperm : ((relocations h { e with reltab := reltab }).map Relocation.rel).Perm
      ((relocations h e).map Relocation.rel)) (fuel : Nat) (dest : List UInt8) :
    (relier h host f addrText addrData fuel ⟨{ e with reltab := reltab }, dest, []⟩).map
        (fun o => o.world.dest) =
      (relier h host f addrText addrData fuel ⟨e, dest, []⟩).map fun o => o.world.dest := by
  have hin' : ∀ x ∈ relocations h { e with reltab := reltab },
      place h { e with reltab := reltab } x.rel + 4 ≤ f.length := by
    intro x hx
    obtain ⟨y, hy, hrel⟩ := List.mem_map.mp (hperm.subset (List.mem_map_of_mem hx))
    rw [← hrel]
    exact hin y hy
  have hall : (relocations h e).all (lisible h e f) = true :=
    List.all_eq_true.mpr fun x hx => decide_eq_true (hin x hx)
  have hall' : (relocations h { e with reltab := reltab }).all
      (lisible h { e with reltab := reltab } f) = true :=
    List.all_eq_true.mpr fun x hx => decide_eq_true (hin' x hx)
  rw [relier_eq, relier_eq, if_pos hall, if_pos hall']
  have hpres : AuxRelocationsPres (bilan h f addrText addrData host ⟨e, dest, []⟩)
      (bilan h f addrText addrData host ⟨{ e with reltab := reltab }, dest, []⟩) := by
    have hstart : AuxRelocationsPres ⟨e, dest, []⟩ ⟨{ e with reltab := reltab }, dest, []⟩ := ⟨rfl, rfl⟩
    have haddr := hstart.fwriteShAddrTestData h host addrText addrData
    refine ⟨haddr.elf, ?_⟩
    rw [bilan_dest hin', bilan_dest hin, haddr.dest]
    have hpatches : ((relocations h { e with reltab := reltab }).filterMap
        (correction h { e with reltab := reltab } f addrText addrData)).Perm
          ((relocations h e).filterMap (correction h e f addrText addrData)) := by
      rw [filterMap_correction, filterMap_correction]
      exact hperm.filterMap _
    exact (Patch.applyAll_perm hpatches.symm (pairwise_corrections hsep) _).symm
  exact hpres.corrigerSymboles addrText addrData |>.supprimeRelLoop fuel 0

end

/-- The destination of a whole run does not depend on the order of the relocation tables
in memory nor on that of their entries, as long as the words that they change are apart
and in the file. -/
theorem mainR_ordre (h : Heap) (host : Bool) {f : List UInt8} {e : Elf32} {reltab : Elf32Reltab}
    (addrText addrData : UInt32) (hin : ∀ x ∈ relocations h e, place h e x.rel + 4 ≤ f.length)
    (hsep : MotsSepares h e)
    (hperm : ((relocations h { e with reltab := reltab }).map Relocation.rel).Perm
      ((relocations h e).map Relocation.rel)) (fuel : Nat) :
    (mainR h host f addrText addrData fuel { e with reltab := reltab }).map (fun o => o.world.dest) =
      (mainR h host f addrText addrData fuel e).map fun o => o.world.dest := by
  rw [mainR, mainR]
  cases copyFile f [] with
  | none => rfl
  | some dest => exact relier_ordre hin hsep hperm fuel dest

/-- The small object file with two relocations of `.text`, one for each of its words. -/
def exempleDeuxMots (rels : List Elf32Rel) : Elf32 :=
  { exemple 0x102 with reltab := ⟨[⟨rels, [], 2, 9, 2⟩], 1⟩ }

theorem mainR_ordre_exemple :
    (mainR tasNul false (exempleImage 0x102) 0x20 0x2800 8
        (exempleDeuxMots [⟨4, 0x102⟩, ⟨0, 0x11c⟩])).map (fun o => o.world.dest) =
      (mainR tasNul false (exempleImage 0x102) 0x20 0x2800 8
        (exempleDeuxMots [⟨0, 0x11c⟩, ⟨4, 0x102⟩])).map fun o => o.world.dest := by
  have hreltab : exempleDeuxMots [⟨4, 0x102⟩, ⟨0, 0x11c⟩] =
      { exempleDeuxMots [⟨0, 0x11c⟩, ⟨4, 0x102⟩] with
        reltab := (exempleDeuxMots [⟨4, 0x102⟩, ⟨0, 0x11c⟩]).reltab } := rfl
  have hlist : relocations tasNul (exempleDeuxMots [⟨0, 0x11c⟩, ⟨4, 0x102⟩]) =
      [⟨0, 0, ⟨0, 0x11c⟩⟩, ⟨0, 1, ⟨4, 0x102⟩⟩] := by decide +kernel
  have hsep : MotsSepares tasNul (exempleDeuxMots [⟨0, 0x11c⟩, ⟨4, 0x102⟩]) := by
    rw [MotsSepares, hlist, List.pairwise_pair]
    exact fun _ _ => Patch.disjoint_window (Or.inl (by decide +kernel))
  rw [hreltab]
  exact mainR_ordre tasNul false 0x20 0x2800 (by decide +kernel) hsep (by decide +kernel) 8

/-! ## The last application -/

section

variable (h : Heap) (host : Bool) (source : List UInt8) (addrText addrData : UInt32)

/-- What a call writes: the section table, then the words it gets to. -/
def ecritures (e : Elf32) : List Patch :=
  ⟨e.elfhdr.eShoff.toNat, shtableBytes h host e.shnum
      (swapShtable host e.shnum (adresser h e addrText addrData)).shtable⟩ ::
    (atteintes h e source).filterMap (correction h e source addrText addrData)

theorem bilan_elf (w : World) :
    (bilan h source addrText addrData host w).elf = adresser h w.elf addrText addrData :=
  fwriteShAddrTestData_elf h host addrText addrData w

theorem bilan_dest_eq (w : World) : (bilan h source addrText addrData host w).dest =
    Patch.applyAll (ecritures h host source addrText addrData w.elf) w.dest := by
  have hsht : (fwriteShAddrTestData h host addrText addrData w).dest =
      Patch.writeAt w.dest w.elf.elfhdr.eShoff.toNat (shtableBytes h host w.elf.shnum
        (swapShtable host w.elf.shnum (adresser h w.elf addrText addrData)).shtable) := by
    simp only [fwriteShAddrTestData, World.step_elf, World.step_dest, World.fwrite_dest,
      affecte_affecte_elf]
    rfl
  rw [ecritures, Patch.applyAll_cons, bilan, hsht]
  rfl

/-- The addresses do not decide where a call writes. -/
theorem ecritures_positions {e : Elf32} {addrText' addrData' : UInt32} {p : Patch}
    (hp : p ∈ ecritures h host source addrText addrData e) :
    ∃ q ∈ ecritures h host source addrText' addrData' e, p.positions ⊆ q.positions := by
  rcases List.mem_cons.mp hp with rfl | hp
  · refine ⟨_, List.mem_cons_self, ?_⟩
    simp only [Patch.positions, shtableBytes, Codec.length_encodeAll, List.length_map, List.length_range,
      subset_rfl]
  · obtain ⟨x, hx, hpx⟩ := List.mem_filterMap.mp hp
    obtain ⟨hoff, hlen, hin, hsup⟩ := correction_eq_some hpx
    have hsome := correction_isSome h e source addrText' addrData' x
    rw [hin, hsup, Bool.and_true, Option.isSome_iff_exists] at hsome
    obtain ⟨q, hq⟩ := hsome
    obtain ⟨hoff', hlen', -, -⟩ := correction_eq_some hq
    refine ⟨q, List.mem_cons_of_mem _ (List.mem_filterMap.mpr ⟨x, hx, hq⟩), ?_⟩
    rw [Patch.positions, Patch.positions, hoff, hoff', hlen, hlen']

/-- The addresses of a later call replace those of an earlier one. -/
theorem adresser_adresser (e : Elf32) (a d a' d' : UInt32) :
    adresser h (adresser h e a d) a' d' = adresser h e a' d' := by
  have htable : (adresser h (adresser h e a d) a' d').shtable = (adresser h e a' d').shtable := by
    apply List.ext_getElem?
    intro k
    rw [getElem?_adresser, getElem?_adresser, getElem?_adresser, Option.map_map]
    congr 1
    funext s
    simp only [Function.comp, getSectionIndex_adresser]
    by_cases hdata : getSectionIndex h e dotData = k
    · simp only [if_pos hdata]
    · by_cases htext : getSectionIndex h e dotText = k
      · simp only [if_neg hdata, if_pos htext]
      · simp only [if_neg hdata, if_neg htext]
  change { e with shtable := (adresser h (adresser h e a d) a' d').shtable } = _
  rw [htable]
  rfl

/-- What a call writes does not depend on the addresses of an earlier one. -/
theorem ecritures_adresser (e : Elf32) (a d a' d' : UInt32) :
    ecritures h host source a' d' (adresser h e a d) = ecritures h host source a' d' e := by
  rw [ecritures, adresser_adresser, atteintes, funext (lisible_adresser h e source a d),
    funext (correction_adresser h e source a' d' a d)]
  rfl

end

/-- To relocate again at other addresses, from the same source, leaves `elfdata` and the
destination as if the first call had not been made, also where it was stopped. -/
theorem appliquerRelocations_derniere (h : Heap) (host : Bool) (source : List UInt8) (w : World)
    (a d a' d' : UInt32) :
    let w₁ := (appliquerRelocations h host source a d w).world
    let r := appliquerRelocations h host source a' d' w
    let r' := appliquerRelocations h host source a' d' w₁
    r'.isOk = r.isOk ∧ r'.world.elf = r.world.elf ∧ r'.world.dest = r.world.dest := by
  intro w₁ r r'
  have hw₁ : w₁ = bilan h source a d host w := appliquerRelocations_world ..
  have helf : w₁.elf = adresser h w.elf a d := hw₁ ▸ bilan_elf h host source a d w
  have hdest : w₁.dest = Patch.applyAll (ecritures h host source a d w.elf) w.dest :=
    hw₁ ▸ bilan_dest_eq h host source a d w
  refine ⟨?_, ?_, ?_⟩
  · have hall : (relocations h w₁.elf).all (lisible h w₁.elf source) =
        (relocations h w.elf).all (lisible h w.elf source) := by
      rw [helf, funext (lisible_adresser h w.elf source a d)]
      rfl
    simp only [r, r', appliquerRelocations_eq, hall]
    split <;> simp only [Except.isOk, Except.toBool]
  · simp only [r, r', appliquerRelocations_world]
    rw [bilan_elf, bilan_elf, helf, adresser_adresser]
  · simp only [r, r', appliquerRelocations_world, bilan_dest_eq, helf, hdest, ecritures_adresser]
    exact Patch.applyAll_applyAll (fun p hp => ecritures_positions h host source a d hp) _

end ElfLinker
