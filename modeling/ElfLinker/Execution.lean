import ElfLinker.Filtrage
import ElfLinker.Cibles
import ElfLinker.Coherence

/-!
`main` with the option `-R`: the copy of the source, its relocations, the correction of
its symbols and the deletion of its relocation sections. The base that was added to a
symbol is the address of its section, and it is still that after the renumbering.
-/

namespace ElfLinker

/-- What follows the copy: the three calls, in their order. -/
def relier (h : Heap) (host : Bool) (source : List UInt8) (addrText addrData : UInt32) (fuel : Nat)
    (w : World) : Option Outcome :=
  match appliquerRelocations h host source addrText addrData w with
  | .ok w => supprimeRelSections h host fuel (corrigerSymboles h host addrText addrData w)
  | .error w => some (.error w)

/-- The body of `if (applique_rel)`. -/
def mainR (h : Heap) (host : Bool) (source : List UInt8) (addrText addrData : UInt32) (fuel : Nat)
    (e : Elf32) : Option Outcome :=
  match copyFile source [] with
  | none => some (.error ⟨e, [], []⟩)
  | some dest => relier h host source addrText addrData fuel ⟨e, dest, []⟩

theorem mainR_eq_relier {source : List UInt8} (hlen : source.length < 2 ^ 31) (h : Heap) (host : Bool)
    (addrText addrData : UInt32) (fuel : Nat) (e : Elf32) :
    mainR h host source addrText addrData fuel e =
      relier h host source addrText addrData fuel ⟨e, source, []⟩ := by
  rw [mainR, copyFile_empty hlen]

/-! ## The base of a symbol -/

/-- One section cannot have both names. -/
theorem texte_ne_donnees {h : Heap} {e : Elf32} {k : Nat} (hk : k < e.shnum)
    (htext : getSectionIndex h e dotText = k) : getSectionIndex h e dotData ≠ k := fun hdata => by
  have hnt := ((getSectionIndex_eq_iff hk).mp htext).1
  have hnd := ((getSectionIndex_eq_iff hk).mp hdata).1
  exact absurd (strcmpEq_unique hnt hnd (by decide) (by decide)) (by decide)

/-- The base that `corriger_symboles` adds is the address in the header of the section. -/
theorem stValue_eq_add_shAddr {h : Heap} {e : Elf32} {addrText addrData : UInt32} {s : Elf32Sym}
    {a b : Elf32Shdr} (hn : e.shnum < 0xff00) (hundef : s.stShndx ≠ shnUndef)
    (hlt : s.stShndx.toNat < e.shnum) (ha : e.shtable[s.stShndx.toNat]? = some a) (hzero : a.shAddr = 0)
    (hb : (adresser h e addrText addrData).shtable[s.stShndx.toNat]? = some b) :
    adresseAbsolueSymbole h e addrText addrData s = s.stValue + b.shAddr := by
  have habs : s.stShndx ≠ shnAbs := by
    intro hc
    rw [hc] at hlt
    exact absurd (Nat.lt_trans hlt hn) (by decide)
  rw [getElem?_adresser, ha, Option.map_some, Option.some.injEq] at hb
  subst hb
  rw [adresseAbsolueSymbole, if_pos ⟨habs, hundef⟩, hzero]
  by_cases ht : getSectionIndex h e dotText = s.stShndx.toNat
  · by_cases hd : getSectionIndex h e dotData = s.stShndx.toNat
    · exact absurd hd (texte_ne_donnees hlt ht)
    · simp only [if_pos ht, if_neg hd]
  · by_cases hd : getSectionIndex h e dotData = s.stShndx.toNat
    · simp only [if_neg ht, if_pos hd]
    · simp only [if_neg ht, if_neg hd, UInt32.add_zero]

/-- A symbol outside the two sections keeps its value: undefined, absolute, common. -/
theorem stValue_eq_of_special {h : Heap} {e : Elf32} {addrText addrData : UInt32} {s : Elf32Sym}
    (hn : e.shnum < 0xff00)
    (hs : s.stShndx = shnUndef ∨ s.stShndx = shnAbs ∨ s.stShndx = shnCommon) :
    adresseAbsolueSymbole h e addrText addrData s = s.stValue := by
  unfold adresseAbsolueSymbole
  by_cases hres : s.stShndx ≠ shnAbs ∧ s.stShndx ≠ shnUndef
  · have hcommon : s.stShndx.toNat = 0xfff2 := by
      rcases hs with hs | hs | hs
      · exact absurd hs hres.2
      · exact absurd hs hres.1
      · rw [hs]
        rfl
    have hne : ∀ name, getSectionIndex h e name ≠ s.stShndx.toNat := fun name hc => by
      have hlt := getSectionIndex_lt h e name
      omega
    simp only [if_pos hres, if_neg (hne _)]
  · rw [if_neg hres]

/-! ## The run -/

section

variable {h : Heap} {host : Bool} {f : List UInt8} {e : Elf32} {addrText addrData : UInt32}

/-- The world of a run whose relocations were all applied. -/
theorem relier_eq {fuel : Nat} {w : World} : relier h host f addrText addrData fuel w =
    if (relocations h w.elf).all (lisible h w.elf f) then
      supprimeRelSections h host fuel (corrigerSymboles h host addrText addrData
        (bilan h f addrText addrData host w))
    else some (.error (bilan h f addrText addrData host w)) := by
  rw [relier, appliquerRelocations_eq]
  cases (relocations h w.elf).all (lisible h w.elf f) with
  | true => rfl
  | false => rfl

/-- Relocations apart from the three parts leave a mirror of `elfdata`. -/
theorem reflete_bilan (host : Bool) (addrText addrData : UInt32) (hd : Disposition h e f.length)
    (hr : Reflete h f e)
    (hin : ∀ x ∈ relocations h e, place h e x.rel + 4 ≤ f.length)
    (hout : ∀ x ∈ relocations h e, x.supported = true → Disjoint (partsWindow h e) (fenetre h e x)) :
    (bilan h f addrText addrData host ⟨e, f, []⟩).dest.length = f.length ∧
      Reflete h (bilan h f addrText addrData host ⟨e, f, []⟩).dest (adresser h e addrText addrData) := by
  let w : World := ⟨e, f, []⟩
  have hso := fwriteShAddrTestData_sameOutside host (w := w) hd addrText addrData
  have hr₁ := reflete_fwriteShAddrTestData host (w := w) hd hr addrText addrData
  have hparts : partsWindow h (adresser h e addrText addrData) = partsWindow h e := by
    rw [partsWindow, symtabWindow_adresser]
    rfl
  have hpatches : Patch.SameOutside {k | k ∉ partsWindow h e}
      (fwriteShAddrTestData h host addrText addrData w).dest
      (bilan h f addrText addrData host w).dest := by
    refine Patch.sameOutside_applyAll (fun p hp => ?_) fun p hp k hk => ?_
    · obtain ⟨x, hx, hpx⟩ := List.mem_filterMap.mp hp
      obtain ⟨hoff, hlen, -, -⟩ := correction_eq_some hpx
      rw [hoff, hlen, hso.length_eq]
      exact hin x (Loop.mem_of_mem_reached hx)
    · obtain ⟨x, hx, hpx⟩ := List.mem_filterMap.mp hp
      obtain ⟨hoff, hlen, -, hsup⟩ := correction_eq_some hpx
      rw [Patch.positions, hoff, hlen] at hk
      exact fun hc => Set.disjoint_left.mp (hout x (Loop.mem_of_mem_reached hx) hsup) hc hk
  refine ⟨hpatches.length_eq.trans hso.length_eq, hr₁.of_sameOutside hpatches ?_⟩
  rw [hparts, Set.disjoint_left]
  exact fun k hk hc => hc hk

/-- The address that section `k` is given. -/
def adresseSection (h : Heap) (e : Elf32) (addrText addrData : UInt32) (k : Nat) : UInt32 :=
  if getSectionIndex h e dotText = k then addrText
  else if getSectionIndex h e dotData = k then addrData
  else 0

/-- What becomes of a symbol `s` of `e`, read back as `s'` with the section table `t`. -/
structure ValeurConforme (h : Heap) (e : Elf32) (addrText addrData : UInt32) (t : List Elf32Shdr)
    (s s' : Elf32Sym) : Prop where
  name : s'.stName = s.stName
  size : s'.stSize = s.stSize
  info : s'.stInfo = s.stInfo
  other : s'.stOther = s.stOther
  special : s.stShndx = shnUndef ∨ s.stShndx = shnAbs ∨ s.stShndx = shnCommon →
    s'.stValue = s.stValue
  defined : ∀ a, s.stShndx ≠ shnUndef → e.shtable[s.stShndx.toNat]? = some a → gardee a = true →
    ∃ b, t[s'.stShndx.toNat]? = some b ∧ b.shAddr = adresseSection h e addrText addrData s.stShndx.toNat ∧
      s'.stValue = s.stValue + b.shAddr

/-- The addresses that are stored in the headers, where they were 0. -/
theorem shAddr_adresser {k : Nat} {a b : Elf32Shdr} (hk : k < e.shnum) (ha : e.shtable[k]? = some a)
    (hzero : a.shAddr = 0) (hb : (adresser h e addrText addrData).shtable[k]? = some b) :
    b.shAddr = adresseSection h e addrText addrData k := by
  rw [getElem?_adresser, ha, Option.map_some, Option.some.injEq] at hb
  rw [← hb, hzero, adresseSection]
  by_cases htext : getSectionIndex h e dotText = k
  · simp only [if_pos htext, if_neg (texte_ne_donnees hk htext)]
  · simp only [if_neg htext]

/-- A symbol corrected with the addresses of `e` and then renumbered by the filter. -/
theorem valeurConforme_of_filtered {e' : Elf32} {s s' : Elf32Sym} (hn : e.shnum < 0xff00)
    (hfull : e.TableFull) (haddr : ∀ a ∈ e.shtable, a.shAddr = 0)
    (htable : e'.shtable.map sansLien =
      ((adresser h e addrText addrData).shtable.filter gardee).map sansLien)
    (hs : SymFiltered (adresser h e addrText addrData).shtable
      (corrigerSymbole h e addrText addrData s) s') :
    ValeurConforme h e addrText addrData e'.shtable s s' := by
  have hcorr := corrigerSymbole_fields h e addrText addrData s
  have hshndx : (corrigerSymbole h e addrText addrData s).stShndx = s.stShndx :=
    (congrArg Elf32Sym.stShndx hcorr :)
  have hvalue : s'.stValue = adresseAbsolueSymbole h e addrText addrData s :=
    (congrArg Elf32Sym.stValue hs.fields :).trans (stValue_corrigerSymbole h e addrText addrData s)
  refine ⟨?_, ?_, ?_, ?_, fun hspecial => ?_, fun a hundef ha hkept => ?_⟩
  · exact (congrArg Elf32Sym.stName hs.fields :).trans (congrArg Elf32Sym.stName hcorr :)
  · exact (congrArg Elf32Sym.stSize hs.fields :).trans (congrArg Elf32Sym.stSize hcorr :)
  · exact (congrArg Elf32Sym.stInfo hs.fields :).trans (congrArg Elf32Sym.stInfo hcorr :)
  · exact (congrArg Elf32Sym.stOther hs.fields :).trans (congrArg Elf32Sym.stOther hcorr :)
  · rw [hvalue, stValue_eq_of_special hn hspecial]
  · -- the header with its address, and the same header at its rank in the output
    obtain ⟨b, hb⟩ : ∃ b, (adresser h e addrText addrData).shtable[s.stShndx.toNat]? = some b := by
      rw [getElem?_adresser, ha]
      exact ⟨_, rfl⟩
    have hkeptb : gardee b = true := by
      rw [getElem?_adresser, ha, Option.map_some, Option.some.injEq] at hb
      rw [← hb, ← hkept]
      rfl
    obtain ⟨c, hc, heq⟩ := getElem?_rank_gardee htable hb hkeptb
    have hk := hfull.lt_shnum ha
    have hzero := haddr a (List.mem_of_getElem? ha)
    have haddress := sansLien_field Elf32Shdr.shAddr (fun _ => rfl) heq
    refine ⟨c, ?_, haddress.trans (shAddr_adresser hk ha hzero hb), ?_⟩
    · rw [hs.kept b (hshndx ▸ hb) hkeptb, hshndx]
      exact hc
    · rw [hvalue, haddress]
      exact stValue_eq_add_shAddr hn hundef hk ha hzero hb

end

/-- An image that the program can relocate: regular, its sections at no address yet and
its symbols in a section or reserved, with relocations apart from the parts of the file
that mirror `elfdata`. -/
structure ImageRelogeable (h : Heap) (e : Elf32) (f : List UInt8) : Prop where
  regular : ImageReguliere h e f.length
  shnum_lt : e.shnum < 0xff00
  addresses : ∀ s ∈ e.shtable, s.shAddr = 0
  text : 0 ≤ getSectionIndex h e dotText
  data : 0 ≤ getSectionIndex h e dotData
  shndx : ∀ s ∈ e.symtable, s.stShndx.toNat < e.shnum ∨ shnLoreserve ≤ s.stShndx
  past : ∀ n ≤ e.shnum, ¬pastIsSymtab h n
  apart : ∀ x ∈ relocations h e, x.supported = true → Disjoint (partsWindow h e) (fenetre h e x)

/-- The sections of `e` that are kept, in the table `t`, at their addresses. -/
structure AdressesConformes (h : Heap) (e : Elf32) (addrText addrData : UInt32) (t : List Elf32Shdr) :
    Prop where
  length_eq : t.length = (e.shtable.filter gardee).length
  address : ∀ (k : Nat) a, e.shtable[k]? = some a → gardee a = true →
    ∃ b, t[Deletion.rank gardee e.shtable k]? = some b ∧ b.shAddr = adresseSection h e addrText addrData k

/-- The destination, read back, has the sections that are kept at their addresses and a
symbol for each symbol of `e`, and they conform. -/
def ValeursConformes (h : Heap) (host : Bool) (e : Elf32) (addrText addrData : UInt32)
    (dest : List UInt8) : Prop :=
  ∃ elfhdr shtable symtable symtabIndex, readHeader host dest = some elfhdr ∧
    readShtable h host dest elfhdr = some shtable ∧
    readSymtable h host dest elfhdr shtable = some (symtable, symtabIndex) ∧
    AdressesConformes h e addrText addrData shtable ∧ symtable.length = e.symtable.length ∧
    ∀ (k : Nat) s s', e.symtable[k]? = some s → symtable[k]? = some s' →
      ValeurConforme h e addrText addrData shtable s s'

section

variable {h : Heap} {host : Bool} {f : List UInt8} {e : Elf32} {addrText addrData : UInt32}

/-- After the relocations and the correction of the symbols the destination mirrors
`elfdata`, whose symbols are all corrected. -/
theorem corrigerSymboles_bilan (host : Bool) (addrText addrData : UInt32) (hd : Disposition h e f.length)
    (hr : Reflete h f e) (hin : ∀ x ∈ relocations h e, place h e x.rel + 4 ≤ f.length)
    (hout : ∀ x ∈ relocations h e, x.supported = true → Disjoint (partsWindow h e) (fenetre h e x))
    {w : World} (hw : w = bilan h f addrText addrData host ⟨e, f, []⟩) :
    Disposition h (corrigerSymboles h host addrText addrData w).elf
        (corrigerSymboles h host addrText addrData w).dest.length ∧
      Reflete h (corrigerSymboles h host addrText addrData w).dest
        (corrigerSymboles h host addrText addrData w).elf ∧
      (corrigerSymboles h host addrText addrData w).elf = { adresser h e addrText addrData with
        symtable := e.symtable.map (corrigerSymbole h e addrText addrData) } := by
  have helf : w.elf = adresser h e addrText addrData :=
    hw ▸ fwriteShAddrTestData_elf h host addrText addrData ⟨e, f, []⟩
  obtain ⟨hlen, hrw⟩ := reflete_bilan host addrText addrData hd hr hin hout
  rw [← hw] at hlen hrw
  rw [← helf] at hrw
  have hdw : Disposition h w.elf w.dest.length := by
    rw [helf, hlen]
    exact disposition_adresser hd addrText addrData
  refine ⟨?_, reflete_corrigerSymboles host hdw hrw addrText addrData, ?_⟩
  · rw [(corrigerSymboles_sameOutside host hdw addrText addrData).length_eq]
    exact disposition_corrigerSymboles host hdw addrText addrData
  · have hcount := hdw.unique.length_symtable (h := h) hdw.loaded
    rw [corrigerSymboles_elf, Loop.mapUpTo_of_length_le _ (Nat.le_of_eq hcount), helf,
      corrigerSymbole_adresser]
    rfl

variable (h e addrText addrData) in
/-- The addresses do not decide what is kept. -/
theorem map_gardee_adresser :
    (adresser h e addrText addrData).shtable.map gardee = e.shtable.map gardee := by
  apply List.ext_getElem?
  intro j
  rw [List.getElem?_map, List.getElem?_map, getElem?_adresser, Option.map_map]
  rfl

theorem rank_adresser (k : Nat) :
    Deletion.rank gardee (adresser h e addrText addrData).shtable k = Deletion.rank gardee e.shtable k :=
  Deletion.rank_congr (map_gardee_adresser h e addrText addrData) k

/-- The sections with their addresses, filtered. -/
theorem adressesConformes_of_filtered {t : List Elf32Shdr} (hfull : e.TableFull)
    (haddr : ∀ a ∈ e.shtable, a.shAddr = 0)
    (htable : t.map sansLien = ((adresser h e addrText addrData).shtable.filter gardee).map sansLien) :
    AdressesConformes h e addrText addrData t := by
  refine ⟨?_, fun k a ha hkept => ?_⟩
  · have hlen := congrArg List.length htable
    have hcount := congrArg (List.countP id) (map_gardee_adresser h e addrText addrData)
    rw [List.countP_map, List.countP_map] at hcount
    rw [List.length_map, List.length_map, ← List.countP_eq_length_filter] at hlen
    rw [hlen, ← List.countP_eq_length_filter]
    exact hcount
  · obtain ⟨b, hb⟩ : ∃ b, (adresser h e addrText addrData).shtable[k]? = some b := by
      rw [getElem?_adresser, ha]
      exact ⟨_, rfl⟩
    have hkeptb : gardee b = true := by
      rw [getElem?_adresser, ha, Option.map_some, Option.some.injEq] at hb
      rw [← hb, ← hkept]
      rfl
    obtain ⟨c, hc, heq⟩ := getElem?_rank_gardee htable hb hkeptb
    refine ⟨c, rank_adresser (h := h) (e := e) k ▸ hc, ?_⟩
    rw [sansLien_field Elf32Shdr.shAddr (fun _ => rfl) heq]
    exact shAddr_adresser (hfull.lt_shnum ha) ha (haddr a (List.mem_of_getElem? ha)) hb

/-- From the relocated world on, the run returns and its destination conforms. -/
theorem supprimeRelSections_conformes (addrText addrData : UInt32)
    (hload : mainLecture h host f = some e) (himg : ImageRelogeable h e f)
    (hin : ∀ x ∈ relocations h e, place h e x.rel + 4 ≤ f.length) :
    ∃ w', (∀ fuel, e.shnum < fuel → supprimeRelSections h host fuel
        (corrigerSymboles h host addrText addrData
          (bilan h f addrText addrData host ⟨e, f, []⟩)) = some (.ok w')) ∧
      ValeursConformes h host e addrText addrData w'.dest := by
  have hc := coherent_of_load hload
  have hd := disposition_of_coherent hc himg.regular
  have hr := (coherent_iff host hd).mp hc
  obtain ⟨hdw, hrw, helf⟩ := corrigerSymboles_bilan host addrText addrData hd hr hin himg.apart rfl
  let w := corrigerSymboles h host addrText addrData (bilan h f addrText addrData host ⟨e, f, []⟩)
  have hshnum : w.elf.shnum = e.shnum := by
    rw [show w.elf = _ from helf]
    rfl
  obtain ⟨w', hrun, hfilt, hd', hr'⟩ := supprimeRelSections_filtered
    (Q := fun e d => Disposition h e d.length ∧ Reflete h d e) h host (w := w) hdw.unique hdw.loaded
    (by rw [hshnum]; exact himg.shnum_lt) (fun n hle => himg.past n (by omega)) ⟨hdw, hrw⟩
    fun v v' i r ⟨hv, _⟩ hpast hr hrel hdel => by
      obtain ⟨hv', hrv', -⟩ := supprimeSh_coherent hv hr hrel hpast hdel
      exact ⟨hv', hrv'⟩
  rw [hshnum] at hrun
  obtain ⟨hheader', hshtable', hsymtable'⟩ := (coherent_iff host hd').mpr hr'
  have htable := hfilt.table
  have hsymbols := hfilt.symbols
  rw [show w.elf = _ from helf] at htable hsymbols
  refine ⟨w', hrun, _, _, _, _, hheader', hshtable', hsymtable',
    adressesConformes_of_filtered hd.unique.full himg.addresses htable, ?_, fun k s s' hs hs' => ?_⟩
  · rw [hfilt.length, show w.elf = _ from helf, List.length_map]
  · refine valeurConforme_of_filtered himg.shnum_lt hd.unique.full himg.addresses htable
      (hsymbols k _ s' ?_ hs')
    rw [List.getElem?_map, hs]
    rfl

end

/-- After the whole run on the copy of a relocatable image, `.text` and `.data` have their
addresses and the other sections none, each symbol defined in a section that is kept has
gained the address of that section once, as the destination says; the others and the
other fields are as in the source. The run returns when every word to relocate is in the
file, and it is that of `main` when the size of the file is an `int`. -/
theorem mainR_conforme (h : Heap) (host : Bool) {f : List UInt8} {e : Elf32} (addrText addrData : UInt32)
    (hload : mainLecture h host f = some e) (himg : ImageRelogeable h e f) :
    (∀ fuel w', e.shnum < fuel → relier h host f addrText addrData fuel ⟨e, f, []⟩ = some (.ok w') →
      ValeursConformes h host e addrText addrData w'.dest) ∧
    ((∀ x ∈ relocations h e, place h e x.rel + 4 ≤ f.length) →
      ∃ w', ∀ fuel, e.shnum < fuel → relier h host f addrText addrData fuel ⟨e, f, []⟩ = some (.ok w')) ∧
    (f.length < 2 ^ 31 → ∀ fuel, mainR h host f addrText addrData fuel e =
      relier h host f addrText addrData fuel ⟨e, f, []⟩) := by
  have hall : (relocations h e).all (lisible h e f) = true ↔
      ∀ x ∈ relocations h e, place h e x.rel + 4 ≤ f.length := by
    simp only [List.all_eq_true, lisible, decide_eq_true_eq]
  refine ⟨fun fuel w' hfuel hrun => ?_, fun hin => ?_, fun hlen fuel => ?_⟩
  · rw [relier_eq] at hrun
    split at hrun
    next hl =>
      obtain ⟨w'', hrun', hconf⟩ := supprimeRelSections_conformes addrText addrData hload himg
        (hall.mp hl)
      rw [hrun' fuel hfuel, Option.some.injEq, Except.ok.injEq] at hrun
      exact hrun ▸ hconf
    next => cases hrun
  · obtain ⟨w', hrun', -⟩ := supprimeRelSections_conformes addrText addrData hload himg hin
    refine ⟨w', fun fuel hfuel => ?_⟩
    rw [relier_eq, if_pos (hall.mpr hin), hrun' fuel hfuel]
  · exact mainR_eq_relier hlen h host addrText addrData fuel e

theorem exemple_relogeable : ImageRelogeable tasNul (exemple 0x102) (exempleImage 0x102) where
  regular := exemple_reguliere
  shnum_lt := by decide +kernel
  addresses := by decide +kernel
  text := by decide +kernel
  data := by decide +kernel
  shndx := by decide +kernel
  past _ _ := show (0 : UInt32) ≠ shtSymtab by decide
  apart x hx _ := by
    have hplace : ∀ x ∈ relocations tasNul (exemple 0x102), place tasNul (exemple 0x102) x.rel = 56 := by
      decide +kernel
    rw [fenetre, hplace x hx]
    refine Set.disjoint_union_left.mpr ⟨Set.disjoint_union_left.mpr ⟨?_, ?_⟩, ?_⟩
    · exact Patch.disjoint_window (Or.inl (by decide))
    · exact Patch.disjoint_window (Or.inr (by decide +kernel))
    · exact Patch.disjoint_window (Or.inr (by decide +kernel))

theorem mainR_conforme_exemple :
    ∃ w', mainR tasNul false (exempleImage 0x102) 0x20 0x2800 8 (exemple 0x102) = some (.ok w') ∧
      ValeursConformes tasNul false (exemple 0x102) 0x20 0x2800 w'.dest := by
  obtain ⟨hconf, hret, hmain⟩ := mainR_conforme tasNul false 0x20 0x2800
    (show mainLecture tasNul false (exempleImage 0x102) = some (exemple 0x102) by decide +kernel)
    exemple_relogeable
  obtain ⟨w', hrun⟩ := hret (by decide +kernel)
  rw [hmain (by decide +kernel) 8]
  exact ⟨w', hrun 8 (by decide +kernel), hconf 8 w' (by decide +kernel) (hrun 8 (by decide +kernel))⟩

end ElfLinker
