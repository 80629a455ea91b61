import ElfLinker.Execution
import ElfLinker.Chargement

/-!
The same image on the two kinds of host. `read_reltab` swaps its records without asking
for the host, so a big-endian host keeps the relocations that read the same backwards
and spoils the others; every other read and write of the program is in the order of the
file.
-/

namespace ElfLinker
open Endian

/-! ## Loading -/

section

variable (h : Heap) (host : Bool) (f : List UInt8)

theorem readHeader_host : readHeader host f = readHeader false f := by
  rw [readHeader_eq, readHeader_eq]

theorem readShtable_host (elfhdr : Elf32Ehdr) :
    readShtable h host f elfhdr = readShtable h false f elfhdr := by
  simp only [readShtable, (turns_host turns_shdr _).map_decodeAll]

theorem readSymtable_host (elfhdr : Elf32Ehdr) (shtable : List Elf32Shdr) :
    readSymtable h host f elfhdr shtable = readSymtable h false f elfhdr shtable := by
  rw [readSymtable_eq, readSymtable_eq]

/-- What is loaded before `read_reltab`. -/
def avantReltab : Option Elf32 := do
  let elfhdr ← lireEntete false f
  let shtable ← readShtable h false f elfhdr
  let e ← readStrtab h f ⟨elfhdr, shtable, [], ⟨[], 0⟩, [], [], 0⟩ dotShstrtab
  let e ← readStrtab h f e dotStrtab
  let r ← readSymtable h false f e.elfhdr e.shtable
  return { e with symtable := r.1, symtabIndex := r.2 }

theorem mainLecture_eq : mainLecture h host f = (avantReltab h f).bind (readReltab h host f) := by
  unfold mainLecture avantReltab lireEntete
  simp only [Option.bind_eq_bind, Option.bind_assoc]
  rw [readHeader_host]
  congr 1
  funext elfhdr
  split
  next => rfl
  next =>
    simp only [readShtable_host h host, readSymtable_host h host]
    rfl

/-- Only `reltab` depends on the host. -/
theorem mainLecture_host : mainLecture h host f = (mainLecture h false f).map fun e =>
    { e with reltab := ⟨entrees h host f e, (entrees h host f e).length⟩ } := by
  rw [mainLecture_eq, mainLecture_eq]
  cases avantReltab h f with
  | none => rfl
  | some e =>
    rw [Option.bind_some, Option.bind_some, readReltab_eq, readReltab_eq]
    split <;> rfl

end

/-! ## Records that read the same backwards -/

/-- Swapping the bytes of a relocation section changes none of its records. -/
structure Symetrique (f : List UInt8) (s : Elf32Shdr) : Prop where
  rel : isRel s.shType = true →
    ∀ r ∈ (rel true).decodeAll (s.shSize.toNat / 8) (contenu f s), swapEndianessRel r = r
  rela : isRela s.shType = true →
    ∀ r ∈ (rela true).decodeAll (s.shSize.toNat / 12) (contenu f s), swapEndianessRela r = r

def RelocationsSymetriques (f : List UInt8) : Prop := ∀ s ∈ tableDe f, Symetrique f s

theorem map_eq_self_iff {α : Type} (swap : α → α) (as : List α) :
    as.map swap = as ↔ ∀ a ∈ as, swap a = a := by
  induction as with
  | nil => simp
  | cons a as ih => simp [ih]

section

variable (h : Heap) (f : List UInt8) (e : Elf32)

theorem entreeDe_big (i : Nat) : entreeDe h true f e i =
    let s := shdrAt h e.shtable i
    let n := s.shSize.toNat / 8
    if isRel s.shType then
      some ⟨((rel true).decodeAll n (contenu f s)).map swapEndianessRel, [], i, s.shType.toUInt8, n⟩
    else if isRela s.shType then
      some ⟨[], ((rela true).decodeAll (s.shSize.toNat / 12) (contenu f s)).map swapEndianessRela, i,
        s.shType.toUInt8, n⟩
    else none := by
  have hrela : ∀ size data,
      Loop.mapUpTo (size / 8) swapEndianessRela ((rela true).decodeAll (size / 12) data) =
        ((rela true).decodeAll (size / 12) data).map swapEndianessRela := fun size data =>
    Loop.mapUpTo_of_length_le _ (by rw [Codec.length_decodeAll]; omega)
  have hrel : ∀ n data, Loop.mapUpTo n swapEndianessRel ((rel true).decodeAll n data) =
      ((rel true).decodeAll n data).map swapEndianessRel := fun n data =>
    Loop.mapUpTo_of_length_le _ (Nat.le_of_eq (Codec.length_decodeAll _ _ _))
  simp only [entreeDe, hrel, hrela, contenu]

theorem entreeDe_host_iff (i : Nat) :
    entreeDe h true f e i = entreeDe h false f e i ↔ Symetrique f (shdrAt h e.shtable i) := by
  rw [entreeDe_big, entreeDe_little]
  generalize shdrAt h e.shtable i = s
  dsimp only
  by_cases hrel : isRel s.shType = true
  · have hrela : ¬isRela s.shType = true := fun hc => by
      rw [not_isRel_of_isRela hc] at hrel
      cases hrel
    simp only [hrel, if_true, Option.some.injEq, Elf32RelEntry.mk.injEq, and_true, map_eq_self_iff]
    exact ⟨fun hs => ⟨fun _ => hs, fun hc => absurd hc hrela⟩, fun hs => hs.rel hrel⟩
  · by_cases hrela : isRela s.shType = true
    · simp only [hrel, hrela, if_false, if_true, Option.some.injEq, Elf32RelEntry.mk.injEq, and_true,
        true_and, map_eq_self_iff, Bool.false_eq_true]
      exact ⟨fun hs => ⟨fun hc => absurd hc hrel, fun _ => hs⟩, fun hs => hs.rela hrela⟩
    · simp only [hrel, hrela, if_false, Bool.false_eq_true, true_iff]
      exact ⟨fun hc => absurd hc hrel, fun hc => absurd hc hrela⟩

/-- The entries agree on both hosts when those of each section do. -/
theorem entrees_host_iff : entrees h true f e = entrees h false f e ↔
    ∀ i < e.shnum, Symetrique f (shdrAt h e.shtable i) := by
  constructor
  · intro heq i hi
    rw [← entreeDe_host_iff]
    cases hx : entreeDe h false f e i with
    | none =>
      rw [← Option.not_isSome_iff_eq_none, entreeDe_isSome, ← entreeDe_isSome h false f e, hx]
      exact Bool.false_ne_true
    | some x =>
      obtain rfl := shndx_entreeDe h false f e hx
      exact (mem_entrees.mp (heq ▸ mem_entrees.mpr ⟨hi, hx⟩)).2
  · intro hs
    exact List.filterMap_congr fun i hi =>
      (entreeDe_host_iff h f e i).mpr (hs i (List.mem_range.mp hi))

variable {h f e} in
/-- The relocation sections of the file are those of `elfdata`. -/
theorem relocationsSymetriques_iff (hload : mainLecture h false f = some e)
    (hsize : 40 ≤ (enteteDe f).eShentsize.toNat) :
    entrees h true f e = entrees h false f e ↔ RelocationsSymetriques f := by
  obtain ⟨hhdr, hshtable, -⟩ := mainLecture_some hload
  rw [readHeader_eq] at hhdr
  split at hhdr
  next =>
    have helfhdr : enteteDe f = e.elfhdr := Option.some.inj hhdr
    rw [helfhdr] at hsize
    have htable : e.shtable = tableDe f := by
      rw [(readShtable_some hsize hshtable).1, tableDe, helfhdr]
    have hlen : e.shtable.length = e.shnum := by
      rw [(readShtable_some hsize hshtable).1, Codec.length_decodeAll, Elf32.shnum]
    rw [entrees_host_iff, RelocationsSymetriques, ← htable]
    constructor
    · intro hs s hmem
      obtain ⟨i, hi, rfl⟩ := List.mem_iff_getElem.mp hmem
      have hget := shdrAt_eq (h := h) (List.getElem?_eq_getElem hi)
      exact hget ▸ hs i (hlen ▸ hi)
    · intro hs i hi
      exact hs _ (List.mem_of_getElem? (shdrAt_of_lt h (hlen.symm ▸ hi)))
  next => cases hhdr

end

/-! ## The run -/

/-- The same memory on the other kind of host: the bytes behind the symbols are written
out as they are. -/
def Heap.renverse (h : Heap) : Heap :=
  { h with symtable := fun i => swapEndianessSymbole (h.symtable i) }

theorem symtableBytes_host (h : Heap) {size : Nat} {t : List Elf32Sym} (hn : t.length = size / 16) :
    symtableBytes h.renverse true size (toHost true (Loop.mapUpTo (size / 16) swapEndianessSymbole) t) =
      symtableBytes h false size (toHost false (Loop.mapUpTo (size / 16) swapEndianessSymbole) t) := by
  -- all the symbols, and the entry behind them that the last bytes may come from
  have hread : ∀ (g : Heap) (u : List Elf32Sym), u.length = size / 16 →
      (List.range (size / 16 + 1)).map (symAt g u) = u ++ [g.symtable (size / 16)] := by
    intro g u hu
    have hsymbols := Loop.map_getD_range u g.symtable
    rw [hu] at hsymbols
    rw [List.range_succ, List.map_append, List.map_singleton, symAt, List.getD_eq_getElem?_getD,
      List.getElem?_eq_none (Nat.le_of_eq hu)]
    exact congrArg (· ++ _) hsymbols
  have hbehind : ∀ a, (sym true).encode (swapEndianessSymbole a) = (sym false).encode a := fun a => by
    rw [← turns_sym.encode_eq, swapEndianessSymbole_twice]
  simp only [symtableBytes, toHost_mapUpTo _ _ hn]
  rw [hread _ _ ((List.length_map _).trans hn), hread _ _ ((List.length_map _).trans hn),
    Codec.encodeAll_append, Codec.encodeAll_append, (turns_host turns_sym true).encodeAll_map,
    (turns_host turns_sym false).encodeAll_map]
  simp only [Codec.encodeAll_cons, Codec.encodeAll_nil, Heap.renverse, hbehind]

/-- What the rest of the run is to find: the symbols of the symbol table, and nothing to
delete or a symbol table that the deletions follow. -/
structure Prete (h : Heap) (e : Elf32) : Prop where
  full : e.TableFull
  symbols : e.symtable.length = nombreDeSymboles h e
  deletions : (∀ s ∈ e.shtable, isRel s.shType = false) ∨
    e.UniqueSymtab ∧ ∀ n ≤ e.shnum, ¬pastIsSymtab h n

section

variable {h : Heap} {w w' : World} {index : Nat}

theorem Prete.suppression {e : Elf32} (hp : Prete h e) {r : Elf32Shdr}
    (hr : e.shtable[index]? = some r) (hrel : isRel r.shType = true) :
    2 ≤ e.shnum ∧ Prete h (suppression h e index) := by
  rcases hp.deletions with hkept | ⟨hu, hpast⟩
  · rw [hkept r (List.mem_of_getElem? hr)] at hrel
    cases hrel
  · have hi := hu.full.lt_shnum hr
    have hne := hu.ne_symtabIndex hr hrel
    have hloaded : e.SymbolsLoaded := fun s hs => by
      rw [hp.symbols, nombreDeSymboles, shdrAt_eq hs]
    have hu' := suppression_uniqueSymtab hu hi hne (hpast _ (Nat.le_refl _))
    refine ⟨hu.full.two_le hr (gardee_eq_false hrel) hu.kept, hu'.full, ?_, Or.inr ⟨hu', ?_⟩⟩
    · exact hu'.length_symtable
        (suppression_symbolsLoaded hu hloaded hi hne (hpast _ (Nat.le_refl _)))
    · intro n hn
      rw [suppression_shnum hi] at hn
      exact hpast n (by omega)

theorem ecrire_host (helf : w'.elf = w.elf) (hdest : w'.dest = w.dest) (hp : Prete h w.elf) :
    (ecrire h.renverse true w').dest = (ecrire h false w).dest := by
  rw [ecrire_dest h false w hp.full, ecrire_dest h.renverse true w' (helf ▸ hp.full), helf, hdest]
  exact congrArg (Patch.writeAt _ _) (symtableBytes_host h hp.symbols)

variable (w w') in
theorem supprimeSh_host (helf : w'.elf = w.elf) (hdest : w'.dest = w.dest) (hi : index < w.elf.shnum)
    (htwo : 2 ≤ w.elf.shnum) (hp : Prete h (suppression h w.elf index)) :
    ∃ v v', supprimeSh h false index w = .ok v ∧ supprimeSh h.renverse true index w' = .ok v' ∧
      v.elf = suppression h w.elf index ∧ v'.elf = v.elf ∧ v'.dest = v.dest := by
  obtain ⟨v, hv, hvelf, hvdest, -⟩ := supprimeSh_eq h false hi htwo
  obtain ⟨v', hv', hvelf', hvdest', -⟩ := supprimeSh_eq h.renverse true (w := w') (helf ▸ hi) (helf ▸ htwo)
  have heq : v'.elf = v.elf := by
    rw [hvelf', hvelf, helf]
    rfl
  refine ⟨_, _, hv, hv', ?_, ?_, ?_⟩
  · rw [ecrire_elf, hvelf]
  · rw [ecrire_elf, ecrire_elf, heq]
  · exact ecrire_host heq (by rw [hvdest', hvdest, hdest]) (hvelf ▸ hp)

/-- The loops keep in step. -/
theorem supprimeRelLoop_host (fuel i : Nat) (helf : w'.elf = w.elf) (hdest : w'.dest = w.dest)
    (hp : Prete h w.elf) :
    (supprimeRelLoop h.renverse true fuel i w').map (fun o => o.world.dest) =
      (supprimeRelLoop h false fuel i w).map fun o => o.world.dest := by
  induction fuel generalizing i w w' with
  | zero => rfl
  | succ fuel ih =>
    by_cases hi : i < w.elf.shnum
    · have hi' : i < w'.elf.shnum := helf ▸ hi
      have hentry := shdrAt_of_lt h (show i < w.elf.shtable.length from hp.full ▸ hi)
      cases hrel : isRel (shdrAt h w.elf.shtable i).shType with
      | true =>
        have hrel' : isRel (shdrAt h.renverse w'.elf.shtable i).shType = true := by rwa [helf]
        obtain ⟨htwo, hp'⟩ := hp.suppression hentry hrel
        obtain ⟨v, v', hv, hv', hvelf, heq, hdest'⟩ := supprimeSh_host (w.step w.elf [(i : Int)])
          (w'.step w'.elf [(i : Int)]) helf hdest hi htwo hp'
        rw [supprimeRelLoop_delete hi hrel hv, supprimeRelLoop_delete hi' hrel' hv']
        exact ih i heq hdest' (hvelf ▸ hp')
      | false =>
        have hrel' : isRel (shdrAt h.renverse w'.elf.shtable i).shType = false := by rwa [helf]
        rw [supprimeRelLoop_next hi hrel, supprimeRelLoop_next hi' hrel']
        exact ih (i + 1) helf hdest hp
    · rw [supprimeRelLoop_end hi, supprimeRelLoop_end (helf ▸ hi)]
      exact congrArg some hdest

end

section

variable {h : Heap} {f : List UInt8} {e : Elf32} {addrText addrData : UInt32}

/-- A symbol of the table is the same whatever lies behind. -/
theorem symboleDe_renverse {r : Elf32Rel} (hr : (elf32RSym r.rInfo).toNat < e.symtable.length) :
    symboleDe h.renverse e r = symboleDe h e r := by
  rw [symboleDe, symboleDe, symAt_eq (symAt_of_lt h hr)]

theorem lisible_renverse {x : Relocation} (hx : (elf32RSym x.rel.rInfo).toNat < e.symtable.length) :
    lisible h.renverse e f x = lisible h e f x := by
  unfold lisible place
  rw [symboleDe_renverse hx]
  rfl

theorem correction_renverse {x : Relocation} (hx : (elf32RSym x.rel.rInfo).toNat < e.symtable.length) :
    correction h.renverse e f addrText addrData x = correction h e f addrText addrData x := by
  unfold correction place
  rw [lisible_renverse hx, symboleDe_renverse hx]
  rfl

/-- With the symbols of the relocations in the table, both hosts get to the same entries. -/
theorem atteintes_renverse
    (hsym : ∀ x ∈ atteintes h e f, (elf32RSym x.rel.rInfo).toNat < e.symtable.length) :
    atteintes h.renverse e f = atteintes h e f ∧
      (relocations h e).all (lisible h.renverse e f) = (relocations h e).all (lisible h e f) :=
  Loop.reached_congr fun x hx => lisible_renverse (hsym x hx)

/-- And write the same words. -/
theorem bilan_host (hfull : e.TableFull)
    (hsym : ∀ x ∈ atteintes h e f, (elf32RSym x.rel.rInfo).toNat < e.symtable.length) (dest : List UInt8) :
    (bilan h.renverse f addrText addrData true ⟨e, dest, []⟩).dest =
      (bilan h f addrText addrData false ⟨e, dest, []⟩).dest := by
  have hwords : (atteintes h e f).filterMap (correction h.renverse e f addrText addrData) =
      (atteintes h e f).filterMap (correction h e f addrText addrData) :=
    List.filterMap_congr fun x hx => correction_renverse (hsym x hx)
  simp only [bilan]
  rw [fwriteShAddrTestData_dest h false addrText addrData ⟨e, dest, []⟩ hfull,
    fwriteShAddrTestData_dest h.renverse true addrText addrData ⟨e, dest, []⟩ hfull,
    (atteintes_renverse hsym).1, hwords]
  rfl

theorem corrigerSymboles_host {w w' : World} (helf : w'.elf = w.elf) (hdest : w'.dest = w.dest)
    (hsymbols : w.elf.symtable.length = nombreDeSymboles h w.elf) :
    (corrigerSymboles h.renverse true addrText addrData w').elf =
        (corrigerSymboles h false addrText addrData w).elf ∧
      (corrigerSymboles h.renverse true addrText addrData w').dest =
        (corrigerSymboles h false addrText addrData w).dest := by
  have heq : (corrigerSymboles h.renverse true addrText addrData w').elf =
      (corrigerSymboles h false addrText addrData w).elf := by
    rw [corrigerSymboles_elf, corrigerSymboles_elf, helf]
    rfl
  refine ⟨heq, ?_⟩
  rw [corrigerSymboles_dest, corrigerSymboles_dest, heq, hdest, helf]
  refine congrArg (Patch.writeAt _ _) (symtableBytes_host h ?_)
  rw [corrigerSymboles_elf, Loop.length_mapUpTo, hsymbols]
  rfl

theorem Prete.symbols_adresser (hp : Prete h e) (addrText addrData : UInt32) :
    e.symtable.length = nombreDeSymboles h (adresser h e addrText addrData) :=
  hp.symbols.trans (congrArg (·.toNat / 16) (shSize_adresser h e addrText addrData e.symtabIndex).symm)

/-- Neither the addresses nor the values of the symbols matter for the deletions. -/
theorem Prete.corriger {w : World} (hp : Prete h e) (helf : w.elf = adresser h e addrText addrData) :
    Prete h (corrigerSymboles h false addrText addrData w).elf := by
  rw [corrigerSymboles_elf, helf]
  refine ⟨tableFull_adresser h addrText addrData hp.full, ?_, ?_⟩
  · rw [Loop.length_mapUpTo]
    exact hp.symbols_adresser addrText addrData
  · refine hp.deletions.imp (fun hkept s hs => ?_) fun ⟨hu, hpast⟩ => ?_
    · obtain ⟨k, hk⟩ := List.mem_iff_getElem?.mp hs
      rw [getElem?_adresser, Option.map_eq_some_iff] at hk
      obtain ⟨t, ht, rfl⟩ := hk
      exact hkept t (List.mem_of_getElem? ht)
    · have hu' := uniqueSymtab_adresser (h := h) hu addrText addrData
      exact ⟨⟨hu'.full, hu'.inTable, hu'.symtab_iff⟩, hpast⟩

/-- The subscripts of the run: the symbols of the relocations it gets to are in the symbol
table, and `supprime_sh`, which reads the entry past the end of the section table, is not
called or does not take that entry for a second symbol table. -/
structure Indices (h : Heap) (f : List UInt8) (e : Elf32) : Prop where
  symbols : ∀ x ∈ atteintes h e f, (elf32RSym x.rel.rInfo).toNat < e.symtable.length
  deletions : (∀ x ∈ relocations h e, lisible h e f x = true) →
    (∀ s ∈ e.shtable, isRel s.shType = false) ∨ e.UniqueSymtab ∧ ∀ n ≤ e.shnum, ¬pastIsSymtab h n

/-- The destination after the copy. -/
theorem relier_host (hfull : e.TableFull) (hsymbols : e.symtable.length = nombreDeSymboles h e)
    (hi : Indices h f e) (fuel : Nat) (dest : List UInt8) :
    (relier h.renverse true f addrText addrData fuel ⟨e, dest, []⟩).map (fun o => o.world.dest) =
      (relier h false f addrText addrData fuel ⟨e, dest, []⟩).map fun o => o.world.dest := by
  have hall : (relocations h.renverse e).all (lisible h.renverse e f) =
      (relocations h e).all (lisible h e f) := (atteintes_renverse hi.symbols).2
  have hdest : (bilan h.renverse f addrText addrData true ⟨e, dest, []⟩).dest =
      (bilan h f addrText addrData false ⟨e, dest, []⟩).dest := bilan_host hfull hi.symbols dest
  rw [relier_eq, relier_eq, hall]
  split
  next hl =>
    have hp : Prete h e := ⟨hfull, hsymbols, hi.deletions (List.all_eq_true.mp hl)⟩
    have hw : (bilan h f addrText addrData false ⟨e, dest, []⟩).elf = adresser h e addrText addrData :=
      fwriteShAddrTestData_elf h false addrText addrData ⟨e, dest, []⟩
    have helf : (bilan h.renverse f addrText addrData true ⟨e, dest, []⟩).elf =
        (bilan h f addrText addrData false ⟨e, dest, []⟩).elf := by
      rw [hw]
      exact fwriteShAddrTestData_elf h.renverse true addrText addrData ⟨e, dest, []⟩
    have hcount : (bilan h f addrText addrData false ⟨e, dest, []⟩).elf.symtable.length =
        nombreDeSymboles h (bilan h f addrText addrData false ⟨e, dest, []⟩).elf := by
      rw [hw]
      exact hp.symbols_adresser addrText addrData
    obtain ⟨heq, hdest'⟩ := corrigerSymboles_host helf hdest hcount
    exact supprimeRelLoop_host fuel 0 heq hdest' (hp.corriger hw)
  next => exact congrArg some hdest

/-- The copy does not depend on the host. -/
theorem mainR_host (hfull : e.TableFull) (hsymbols : e.symtable.length = nombreDeSymboles h e)
    (hi : Indices h f e) (fuel : Nat) :
    (mainR h.renverse true f addrText addrData fuel e).map (fun o => o.world.dest) =
      (mainR h false f addrText addrData fuel e).map fun o => o.world.dest := by
  rw [mainR, mainR]
  cases copyFile f [] with
  | none => rfl
  | some dest => exact relier_host hfull hsymbols hi fuel dest

end

/-! ## The two hosts -/

/-- `elfdata` is loaded alike, and from it all runs with `-R` end with one destination. -/
structure MemeResultat (h : Heap) (f : List UInt8) (e e' : Elf32) : Prop where
  elfdata : e' = e
  dest : ∀ addrText addrData fuel,
    (mainR h.renverse true f addrText addrData fuel e').map (fun o => o.world.dest) =
      (mainR h false f addrText addrData fuel e).map fun o => o.world.dest

/-- The two tables are read in full. -/
theorem counts_of_load {h : Heap} {f : List UInt8} {e : Elf32} (hload : mainLecture h false f = some e) :
    e.TableFull ∧ e.symtable.length = nombreDeSymboles h e := by
  obtain ⟨-, hshtable, hsymtable⟩ := mainLecture_some hload
  constructor
  · unfold readShtable at hshtable
    dsimp only at hshtable
    split at hshtable
    · cases hshtable
    split at hshtable
    · cases hshtable
    · rw [Option.some.injEq] at hshtable
      rw [Elf32.TableFull, ← hshtable, List.length_map, Codec.length_decodeAll, Elf32.shnum]
  · rw [readSymtable_eq] at hsymtable
    dsimp only at hsymtable
    split at hsymtable
    · rw [Option.some.injEq, Prod.mk.injEq] at hsymtable
      rw [← hsymtable.1, Codec.length_decodeAll, nombreDeSymboles, ← hsymtable.2]
    · cases hsymtable

/-- A big-endian host loads an image that a little-endian one loads. Both do the same
with it exactly when the relocations read the same backwards. -/
theorem memeResultat_iff {h : Heap} {f : List UInt8} (hsize : 40 ≤ (enteteDe f).eShentsize.toNat) :
    (mainLecture h.renverse true f).isSome = (mainLecture h false f).isSome ∧
    ∀ e e', mainLecture h false f = some e → mainLecture h.renverse true f = some e' → Indices h f e →
      (MemeResultat h f e e' ↔ RelocationsSymetriques f) := by
  have hhost : mainLecture h.renverse true f = (mainLecture h false f).map fun e =>
      { e with reltab := ⟨entrees h true f e, (entrees h true f e).length⟩ } :=
    mainLecture_host h true f
  refine ⟨by rw [hhost, Option.isSome_map], fun e e' hload hload' hi => ?_⟩
  have hlittle := mainLecture_host h false f
  rw [hload, Option.map_some, Option.some.injEq] at hlittle
  rw [hhost, hload, Option.map_some, Option.some.injEq] at hload'
  have hsame : e' = e ↔ RelocationsSymetriques f := by
    rw [← relocationsSymetriques_iff hload hsize, ← hload']
    constructor
    · intro heq
      exact congrArg (fun e : Elf32 => e.reltab.entries) (heq.trans hlittle)
    · intro heq
      rw [heq]
      exact hlittle.symm
  rw [← hsame]
  refine ⟨MemeResultat.elfdata, fun heq => ⟨heq, fun addrText addrData fuel => ?_⟩⟩
  rw [heq]
  obtain ⟨hfull, hsymbols⟩ := counts_of_load hload
  exact mainR_host hfull hsymbols hi fuel

/-- The subscripts of the small object file are in range. -/
theorem indices_exemple : Indices tasNul (exempleImage 0x102) (exemple 0x102) where
  symbols := by decide +kernel
  deletions _ := Or.inr ⟨by decide +kernel, fun _ _ => show (0 : UInt32) ≠ shtSymtab by decide⟩

theorem memeResultat_iff_exemple :
    ∃ e', mainLecture tasNul.renverse true (exempleImage 0x102) = some e' ∧
      (MemeResultat tasNul (exempleImage 0x102) (exemple 0x102) e' ↔
        RelocationsSymetriques (exempleImage 0x102)) := by
  have hload : mainLecture tasNul false (exempleImage 0x102) = some (exemple 0x102) := by decide +kernel
  obtain ⟨hsome, hiff⟩ := memeResultat_iff (h := tasNul) (f := exempleImage 0x102) (by decide +kernel)
  rw [hload, Option.isSome_some, Option.isSome_iff_exists] at hsome
  obtain ⟨e', hload'⟩ := hsome
  exact ⟨e', hload', hiff _ _ hload hload' indices_exemple⟩

/-- The offset 4 of its only relocation becomes 0x04000000 on a big-endian host. -/
theorem memeResultat_exemple :
    mainLecture tasNul false (exempleImage 0x102) = some (exemple 0x102) ∧
    Indices tasNul (exempleImage 0x102) (exemple 0x102) ∧
    ∃ e', mainLecture tasNul.renverse true (exempleImage 0x102) = some e' ∧
      e'.reltab.entries.flatMap Elf32RelEntry.rel = [⟨0x04000000, 0x02010000⟩] ∧
      ¬MemeResultat tasNul (exempleImage 0x102) (exemple 0x102) e' := by
  have hload : mainLecture tasNul.renverse true (exempleImage 0x102) = some { exemple 0x102 with
      reltab := ⟨[⟨[⟨0x04000000, 0x02010000⟩], [], 2, 9, 1⟩], 1⟩ } := by decide +kernel
  refine ⟨by decide +kernel, indices_exemple, _, hload, rfl, fun hc => ?_⟩
  exact absurd hc.elfdata (by decide)

end ElfLinker
