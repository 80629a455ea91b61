import ElfLinker.Suppression

/-!
The addresses that the program assigns: `fwrite_sh_addr_test_data` stores them in the
headers of `.text` and `.data`, `corriger_symboles` adds them to the symbols of these
two sections. Both write the table they changed to the destination. The sections are
looked up by name, and a name that is not found gives the index -1.
-/

namespace ElfLinker

/-! ## fwrite_sh_addr_test_data -/

/-- `shtable[i].sh_addr = addr`. With the index -1 of a section that was not found the
store goes before the array and leaves the table as it is. -/
def setShAddr (i : Int) (addr : UInt32) (t : List Elf32Shdr) : List Elf32Shdr :=
  if 0 ≤ i then t.modify i.toNat fun s => { s with shAddr := addr } else t

/-- One of the two assignments: look the section up, store its address. -/
def affecte (h : Heap) (name : List UInt8) (addr : UInt32) (w : World) : World :=
  let i := getSectionIndex h w.elf name
  w.step { w.elf with shtable := setShAddr i addr w.elf.shtable } (getSectionIndexSubs h w.elf name ++ [i])

def fwriteShAddrTestData (h : Heap) (host : Bool) (addrText addrData : UInt32) (w : World) : World :=
  let w := affecte h dotText addrText w
  let w := affecte h dotData addrData w
  let shnum := w.elf.shnum
  let shoff := w.elf.elfhdr.eShoff.toNat
  let w := w.step (swapShtable host shnum w.elf) (swapShtableSubs host shnum)
  let w := w.fwrite shoff (shtableBytes h host shnum w.elf.shtable)
  w.step (swapShtable host shnum w.elf) (swapShtableSubs host shnum)

/-! ## corriger_symboles -/

/-- The body of the loop. -/
def corrigerSymbole (h : Heap) (e : Elf32) (addrText addrData : UInt32) (symbole : Elf32Sym) :
    Elf32Sym :=
  if symbole.stShndx = shnUndef ∨ symbole.stShndx = shnAbs then symbole
  else
    let symbole := if symbole.stShndx.toNat = getSectionIndex h e dotText then
      { symbole with stValue := symbole.stValue + addrText } else symbole
    if symbole.stShndx.toNat = getSectionIndex h e dotData then
      { symbole with stValue := symbole.stValue + addrData } else symbole

theorem corrigerSymbole_fields (h : Heap) (e : Elf32) (addrText addrData : UInt32) (s : Elf32Sym) :
    { corrigerSymbole h e addrText addrData s with stValue := s.stValue } = s := by
  unfold corrigerSymbole
  split
  · rfl
  · dsimp only
    split <;> split <;> rfl

/-- The subscripts of one turn. -/
def corrigerSymboleSubs (h : Heap) (e : Elf32) (symbole : Elf32Sym) : List Int :=
  if symbole.stShndx = shnUndef ∨ symbole.stShndx = shnAbs then []
  else getSectionIndexSubs h e dotText ++ getSectionIndexSubs h e dotData

def corrigerSymboles (h : Heap) (host : Bool) (addrText addrData : UInt32) (w : World) : World :=
  let symtab := shdrAt h w.elf.shtable w.elf.symtabIndex
  let symtabSize := symtab.shSize.toNat
  let symoff := symtab.shOffset.toNat
  let n := symtabSize / 16
  let w := w.step
    { w.elf with symtable := Loop.mapUpTo n (corrigerSymbole h w.elf addrText addrData) w.elf.symtable }
    (List.replicate 2 (Int.ofNat w.elf.symtabIndex) ++
      (List.range n).flatMap fun i => corrigerSymboleSubs h w.elf (symAt h w.elf.symtable i))
  let w := w.step (swapSymtable host n w.elf) []
  let w := w.fwrite symoff (symtableBytes h host symtabSize w.elf.symtable)
  w.step (swapSymtable host n w.elf) []

/-! ## The section headers with their addresses -/

/-- A section header up to `sh_addr`. -/
def sansAdresse (s : Elf32Shdr) : Elf32Shdr := { s with shAddr := 0 }

/-- `elfdata` with the address of `.text` and `.data` stored. -/
def adresser (h : Heap) (e : Elf32) (addrText addrData : UInt32) : Elf32 :=
  { e with
    shtable := setShAddr (getSectionIndex h e dotData) addrData
      (setShAddr (getSectionIndex h e dotText) addrText e.shtable) }

theorem getElem?_setShAddr (i : Int) (addr : UInt32) (t : List Elf32Shdr) (k : Nat) :
    (setShAddr i addr t)[k]? =
      t[k]?.map fun s => if i = k then { s with shAddr := addr } else s := by
  unfold setShAddr
  split
  next hi =>
    rw [List.getElem?_modify]
    by_cases hk : i.toNat = k
    · simp [show i = k by omega]
    · simp [hk, show ¬i = k by omega]
  next hi => simp [show ¬i = k by omega]

@[simp] theorem length_setShAddr (i : Int) (addr : UInt32) (t : List Elf32Shdr) :
    (setShAddr i addr t).length = t.length := by
  unfold setShAddr
  split
  · rw [List.length_modify]
  · rfl

/-- Storing an address changes nothing else in a header. -/
theorem sansAdresse_shdrAt_setShAddr (h : Heap) (i : Int) (addr : UInt32) (t : List Elf32Shdr)
    (k : Nat) : sansAdresse (shdrAt h (setShAddr i addr t) k) = sansAdresse (shdrAt h t k) := by
  rw [shdrAt, shdrAt, List.getD_eq_getElem?_getD, List.getD_eq_getElem?_getD, getElem?_setShAddr]
  cases t[k]? with
  | none => rfl
  | some s =>
    simp only [Option.map_some, Option.getD_some]
    split <;> rfl

section

variable (h : Heap) (e : Elf32) (addrText addrData : UInt32)

theorem adresser_field {α : Type} (f : Elf32Shdr → α) (hf : ∀ s, f (sansAdresse s) = f s) (k : Nat) :
    f (shdrAt h (adresser h e addrText addrData).shtable k) = f (shdrAt h e.shtable k) := by
  rw [← hf, adresser, sansAdresse_shdrAt_setShAddr, sansAdresse_shdrAt_setShAddr, hf]

@[simp] theorem shName_adresser (k : Nat) :
    (shdrAt h (adresser h e addrText addrData).shtable k).shName = (shdrAt h e.shtable k).shName :=
  adresser_field h e addrText addrData _ (fun _ => rfl) k

@[simp] theorem shOffset_adresser (k : Nat) :
    (shdrAt h (adresser h e addrText addrData).shtable k).shOffset =
      (shdrAt h e.shtable k).shOffset :=
  adresser_field h e addrText addrData _ (fun _ => rfl) k

@[simp] theorem shSize_adresser (k : Nat) :
    (shdrAt h (adresser h e addrText addrData).shtable k).shSize = (shdrAt h e.shtable k).shSize :=
  adresser_field h e addrText addrData _ (fun _ => rfl) k

@[simp] theorem length_adresser : (adresser h e addrText addrData).shtable.length = e.shtable.length := by
  rw [adresser, length_setShAddr, length_setShAddr]

variable {e} in
theorem tableFull_adresser (hfull : e.TableFull) : (adresser h e addrText addrData).TableFull :=
  (length_adresser h e addrText addrData).trans hfull

@[simp] theorem getSectionIndex_adresser (name : List UInt8) :
    getSectionIndex h (adresser h e addrText addrData) name = getSectionIndex h e name :=
  getSectionIndex_congr rfl fun k _ => by rw [nameIs, shName_adresser, nameIs]; rfl

@[simp] theorem getSectionIndexSubs_adresser (name : List UInt8) :
    getSectionIndexSubs h (adresser h e addrText addrData) name = getSectionIndexSubs h e name :=
  getSectionIndexSubs_congr rfl fun k _ => by rw [nameIs, shName_adresser, nameIs]; rfl

/-- An entry of the table: the address of `.text`, of `.data`, or its own. -/
theorem getElem?_adresser (k : Nat) :
    (adresser h e addrText addrData).shtable[k]? = e.shtable[k]?.map fun s =>
      { s with shAddr :=
          if getSectionIndex h e dotData = k then addrData
          else if getSectionIndex h e dotText = k then addrText else s.shAddr } := by
  rw [adresser, getElem?_setShAddr, getElem?_setShAddr, Option.map_map]
  congr 1
  funext s
  simp only [Function.comp]
  split <;> split <;> rfl

end

/-- The addresses stored in the headers do not change the correction of the symbols. -/
@[simp] theorem corrigerSymbole_adresser (h : Heap) (e : Elf32) (addrText addrData : UInt32) :
    corrigerSymbole h (adresser h e addrText addrData) addrText addrData =
      corrigerSymbole h e addrText addrData := by
  funext s
  simp only [corrigerSymbole, getSectionIndex_adresser]

/-! ## What the two functions leave -/

section

variable (h : Heap) (host : Bool) (addrText addrData : UInt32) (w : World)

/-- The second search sees the same names as the first. -/
theorem nameIs_affecte (name name' : List UInt8) (addr : UInt32) (k : Nat) :
    nameIs h (affecte h name addr w).elf name' k = nameIs h w.elf name' k := by
  have hname := congrArg Elf32Shdr.shName
    (sansAdresse_shdrAt_setShAddr h (getSectionIndex h w.elf name) addr w.elf.shtable k)
  exact congrArg (fun off : UInt32 => strcmpEq h w.elf.shStrtab name' off.toNat) hname

theorem getSectionIndex_affecte (name name' : List UInt8) (addr : UInt32) :
    getSectionIndex h (affecte h name addr w).elf name' = getSectionIndex h w.elf name' :=
  getSectionIndex_congr (show (affecte h name addr w).elf.shnum = w.elf.shnum from rfl)
    fun k _ => nameIs_affecte h w name name' addr k

theorem getSectionIndexSubs_affecte (name name' : List UInt8) (addr : UInt32) :
    getSectionIndexSubs h (affecte h name addr w).elf name' = getSectionIndexSubs h w.elf name' :=
  getSectionIndexSubs_congr (show (affecte h name addr w).elf.shnum = w.elf.shnum from rfl)
    fun k _ => nameIs_affecte h w name name' addr k

theorem affecte_affecte_elf :
    (affecte h dotData addrData (affecte h dotText addrText w)).elf =
      adresser h w.elf addrText addrData := by
  rw [affecte, World.step_elf, getSectionIndex_affecte]
  rfl

@[simp] theorem fwriteShAddrTestData_elf :
    (fwriteShAddrTestData h host addrText addrData w).elf = adresser h w.elf addrText addrData := by
  simp only [fwriteShAddrTestData, World.step_elf, World.fwrite_elf, swapShtable_eq,
    toHost_mapUpTo_twice swapEndianessShtable_twice, affecte_affecte_elf]

theorem fwriteShAddrTestData_dest (hfull : w.elf.TableFull) :
    (fwriteShAddrTestData h host addrText addrData w).dest =
      Patch.writeAt w.dest w.elf.elfhdr.eShoff.toNat
        ((shdr true).encodeAll (adresser h w.elf addrText addrData).shtable) := by
  have hlen : (adresser h w.elf addrText addrData).shtable.length =
      (adresser h w.elf addrText addrData).shnum := tableFull_adresser h addrText addrData hfull
  simp only [fwriteShAddrTestData, World.step_elf, World.step_dest, World.fwrite_dest, swapShtable_eq,
    affecte_affecte_elf, shtableBytes_toHost h host hlen]
  rfl

/-- The subscripts of the two assignments. -/
def affecteSubs (e : Elf32) : List Int :=
  getSectionIndexSubs h e dotText ++ [getSectionIndex h e dotText] ++
    (getSectionIndexSubs h e dotData ++ [getSectionIndex h e dotData])

theorem affecte_affecte_log :
    (affecte h dotData addrData (affecte h dotText addrText w)).log =
      w.log ++ (affecteSubs h w.elf).map Access.shtable := by
  rw [affecte, World.step_log, getSectionIndex_affecte, getSectionIndexSubs_affecte, affecte,
    World.step_log, List.append_assoc, ← List.map_append, affecteSubs]

/-- What the call adds to the log: the subscripts of the assignments and of the swaps,
and one write. -/
theorem mem_fwriteShAddrTestData_log (x : Access) :
    x ∈ (fwriteShAddrTestData h host addrText addrData w).log ↔
      x ∈ w.log ∨ x ∈ (affecteSubs h w.elf).map Access.shtable ∨
        x ∈ (swapShtableSubs host w.elf.shnum).map Access.shtable ∨
        x = .write w.elf.elfhdr.eShoff.toNat (shtableBytes h host w.elf.shnum
          (swapShtable host w.elf.shnum (adresser h w.elf addrText addrData)).shtable) := by
  simp only [fwriteShAddrTestData, World.step_log, World.fwrite_log, World.step_elf, World.fwrite_elf,
    affecte_affecte_elf, affecte_affecte_log, List.mem_append, List.mem_singleton]
  rw [show (adresser h w.elf addrText addrData).shnum = w.elf.shnum from rfl,
    show (adresser h w.elf addrText addrData).elfhdr = w.elf.elfhdr from rfl]
  tauto

/-- Every symbol of the table is corrected once. -/
@[simp] theorem corrigerSymboles_elf :
    (corrigerSymboles h host addrText addrData w).elf = { w.elf with
      symtable := Loop.mapUpTo (nombreDeSymboles h w.elf) (corrigerSymbole h w.elf addrText addrData)
        w.elf.symtable } := by
  simp only [corrigerSymboles, World.step_elf, World.fwrite_elf, swapSymtable_eq,
    toHost_mapUpTo_twice swapEndianessSymbole_twice]
  rfl

theorem corrigerSymboles_dest :
    (corrigerSymboles h host addrText addrData w).dest =
      let symtab := shdrAt h w.elf.shtable w.elf.symtabIndex
      let size := symtab.shSize.toNat
      Patch.writeAt w.dest symtab.shOffset.toNat
        (symtableBytes h host size (toHost host (Loop.mapUpTo (size / 16) swapEndianessSymbole)
          (corrigerSymboles h host addrText addrData w).elf.symtable)) := by
  rw [corrigerSymboles_elf]
  simp only [corrigerSymboles, World.step_elf, World.step_dest, World.fwrite_dest, swapSymtable_eq]
  rfl

end

/-! ## The sections that get an address -/

/-- Section `k` is the first one named `name`. -/
def PremiereNommee (h : Heap) (e : Elf32) (name : List UInt8) (k : Nat) : Prop :=
  nameIs h e name k = true ∧ ∀ j < k, nameIs h e name j = false

/-- From `e` and `dest`, the run to `w` made no subscript outside the section table, gave
the first `.text` and the first `.data` their addresses, and left every other field of
every header as it was, in `elfdata` and in the table written to the destination. -/
structure AdressesSeules (h : Heap) (e : Elf32) (dest : List UInt8) (addrText addrData : UInt32)
    (w : World) : Prop where
  indices : ∀ i, Access.shtable i ∈ w.log → 0 ≤ i ∧ i < e.shnum
  elfdata : w.elf = { e with shtable := w.elf.shtable }
  shnum : w.elf.shtable.length = e.shtable.length
  champs : ∀ (k : Nat) s s', e.shtable[k]? = some s → w.elf.shtable[k]? = some s' →
    { s' with shAddr := s.shAddr } = s
  text : ∀ (k : Nat) s', w.elf.shtable[k]? = some s' → PremiereNommee h e dotText k → s'.shAddr = addrText
  data : ∀ (k : Nat) s', w.elf.shtable[k]? = some s' → PremiereNommee h e dotData k → s'.shAddr = addrData
  autres : ∀ (k : Nat) s s', e.shtable[k]? = some s → w.elf.shtable[k]? = some s' →
    ¬PremiereNommee h e dotText k → ¬PremiereNommee h e dotData k → s'.shAddr = s.shAddr
  ecrite : w.dest = Patch.writeAt dest e.elfhdr.eShoff.toNat ((shdr true).encodeAll w.elf.shtable)

section

variable {h : Heap} {e : Elf32}

theorem premiereNommee_iff {name : List UInt8} {k : Nat} (hk : k < e.shnum) :
    PremiereNommee h e name k ↔ getSectionIndex h e name = k := (getSectionIndex_eq_iff hk).symm

/-- No section is named both `.text` and `.data`. -/
theorem dotText_ne_dotData {k : Nat} (htext : nameIs h e dotText k = true) : nameIs h e dotData k = false := by
  by_contra hdata
  rw [Bool.not_eq_false] at hdata
  exact absurd (strcmpEq_unique htext hdata (by decide) (by decide)) (by decide)

/-- The subscripts of the two assignments are in the table when both names are found. -/
theorem affecteSubs_bounds_iff : (∀ i ∈ affecteSubs h e, 0 ≤ i ∧ i < e.shnum) ↔
    0 ≤ getSectionIndex h e dotText ∧ 0 ≤ getSectionIndex h e dotData := by
  simp only [affecteSubs, List.mem_append, List.mem_singleton]
  constructor
  · intro hall
    exact ⟨(hall _ (Or.inl (Or.inr rfl))).1, (hall _ (Or.inr (Or.inr rfl))).1⟩
  · rintro ⟨htext, hdata⟩ i ((hi | rfl) | (hi | rfl))
    · exact getSectionIndexSubs_bounds hi
    · exact ⟨htext, getSectionIndex_lt h e dotText⟩
    · exact getSectionIndexSubs_bounds hi
    · exact ⟨hdata, getSectionIndex_lt h e dotData⟩

variable (h e) in
/-- The subscripts of the whole call: the swaps stay in the table. -/
theorem shtable_mem_fwriteShAddrTestData (host : Bool) (dest : List UInt8) (addrText addrData : UInt32) :
    (∀ i, Access.shtable i ∈ (fwriteShAddrTestData h host addrText addrData ⟨e, dest, []⟩).log →
      0 ≤ i ∧ i < e.shnum) ↔ ∀ i ∈ affecteSubs h e, 0 ≤ i ∧ i < e.shnum := by
  have hmem : ∀ (l : List Int) (i : Int), Access.shtable i ∈ l.map Access.shtable ↔ i ∈ l := by
    intro l i
    simp
  constructor
  · intro hall i hi
    refine hall i ((mem_fwriteShAddrTestData_log h host addrText addrData _ _).mpr (Or.inr (Or.inl ?_)))
    exact (hmem _ i).mpr hi
  · intro hall i hi
    rw [mem_fwriteShAddrTestData_log, hmem, hmem] at hi
    rcases hi with hi | hi | hi | hi
    · exact absurd hi List.not_mem_nil
    · exact hall i hi
    · exact swapShtableSubs_bounds hi
    · cases hi

/-- An entry of the table after the call. -/
theorem getElem?_fwriteShAddrTestData (host : Bool) (hfull : e.TableFull) {dest : List UInt8}
    {addrText addrData : UInt32} {k : Nat} {s' : Elf32Shdr}
    (hs' : (fwriteShAddrTestData h host addrText addrData ⟨e, dest, []⟩).elf.shtable[k]? = some s') :
    ∃ s, k < e.shnum ∧ e.shtable[k]? = some s ∧ s' =
      { s with shAddr :=
          if getSectionIndex h e dotData = k then addrData
          else if getSectionIndex h e dotText = k then addrText else s.shAddr } := by
  rw [fwriteShAddrTestData_elf, getElem?_adresser, Option.map_eq_some_iff] at hs'
  obtain ⟨s, hs, heq⟩ := hs'
  exact ⟨s, Nat.lt_of_lt_of_eq (List.getElem?_eq_some_iff.mp hs).1 hfull, hs, heq.symm⟩

/-- What the call leaves of the table, whichever names are found. -/
theorem adressesSeules_of_indices (host : Bool) (hfull : e.TableFull) (dest : List UInt8)
    (addrText addrData : UInt32)
    (hindices : ∀ i, Access.shtable i ∈ (fwriteShAddrTestData h host addrText addrData ⟨e, dest, []⟩).log →
      0 ≤ i ∧ i < e.shnum) :
    AdressesSeules h e dest addrText addrData
      (fwriteShAddrTestData h host addrText addrData ⟨e, dest, []⟩) := by
  have helf : (fwriteShAddrTestData h host addrText addrData ⟨e, dest, []⟩).elf =
      adresser h e addrText addrData := fwriteShAddrTestData_elf h host addrText addrData ⟨e, dest, []⟩
  refine ⟨hindices, ?_, ?_, ?_, ?_, ?_, ?_, ?_⟩
  · rw [helf]
    rfl
  · rw [helf, length_adresser]
  · intro k s s' hs hs'
    obtain ⟨t, _, ht, rfl⟩ := getElem?_fwriteShAddrTestData host hfull hs'
    rw [hs, Option.some.injEq] at ht
    rw [ht]
  · intro k s' hs' hfirst
    obtain ⟨s, hk, _, rfl⟩ := getElem?_fwriteShAddrTestData host hfull hs'
    have hdata : getSectionIndex h e dotData ≠ k := fun hc => by
      have := ((premiereNommee_iff hk).mpr hc).1
      rw [dotText_ne_dotData hfirst.1] at this
      cases this
    rw [premiereNommee_iff hk] at hfirst
    exact (if_neg hdata).trans (if_pos hfirst)
  · intro k s' hs' hfirst
    obtain ⟨s, hk, _, rfl⟩ := getElem?_fwriteShAddrTestData host hfull hs'
    rw [premiereNommee_iff hk] at hfirst
    exact if_pos hfirst
  · intro k s s' hs hs' htext hdata
    obtain ⟨t, hk, ht, rfl⟩ := getElem?_fwriteShAddrTestData host hfull hs'
    rw [premiereNommee_iff hk] at htext hdata
    rw [hs, Option.some.injEq] at ht
    rw [ht]
    exact (if_neg hdata).trans (if_neg htext)
  · rw [fwriteShAddrTestData_dest h host addrText addrData ⟨e, dest, []⟩ hfull, helf]

end

/-- The call touches nothing but the two addresses exactly when both sections exist. -/
theorem fwriteShAddrTestData_seules_iff (h : Heap) (host : Bool) {e : Elf32} (hfull : e.TableFull)
    (dest : List UInt8) (addrText addrData : UInt32) :
    AdressesSeules h e dest addrText addrData
        (fwriteShAddrTestData h host addrText addrData ⟨e, dest, []⟩) ↔
      (∃ k < e.shnum, nameIs h e dotText k = true) ∧ ∃ k < e.shnum, nameIs h e dotData k = true := by
  rw [← getSectionIndex_nonneg_iff, ← getSectionIndex_nonneg_iff, ← affecteSubs_bounds_iff,
    ← shtable_mem_fwriteShAddrTestData h e host dest addrText addrData]
  exact ⟨AdressesSeules.indices, adressesSeules_of_indices host hfull dest addrText addrData⟩

theorem fwriteShAddrTestData_seules_iff_exemple :
    AdressesSeules tasNul (exemple 0x102) [] 0x20 0x2800
        (fwriteShAddrTestData tasNul false 0x20 0x2800 ⟨exemple 0x102, [], []⟩) ↔
      (∃ k < (exemple 0x102).shnum, nameIs tasNul (exemple 0x102) dotText k = true) ∧
        ∃ k < (exemple 0x102).shnum, nameIs tasNul (exemple 0x102) dotData k = true :=
  fwriteShAddrTestData_seules_iff tasNul false (by decide +kernel) [] 0x20 0x2800

/-- The small object file with another name for `.data`. -/
def exempleSansData : Elf32 :=
  { exemple 0x102 with shtable := exempleSections.set 3 ⟨16, 1, 3, 0, 68, 8, 0, 0, 4, 0⟩ }

/-- The address of `.data` is stored at index -1. -/
theorem fwriteShAddrTestData_exempleSansData :
    Access.shtable (-1) ∈ (fwriteShAddrTestData tasNul false 0x20 0x2800 ⟨exempleSansData, [], []⟩).log ∧
    ¬AdressesSeules tasNul exempleSansData [] 0x20 0x2800
      (fwriteShAddrTestData tasNul false 0x20 0x2800 ⟨exempleSansData, [], []⟩) := by
  have hminus : Access.shtable (-1) ∈
      (fwriteShAddrTestData tasNul false 0x20 0x2800 ⟨exempleSansData, [], []⟩).log := by decide +kernel
  exact ⟨hminus, fun hc => absurd (hc.indices _ hminus).1 (by decide)⟩

end ElfLinker
