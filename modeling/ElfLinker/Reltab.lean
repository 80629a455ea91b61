import Mathlib.Data.List.Basic
import ElfLinker.Lecture

/-!
What `read_reltab` loads. The count of records is computed as if every table had
the records of `SHT_REL`, before the kind of the table is known; it bounds the loop
that swaps them and every later traversal.
-/

namespace ElfLinker
open Endian

/-! ## The loop over the sections -/

/-- Section `i` is a relocation table. -/
def deRelocations (h : Heap) (e : Elf32) (i : Nat) : Bool :=
  isRel (shdrAt h e.shtable i).shType || isRela (shdrAt h e.shtable i).shType

/-- The contents of a relocation table are in the file. -/
def complete (h : Heap) (f : List UInt8) (e : Elf32) (i : Nat) : Bool :=
  let s := shdrAt h e.shtable i
  !deRelocations h e i || (Patch.readAt f s.shOffset.toNat s.shSize.toNat).length == s.shSize.toNat

/-- The entry of section `i`. -/
def entreeDe (h : Heap) (host : Bool) (f : List UInt8) (e : Elf32) (i : Nat) : Option Elf32RelEntry :=
  let s := shdrAt h e.shtable i
  let n := s.shSize.toNat / 8
  let data := Patch.readAt f s.shOffset.toNat s.shSize.toNat
  if isRel s.shType then
    some ⟨Loop.mapUpTo n swapEndianessRel ((rel host).decodeAll n data), [], i, s.shType.toUInt8, n⟩
  else if isRela s.shType then
    some ⟨[], Loop.mapUpTo n swapEndianessRela ((rela host).decodeAll (s.shSize.toNat / 12) data), i,
      s.shType.toUInt8, n⟩
  else none

def entrees (h : Heap) (host : Bool) (f : List UInt8) (e : Elf32) : List Elf32RelEntry :=
  (List.range e.shnum).filterMap (entreeDe h host f e)

section

variable (h : Heap) (host : Bool) (f : List UInt8) (e : Elf32)

theorem entreeDe_isSome (i : Nat) : (entreeDe h host f e i).isSome = deRelocations h e i := by
  unfold entreeDe deRelocations
  simp only
  split
  next hrel => rw [hrel]; rfl
  next hrel =>
    split
    next hrela => rw [hrela, Bool.or_true]; rfl
    next hrela => rw [Bool.eq_false_iff.mpr hrel, Bool.eq_false_iff.mpr hrela]; rfl

theorem shndx_entreeDe {i : Nat} {entry : Elf32RelEntry} (he : entreeDe h host f e i = some entry) :
    entry.shndx = i := by
  unfold entreeDe at he
  simp only at he
  split at he
  · cases he
    rfl
  split at he
  · cases he
    rfl
  · cases he

/-- One turn appends the entry of the section, if it has one. -/
theorem readReltabEntry_eq (entries : List Elf32RelEntry) (i : Nat) :
    readReltabEntry h host f e ⟨entries, entries.length⟩ i =
      if complete h f e i then
        some ⟨entries ++ (entreeDe h host f e i).toList,
          (entries ++ (entreeDe h host f e i).toList).length⟩
      else none := by
  unfold readReltabEntry complete entreeDe deRelocations
  dsimp only
  generalize shdrAt h e.shtable i = s
  by_cases hrel : isRel s.shType = true
  · simp only [hrel, Bool.true_or, if_true, Bool.not_true, Bool.false_or, beq_iff_eq, ite_not]
    split <;> simp
  · by_cases hrela : isRela s.shType = true
    · simp only [hrel, hrela, Bool.or_true, if_true, Bool.not_true, beq_iff_eq, if_false, ite_not,
        Bool.false_eq_true, Bool.false_or]
      split <;> simp
    · simp [hrel, hrela]

theorem foldlM_readReltabEntry (is : List Nat) (entries : List Elf32RelEntry) :
    is.foldlM (readReltabEntry h host f e) ⟨entries, entries.length⟩ =
      if is.all (complete h f e) then
        some ⟨entries ++ is.filterMap (entreeDe h host f e),
          (entries ++ is.filterMap (entreeDe h host f e)).length⟩
      else none := by
  induction is generalizing entries with
  | nil => simp
  | cons i is ih =>
    rw [List.foldlM_cons, readReltabEntry_eq, List.all_cons, List.filterMap_cons]
    cases complete h f e i with
    | false => rfl
    | true =>
      simp only [if_true, Bool.true_and, Option.bind_eq_bind, Option.bind_some, ih]
      cases entreeDe h host f e i with
      | none => simp
      | some entry => simp

/-- `read_reltab` returns when every relocation table is in the file, with the entries
of these tables. -/
theorem readReltab_eq : readReltab h host f e =
    if (List.range e.shnum).all (complete h f e) then
      some { e with reltab := ⟨entrees h host f e, (entrees h host f e).length⟩ }
    else none := by
  have hloop := foldlM_readReltabEntry h host f e (List.range e.shnum) []
  rw [List.nil_append] at hloop
  unfold readReltab
  rw [show (⟨[], 0⟩ : Elf32Reltab) = ⟨[], [].length⟩ from rfl, hloop]
  split <;> rfl

end

/-! ## What is loaded -/

/-- The contents of a section. -/
def contenu (f : List UInt8) (s : Elf32Shdr) : List UInt8 := Patch.readAt f s.shOffset.toNat s.shSize.toNat

/-- `e` is what the loader finds in `f`. -/
structure Chargee (h : Heap) (host : Bool) (f : List UInt8) (e : Elf32) : Prop where
  header : readHeader host f = some e.elfhdr
  classe : e.elfhdr.eIdent[eiClass] = elfclass32
  shtable : readShtable h host f e.elfhdr = some e.shtable
  shStrtab : e.shStrtab = contenu f (shdrAt h e.shtable e.elfhdr.eShstrndx.toNat)
  symStrtab : e.symStrtab = contenu f (shdrAtInt h e.shtable (getSectionIndex h e dotStrtab))
  symtable : readSymtable h host f e.elfhdr e.shtable = some (e.symtable, e.symtabIndex)
  tables : ∀ i < e.shnum, complete h f e i = true
  reltab : e.reltab = ⟨entrees h host f e, (entrees h host f e).length⟩

section

variable {h : Heap} {host : Bool} {f : List UInt8} {e : Elf32}

theorem mainLecture_eq_some_iff : mainLecture h host f = some e ↔ Chargee h host f e := by
  have hne : dotStrtab ≠ dotShstrtab := by decide
  have hall : ∀ e : Elf32, (List.range e.shnum).all (complete h f e) = true ↔
      ∀ i < e.shnum, complete h f e i = true := by
    simp only [List.all_eq_true, List.mem_range, implies_true]
  simp only [mainLecture, readStrtab, if_true, if_neg hne, Option.bind_eq_bind, Option.bind_some,
    readReltab_eq]
  constructor
  · intro hload
    obtain ⟨elfhdr, hheader, hload⟩ := Option.bind_eq_some_iff.mp hload
    split at hload
    · cases hload
    next hclasse =>
      obtain ⟨shtable, hshtable, hload⟩ := Option.bind_eq_some_iff.mp hload
      obtain ⟨⟨symtable, symtabIndex⟩, hsymtable, hload⟩ := Option.bind_eq_some_iff.mp hload
      split at hload
      next htables =>
        cases hload
        exact ⟨hheader, Decidable.not_not.mp hclasse, hshtable, rfl, rfl, hsymtable, (hall _).mp htables, rfl⟩
      next => cases hload
  · intro hc
    have hnoms : Patch.readAt f (shdrAt h e.shtable e.elfhdr.eShstrndx.toNat).shOffset.toNat
        (shdrAt h e.shtable e.elfhdr.eShstrndx.toNat).shSize.toNat = e.shStrtab := hc.shStrtab.symm
    simp only [hc.header, Option.bind_some, ne_eq, hc.classe, not_true_eq_false, if_false, hc.shtable,
      hc.symtable, hnoms]
    refine (if_pos ((hall e).mpr hc.tables)).trans (congrArg some ?_)
    change ({ e with
      reltab := ⟨entrees h host f e, (entrees h host f e).length⟩
      symStrtab := contenu f (shdrAtInt h e.shtable (getSectionIndex h e dotStrtab)) } : Elf32) = e
    rw [← hc.reltab, ← hc.symStrtab]

/-- A relocation table that is whole in `f` is the same in a file that goes on after it. -/
theorem readAt_append_of_complete {i : Nat} (hone : complete h f e i = true)
    (hrel : deRelocations h e i = true) (suite : List UInt8) :
    Patch.readAt (f ++ suite) (shdrAt h e.shtable i).shOffset.toNat (shdrAt h e.shtable i).shSize.toNat =
      Patch.readAt f (shdrAt h e.shtable i).shOffset.toNat (shdrAt h e.shtable i).shSize.toNat := by
  rw [complete, hrel, Bool.not_true, Bool.false_or, beq_iff_eq] at hone
  exact Patch.readAt_append hone suite

theorem complete_append {i : Nat} (hone : complete h f e i = true) (suite : List UInt8) :
    complete h (f ++ suite) e i = true := by
  cases hrel : deRelocations h e i with
  | false => simp [complete, hrel]
  | true =>
    have hsame := readAt_append_of_complete hone hrel suite
    rw [complete] at hone ⊢
    rwa [hsame]

theorem entreeDe_append {i : Nat} (hone : complete h f e i = true) (suite : List UInt8) :
    entreeDe h host (f ++ suite) e i = entreeDe h host f e i := by
  cases hrel : deRelocations h e i with
  | true => rw [entreeDe, entreeDe, readAt_append_of_complete hone hrel suite]
  | false =>
    have hnone : ∀ g, entreeDe h host g e i = none := fun g => by
      rw [← Option.not_isSome_iff_eq_none, entreeDe_isSome, hrel]
      exact Bool.false_ne_true
    rw [hnone, hnone]

/-- Every part that is loaded is whole in `f`, so a file that goes on after it is loaded alike. -/
theorem Chargee.append (hc : Chargee h host f e) (hsize : e.elfhdr.eShentsize = 40)
    (hshstrtab : (contenu f (shdrAt h e.shtable e.elfhdr.eShstrndx.toNat)).length =
      (shdrAt h e.shtable e.elfhdr.eShstrndx.toNat).shSize.toNat)
    (hstrtab : (contenu f (shdrAtInt h e.shtable (getSectionIndex h e dotStrtab))).length =
      (shdrAtInt h e.shtable (getSectionIndex h e dotStrtab)).shSize.toNat)
    (suite : List UInt8) : Chargee h host (f ++ suite) e := by
  obtain ⟨hheader, hclasse, hshtable, hnoms, hchaines, hsymtable, htables, hreltab⟩ := hc
  have hentrees : entrees h host (f ++ suite) e = entrees h host f e :=
    List.filterMap_congr fun i hi => entreeDe_append (htables i (List.mem_range.mp hi)) suite
  exact ⟨readHeader_append_of_some hheader suite, hclasse, readShtable_append_of_some hsize hshtable suite,
    hnoms.trans (Patch.readAt_append hshstrtab suite).symm, hchaines.trans (Patch.readAt_append hstrtab suite).symm,
    readSymtable_append_of_some hsymtable suite, fun i hi => complete_append (htables i hi) suite,
    by rw [hentrees, hreltab]⟩

end

/-! ## Exact loading -/

/-- The size of one record of a relocation table. -/
def tailleEntree (s : Elf32Shdr) : Nat := if isRel s.shType then 8 else 12

/-- The subscripts of the loop of `swap_endianess_rel` or `swap_endianess_rela` on the
records of a section. -/
def tours (s : Elf32Shdr) : List Nat := List.range (s.shSize.toNat / 8)

/-- `reltab` is what the relocation tables of the file hold, and it was made without
going outside the memory allocated for their contents. -/
structure Exacte (h : Heap) (f : List UInt8) (e : Elf32) (reltab : Elf32Reltab) : Prop where
  sections : reltab.entries.map Elf32RelEntry.shndx = (List.range e.shnum).filter (deRelocations h e)
  entrynum : reltab.entrynum = reltab.entries.length
  relnum : ∀ x ∈ reltab.entries, x.relnum =
    (shdrAt h e.shtable x.shndx).shSize.toNat / tailleEntree (shdrAt h e.shtable x.shndx)
  rel : ∀ x ∈ reltab.entries, isRel (shdrAt h e.shtable x.shndx).shType = true → ∀ j < x.relnum,
    x.rel[j]? = some ((rel true).decode ((contenu f (shdrAt h e.shtable x.shndx)).drop (8 * j)))
  rela : ∀ x ∈ reltab.entries, isRela (shdrAt h e.shtable x.shndx).shType = true → ∀ j < x.relnum,
    x.rela[j]? = some ((rela true).decode ((contenu f (shdrAt h e.shtable x.shndx)).drop (12 * j)))
  memoire : ∀ x ∈ reltab.entries, ∀ j ∈ tours (shdrAt h e.shtable x.shndx),
    tailleEntree (shdrAt h e.shtable x.shndx) * (j + 1) ≤ (shdrAt h e.shtable x.shndx).shSize.toNat

/-- On a little-endian host the records end up decoded. -/
theorem entreeDe_little (h : Heap) (f : List UInt8) (e : Elf32) (i : Nat) :
    entreeDe h false f e i =
      let s := shdrAt h e.shtable i
      let n := s.shSize.toNat / 8
      if isRel s.shType then
        some ⟨(rel true).decodeAll n (contenu f s), [], i, s.shType.toUInt8, n⟩
      else if isRela s.shType then
        some ⟨[], (rela true).decodeAll (s.shSize.toNat / 12) (contenu f s), i, s.shType.toUInt8, n⟩
      else none := by
  have hrel : ∀ n data, Loop.mapUpTo n swapEndianessRel ((rel false).decodeAll n data) =
      (rel true).decodeAll n data := by
    intro n data
    rw [Loop.mapUpTo_of_length_le _ (by simp), turns_rel.map_decodeAll]
  have hrela : ∀ size data, Loop.mapUpTo (size / 8) swapEndianessRela ((rela false).decodeAll (size / 12) data) =
      (rela true).decodeAll (size / 12) data := by
    intro size data
    rw [Loop.mapUpTo_of_length_le _ (by rw [Codec.length_decodeAll]; omega), turns_rela.map_decodeAll]
  simp only [entreeDe, hrel, hrela, contenu]

theorem mem_entrees {h : Heap} {host : Bool} {f : List UInt8} {e : Elf32} {x : Elf32RelEntry} :
    x ∈ entrees h host f e ↔ x.shndx < e.shnum ∧ entreeDe h host f e x.shndx = some x := by
  simp only [entrees, List.mem_filterMap, List.mem_range]
  constructor
  · rintro ⟨i, hi, he⟩
    obtain rfl := shndx_entreeDe h host f e he
    exact ⟨hi, he⟩
  · rintro ⟨hi, he⟩
    exact ⟨x.shndx, hi, he⟩

theorem map_shndx_entrees (h : Heap) (host : Bool) (f : List UInt8) (e : Elf32) :
    (entrees h host f e).map Elf32RelEntry.shndx = (List.range e.shnum).filter (deRelocations h e) := by
  unfold entrees
  generalize List.range e.shnum = is
  induction is with
  | nil => rfl
  | cons i is ih =>
    have hsome := entreeDe_isSome h host f e i
    rw [List.filterMap_cons, List.filter_cons, ← hsome]
    cases he : entreeDe h host f e i with
    | none => exact ih
    | some x => rw [List.map_cons, ih, shndx_entreeDe h host f e he]; rfl

/-- The type `SHT_RELA` is not `SHT_REL`. -/
theorem not_isRel_of_isRela {type : UInt32} (h : isRela type = true) : isRel type = false := by
  rw [isRela, beq_iff_eq] at h
  rw [h]
  rfl

/-- An entry of a table of type `SHT_REL`. -/
theorem rel_entrees {h : Heap} {f : List UInt8} {e : Elf32} {x : Elf32RelEntry}
    (hx : x ∈ entrees h false f e) (htype : isRel (shdrAt h e.shtable x.shndx).shType = true) :
    x.relnum = (shdrAt h e.shtable x.shndx).shSize.toNat / 8 ∧
      x.rel = (rel true).decodeAll x.relnum (contenu f (shdrAt h e.shtable x.shndx)) := by
  obtain ⟨-, hentry⟩ := mem_entrees.mp hx
  rw [entreeDe_little] at hentry
  simp only [htype, if_true] at hentry
  have hrelnum := congrArg Elf32RelEntry.relnum (Option.some.inj hentry)
  have hrecords := congrArg Elf32RelEntry.rel (Option.some.inj hentry)
  dsimp only at hrelnum hrecords
  exact ⟨hrelnum.symm, by rw [← hrecords, ← hrelnum]⟩

/-- An entry of a table of type `SHT_RELA`: the count is the one of the other kind. -/
theorem rela_entrees {h : Heap} {f : List UInt8} {e : Elf32} {x : Elf32RelEntry}
    (hx : x ∈ entrees h false f e) (htype : isRela (shdrAt h e.shtable x.shndx).shType = true) :
    x.relnum = (shdrAt h e.shtable x.shndx).shSize.toNat / 8 ∧
      x.rela = (rela true).decodeAll ((shdrAt h e.shtable x.shndx).shSize.toNat / 12)
        (contenu f (shdrAt h e.shtable x.shndx)) := by
  obtain ⟨-, hentry⟩ := mem_entrees.mp hx
  rw [entreeDe_little] at hentry
  simp only [not_isRel_of_isRela htype, htype, if_true, Bool.false_eq_true, if_false] at hentry
  have hrelnum := congrArg Elf32RelEntry.relnum (Option.some.inj hentry)
  have hrecords := congrArg Elf32RelEntry.rela (Option.some.inj hentry)
  dsimp only at hrelnum hrecords
  exact ⟨hrelnum.symm, hrecords.symm⟩

theorem deRelocations_entrees {h : Heap} {host : Bool} {f : List UInt8} {e : Elf32} {x : Elf32RelEntry}
    (hx : x ∈ entrees h host f e) : deRelocations h e x.shndx = true := by
  obtain ⟨-, hentry⟩ := mem_entrees.mp hx
  rw [← entreeDe_isSome h host f e, hentry]
  rfl

theorem relnum_entrees {h : Heap} {f : List UInt8} {e : Elf32} {x : Elf32RelEntry}
    (hx : x ∈ entrees h false f e) : x.relnum = (shdrAt h e.shtable x.shndx).shSize.toNat / 8 := by
  have htype := deRelocations_entrees hx
  rw [deRelocations, Bool.or_eq_true] at htype
  cases htype with
  | inl hr => exact (rel_entrees hx hr).1
  | inr hr => exact (rela_entrees hx hr).1

/-- A table with one record at most of 12 bytes has the same count for both kinds. -/
theorem div_tailleEntree {s : Elf32Shdr} (htype : isRel s.shType = true ∨ isRela s.shType = true)
    (hrela : isRela s.shType = true → 12 ∣ s.shSize.toNat ∧ s.shSize.toNat ≤ 12) :
    s.shSize.toNat / 8 = s.shSize.toNat / tailleEntree s := by
  unfold tailleEntree
  by_cases hr : isRel s.shType = true
  · rw [if_pos hr]
  · obtain ⟨hdiv, hle⟩ := hrela (htype.resolve_left hr)
    rw [if_neg hr]
    omega

theorem exacte_entrees {h : Heap} {f : List UInt8} {e : Elf32}
    (hrela : ∀ i < e.shnum, isRela (shdrAt h e.shtable i).shType = true →
      12 ∣ (shdrAt h e.shtable i).shSize.toNat ∧ (shdrAt h e.shtable i).shSize.toNat ≤ 12) :
    Exacte h f e ⟨entrees h false f e, (entrees h false f e).length⟩ := by
  have hcount : ∀ x ∈ entrees h false f e, (shdrAt h e.shtable x.shndx).shSize.toNat / 8 =
      (shdrAt h e.shtable x.shndx).shSize.toNat / tailleEntree (shdrAt h e.shtable x.shndx) :=
    fun x hx => div_tailleEntree (Bool.or_eq_true _ _ ▸ deRelocations_entrees hx)
      (hrela _ (mem_entrees.mp hx).1)
  refine ⟨map_shndx_entrees h false f e, rfl, fun x hx => (relnum_entrees hx).trans (hcount x hx), ?_, ?_, ?_⟩
  · intro x hx hr j hj
    rw [(rel_entrees hx hr).2, Codec.getElem?_decodeAll _ _ _ _ hj, size_rel]
  · intro x hx hr j hj
    have htaille : tailleEntree (shdrAt h e.shtable x.shndx) = 12 := by
      rw [tailleEntree, not_isRel_of_isRela hr]
      rfl
    rw [relnum_entrees hx, hcount x hx, htaille] at hj
    rw [(rela_entrees hx hr).2, Codec.getElem?_decodeAll _ _ _ _ hj, size_rela]
  · intro x hx j hj
    rw [tours, List.mem_range, hcount x hx] at hj
    exact (Nat.mul_le_mul_left _ hj).trans (Nat.mul_div_le _ _)

/-- `read_reltab` is exact when the tables of type `SHT_RELA` have one record at most:
their count is computed with the size of the smaller kind. -/
theorem readReltab_exacte_iff {h : Heap} {f : List UInt8} {e : Elf32}
    (hrela : ∀ i < e.shnum, isRela (shdrAt h e.shtable i).shType = true →
      12 ∣ (shdrAt h e.shtable i).shSize.toNat)
    (hin : ∀ i < e.shnum, deRelocations h e i = true →
      (shdrAt h e.shtable i).shOffset.toNat + (shdrAt h e.shtable i).shSize.toNat ≤ f.length) :
    ∃ reltab, readReltab h false f e = some { e with reltab := reltab } ∧
      (Exacte h f e reltab ↔ ∀ i < e.shnum, isRela (shdrAt h e.shtable i).shType = true →
        (shdrAt h e.shtable i).shSize.toNat ≤ 12) := by
  have hall : (List.range e.shnum).all (complete h f e) = true := by
    rw [List.all_eq_true]
    intro i hi
    rw [complete, Bool.or_eq_true, Bool.not_eq_true']
    cases hd : deRelocations h e i with
    | false => exact Or.inl rfl
    | true =>
      have := hin i (List.mem_range.mp hi) hd
      right
      rw [beq_iff_eq, Patch.length_readAt]
      omega
  refine ⟨⟨entrees h false f e, (entrees h false f e).length⟩, by rw [readReltab_eq, if_pos hall], ?_⟩
  constructor
  · intro hexacte i hi htype
    have hdiv := hrela i hi htype
    obtain ⟨x, hentry⟩ : ∃ x, entreeDe h false f e i = some x := by
      rw [← Option.isSome_iff_exists, entreeDe_isSome, deRelocations, htype, Bool.or_true]
    obtain rfl := shndx_entreeDe h false f e hentry
    have hx : x ∈ entrees h false f e := mem_entrees.mpr ⟨hi, hentry⟩
    have hrelnum := hexacte.relnum x hx
    rw [tailleEntree, not_isRel_of_isRela htype, relnum_entrees hx, if_neg Bool.false_ne_true] at hrelnum
    omega
  · exact fun hsize => exacte_entrees fun i hi htype => ⟨hrela i hi htype, hsize i hi htype⟩

/-! One table of type `SHT_RELA` and nothing else: two records in 24 bytes. -/

def exempleRela (size : UInt32) : Elf32 :=
  ⟨{ exempleEntete with eShnum := 1 }, [⟨0, shtRela, 0, 0, 0, size, 0, 0, 0, 12⟩], [], ⟨[], 0⟩, [], [], 0⟩

theorem readReltab_exacte_iff_exemple : ∃ reltab,
    readReltab tasNul false (List.replicate 24 0) (exempleRela 12) =
      some { exempleRela 12 with reltab := reltab } ∧
    (Exacte tasNul (List.replicate 24 0) (exempleRela 12) reltab ↔
      ∀ i < (exempleRela 12).shnum, isRela (shdrAt tasNul (exempleRela 12).shtable i).shType = true →
        (shdrAt tasNul (exempleRela 12).shtable i).shSize.toNat ≤ 12) :=
  readReltab_exacte_iff (by decide) (by decide)

/-- Three records are counted, and swapped, in 24 bytes. -/
theorem readReltab_exempleRela : ∃ e, readReltab tasNul false (List.replicate 24 0) (exempleRela 24) = some e ∧
    e.reltab.entries.map Elf32RelEntry.relnum = [3] ∧
    ¬ Exacte tasNul (List.replicate 24 0) (exempleRela 24) e.reltab := by
  refine ⟨_, rfl, by decide, fun hexacte => ?_⟩
  have hmemoire := hexacte.memoire _ List.mem_cons_self 2 (by decide)
  exact absurd hmemoire (by decide)

end ElfLinker
