import Mathlib.Data.List.Nodup
import ElfLinker.Adresses

/-!
`appliquer_relocations`. Its two loops are one loop over the entries of the `SHT_REL`
tables; an entry changes one word of the destination, or none when its type is not
supported, and stops the run when that word is not inside the source.
-/

namespace ElfLinker
open Endian

namespace World

/-- The word of relocation `j` of table `i` is read from the source. -/
def addend (w : World) (i j off : Nat) : World := { w with log := w.log ++ [.addend i j off] }

/-- `fseek` and `fwrite` of the word that relocation `j` of table `i` changes. -/
def patch (w : World) (i j off : Nat) (bytes : List UInt8) : World :=
  { w with dest := Patch.writeAt w.dest off bytes, log := w.log ++ [.patch i j off bytes] }

end World

/-! ## One entry -/

/-- Entry `j` of table `i`. -/
structure Relocation where
  i : Nat
  j : Nat
  rel : Elf32Rel
  deriving DecidableEq

/-- `symtable[rel_sym_index]`. -/
def symboleDe (h : Heap) (e : Elf32) (r : Elf32Rel) : Elf32Sym :=
  symAt h e.symtable (elf32RSym r.rInfo).toNat

/-- `sh_cible_ptr->sh_offset + rel_offset`, computed on `Elf32_Off`. -/
def place (h : Heap) (e : Elf32) (r : Elf32Rel) : Nat :=
  ((shdrAt h e.shtable (symboleDe h e r).stShndx.toNat).shOffset + r.rOffset).toNat

def adresseAbsolueSymbole (h : Heap) (e : Elf32) (addrText addrData : UInt32) (symbole : Elf32Sym) :
    UInt32 :=
  if symbole.stShndx ≠ shnAbs ∧ symbole.stShndx ≠ shnUndef then
    let adresse := if getSectionIndex h e dotText = symbole.stShndx.toNat then
      symbole.stValue + addrText else symbole.stValue
    if getSectionIndex h e dotData = symbole.stShndx.toNat then adresse + addrData else adresse
  else symbole.stValue

/-- The subscripts: `&shtable[st_shndx]`, and those of the two searches. -/
def relocationSubs (h : Heap) (e : Elf32) (symbole : Elf32Sym) : List Int :=
  (symbole.stShndx.toNat : Int) ::
    if symbole.stShndx ≠ shnAbs ∧ symbole.stShndx ≠ shnUndef then
      getSectionIndexSubs h e dotText ++ getSectionIndexSubs h e dotData
    else []

/-- The switch on the type; `none` is its default case. -/
def valeurCorrigee (relType currentValue adresse relOffset : UInt32) : Option UInt32 :=
  if relType = rArmAbs32 then some (currentValue + adresse)
  else if relType = rArmAbs16 then some ((adresse + currentValue) &&& 0xFFFF)
  else if relType = rArmAbs8 then some ((adresse + currentValue) &&& 0xFF)
  else if relType = rArmJump24 ∨ relType = rArmCall then some (currentValue + (adresse - relOffset))
  else none

/-- The body of the inner loop. -/
def appliquerRelocation (h : Heap) (host : Bool) (source : List UInt8) (addrText addrData : UInt32)
    (w : World) (x : Relocation) : Outcome :=
  let symbole := symboleDe h w.elf x.rel
  let off := place h w.elf x.rel
  let adresse := adresseAbsolueSymbole h w.elf addrText addrData symbole
  let w := w.step w.elf (relocationSubs h w.elf symbole)
  let data := Patch.readAt source off 4
  let w := w.addend x.i x.j off
  if data.length = 4 then
    let currentValue := toHost host reverse4 ((word host).decode data)
    match valeurCorrigee (elf32RType x.rel.rInfo) currentValue adresse x.rel.rOffset with
    | some v => .ok (w.patch x.i x.j off ((word host).encode (toHost host reverse4 v)))
    | none => .ok w
  else .error w

/-! ## The loops -/

/-- The outer body: a table that is not `SHT_REL` is skipped. -/
def appliquerTable (h : Heap) (host : Bool) (source : List UInt8) (addrText addrData : UInt32)
    (entries : List Elf32RelEntry) (w : World) (i : Nat) : Outcome :=
  let relSection := entryAt h entries i
  if isRel relSection.relType.toUInt32 then
    (List.range relSection.relnum).foldlM
      (fun w j => appliquerRelocation h host source addrText addrData w ⟨i, j, relAt h relSection.rel j⟩) w
  else .ok w

def appliquerRelocations (h : Heap) (host : Bool) (source : List UInt8) (addrText addrData : UInt32)
    (w : World) : Outcome :=
  let w := fwriteShAddrTestData h host addrText addrData w
  (List.range w.elf.reltab.entrynum).foldlM
    (appliquerTable h host source addrText addrData w.elf.reltab.entries) w

/-- The entries that the loops go through, in order. -/
def relocations (h : Heap) (e : Elf32) : List Relocation :=
  (List.range e.reltab.entrynum).flatMap fun i =>
    let relSection := entryAt h e.reltab.entries i
    if isRel relSection.relType.toUInt32 then
      (List.range relSection.relnum).map fun j => ⟨i, j, relAt h relSection.rel j⟩
    else []

theorem mem_relocations {h : Heap} {e : Elf32} {x : Relocation} : x ∈ relocations h e ↔
    x.i < e.reltab.entrynum ∧ isRel (entryAt h e.reltab.entries x.i).relType.toUInt32 = true ∧
      x.j < (entryAt h e.reltab.entries x.i).relnum ∧
      x.rel = relAt h (entryAt h e.reltab.entries x.i).rel x.j := by
  obtain ⟨i, j, r⟩ := x
  simp only [relocations, List.mem_flatMap, List.mem_range]
  constructor
  · rintro ⟨i', hi, hmem⟩
    split at hmem
    next hrel =>
      simp only [List.mem_map, List.mem_range, Relocation.mk.injEq] at hmem
      obtain ⟨j', hj, rfl, rfl, rfl⟩ := hmem
      exact ⟨hi, hrel, hj, rfl⟩
    next => exact absurd hmem List.not_mem_nil
  · rintro ⟨hi, hrel, hj, rfl⟩
    refine ⟨i, hi, ?_⟩
    rw [if_pos hrel]
    exact List.mem_map.mpr ⟨j, List.mem_range.mpr hj, rfl⟩

/-- An entry is known by its table and its place in it. -/
theorem relocations_ext {h : Heap} {e : Elf32} {x y : Relocation} (hx : x ∈ relocations h e)
    (hy : y ∈ relocations h e) (hi : x.i = y.i) (hj : x.j = y.j) : x = y := by
  obtain ⟨-, -, -, hrx⟩ := mem_relocations.mp hx
  obtain ⟨-, -, -, hry⟩ := mem_relocations.mp hy
  cases x
  cases y
  simp_all

theorem nodup_relocations (h : Heap) (e : Elf32) : (relocations h e).Nodup := by
  refine List.nodup_flatMap.mpr ⟨fun i _ => ?_, ?_⟩
  · dsimp only
    split
    · exact List.nodup_range.map fun j k hjk => (Relocation.mk.injEq .. ▸ hjk).2.1
    · exact List.nodup_nil
  · refine List.nodup_range.imp fun {i i'} hne => ?_
    intro x hx hx'
    dsimp only at hx hx'
    split at hx
    · split at hx'
      · obtain ⟨_, -, rfl⟩ := List.mem_map.mp hx
        obtain ⟨_, -, heq⟩ := List.mem_map.mp hx'
        exact hne (Relocation.mk.injEq .. ▸ heq).1.symm
      · exact absurd hx' List.not_mem_nil
    · exact absurd hx List.not_mem_nil

/-! ## What one entry does -/

section

variable (h : Heap) (e : Elf32) (source : List UInt8) (addrText addrData : UInt32) (x : Relocation)

/-- The word of the entry is inside the source. -/
def lisible : Bool := place h e x.rel + 4 ≤ source.length

/-- The type is one of the cases of the switch. -/
def Relocation.supported : Bool :=
  elf32RType x.rel.rInfo ∈ [rArmAbs32, rArmAbs16, rArmAbs8, rArmJump24, rArmCall]

/-- The word the entry puts into the destination, if any. -/
def correction : Option Patch :=
  if lisible h e source x then
    (valeurCorrigee (elf32RType x.rel.rInfo)
      ((word true).decode (Patch.readAt source (place h e x.rel) 4))
      (adresseAbsolueSymbole h e addrText addrData (symboleDe h e x.rel)) x.rel.rOffset).map
      fun v => ⟨place h e x.rel, (word true).encode v⟩
  else none

/-- What the turn of the entry adds to the log. -/
def traces : List Access :=
  (relocationSubs h e (symboleDe h e x.rel)).map Access.shtable ++
    .addend x.i x.j (place h e x.rel) ::
      ((correction h e source addrText addrData x).map fun p => Access.patch x.i x.j p.off p.bytes).toList

/-- The world after the turn of the entry. -/
def effet (w : World) : World :=
  { w with
    dest := Patch.applyAll (correction h e source addrText addrData x).toList w.dest
    log := w.log ++ traces h e source addrText addrData x }

theorem valeurCorrigee_isSome (t v a o : UInt32) : (valeurCorrigee t v a o).isSome =
    (t ∈ [rArmAbs32, rArmAbs16, rArmAbs8, rArmJump24, rArmCall] : Bool) := by
  unfold valeurCorrigee
  split
  next ht => simp [ht]
  split
  next ht => simp [ht]
  split
  next ht => simp [ht]
  split
  next ht =>
    rcases ht with ht | ht <;> simp [ht]
  next h32 h16 h8 hcall =>
    rw [not_or] at hcall
    simp [h32, h16, h8, hcall]

theorem correction_isSome : (correction h e source addrText addrData x).isSome =
    (lisible h e source x && x.supported) := by
  unfold correction
  split
  next hl => rw [Option.isSome_map, valeurCorrigee_isSome, hl, Bool.true_and, Relocation.supported]
  next hl => rw [Bool.eq_false_iff.mpr hl, Bool.false_and]; rfl

variable {h e source addrText addrData x} in
/-- A word is written at the place of the entry. -/
theorem correction_eq_some {p : Patch} (hp : correction h e source addrText addrData x = some p) :
    p.off = place h e x.rel ∧ p.bytes.length = 4 ∧ lisible h e source x = true ∧
      x.supported = true := by
  have hsome := correction_isSome h e source addrText addrData x
  rw [hp, Option.isSome_some, eq_comm, Bool.and_eq_true] at hsome
  unfold correction at hp
  rw [if_pos hsome.1, Option.map_eq_some_iff] at hp
  obtain ⟨v, -, rfl⟩ := hp
  exact ⟨rfl, (word true).length_encode v, hsome⟩

/-- On either host the turn of an entry is its effect, and it stops the run when the
word is not in the source. -/
theorem appliquerRelocation_eq (host : Bool) (w : World) :
    appliquerRelocation h host source addrText addrData w x =
      if lisible h w.elf source x then .ok (effet h w.elf source addrText addrData x w)
      else .error (effet h w.elf source addrText addrData x w) := by
  have hlen : (Patch.readAt source (place h w.elf x.rel) 4).length = 4 ↔
      lisible h w.elf source x = true := by
    rw [Patch.length_readAt, lisible, decide_eq_true_eq]
    omega
  unfold appliquerRelocation
  simp only [hlen, (turns_host turns_word host).decode_eq, (turns_host turns_word host).encode_eq]
  by_cases hl : lisible h w.elf source x = true
  · simp only [hl, if_true, effet, traces, correction]
    cases valeurCorrigee _ _ _ _ with
    | none => simp [World.addend, World.step]
    | some v => simp [World.addend, World.patch, World.step, Patch.apply]
  · simp only [hl, effet, traces, correction]
    simp [World.addend, World.step]

end

/-! ## What the run does -/

section

variable (h : Heap) (e : Elf32) (source : List UInt8) (addrText addrData a d : UInt32) (x : Relocation)

/-! The addresses stored beforehand change nothing that the loops read. -/

@[simp] theorem place_adresser (r : Elf32Rel) : place h (adresser h e a d) r = place h e r := by
  unfold place
  rw [shOffset_adresser]
  rfl

@[simp] theorem lisible_adresser : lisible h (adresser h e a d) source x = lisible h e source x := by
  rw [lisible, place_adresser, lisible]

@[simp] theorem adresseAbsolueSymbole_adresser (s : Elf32Sym) :
    adresseAbsolueSymbole h (adresser h e a d) addrText addrData s =
      adresseAbsolueSymbole h e addrText addrData s := by
  simp only [adresseAbsolueSymbole, getSectionIndex_adresser]

@[simp] theorem relocationSubs_adresser (s : Elf32Sym) :
    relocationSubs h (adresser h e a d) s = relocationSubs h e s := by
  simp only [relocationSubs, getSectionIndexSubs_adresser]

@[simp] theorem correction_adresser :
    correction h (adresser h e a d) source addrText addrData x =
      correction h e source addrText addrData x := by
  simp only [correction, lisible_adresser, place_adresser, adresseAbsolueSymbole_adresser]
  rfl

@[simp] theorem traces_adresser :
    traces h (adresser h e a d) source addrText addrData x = traces h e source addrText addrData x := by
  simp only [traces, correction_adresser, place_adresser, relocationSubs_adresser]
  rfl

/-- The turns of `xs` one after the other. -/
theorem foldl_effet (xs : List Relocation) (w : World) :
    xs.foldl (fun w x => effet h e source addrText addrData x w) w =
      { w with
        dest := Patch.applyAll (xs.filterMap (correction h e source addrText addrData)) w.dest
        log := w.log ++ xs.flatMap (traces h e source addrText addrData) } := by
  induction xs generalizing w with
  | nil => simp
  | cons x xs ih =>
    rw [List.foldl_cons, ih]
    simp only [effet, List.flatMap_cons, List.append_assoc]
    rw [List.filterMap_cons, ← Patch.applyAll_append]
    cases correction h e source addrText addrData x <;> rfl

/-- The entries that a run gets to. -/
def atteintes : List Relocation := Loop.reached (lisible h e source) (relocations h e)

/-- The world after the run: the section table with its addresses, then the words of
the entries it got to. -/
def bilan (host : Bool) (w : World) : World :=
  let w₁ := fwriteShAddrTestData h host addrText addrData w
  let xs := atteintes h w.elf source
  { elf := w₁.elf
    dest := Patch.applyAll (xs.filterMap (correction h w.elf source addrText addrData)) w₁.dest
    log := w₁.log ++ xs.flatMap (traces h w.elf source addrText addrData) }

theorem appliquerRelocations_eq (host : Bool) (w : World) :
    appliquerRelocations h host source addrText addrData w =
      if (relocations h w.elf).all (lisible h w.elf source) then
        .ok (bilan h source addrText addrData host w)
      else .error (bilan h source addrText addrData host w) := by
  let e₁ := adresser h w.elf addrText addrData
  let w₁ := fwriteShAddrTestData h host addrText addrData w
  have helf : w₁.elf = e₁ := fwriteShAddrTestData_elf h host addrText addrData w
  have hflat : appliquerRelocations h host source addrText addrData w =
      (relocations h e₁).foldlM (appliquerRelocation h host source addrText addrData) w₁ := by
    simp only [appliquerRelocations, relocations, Loop.foldlM_flatMap]
    rw [show fwriteShAddrTestData h host addrText addrData w = w₁ from rfl, helf]
    congr 1
    funext v i
    rw [appliquerTable]
    split
    · rw [List.foldlM_map]
    · rfl
  -- no turn changes `elfdata`, so every turn is judged by `e₁`
  have hloop := Loop.foldlM_reached (f := appliquerRelocation h host source addrText addrData)
    (p := lisible h e₁ source) (g := fun v x => effet h e₁ source addrText addrData x v)
    (I := fun v => v.elf = e₁) (fun _ _ hv => hv)
    (fun v x hv => hv ▸ appliquerRelocation_eq h source addrText addrData x host v)
    (relocations h e₁) helf
  rw [hflat, hloop, foldl_effet]
  simp only [e₁, bilan, atteintes, funext (lisible_adresser h w.elf source addrText addrData),
    funext (correction_adresser h w.elf source addrText addrData addrText addrData),
    funext (traces_adresser h w.elf source addrText addrData addrText addrData)]
  rfl

@[simp] theorem appliquerRelocations_world (host : Bool) (w : World) :
    (appliquerRelocations h host source addrText addrData w).world =
      bilan h source addrText addrData host w := by
  rw [appliquerRelocations_eq]
  split <;> rfl

/-! The log of a run. -/

variable (host : Bool) (w : World) {source addrText addrData}

theorem shtable_mem_bilan {i : Int} :
    Access.shtable i ∈ (bilan h source addrText addrData host w).log ↔
      Access.shtable i ∈ w.log ∨ i ∈ affecteSubs h w.elf ∨ i ∈ swapShtableSubs host w.elf.shnum ∨
        ∃ x ∈ atteintes h w.elf source, i ∈ relocationSubs h w.elf (symboleDe h w.elf x.rel) := by
  simp [bilan, mem_fwriteShAddrTestData_log, traces, or_assoc]

theorem addend_mem_bilan {i j off : Nat} :
    Access.addend i j off ∈ (bilan h source addrText addrData host w).log ↔
      Access.addend i j off ∈ w.log ∨
        ∃ x ∈ atteintes h w.elf source, i = x.i ∧ j = x.j ∧ off = place h w.elf x.rel := by
  simp [bilan, mem_fwriteShAddrTestData_log, traces]

theorem patch_mem_bilan {i j off : Nat} {bytes : List UInt8} :
    Access.patch i j off bytes ∈ (bilan h source addrText addrData host w).log ↔
      Access.patch i j off bytes ∈ w.log ∨
        ∃ x ∈ atteintes h w.elf source, x.i = i ∧ x.j = j ∧
          correction h w.elf source addrText addrData x = some ⟨off, bytes⟩ := by
  simp only [bilan, List.mem_append, mem_fwriteShAddrTestData_log, List.mem_map, List.mem_flatMap,
    traces, List.mem_cons, Option.mem_toList, Option.map_eq_some_iff, reduceCtorEq, and_false,
    exists_false, or_false, false_or, Access.patch.injEq]
  refine or_congr_right ⟨?_, ?_⟩
  · rintro ⟨x, hx, p, hp, hi, hj, hoff, hbytes⟩
    exact ⟨x, hx, hi, hj, by rw [hp, ← hoff, ← hbytes]⟩
  · rintro ⟨x, hx, hi, hj, hp⟩
    exact ⟨x, hx, _, hp, hi, hj, rfl, rfl⟩

end

end ElfLinker
