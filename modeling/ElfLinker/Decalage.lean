import ElfLinker.Suppression

/-!
What the loop of `supprime_sh` leaves in memory, and from it what the function
does: the table without the deleted entry, whatever lies past its end; the symbol
table followed to its new index and every symbol renumbered once, unless the
entry read past the end has the type of a symbol table.
-/

namespace ElfLinker

namespace Elf32

/-- Exactly one section of type `SHT_SYMTAB`, at `symtabIndex`. -/
structure UniqueSymtab (e : Elf32) : Prop where
  full : e.TableFull
  inTable : e.symtabIndex < e.shnum
  symtab_iff : ∀ k s, e.shtable[k]? = some s → (s.shType = shtSymtab ↔ k = e.symtabIndex)

/-- `symtable` holds the symbols of the section at `symtabIndex`. -/
def SymbolsLoaded (e : Elf32) : Prop :=
  ∀ s, e.shtable[e.symtabIndex]? = some s → e.symtable.length = s.shSize.toNat / 16

theorem uniqueSymtab_iff (e : Elf32) : e.UniqueSymtab ↔ e.TableFull ∧ e.symtabIndex < e.shnum ∧
    ∀ k < e.shtable.length, ∀ s ∈ e.shtable[k]?, (s.shType = shtSymtab ↔ k = e.symtabIndex) := by
  constructor
  · exact fun hu => ⟨hu.full, hu.inTable, fun k _ s hs => hu.symtab_iff k s hs⟩
  · rintro ⟨hfull, hin, hiff⟩
    exact ⟨hfull, hin, fun k s hs => hiff k (List.getElem?_eq_some_iff.mp hs).1 s hs⟩

theorem TableFull.lt_shnum {e : Elf32} (hfull : e.TableFull) {i : Nat} {s : Elf32Shdr}
    (hs : e.shtable[i]? = some s) : i < e.shnum :=
  Nat.lt_of_lt_of_eq (List.getElem?_eq_some_iff.mp hs).1 hfull

/-- A relocation section is not the symbol table. -/
theorem UniqueSymtab.ne_symtabIndex {e : Elf32} (hu : e.UniqueSymtab) {i : Nat} {r : Elf32Shdr}
    (hr : e.shtable[i]? = some r) (hrel : isRel r.shType = true) : i ≠ e.symtabIndex := by
  intro heq
  rw [(hu.symtab_iff i r hr).mpr heq] at hrel
  exact absurd hrel (by decide)

/-- The number of symbols is the one of the section that holds them. -/
theorem UniqueSymtab.length_symtable {h : Heap} {e : Elf32} (hu : e.UniqueSymtab)
    (hsym : e.SymbolsLoaded) : e.symtable.length = nombreDeSymboles h e :=
  hsym _ (shdrAt_of_lt h (Nat.lt_of_lt_of_eq hu.inTable hu.full.symm))

instance (e : Elf32) : Decidable e.UniqueSymtab := decidable_of_iff' _ e.uniqueSymtab_iff

instance (e : Elf32) : Decidable e.SymbolsLoaded :=
  inferInstanceAs (Decidable (∀ s ∈ e.shtable[e.symtabIndex]?, _))

end Elf32

/-- The entry past the end of a table of `n` entries is a symbol table. -/
def pastIsSymtab (h : Heap) (n : Nat) : Prop := (h.shtable n).shType = shtSymtab

instance (h : Heap) (n : Nat) : Decidable (pastIsSymtab h n) := inferInstanceAs (Decidable (_ = _))

/-! ## The loop -/

/-- `elfdata` after the turns `index` to `p - 1` of the loop. -/
def decalage (h : Heap) (e : Elf32) (index p : Nat) : Elf32 :=
  (List.range' index (p - index)).foldl (decale h) e

theorem decalage_start (h : Heap) (e : Elf32) (index : Nat) : decalage h e index index = e := by
  simp [decalage]

theorem decalage_succ (h : Heap) (e : Elf32) {index p : Nat} (hp : index ≤ p) :
    decalage h e index (p + 1) = decale h (decalage h e index p) p := by
  rw [decalage, show p + 1 - index = (p - index) + 1 by omega, List.range'_1_concat,
    List.foldl_append, show index + (p - index) = p by omega]
  rfl

theorem decalage_shtable (h : Heap) (e : Elf32) (index p : Nat) :
    (decalage h e index p).shtable =
      (List.range' index (p - index)).foldl (Deletion.shiftStep fun k => h.shtable k) e.shtable :=
  (List.foldl_hom Elf32.shtable fun _ _ => rfl).symm

/-- The loop leaves everything but the two tables and `symtabIndex`. -/
theorem decalage_frame (h : Heap) (e : Elf32) (index p : Nat) :
    (decalage h e index p).elfhdr = e.elfhdr ∧ (decalage h e index p).reltab = e.reltab ∧
      (decalage h e index p).shStrtab = e.shStrtab ∧
      (decalage h e index p).symStrtab = e.symStrtab := by
  unfold decalage
  generalize List.range' index (p - index) = l
  induction l generalizing e with
  | nil => exact ⟨rfl, rfl, rfl, rfl⟩
  | cons i l ih => exact ih (decale h e i)

/-- The world of the loop follows `elfdata`. -/
theorem decaler_world (h : Heap) (w : World) (l : List Nat) :
    (l.foldl (decaler h) w).elf = l.foldl (decale h) w.elf ∧ (l.foldl (decaler h) w).dest = w.dest ∧
      w.log <+: (l.foldl (decaler h) w).log := by
  induction l generalizing w with
  | nil => exact ⟨rfl, rfl, List.prefix_refl _⟩
  | cons i l ih =>
    obtain ⟨helf, hdest, hlog⟩ := ih (decaler h w i)
    exact ⟨helf, hdest, (List.prefix_append w.log _).trans hlog⟩

/-- The entries before `index` and those not yet reached stay; those in between are
the next ones, the last of them what lies past the end. -/
theorem decalage_entry (h : Heap) {e : Elf32} {index p k : Nat} (hfull : e.TableFull)
    (hi : index ≤ p) (hp : p ≤ e.shnum) (hk : k < e.shnum) :
    shdrAt h (decalage h e index p).shtable k =
      shdrAt h e.shtable (if index ≤ k ∧ k < p then k + 1 else k) := by
  have hlen : e.shtable.length = e.shnum := hfull
  obtain ⟨-, hget⟩ := Deletion.shift_entries (fun k => h.shtable k) e.shtable index p hi (by omega)
  rw [← decalage_shtable] at hget
  have hk' := hget k
  split
  next hin =>
    rw [if_pos hin] at hk'
    by_cases hlast : k + 1 < e.shtable.length
    · rw [List.getElem?_append_left hlast, shdrAt_of_lt h hlast] at hk'
      exact shdrAt_eq hk'
    · rw [List.getElem?_append_right (by omega), show k + 1 - e.shtable.length = 0 by omega] at hk'
      rw [shdrAt_eq hk', shdrAt, List.getD_eq_getElem?_getD, List.getElem?_eq_none (by omega),
        show e.shtable.length = k + 1 by omega]
      rfl
  next hout =>
    rw [if_neg hout, shdrAt_of_lt (t := e.shtable) h (by omega)] at hk'
    exact shdrAt_eq hk'

/-- The type of the entry that turn `p` copies says whether `symtabIndex` moves. -/
theorem decalage_succ_symtabIndex (h : Heap) {e : Elf32} {index p : Nat} (hfull : e.TableFull)
    (hi : index ≤ p) (hp : p < e.shnum) :
    (decalage h e index (p + 1)).symtabIndex =
      if isSymtable h e.shtable (p + 1) then p else (decalage h e index p).symtabIndex := by
  have hmoved := decalage_entry h hfull (show index ≤ p + 1 by omega) (show p + 1 ≤ e.shnum by omega) hp
  rw [if_pos ⟨hi, Nat.lt_succ_self p⟩] at hmoved
  have hstep : (decalage h e index (p + 1)).symtabIndex =
      if isSymtable h (decalage h e index (p + 1)).shtable p then p
      else (decalage h e index p).symtabIndex := by
    rw [decalage_succ h e hi]
    rfl
  rw [hstep, isSymtable, hmoved, isSymtable]

namespace Elf32.UniqueSymtab

variable {h : Heap} {e : Elf32}

theorem isSymtable_iff (hu : e.UniqueSymtab) {k : Nat} (hk : k < e.shnum) :
    isSymtable h e.shtable k = true ↔ k = e.symtabIndex := by
  have hlen : e.shtable.length = e.shnum := hu.full
  rw [← hu.symtab_iff k _ (shdrAt_of_lt h (by omega)), isSymtable, beq_iff_eq]

theorem isSymtable_shnum (hu : e.UniqueSymtab) :
    isSymtable h e.shtable e.shnum = true ↔ pastIsSymtab h e.shnum := by
  have hlen : e.shtable.length = e.shnum := hu.full
  rw [isSymtable, beq_iff_eq, shdrAt, List.getD_eq_getElem?_getD, List.getElem?_eq_none (by omega)]
  rfl

/-- Before its last turn the loop follows the symbol table. -/
theorem decalage_symtabIndex (hu : e.UniqueSymtab) {index p : Nat} (hi : index ≤ p)
    (hp : p < e.shnum) : (decalage h e index p).symtabIndex =
      if index < e.symtabIndex ∧ e.symtabIndex ≤ p then e.symtabIndex - 1 else e.symtabIndex := by
  induction p, hi using Nat.le_induction with
  | base => rw [decalage_start, if_neg (by omega)]
  | succ p hi ih =>
    rw [decalage_succ_symtabIndex h hu.full hi (by omega), ih (by omega)]
    have hiff := hu.isSymtable_iff (h := h) (show p + 1 < e.shnum by omega)
    by_cases hs : p + 1 = e.symtabIndex
    · rw [if_pos (hiff.mpr hs), if_pos (by omega)]
      omega
    · rw [if_neg fun hc => hs (hiff.mp hc)]
      split <;> split <;> omega

/-- After its last turn too, unless what lies past the end passes for one. -/
theorem decalage_symtabIndex_end (hu : e.UniqueSymtab) {index : Nat} (hi : index < e.shnum) :
    (decalage h e index e.shnum).symtabIndex =
      if pastIsSymtab h e.shnum then e.shnum - 1 else Deletion.renumber index e.symtabIndex := by
  obtain ⟨n, hn⟩ : ∃ n, e.shnum = n + 1 := ⟨e.shnum - 1, by omega⟩
  have hlast := decalage_succ_symtabIndex h hu.full (show index ≤ n by omega) (show n < e.shnum by omega)
  have hbefore := hu.decalage_symtabIndex (h := h) (show index ≤ n by omega) (show n < e.shnum by omega)
  have hin := hu.inTable
  rw [← hn] at hlast
  rw [hlast, hbefore]
  simp only [hu.isSymtable_shnum, Deletion.renumber]
  split
  · omega
  · split <;> split <;> omega

/-- All along the loop `symtabIndex` designates the header of the symbol table. -/
theorem decalage_symtab (hu : e.UniqueSymtab) {index p : Nat} (hi : index ≤ p) (hp : p ≤ e.shnum)
    (hindex : index < e.shnum) (hne : index ≠ e.symtabIndex) (hpast : ¬pastIsSymtab h e.shnum) :
    shdrAt h (decalage h e index p).shtable (decalage h e index p).symtabIndex =
      shdrAt h e.shtable e.symtabIndex := by
  have hin := hu.inTable
  have hmoved : (decalage h e index p).symtabIndex =
      if index < e.symtabIndex ∧ e.symtabIndex ≤ p then e.symtabIndex - 1 else e.symtabIndex := by
    rcases Nat.lt_or_ge p e.shnum with hlt | hge
    · exact hu.decalage_symtabIndex hi hlt
    · obtain rfl : p = e.shnum := Nat.le_antisymm hp hge
      rw [hu.decalage_symtabIndex_end hindex, if_neg hpast, Deletion.renumber]
      split <;> split <;> omega
  rw [hmoved, decalage_entry h hu.full hi hp (by split <;> omega)]
  congr 1
  split <;> split <;> omega

end Elf32.UniqueSymtab

/-! ## The symbols -/

/-- A symbol after the turns `index` to `p - 1`: its section moved down by one when
it was among those that moved. -/
def renumberSym (index p : Nat) (s : Elf32Sym) : Elf32Sym :=
  if index < s.stShndx.toNat ∧ s.stShndx.toNat ≤ p then
    { s with stShndx := UInt16.ofNat (s.stShndx.toNat - 1) }
  else s

theorem renumberSym_start (index : Nat) (s : Elf32Sym) : renumberSym index index s = s := by
  rw [renumberSym, if_neg (by omega)]

theorem renumberSym_of_lt (index : Nat) {p : Nat} {s : Elf32Sym} (hp : p < s.stShndx.toNat) :
    renumberSym index p s = s := by
  rw [renumberSym, if_neg (by omega)]

theorem renumberSym_fields (index p : Nat) (s : Elf32Sym) :
    { renumberSym index p s with stShndx := s.stShndx } = s := by
  unfold renumberSym
  split <;> rfl

theorem stShndx_renumberSym (index : Nat) {p : Nat} {s : Elf32Sym} (hp : s.stShndx.toNat ≤ p) :
    (renumberSym index p s).stShndx.toNat = Deletion.renumber index s.stShndx.toNat := by
  have hs := s.stShndx.toNat_lt
  unfold renumberSym Deletion.renumber
  by_cases hmoved : index < s.stShndx.toNat
  · rw [if_pos ⟨hmoved, hp⟩, if_pos hmoved]
    exact UInt16.toNat_ofNat_of_lt' (by rw [UInt16.size]; omega)
  · rw [if_neg (by omega), if_neg hmoved]

/-- One pass of `update_sym_shndx` catches the symbols of section `p + 1` and none
that an earlier pass moved. -/
theorem moveSym_renumberSym {index p : Nat} (hi : index ≤ p) (s : Elf32Sym) :
    moveSym (p + 1) p (renumberSym index p s) = renumberSym index (p + 1) s := by
  have hs := s.stShndx.toNat_lt
  unfold moveSym renumberSym
  by_cases hmoved : index < s.stShndx.toNat ∧ s.stShndx.toNat ≤ p
  · have hv : (UInt16.ofNat (s.stShndx.toNat - 1)).toNat = s.stShndx.toNat - 1 :=
      UInt16.toNat_ofNat_of_lt' (by rw [UInt16.size]; omega)
    rw [if_pos hmoved, if_pos (show _ ∧ _ ≤ p + 1 by omega), if_neg (by simp only [hv]; omega)]
  · rw [if_neg hmoved]
    by_cases hnext : s.stShndx.toNat = p + 1
    · rw [if_pos hnext, if_pos (by omega), show s.stShndx.toNat - 1 = p by omega]
    · rw [if_neg hnext, if_neg (by omega)]

/-- Every pass sees all the symbols, because the loop keeps `symtabIndex` on the
symbol table; each symbol is renumbered once. -/
theorem Elf32.UniqueSymtab.decalage_symtable {h : Heap} {e : Elf32} (hu : e.UniqueSymtab)
    (hsym : e.SymbolsLoaded) {index p : Nat} (hi : index ≤ p) (hp : p ≤ e.shnum)
    (hne : index ≠ e.symtabIndex) (hpast : ¬pastIsSymtab h e.shnum) :
    (decalage h e index p).symtable = e.symtable.map (renumberSym index p) := by
  have hcount := hu.length_symtable (h := h) hsym
  rw [nombreDeSymboles] at hcount
  induction p, hi using Nat.le_induction with
  | base => simp [decalage_start, funext (renumberSym_start index)]
  | succ p hi ih =>
    have hheader := hu.decalage_symtab (h := h) (Nat.le_succ_of_le hi) hp (by omega) hne hpast
    have hpass : (decalage h e index (p + 1)).symtable =
        Loop.mapUpTo ((shdrAt h (decalage h e index (p + 1)).shtable
          (decalage h e index (p + 1)).symtabIndex).shSize.toNat / 16) (moveSym (p + 1) p)
          (decalage h e index p).symtable := by
      rw [decalage_succ h e hi]
      rfl
    rw [hpass, hheader, ih (by omega), ← hcount, Loop.mapUpTo_of_length_le _ (by simp),
      List.map_map]
    exact List.map_congr_left fun s _ => moveSym_renumberSym hi s

/-! ## supprime_sh in memory -/

/-- `elfdata` after the deletion of entry `index`. -/
def suppression (h : Heap) (e : Elf32) (index : Nat) : Elf32 :=
  metAJourShlink h (majShstrndx h (retrecir (decalage h e index e.shnum)))

/-- With another section left, `supprime_sh` returns: it does to `elfdata` what
`suppression` says and then writes it out. -/
theorem supprimeSh_eq (h : Heap) (host : Bool) {index : Nat} {w : World} (hi : index < w.elf.shnum)
    (htwo : 2 ≤ w.elf.shnum) :
    ∃ w₁, supprimeSh h host index w = .ok (ecrire h host w₁) ∧
      w₁.elf = suppression h w.elf index ∧ w₁.dest = w.dest ∧
      ((List.range' index (w.elf.shnum - index)).foldl (decaler h) w).log <+: w₁.log := by
  obtain ⟨helf, hdest, -⟩ := decaler_world h w (List.range' index (w.elf.shnum - index))
  unfold supprimeSh
  simp only [hi, if_true, show ¬(w.elf.shnum - 1 = 0) by omega, if_false]
  refine ⟨_, rfl, ?_, hdest, ?_⟩
  · simp only [World.step_elf, helf]
    rfl
  · simp only [World.step_log, List.append_assoc]
    exact List.prefix_append _ _

/-- Everything that a deletion which returned has done. -/
theorem supprimeSh_ok {h : Heap} {host : Bool} {index : Nat} {w w' : World}
    (hrun : supprimeSh h host index w = .ok w') :
    index < w.elf.shnum ∧ 2 ≤ w.elf.shnum ∧ ∃ w₁, w' = ecrire h host w₁ ∧
      w₁.elf = suppression h w.elf index ∧ w₁.dest = w.dest := by
  by_cases hi : index < w.elf.shnum
  · by_cases htwo : 2 ≤ w.elf.shnum
    · obtain ⟨w₁, hok, helf, hdest, -⟩ := supprimeSh_eq h host hi htwo
      rw [hrun, Except.ok.injEq] at hok
      exact ⟨hi, htwo, w₁, hok, helf, hdest⟩
    · simp only [supprimeSh, hi, show w.elf.shnum - 1 = 0 by omega, if_true] at hrun
      cases hrun
  · simp only [supprimeSh, hi, if_false] at hrun
    cases hrun

theorem supprimeSh_elf {h : Heap} {host : Bool} {index : Nat} {w w' : World}
    (hrun : supprimeSh h host index w = .ok w') : w'.elf = suppression h w.elf index := by
  obtain ⟨-, -, w₁, rfl, helf, -⟩ := supprimeSh_ok hrun
  rw [ecrire_elf, helf]

section

variable (h : Heap) (e : Elf32) (index : Nat)

@[simp] theorem suppression_reltab : (suppression h e index).reltab = e.reltab :=
  (decalage_frame h e index e.shnum).2.1

@[simp] theorem suppression_symtabIndex :
    (suppression h e index).symtabIndex = (decalage h e index e.shnum).symtabIndex := rfl

@[simp] theorem suppression_symtable :
    (suppression h e index).symtable = (decalage h e index e.shnum).symtable := rfl

end

section

variable {h : Heap} {e : Elf32} {index : Nat}

theorem retrecir_shtable (hfull : e.TableFull) (hi : index < e.shnum) :
    (retrecir (decalage h e index e.shnum)).shtable = e.shtable.eraseIdx index := by
  have hlen : e.shtable.length = e.shnum := hfull
  have hcount : (decalage h e index e.shnum).shnum = e.shnum :=
    congrArg (fun hdr => hdr.eShnum.toNat) (decalage_frame h e index e.shnum).1
  have htake := Deletion.take_shift (fun k => h.shtable k) e.shtable index (by omega)
  rw [hlen, ← decalage_shtable] at htake
  rw [← htake, retrecir, hcount]

theorem suppression_elfhdr : (suppression h e index).elfhdr = { e.elfhdr with
    eShnum := e.elfhdr.eShnum - 1
    eShstrndx := UInt16.ofInt
      (getSectionIndex h (retrecir (decalage h e index e.shnum)) dotShstrtab) } := by
  have hhdr := (decalage_frame h e index e.shnum).1
  simp only [suppression, metAJourShlink, majShstrndx, retrecir, hhdr]

theorem suppression_shnum (hi : index < e.shnum) : (suppression h e index).shnum = e.shnum - 1 := by
  rw [Elf32.shnum, suppression_elfhdr]
  unfold Elf32.shnum at hi ⊢
  have hle : (1 : UInt16) ≤ e.elfhdr.eShnum := by
    rw [UInt16.le_iff_toNat_le]
    exact Nat.succ_le_of_lt (Nat.lt_of_le_of_lt (Nat.zero_le _) hi)
  exact UInt16.toNat_sub_of_le _ _ hle

/-- Whatever lies past the end, the table is the old one without the entry, with the
links that `met_a_jour_shlink` rebuilds. -/
theorem suppression_shtable (hfull : e.TableFull) (hi : index < e.shnum) :
    (suppression h e index).shtable = (e.shtable.eraseIdx index).map
      (relink (UInt32.ofInt (getSectionIndex h (retrecir (decalage h e index e.shnum)) dotStrtab))
        (UInt32.ofNat (suppression h e index).symtabIndex)) := by
  have hlen : e.shtable.length = e.shnum := hfull
  have herase := retrecir_shtable (h := h) hfull hi
  have hcount := suppression_shnum (h := h) hi
  have hmaj : (majShstrndx h (retrecir (decalage h e index e.shnum))).TableFull := by
    change (retrecir (decalage h e index e.shnum)).shtable.length = (suppression h e index).shnum
    rw [herase, hcount, List.length_eraseIdx_of_lt (by omega), hlen]
  rw [suppression, metAJourShlink_shtable hmaj]
  change ((retrecir _).shtable).map (relink (UInt32.ofInt (getSectionIndex h (majShstrndx h _) _)) _) = _
  rw [herase]
  congr 3

theorem suppression_tableFull (hfull : e.TableFull) (hi : index < e.shnum) :
    (suppression h e index).TableFull := by
  have hlen : e.shtable.length = e.shnum := hfull
  rw [Elf32.TableFull, suppression_shtable hfull hi, suppression_shnum hi, List.length_map,
    List.length_eraseIdx_of_lt (by omega), hlen]

/-- The names of the sections that stay. -/
theorem nameIs_retrecir (hfull : e.TableFull) (hi : index < e.shnum) (name : List UInt8) {j : Nat}
    (hj : j < e.shnum - 1) : nameIs h (retrecir (decalage h e index e.shnum)) name j =
      nameIs h e name (Deletion.origin index j) := by
  have hlen : e.shtable.length = e.shnum := hfull
  have hstr := (decalage_frame h e index e.shnum).2.2.1
  have hentry := Deletion.getElem?_eraseIdx_origin e.shtable index j
  have ho : Deletion.origin index j < e.shtable.length := by
    rw [hlen]
    exact Deletion.origin_lt hj
  rw [← retrecir_shtable (h := h) hfull hi, shdrAt_of_lt h ho] at hentry
  rw [nameIs, nameIs, shdrAt_eq hentry]
  exact congrArg (fun t => strcmpEq h t name _) hstr

/-- The name search after the deletion finds the first section of that name among
those that stay. -/
theorem getSectionIndex_retrecir_eq_iff (hfull : e.TableFull) (hi : index < e.shnum)
    {name : List UInt8} {k : Nat} (hk : k < e.shnum) (hne : k ≠ index) :
    getSectionIndex h (retrecir (decalage h e index e.shnum)) name = Deletion.renumber index k ↔
      nameIs h e name k = true ∧ ∀ j < k, j ≠ index → nameIs h e name j = false := by
  have hcount : (retrecir (decalage h e index e.shnum)).shnum = e.shnum - 1 :=
    suppression_shnum (h := h) hi
  rw [← Deletion.first_origin_eq_iff hk hi hne, getSectionIndex_eq_iff,
    ← Loop.first_eq_iff (Deletion.renumber_lt hk hi hne)]
  · rw [Loop.first_congr fun j hj => nameIs_retrecir hfull hi name hj]
  · rw [hcount]
    exact Deletion.renumber_lt hk hi hne

/-- An entry that stays, at its new index. -/
theorem suppression_entry (hfull : e.TableFull) (hi : index < e.shnum) (j : Nat) :
    (suppression h e index).shtable[j]? = e.shtable[Deletion.origin index j]?.map
      (relink (UInt32.ofInt (getSectionIndex h (retrecir (decalage h e index e.shnum)) dotStrtab))
        (UInt32.ofNat (suppression h e index).symtabIndex)) := by
  rw [suppression_shtable hfull hi, List.getElem?_map, Deletion.getElem?_eraseIdx_origin]

/-- The symbol table stays the only one and `symtabIndex` stays on it. -/
theorem suppression_uniqueSymtab (hu : e.UniqueSymtab) (hi : index < e.shnum)
    (hne : index ≠ e.symtabIndex) (hpast : ¬pastIsSymtab h e.shnum) :
    (suppression h e index).UniqueSymtab := by
  have hindex := hu.decalage_symtabIndex_end (h := h) hi
  rw [if_neg hpast] at hindex
  refine ⟨suppression_tableFull hu.full hi, ?_, fun k s hs => ?_⟩
  · rw [suppression_symtabIndex, hindex, suppression_shnum hi]
    exact Deletion.renumber_lt hu.inTable hi (Ne.symm hne)
  · rw [suppression_entry hu.full hi, Option.map_eq_some_iff] at hs
    obtain ⟨t, ht, rfl⟩ := hs
    rw [relink_shType, hu.symtab_iff _ t ht, suppression_symtabIndex, hindex]
    constructor
    · intro ho
      rw [← ho, Deletion.renumber_origin]
    · rintro rfl
      exact Deletion.origin_renumber (Ne.symm hne)

theorem suppression_symbols (hu : e.UniqueSymtab) (hsym : e.SymbolsLoaded) (hi : index < e.shnum)
    (hne : index ≠ e.symtabIndex) (hpast : ¬pastIsSymtab h e.shnum) :
    (suppression h e index).symtable = e.symtable.map (renumberSym index e.shnum) :=
  hu.decalage_symtable hsym (Nat.le_of_lt hi) (Nat.le_refl _) hne hpast

theorem suppression_symbolsLoaded (hu : e.UniqueSymtab) (hsym : e.SymbolsLoaded)
    (hi : index < e.shnum) (hne : index ≠ e.symtabIndex) (hpast : ¬pastIsSymtab h e.shnum) :
    (suppression h e index).SymbolsLoaded := by
  have hindex := hu.decalage_symtabIndex_end (h := h) hi
  rw [if_neg hpast] at hindex
  intro s hs
  rw [suppression_entry hu.full hi, suppression_symtabIndex, hindex,
    Deletion.origin_renumber (Ne.symm hne), Option.map_eq_some_iff] at hs
  obtain ⟨t, ht, rfl⟩ := hs
  rw [suppression_symbols hu hsym hi hne hpast, List.length_map, relink_shSize]
  exact hsym t ht

end

end ElfLinker
