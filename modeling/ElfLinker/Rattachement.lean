import ElfLinker.Decalage

/-!
The section of a symbol through a deletion, for every section table and every symbol
table. Pass `k` of `update_sym_shndx` sees as many symbols as the section that
`symtabIndex` designates at that time; a symbol of section `k` that it sees goes to
`k - 1`, the others stay where they are, those of the deleted section among them.
-/

namespace ElfLinker

/-! ## The symbols that a pass sees -/

/-- The last symbol table among the entries `index + 1` to `k`. -/
def dernierSymtab (h : Heap) (e : Elf32) (index k : Nat) : Option Nat :=
  (List.range' (index + 1) (k - index)).reverse.find? (isSymtable h e.shtable)

/-- The header, in the table before the deletion, that `symtabIndex` designates in pass
`k`: it follows the symbol tables that move, and otherwise stays while the entries move. -/
def entreeSuivie (h : Heap) (e : Elf32) (index k : Nat) : Elf32Shdr :=
  match dernierSymtab h e index k with
  | some p => shdrAt h e.shtable p
  | none =>
    shdrAt h e.shtable (if index ≤ e.symtabIndex ∧ e.symtabIndex < k then e.symtabIndex + 1
      else e.symtabIndex)

/-- The number of symbols that pass `k` sees. -/
def passe (h : Heap) (e : Elf32) (index k : Nat) : Nat := (entreeSuivie h e index k).shSize.toNat / 16

section

variable {h : Heap} {e : Elf32} {index : Nat}

theorem dernierSymtab_start : dernierSymtab h e index index = none := by
  simp [dernierSymtab]

theorem dernierSymtab_succ {p : Nat} (hi : index ≤ p) : dernierSymtab h e index (p + 1) =
    if isSymtable h e.shtable (p + 1) then some (p + 1) else dernierSymtab h e index p := by
  rw [dernierSymtab, show p + 1 - index = (p - index) + 1 by omega, List.range'_1_concat,
    List.reverse_append, List.reverse_singleton, List.singleton_append, List.find?_cons,
    show index + 1 + (p - index) = p + 1 by omega]
  cases isSymtable h e.shtable (p + 1) <;> rfl

theorem dernierSymtab_bounds {k p : Nat} (hp : dernierSymtab h e index k = some p) :
    index + 1 ≤ p ∧ p ≤ k := by
  have hmem := List.mem_of_find?_eq_some hp
  rw [List.mem_reverse, List.mem_range'_1] at hmem
  omega

/-- Where `symtabIndex` is after the turns `index` to `p - 1`. -/
theorem decalage_symtabIndex_eq (hfull : e.TableFull) {p : Nat} (hi : index ≤ p) (hp : p ≤ e.shnum) :
    (decalage h e index p).symtabIndex = match dernierSymtab h e index p with
      | some k => k - 1
      | none => e.symtabIndex := by
  induction p, hi using Nat.le_induction with
  | base => rw [decalage_start, dernierSymtab_start]
  | succ p hi ih =>
    rw [decalage_succ_symtabIndex h hfull hi (by omega), dernierSymtab_succ hi, ih (by omega)]
    split <;> rfl

/-- The entries of the table during the loop, those past its end included. -/
theorem decalage_entry_all (hfull : e.TableFull) {p : Nat} (hi : index ≤ p) (hp : p ≤ e.shnum) (k : Nat) :
    shdrAt h (decalage h e index p).shtable k =
      shdrAt h e.shtable (if index ≤ k ∧ k < p then k + 1 else k) := by
  rcases Nat.lt_or_ge k e.shnum with hk | hk
  · exact decalage_entry h hfull hi hp hk
  · have hlen : e.shtable.length = e.shnum := hfull
    obtain ⟨hsame, -⟩ := Deletion.shift_entries (fun k => h.shtable k) e.shtable index p hi (by omega)
    rw [← decalage_shtable] at hsame
    rw [if_neg (by omega), shdrAt, shdrAt, List.getD_eq_getElem?_getD, List.getD_eq_getElem?_getD,
      List.getElem?_eq_none (by omega), List.getElem?_eq_none (by omega)]

theorem nombreDeSymboles_decalage (hfull : e.TableFull) {p : Nat} (hi : index ≤ p) (hp : p ≤ e.shnum) :
    nombreDeSymboles h (decalage h e index p) = passe h e index p := by
  rw [nombreDeSymboles, decalage_entry_all hfull hi hp, decalage_symtabIndex_eq hfull hi hp, passe,
    entreeSuivie]
  cases hd : dernierSymtab h e index p with
  | none => rfl
  | some k =>
    have hk := dernierSymtab_bounds hd
    dsimp only
    have hin : index ≤ k - 1 ∧ k - 1 < p := ⟨Nat.le_sub_one_of_lt hk.1, by omega⟩
    rw [if_pos hin, Nat.sub_add_cancel (by omega)]

/-! ## One symbol through all the passes -/

/-- Symbol `j` after the turns `index` to `p - 1`. -/
def deplace (h : Heap) (e : Elf32) (index p j : Nat) (s : Elf32Sym) : Elf32Sym :=
  if j < passe h e index s.stShndx.toNat then renumberSym index p s else s

theorem renumberSym_succ_of_ne {p : Nat} {s : Elf32Sym} (hs : s.stShndx.toNat ≠ p + 1) :
    renumberSym index (p + 1) s = renumberSym index p s := by
  unfold renumberSym
  by_cases hmoved : index < s.stShndx.toNat ∧ s.stShndx.toNat ≤ p
  · rw [if_pos hmoved, if_pos (by omega)]
  · rw [if_neg hmoved, if_neg (by omega)]

/-- A pass that sees the symbol moves it when it is of section `p + 1`. -/
theorem moveSym_deplace {p j : Nat} (hi : index ≤ p) (hj : j < passe h e index (p + 1)) (s : Elf32Sym) :
    moveSym (p + 1) p (deplace h e index p j s) = deplace h e index (p + 1) j s := by
  unfold deplace
  by_cases hseen : j < passe h e index s.stShndx.toNat
  · rw [if_pos hseen, if_pos hseen, moveSym_renumberSym hi]
  · have hne : s.stShndx.toNat ≠ p + 1 := by
      intro heq
      rw [heq] at hseen
      exact hseen hj
    rw [if_neg hseen, if_neg hseen, moveSym, if_neg hne]

/-- A pass that does not see the symbol would not have moved it any other time either. -/
theorem deplace_succ_of_le {p j : Nat} (hj : passe h e index (p + 1) ≤ j) (s : Elf32Sym) :
    deplace h e index (p + 1) j s = deplace h e index p j s := by
  unfold deplace
  by_cases hseen : j < passe h e index s.stShndx.toNat
  · have hne : s.stShndx.toNat ≠ p + 1 := by
      intro heq
      rw [heq] at hseen
      omega
    rw [if_pos hseen, if_pos hseen, renumberSym_succ_of_ne hne]
  · rw [if_neg hseen, if_neg hseen]

theorem decalage_symbole (hfull : e.TableFull) {p : Nat} (hi : index ≤ p) (hp : p ≤ e.shnum) (j : Nat) :
    (decalage h e index p).symtable[j]? = e.symtable[j]?.map (deplace h e index p j) := by
  induction p, hi using Nat.le_induction with
  | base =>
    have hid : ∀ s, deplace h e index index j s = s := fun s => by
      rw [deplace, renumberSym_start, ite_self]
    rw [decalage_start, funext hid, Option.map_id']
  | succ p hi ih =>
    have hcount := nombreDeSymboles_decalage (h := h) hfull (Nat.le_succ_of_le hi) hp
    have hpass : (decalage h e index (p + 1)).symtable =
        Loop.mapUpTo (nombreDeSymboles h (decalage h e index (p + 1))) (moveSym (p + 1) p)
          (decalage h e index p).symtable := by
      rw [decalage_succ h e hi]
      rfl
    rw [hpass, hcount, Loop.getElem?_mapUpTo, ih (by omega), Option.map_map]
    split
    next hj => exact congrArg (Option.map · _) (funext fun s => moveSym_deplace hi hj s)
    next hj =>
      exact congrArg (Option.map · _) (funext fun s => (deplace_succ_of_le (Nat.le_of_not_lt hj) s).symm)

/-- Symbol `j`, of section `n`, is moved by a deletion. -/
def Deplace (h : Heap) (e : Elf32) (index j n : Nat) : Prop :=
  index < n ∧ n ≤ e.shnum ∧ j < passe h e index n

instance (h : Heap) (e : Elf32) (index j n : Nat) : Decidable (Deplace h e index j n) :=
  inferInstanceAs (Decidable (_ ∧ _))

/-- The section of symbol `j` after the deletion, `n` being the one before. -/
def numero (h : Heap) (e : Elf32) (index j n : Nat) : Nat := if Deplace h e index j n then n - 1 else n

theorem stShndx_deplace (j : Nat) (s : Elf32Sym) :
    (deplace h e index e.shnum j s).stShndx.toNat = numero h e index j s.stShndx.toNat := by
  have hs := s.stShndx.toNat_lt
  unfold deplace numero
  by_cases hseen : j < passe h e index s.stShndx.toNat
  · rw [if_pos hseen, renumberSym]
    by_cases hmoved : index < s.stShndx.toNat ∧ s.stShndx.toNat ≤ e.shnum
    · rw [if_pos hmoved, if_pos ⟨hmoved.1, hmoved.2, hseen⟩]
      exact UInt16.toNat_ofNat_of_lt' (by rw [UInt16.size]; omega)
    · rw [if_neg hmoved, if_neg fun hc => hmoved ⟨hc.1, hc.2.1⟩]
  · rw [if_neg hseen, if_neg fun hc => hseen hc.2.2]

/-- A symbol of the deleted section keeps its number. -/
theorem numero_index (j : Nat) : numero h e index j index = index :=
  if_neg fun hc => Nat.lt_irrefl _ hc.1

/-- Symbols of two sections come together when one moves down to one that stays. -/
theorem numero_eq_iff {i j m n : Nat} (hne : m ≠ n) :
    numero h e index i m = numero h e index j n ↔
      (n = m + 1 ∧ ¬Deplace h e index i m ∧ Deplace h e index j n) ∨
        (m = n + 1 ∧ ¬Deplace h e index j n ∧ Deplace h e index i m) := by
  unfold numero
  by_cases hm : Deplace h e index i m
  · have hlt := hm.1
    by_cases hn : Deplace h e index j n
    · have hlt' := hn.1
      rw [if_pos hm, if_pos hn]
      simp only [hm, hn, not_true, false_and, and_false, or_false, iff_false]
      omega
    · rw [if_pos hm, if_neg hn]
      simp only [hm, hn, not_false_iff, and_false, false_or, and_true]
      omega
  · by_cases hn : Deplace h e index j n
    · have hlt := hn.1
      rw [if_neg hm, if_pos hn]
      simp only [hm, hn, not_false_iff, and_false, or_false, and_true]
      omega
    · rw [if_neg hm, if_neg hn]
      simp only [hm, hn, and_false, or_false, iff_false]
      exact hne

end

/-! ## Deletions that re-home no symbol -/

/-- Symbols of different sections stay in different sections, apart from one of the
deleted section that is marked undefined; the others of the deleted section are in none of
the `n` sections that are kept. -/
structure SansReaffectation (index n : Nat) (t t' : List Elf32Sym) : Prop where
  distinct : ∀ (i j : Nat) s₁ s₂ s₁' s₂', t[i]? = some s₁ → t[j]? = some s₂ → t'[i]? = some s₁' →
    t'[j]? = some s₂' → s₁.stShndx ≠ s₂.stShndx → s₁'.stShndx ≠ s₂'.stShndx ∨
      (s₁.stShndx.toNat = index ∧ s₁'.stShndx = shnUndef) ∨
      (s₂.stShndx.toNat = index ∧ s₂'.stShndx = shnUndef)
  deleted : ∀ (i : Nat) s s', t[i]? = some s → t'[i]? = some s' → s.stShndx.toNat = index →
    s'.stShndx = shnUndef ∨ n ≤ s'.stShndx.toNat

/-- A symbol of the deleted section is undefined already, or the section is the last one
and nothing moves onto its number; a symbol that does not move is not joined by one of
the next section. -/
structure SansConflit (h : Heap) (e : Elf32) (index : Nat) : Prop where
  deleted : ∀ (i : Nat) s, e.symtable[i]? = some s → s.stShndx.toNat = index → index = 0 ∨
    (index + 1 = e.shnum ∧ ∀ (j : Nat) s', e.symtable[j]? = some s' → s'.stShndx.toNat = e.shnum →
      ¬Deplace h e index j e.shnum)
  joined : ∀ (i j : Nat) s s', e.symtable[i]? = some s → e.symtable[j]? = some s' →
    index < s.stShndx.toNat → ¬Deplace h e index i s.stShndx.toNat →
    s'.stShndx.toNat = s.stShndx.toNat + 1 → ¬Deplace h e index j s'.stShndx.toNat

section

variable {h : Heap} {e : Elf32} {index : Nat}

theorem shnUndef_iff (n : UInt16) : n = shnUndef ↔ n.toNat = 0 := by
  rw [← UInt16.toNat_inj]
  rfl

/-- No symbol moves down onto one that stays, unless that one is undefined. -/
def SansRencontre (h : Heap) (e : Elf32) (index : Nat) : Prop :=
  ∀ (i j : Nat) s s', e.symtable[i]? = some s → e.symtable[j]? = some s' →
    s'.stShndx.toNat = s.stShndx.toNat + 1 → ¬Deplace h e index i s.stShndx.toNat →
    Deplace h e index j s'.stShndx.toNat → s.stShndx.toNat = index ∧ index = 0

theorem sansConflit_iff_rencontre : SansConflit h e index ↔
    (∀ s ∈ e.symtable, s.stShndx.toNat = index → index = 0 ∨ index + 1 = e.shnum) ∧
      SansRencontre h e index := by
  constructor
  · rintro ⟨hdeleted, hjoined⟩
    refine ⟨fun s hs hsection => ?_, fun i j s s' hs hs' hnext hstay hmoved => ?_⟩
    · obtain ⟨i, hi⟩ := List.mem_iff_getElem?.mp hs
      exact (hdeleted i s hi hsection).imp_right And.left
    · have hlt := hmoved.1
      rcases Nat.lt_or_ge index s.stShndx.toNat with hgt | hle
      · exact absurd hmoved (hjoined i j s s' hs hs' hgt hstay hnext)
      · have hsection : s.stShndx.toNat = index := by omega
        rcases hdeleted i s hs hsection with hzero | ⟨hlast, hnone⟩
        · exact ⟨hsection, hzero⟩
        · have hshnum : s'.stShndx.toNat = e.shnum := by omega
          exact absurd (hshnum ▸ hmoved) (hnone j s' hs' hshnum)
  · rintro ⟨hdeleted, hmeet⟩
    refine ⟨fun i s hs hsection => ?_, fun i j s s' hs hs' hlt hstay hnext hmoved => ?_⟩
    · by_cases hzero : index = 0
      · exact Or.inl hzero
      · have hlast := (hdeleted s (List.mem_of_getElem? hs) hsection).resolve_left hzero
        refine Or.inr ⟨hlast, fun j s' hs' hshnum hmoved => hzero ?_⟩
        have hstay : ¬Deplace h e index i s.stShndx.toNat := fun hc => by
          have := hc.1
          omega
        exact (hmeet i j s s' hs hs' (by omega) hstay (hshnum.symm ▸ hmoved)).2
    · have := (hmeet i j s s' hs hs' hnext hstay hmoved).1
      omega

section

variable {t' : List Elf32Sym} (ht : ∀ j, t'[j]? = e.symtable[j]?.map (deplace h e index e.shnum j))

include ht

/-- The section of a symbol in the table after the deletion. -/
theorem stShndx_apres {j : Nat} {s s' : Elf32Sym} (hs : e.symtable[j]? = some s) (hs' : t'[j]? = some s') :
    s'.stShndx.toNat = numero h e index j s.stShndx.toNat := by
  rw [ht, hs, Option.map_some, Option.some.injEq] at hs'
  rw [← hs', stShndx_deplace]

theorem exists_apres {j : Nat} {s : Elf32Sym} (hs : e.symtable[j]? = some s) : ∃ s', t'[j]? = some s' :=
  ⟨_, by rw [ht, hs, Option.map_some]⟩

theorem sansRencontre_of_distinct (hre : SansReaffectation index (e.shnum - 1) e.symtable t') :
    SansRencontre h e index := by
  intro i j s s' hs hs' hnext hstay hmoved
  have hlt := hmoved.1
  obtain ⟨r, hr⟩ := exists_apres ht hs
  obtain ⟨r', hr'⟩ := exists_apres ht hs'
  have hmeet : r.stShndx = r'.stShndx := by
    rw [← UInt16.toNat_inj, stShndx_apres ht hs hr, stShndx_apres ht hs' hr',
      numero_eq_iff (by omega : s.stShndx.toNat ≠ s'.stShndx.toNat)]
    exact Or.inl ⟨hnext, hstay, hmoved⟩
  have hne : s.stShndx ≠ s'.stShndx := fun heq => by
    rw [heq] at hnext
    omega
  rcases hre.distinct i j s s' r r' hs hs' hr hr' hne with hd | ⟨hsection, hzero⟩ | ⟨hsection, -⟩
  · exact absurd hmeet hd
  · rw [shnUndef_iff, stShndx_apres ht hs hr, hsection, numero_index] at hzero
    exact ⟨hsection, hzero⟩
  · omega

/-- Of two symbols that come together one is of the deleted section, and undefined. -/
theorem distinct_of_sansRencontre (hmeet : SansRencontre h e index) {i j : Nat} {s s' r r' : Elf32Sym}
    (hs : e.symtable[i]? = some s) (hs' : e.symtable[j]? = some s') (hr : t'[i]? = some r)
    (hr' : t'[j]? = some r') (hne : s.stShndx ≠ s'.stShndx) (heq : r.stShndx = r'.stShndx) :
    (s.stShndx.toNat = index ∧ r.stShndx = shnUndef) ∨
      (s'.stShndx.toNat = index ∧ r'.stShndx = shnUndef) := by
  have hnat : s.stShndx.toNat ≠ s'.stShndx.toNat := fun hc => hne (UInt16.toNat_inj.mp hc)
  rw [shnUndef_iff, shnUndef_iff, stShndx_apres ht hs hr, stShndx_apres ht hs' hr']
  rw [← UInt16.toNat_inj, stShndx_apres ht hs hr, stShndx_apres ht hs' hr', numero_eq_iff hnat] at heq
  rcases heq with ⟨hnext, hstay, hmoved⟩ | ⟨hnext, hstay, hmoved⟩
  · obtain ⟨hsection, hzero⟩ := hmeet i j s s' hs hs' hnext hstay hmoved
    rw [hsection, numero_index]
    exact Or.inl ⟨rfl, hzero⟩
  · obtain ⟨hsection, hzero⟩ := hmeet j i s' s hs' hs hnext hstay hmoved
    rw [hsection, numero_index]
    exact Or.inr ⟨rfl, hzero⟩

theorem sansReaffectation_iff (hi : index < e.shnum) :
    SansReaffectation index (e.shnum - 1) e.symtable t' ↔ SansConflit h e index := by
  rw [sansConflit_iff_rencontre]
  constructor
  · refine fun hre => ⟨fun s hs hsection => ?_, sansRencontre_of_distinct ht hre⟩
    obtain ⟨i, hi'⟩ := List.mem_iff_getElem?.mp hs
    obtain ⟨r, hr⟩ := exists_apres ht hi'
    have hplace := hre.deleted i s r hi' hr hsection
    rw [shnUndef_iff, stShndx_apres ht hi' hr, hsection, numero_index] at hplace
    omega
  · rintro ⟨hdeleted, hmeet⟩
    refine ⟨fun i j s s' r r' hs hs' hr hr' hne => ?_, fun i s r hs hr hsection => ?_⟩
    · by_cases heq : r.stShndx = r'.stShndx
      · exact Or.inr (distinct_of_sansRencontre ht hmeet hs hs' hr hr' hne heq)
      · exact Or.inl heq
    · rw [shnUndef_iff, stShndx_apres ht hs hr, hsection, numero_index]
      have := hdeleted s (List.mem_of_getElem? hs) hsection
      omega

end

/-- With one symbol table, followed by the loop, all symbols are seen: only those of the
deleted section count. -/
theorem sansConflit_iff (hu : e.UniqueSymtab) (hsym : e.SymbolsLoaded) (hi : index < e.shnum)
    (hne : index ≠ e.symtabIndex) (hpast : ¬pastIsSymtab h e.shnum) :
    SansConflit h e index ↔ ∀ s ∈ e.symtable, s.stShndx.toNat = index → index = 0 ∨
      (index + 1 = e.shnum ∧ ∀ s' ∈ e.symtable, s'.stShndx.toNat ≠ e.shnum) := by
  have hmoved : ∀ {j n : Nat} {s : Elf32Sym}, e.symtable[j]? = some s →
      (Deplace h e index j n ↔ index < n ∧ n ≤ e.shnum) := by
    intro j n s hs
    refine ⟨fun hc => ⟨hc.1, hc.2.1⟩, ?_⟩
    rintro ⟨hlt, hle⟩
    refine ⟨hlt, hle, ?_⟩
    have hcount := nombreDeSymboles_decalage (h := h) hu.full (Nat.le_of_lt hlt) hle
    rw [nombreDeSymboles, hu.decalage_symtab (Nat.le_of_lt hlt) hle hi hne hpast] at hcount
    rw [← hcount, ← nombreDeSymboles, ← hu.length_symtable hsym]
    exact (List.getElem?_eq_some_iff.mp hs).1
  constructor
  · intro hc s hs hsection
    obtain ⟨i, hi'⟩ := List.mem_iff_getElem?.mp hs
    rcases hc.deleted i s hi' hsection with hzero | ⟨hlast, hnone⟩
    · exact Or.inl hzero
    · refine Or.inr ⟨hlast, fun s' hs' heq => ?_⟩
      obtain ⟨j, hj⟩ := List.mem_iff_getElem?.mp hs'
      exact hnone j s' hj heq ((hmoved hj).mpr ⟨hi, Nat.le_refl _⟩)
  · refine fun hall => ⟨fun i s hs hsection => ?_, fun i j s s' hs hs' hlt hstay hnext hc => ?_⟩
    · rcases hall s (List.mem_of_getElem? hs) hsection with hzero | ⟨hlast, hnone⟩
      · exact Or.inl hzero
      · exact Or.inr ⟨hlast, fun j s' hs' heq => absurd heq (hnone s' (List.mem_of_getElem? hs'))⟩
    · rw [hmoved hs'] at hc
      exact hstay ((hmoved hs).mpr ⟨hlt, by omega⟩)

end

/-- A deletion re-homes no symbol exactly when the deleted section has none, or is number
0, or is the last, and no symbol that moves down meets one that stays. -/
theorem supprimeSh_symboles_iff {h : Heap} {host : Bool} {index : Nat} {w w' : World}
    (hfull : w.elf.TableFull) (hrun : supprimeSh h host index w = .ok w') :
    SansReaffectation index w'.elf.shnum w.elf.symtable w'.elf.symtable ↔ SansConflit h w.elf index := by
  obtain ⟨hi, -, -⟩ := supprimeSh_ok hrun
  rw [supprimeSh_elf hrun, suppression_symtable, suppression_shnum hi]
  exact sansReaffectation_iff (fun j => decalage_symbole hfull (Nat.le_of_lt hi) (Nat.le_refl _) j) hi

theorem supprimeSh_symboles_iff_exemple :
    ∃ w', supprimeSh tasNul false 2 ⟨exemple 0x102, exempleImage 0x102, []⟩ = .ok w' ∧
      (SansReaffectation 2 w'.elf.shnum (exemple 0x102).symtable w'.elf.symtable ↔
        SansConflit tasNul (exemple 0x102) 2) := by
  have hlt : 2 < (⟨exemple 0x102, exempleImage 0x102, []⟩ : World).elf.shnum := by decide +kernel
  obtain ⟨w₁, hrun, -⟩ := supprimeSh_eq tasNul false hlt (Nat.le_of_lt hlt)
  exact ⟨_, hrun, supprimeSh_symboles_iff (w := ⟨exemple 0x102, exempleImage 0x102, []⟩)
    (by decide +kernel) hrun⟩

/-- The small object file with a symbol for its relocation section. -/
def exempleSymboleRel : Elf32 :=
  { exemple 0x102 with symtable := [⟨0, 0, 0, 0, 0, 0⟩, ⟨1, 4, 0, 0, 0, 2⟩, ⟨3, 0, 0, 0, 0, 3⟩] }

/-- After the deletion of `.rel.text` its symbol is in `.data`, with that of `.data`. -/
theorem supprimeSh_exempleSymboleRel :
    exempleSymboleRel.UniqueSymtab ∧ exempleSymboleRel.SymbolsLoaded ∧
      ∃ w', supprimeSh tasNul false 2 ⟨exempleSymboleRel, [], []⟩ = .ok w' ∧ w'.elf.shnum = 6 ∧
        w'.elf.symtable.map Elf32Sym.stShndx = [0, 2, 2] ∧
        ¬SansReaffectation 2 w'.elf.shnum exempleSymboleRel.symtable w'.elf.symtable := by
  have hsymbols : (suppression tasNul exempleSymboleRel 2).symtable =
      [⟨0, 0, 0, 0, 0, 0⟩, ⟨1, 4, 0, 0, 0, 2⟩, ⟨3, 0, 0, 0, 0, 2⟩] := by decide +kernel
  have hshnum : (suppression tasNul exempleSymboleRel 2).shnum = 6 := by decide +kernel
  have hlt : 2 < (⟨exempleSymboleRel, [], []⟩ : World).elf.shnum := by decide +kernel
  obtain ⟨w₁, hrun, -⟩ := supprimeSh_eq tasNul false hlt (Nat.le_of_lt hlt)
  refine ⟨by decide +kernel, by decide +kernel, _, hrun, ?_⟩
  rw [supprimeSh_elf hrun, hsymbols, hshnum]
  refine ⟨rfl, rfl, fun hc => ?_⟩
  exact absurd (hc.deleted 1 _ _ rfl rfl rfl) (by decide)

end ElfLinker
