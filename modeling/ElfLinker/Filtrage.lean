import ElfLinker.Decalage

/-!
`supprime_rel_sections` as a filter. One deletion drops an entry that the filter
drops, so by induction over the turns of the loop the deletions add up to the
filter of the section table; a symbol is carried along by the rank of its section
among those that stay.
-/

namespace ElfLinker

/-- The sections that `supprime_rel_sections` keeps. -/
def gardee (s : Elf32Shdr) : Bool := !isRel s.shType

/-- A symbol `s` of a table `t` has become `s'`: its section has been renumbered if
it is one of those kept, a reserved index stays, and so does every other field. -/
structure SymFiltered (t : List Elf32Shdr) (s s' : Elf32Sym) : Prop where
  fields : { s' with stShndx := s.stShndx } = s
  kept : ∀ a, t[s.stShndx.toNat]? = some a → gardee a = true →
    s'.stShndx.toNat = Deletion.rank gardee t s.stShndx.toNat
  reserved : shnLoreserve ≤ s.stShndx → s' = s

/-- `e'` is `e` without its relocation sections, links apart. -/
structure Filtered (e e' : Elf32) : Prop where
  shnum : e'.shnum = (e.shtable.filter gardee).length
  table : e'.shtable.map sansLien = (e.shtable.filter gardee).map sansLien
  unique : e'.UniqueSymtab
  loaded : e'.SymbolsLoaded
  length : e'.symtable.length = e.symtable.length
  symbols : ∀ (i : Nat) s s', e.symtable[i]? = some s → e'.symtable[i]? = some s' →
    SymFiltered e.shtable s s'

theorem gardee_relink (a b : UInt32) (s : Elf32Shdr) : gardee (relink a b s) = gardee s := by
  rw [gardee, relink_shType, gardee]

theorem gardee_eq_false {s : Elf32Shdr} (hs : isRel s.shType = true) : gardee s = false := by
  rw [gardee, hs]
  rfl

theorem gardee_symtab {s : Elf32Shdr} (hs : s.shType = shtSymtab) : gardee s = true := by
  rw [gardee, hs]
  rfl

/-- The symbol table is kept. -/
theorem Elf32.UniqueSymtab.kept {e : Elf32} (hu : e.UniqueSymtab) : ∃ s ∈ e.shtable, gardee s = true := by
  have hlt : e.symtabIndex < e.shtable.length := Nat.lt_of_lt_of_eq hu.inTable hu.full.symm
  have hs := List.getElem?_eq_getElem hlt
  exact ⟨_, List.getElem_mem hlt, gardee_symtab ((hu.symtab_iff _ _ hs).mpr rfl)⟩

/-- The section that is deleted is not the only one. -/
theorem Elf32.TableFull.two_le {e : Elf32} (hfull : e.TableFull) {i : Nat} {r : Elf32Shdr}
    (hr : e.shtable[i]? = some r) (hdrop : gardee r = false) (hkeep : ∃ s ∈ e.shtable, gardee s = true) :
    2 ≤ e.shnum := by
  obtain ⟨s, hs, hkept⟩ := hkeep
  obtain ⟨k, hk⟩ := List.mem_iff_getElem?.mp hs
  have hne : k ≠ i := by
    rintro rfl
    rw [hr, Option.some.injEq] at hk
    rw [← hk, hdrop] at hkept
    exact Bool.noConfusion hkept
  have hki := hfull.lt_shnum hk
  have hi := hfull.lt_shnum hr
  omega

/-- A section that is kept is found at its rank, links apart. -/
theorem getElem?_rank_gardee {t t' : List Elf32Shdr}
    (htable : t'.map sansLien = (t.filter gardee).map sansLien) {k : Nat} {s : Elf32Shdr}
    (hs : t[k]? = some s) (hkept : gardee s = true) :
    ∃ s', t'[Deletion.rank gardee t k]? = some s' ∧ sansLien s' = sansLien s := by
  have hrank := congrArg (·[Deletion.rank gardee t k]?) htable
  simp only [List.getElem?_map, Deletion.getElem?_filter_rank hs hkept, Option.map_some,
    Option.map_eq_some_iff] at hrank
  exact hrank

/-- Nothing to delete: the filter keeps every section. -/
theorem filtered_refl {e : Elf32} (hu : e.UniqueSymtab) (hsym : e.SymbolsLoaded)
    (hall : ∀ s ∈ e.shtable, gardee s = true) : Filtered e e := by
  have hfilter : e.shtable.filter gardee = e.shtable := List.filter_eq_self.mpr hall
  refine ⟨by rw [hfilter, ← hu.full], by rw [hfilter], hu, hsym, rfl, fun i s s' hs hs' => ?_⟩
  rw [hs, Option.some.injEq] at hs'
  subst hs'
  refine ⟨rfl, fun a ha _ => ?_, fun _ => rfl⟩
  obtain ⟨hk, -⟩ := List.getElem?_eq_some_iff.mp ha
  rw [Deletion.rank_of_forall (Nat.le_of_lt hk) hall]

section

variable {h : Heap} {e : Elf32} {index : Nat} {r : Elf32Shdr}

theorem rank_suppression (hu : e.UniqueSymtab) (hi : index < e.shnum)
    (hr : e.shtable[index]? = some r) (hdrop : gardee r = false) (k : Nat) :
    Deletion.rank gardee (suppression h e index).shtable (Deletion.renumber index k) =
      Deletion.rank gardee e.shtable k := by
  rw [← Deletion.rank_eraseIdx hr hdrop, Deletion.rank, Deletion.rank, suppression_shtable hu.full hi,
    ← List.map_take, List.countP_map]
  exact List.countP_congr fun s _ => by rw [Function.comp, gardee_relink]

/-- A symbol through one deletion and then through the rest of the loop. -/
theorem symFiltered_step (hu : e.UniqueSymtab) (hi : index < e.shnum)
    (hr : e.shtable[index]? = some r) (hdrop : gardee r = false) (hn : e.shnum < 0xff00)
    {s s' : Elf32Sym}
    (hs : SymFiltered (suppression h e index).shtable (renumberSym index e.shnum s) s') :
    SymFiltered e.shtable s s' := by
  have hlen : e.shtable.length = e.shnum := hu.full
  refine ⟨?_, fun a ha hkept => ?_, fun hres => ?_⟩
  · exact (congrArg (fun t : Elf32Sym => { t with stShndx := s.stShndx }) hs.fields).trans
      (renumberSym_fields index e.shnum s)
  · obtain ⟨hk, -⟩ := List.getElem?_eq_some_iff.mp ha
    have hne : s.stShndx.toNat ≠ index := by
      intro heq
      rw [heq, hr, Option.some.injEq] at ha
      rw [ha, hkept] at hdrop
      exact Bool.noConfusion hdrop
    have hnew := stShndx_renumberSym index (p := e.shnum) (s := s) (by omega)
    have hentry := suppression_entry (h := h) hu.full hi (Deletion.renumber index s.stShndx.toNat)
    rw [Deletion.origin_renumber hne, ha, ← hnew] at hentry
    rw [hs.kept _ hentry (by rw [gardee_relink, hkept]), hnew, rank_suppression hu hi hr hdrop]
  · have hge : 0xff00 ≤ s.stShndx.toNat := UInt16.le_iff_toNat_le.mp hres
    rw [renumberSym_of_lt index (by omega)] at hs
    exact hs.reserved hres

/-- Links apart, a deletion drops nothing that the filter keeps. -/
theorem filter_suppression (hfull : e.TableFull) (hi : index < e.shnum)
    (hr : e.shtable[index]? = some r) (hdrop : gardee r = false) :
    (suppression h e index).shtable.filter gardee = (e.shtable.filter gardee).map
      (relink (UInt32.ofInt (getSectionIndex h (retrecir (decalage h e index e.shnum)) dotStrtab))
        (UInt32.ofNat (suppression h e index).symtabIndex)) := by
  rw [suppression_shtable hfull hi, List.filter_map, ← Deletion.filter_eraseIdx hr hdrop]
  exact congrArg _ (List.filter_congr fun s _ => gardee_relink _ _ s)

theorem kept_suppression (hfull : e.TableFull) (hi : index < e.shnum)
    (hr : e.shtable[index]? = some r) (hdrop : gardee r = false)
    (hkeep : ∃ s ∈ e.shtable, gardee s = true) :
    ∃ s ∈ (suppression h e index).shtable, gardee s = true := by
  obtain ⟨s, hs, hkept⟩ := hkeep
  have hfilter := filter_suppression (h := h) hfull hi hr hdrop
  have hmem : s ∈ e.shtable.filter gardee := List.mem_filter.mpr ⟨hs, hkept⟩
  exact ⟨_, List.mem_filter.mp (hfilter ▸ List.mem_map_of_mem hmem)⟩

/-- Deleting one relocation section and filtering the rest is filtering. -/
theorem filtered_step (hu : e.UniqueSymtab) (hsym : e.SymbolsLoaded) (hi : index < e.shnum)
    (hr : e.shtable[index]? = some r) (hdrop : gardee r = false) (hn : e.shnum < 0xff00)
    (hpast : ¬pastIsSymtab h e.shnum) {e' : Elf32} (hrest : Filtered (suppression h e index) e') :
    Filtered e e' := by
  have hne : index ≠ e.symtabIndex := by
    intro heq
    rw [gardee_symtab ((hu.symtab_iff index r hr).mpr heq)] at hdrop
    exact Bool.noConfusion hdrop
  have htable := filter_suppression (h := h) hu.full hi hr hdrop
  have hsymbols := suppression_symbols hu hsym hi hne hpast
  refine ⟨?_, ?_, hrest.unique, hrest.loaded, ?_, fun i s s' hs hs' => ?_⟩
  · rw [hrest.shnum, htable, List.length_map]
  · rw [hrest.table, htable, List.map_map]
    exact List.map_congr_left fun s _ => sansLien_relink _ _ s
  · rw [hrest.length, hsymbols, List.length_map]
  · refine symFiltered_step hu hi hr hdrop hn (hrest.symbols i _ s' ?_ hs')
    rw [hsymbols, List.getElem?_map, hs]
    rfl

end

/-! ## The loop of supprime_rel_sections -/

section

variable {h : Heap} {host : Bool} {fuel i : Nat} {w w' : World}

theorem supprimeRelLoop_end (hi : ¬i < w.elf.shnum) :
    supprimeRelLoop h host (fuel + 1) i w = some (.ok w) := by
  rw [supprimeRelLoop, if_neg hi]

theorem supprimeRelLoop_delete (hi : i < w.elf.shnum)
    (hrel : isRel (shdrAt h w.elf.shtable i).shType = true)
    (hrun : supprimeSh h host i (w.step w.elf [(i : Int)]) = .ok w') :
    supprimeRelLoop h host (fuel + 1) i w = supprimeRelLoop h host fuel i w' := by
  rw [supprimeRelLoop, if_pos hi]
  simp only [hrel, if_true, hrun]

theorem supprimeRelLoop_next (hi : i < w.elf.shnum)
    (hkept : isRel (shdrAt h w.elf.shtable i).shType = false) :
    supprimeRelLoop h host (fuel + 1) i w =
      supprimeRelLoop h host fuel (i + 1) (w.step w.elf [(i : Int)]) := by
  rw [supprimeRelLoop, if_pos hi]
  simp only [hkept, Bool.false_eq_true, if_false]

end

/-- A deletion leaves the entries before it in place. -/
theorem gardees_suppression {h : Heap} {e : Elf32} {i : Nat} (hfull : e.TableFull) (hi : i < e.shnum)
    (hbefore : ∀ k s, k < i → e.shtable[k]? = some s → gardee s = true) :
    ∀ k s, k < i → (suppression h e i).shtable[k]? = some s → gardee s = true := by
  intro k s hk hs
  rw [suppression_entry hfull hi, Option.map_eq_some_iff] at hs
  obtain ⟨t, ht, rfl⟩ := hs
  rw [Deletion.origin, if_pos hk] at ht
  rw [gardee_relink]
  exact hbefore k t hk ht

theorem gardees_succ {e : Elf32} {i : Nat} {r : Elf32Shdr} (hr : e.shtable[i]? = some r)
    (hkept : isRel r.shType = false)
    (hbefore : ∀ k s, k < i → e.shtable[k]? = some s → gardee s = true) :
    ∀ k s, k < i + 1 → e.shtable[k]? = some s → gardee s = true := by
  intro k s hk hs
  rcases Nat.lt_succ_iff_lt_or_eq.mp hk with hlt | rfl
  · exact hbefore k s hlt hs
  · rw [hr, Option.some.injEq] at hs
    rw [← hs, gardee, hkept]
    rfl

/-- Rule for the loop: what every deletion of a relocation section preserves holds
at the end, when no relocation section is left. `P` has to keep the table full and
one section that is not deleted, so that the table never becomes empty. -/
theorem supprimeRelLoop_rule {P : Elf32 → List UInt8 → Prop} (h : Heap) (host : Bool)
    (hkeep : ∀ e d, P e d → e.TableFull ∧ ∃ s ∈ e.shtable, gardee s = true)
    (hstep : ∀ (w w' : World) (i : Nat) (r : Elf32Shdr), P w.elf w.dest →
      w.elf.shtable[i]? = some r → isRel r.shType = true → supprimeSh h host i w = .ok w' →
      P w'.elf w'.dest)
    (m i : Nat) (w : World) (hm : w.elf.shnum - i = m) (hP : P w.elf w.dest)
    (hbefore : ∀ k s, k < i → w.elf.shtable[k]? = some s → gardee s = true) :
    ∃ w', (∀ fuel, m < fuel → supprimeRelLoop h host fuel i w = some (.ok w')) ∧
      P w'.elf w'.dest ∧ ∀ s ∈ w'.elf.shtable, gardee s = true := by
  -- every turn either deletes a section or goes to the next: `shnum - i` decreases
  induction m generalizing i w with
  | zero =>
    refine ⟨w, fun fuel hfuel => ?_, hP, fun s hs => ?_⟩
    · obtain ⟨fuel, rfl⟩ := Nat.exists_eq_succ_of_ne_zero (Nat.ne_of_gt hfuel)
      exact supprimeRelLoop_end (by omega)
    · obtain ⟨k, hk⟩ := List.mem_iff_getElem?.mp hs
      have hlt := (hkeep _ _ hP).1.lt_shnum hk
      exact hbefore k s (by omega) hk
  | succ m ih =>
    obtain ⟨hfull, hother⟩ := hkeep _ _ hP
    have hlen : w.elf.shtable.length = w.elf.shnum := hfull
    have hi : i < w.elf.shnum := by omega
    have hentry := shdrAt_of_lt h (show i < w.elf.shtable.length by omega)
    let w₀ := w.step w.elf [(i : Int)]
    cases hrel : isRel (shdrAt h w.elf.shtable i).shType with
    | true =>
      obtain ⟨w₁, hrun, -⟩ := supprimeSh_eq h host (w := w₀) hi
        (hfull.two_le hentry (gardee_eq_false hrel) hother)
      have helf := supprimeSh_elf hrun
      rw [show w₀.elf = w.elf from rfl] at helf
      have hcount : (ecrire h host w₁).elf.shnum = w.elf.shnum - 1 := by
        rw [helf]
        exact suppression_shnum hi
      obtain ⟨w', hloop, hend⟩ := ih i (ecrire h host w₁) (by omega)
        (hstep w₀ _ i _ hP hentry hrel hrun) (helf ▸ gardees_suppression hfull hi hbefore)
      refine ⟨w', fun fuel hfuel => ?_, hend⟩
      obtain ⟨fuel, rfl⟩ := Nat.exists_eq_succ_of_ne_zero (Nat.ne_of_gt (Nat.zero_lt_of_lt hfuel))
      rw [supprimeRelLoop_delete hi hrel hrun]
      exact hloop fuel (by omega)
    | false =>
      obtain ⟨w', hloop, hend⟩ := ih (i + 1) w₀ (by change w.elf.shnum - (i + 1) = m; omega) hP
        (gardees_succ hentry hrel hbefore)
      refine ⟨w', fun fuel hfuel => ?_, hend⟩
      obtain ⟨fuel, rfl⟩ := Nat.exists_eq_succ_of_ne_zero (Nat.ne_of_gt (Nat.zero_lt_of_lt hfuel))
      rw [supprimeRelLoop_next hi hrel]
      exact hloop fuel (by omega)

/-- The rule for the whole function. -/
theorem supprimeRelSections_rule {P : Elf32 → List UInt8 → Prop} (h : Heap) (host : Bool) (w : World)
    (hkeep : ∀ e d, P e d → e.TableFull ∧ ∃ s ∈ e.shtable, gardee s = true)
    (hstep : ∀ (w w' : World) (i : Nat) (r : Elf32Shdr), P w.elf w.dest →
      w.elf.shtable[i]? = some r → isRel r.shType = true → supprimeSh h host i w = .ok w' →
      P w'.elf w'.dest)
    (hP : P w.elf w.dest) :
    ∃ w', (∀ fuel, w.elf.shnum < fuel → supprimeRelSections h host fuel w = some (.ok w')) ∧
      P w'.elf w'.dest ∧ ∀ s ∈ w'.elf.shtable, gardee s = true :=
  supprimeRelLoop_rule h host hkeep hstep w.elf.shnum 0 w (Nat.sub_zero _) hP
    fun k _ hk => absurd hk (Nat.not_lt_zero k)

/-- While the loop runs from `e₀` on, filtering what it left of `elfdata` gives what
filtering `e₀` gives. `Q` is any further property that the deletions preserve. -/
structure EnCours (Q : Elf32 → List UInt8 → Prop) (e₀ e : Elf32) (d : List UInt8) : Prop where
  unique : e.UniqueSymtab
  loaded : e.SymbolsLoaded
  shnum_le : e.shnum ≤ e₀.shnum
  filters : ∀ e', Filtered e e' → Filtered e₀ e'
  extra : Q e d

theorem EnCours.step {Q : Elf32 → List UInt8 → Prop} {h : Heap} {host : Bool} {e₀ : Elf32}
    {w w' : World} {i : Nat} {r : Elf32Shdr} (hw : EnCours Q e₀ w.elf w.dest) (hn : e₀.shnum < 0xff00)
    (hpast : ¬pastIsSymtab h w.elf.shnum) (hr : w.elf.shtable[i]? = some r)
    (hrel : isRel r.shType = true) (hdel : supprimeSh h host i w = .ok w') (hQ : Q w'.elf w'.dest) :
    EnCours Q e₀ w'.elf w'.dest := by
  have hle := hw.shnum_le
  have hi := hw.unique.full.lt_shnum hr
  have hne := hw.unique.ne_symtabIndex hr hrel
  rw [supprimeSh_elf hdel] at hQ ⊢
  refine ⟨suppression_uniqueSymtab hw.unique hi hne hpast,
    suppression_symbolsLoaded hw.unique hw.loaded hi hne hpast, ?_, fun e' he' => ?_, hQ⟩
  · rw [suppression_shnum hi]
    omega
  · exact hw.filters e' (filtered_step hw.unique hw.loaded hi hr (gardee_eq_false hrel) (by omega)
      hpast he')

/-- The filter, with any property of `elfdata` and the destination that each deletion
preserves. -/
theorem supprimeRelSections_filtered {Q : Elf32 → List UInt8 → Prop} (h : Heap) (host : Bool) {w : World}
    (hu : w.elf.UniqueSymtab) (hsym : w.elf.SymbolsLoaded) (hn : w.elf.shnum < 0xff00)
    (hpast : ∀ n ≤ w.elf.shnum, ¬pastIsSymtab h n) (hQ : Q w.elf w.dest)
    (hQstep : ∀ (v v' : World) (i : Nat) (r : Elf32Shdr), Q v.elf v.dest → ¬pastIsSymtab h v.elf.shnum →
      v.elf.shtable[i]? = some r → isRel r.shType = true → supprimeSh h host i v = .ok v' →
      Q v'.elf v'.dest) :
    ∃ w', (∀ fuel, w.elf.shnum < fuel → supprimeRelSections h host fuel w = some (.ok w')) ∧
      Filtered w.elf w'.elf ∧ Q w'.elf w'.dest := by
  have hstep : ∀ (v v' : World) (i : Nat) (r : Elf32Shdr), EnCours Q w.elf v.elf v.dest →
      v.elf.shtable[i]? = some r → isRel r.shType = true → supprimeSh h host i v = .ok v' →
      EnCours Q w.elf v'.elf v'.dest := by
    intro v v' i r hv hr hrel hdel
    have hnopast := hpast _ hv.shnum_le
    exact hv.step hn hnopast hr hrel hdel (hQstep v v' i r hv.extra hnopast hr hrel hdel)
  obtain ⟨w', hrun, hend, hall⟩ := supprimeRelSections_rule h host w
    (fun e _ he => ⟨he.unique.full, he.unique.kept⟩) hstep ⟨hu, hsym, Nat.le_refl _, fun _ he' => he', hQ⟩
  exact ⟨w', hrun, hend.filters _ (filtered_refl hend.unique hend.loaded hall), hend.extra⟩

/-- `supprime_rel_sections` terminates and filters, from any `elfdata` with a single
symbol table and whatever lies past the section table, short of a symbol table. -/
theorem supprimeRelSections_filters (h : Heap) (host : Bool) (w : World) (hu : w.elf.UniqueSymtab)
    (hsym : w.elf.SymbolsLoaded) (hn : w.elf.shnum < 0xff00)
    (hpast : ∀ n ≤ w.elf.shnum, ¬pastIsSymtab h n) :
    ∃ w', (∀ fuel, w.elf.shnum < fuel → supprimeRelSections h host fuel w = some (.ok w')) ∧
      Filtered w.elf w'.elf := by
  obtain ⟨w', hrun, hfilt, -⟩ := supprimeRelSections_filtered (Q := fun _ _ => True) h host hu hsym hn
    hpast trivial fun _ _ _ _ _ _ _ _ _ => trivial
  exact ⟨w', hrun, hfilt⟩

theorem supprimeRelSections_filters_exemple :
    ∃ w', (∀ fuel, 7 < fuel → supprimeRelSections tasNul false fuel
        ⟨exemple 0x102, exempleImage 0x102, []⟩ = some (.ok w')) ∧
      Filtered (exemple 0x102) w'.elf :=
  supprimeRelSections_filters tasNul false ⟨exemple 0x102, exempleImage 0x102, []⟩ (by decide +kernel)
    (by decide +kernel) (by decide +kernel) fun _ _ => show (0 : UInt32) ≠ shtSymtab by decide

end ElfLinker
