import ElfLinker.Lib.Deletion
import ElfLinker.Lecture

/-!
Deleting a section: `update_sym_shndx`, `supprime_sh` and `supprime_rel_sections`.
The array loops act on `Elf32`; the functions themselves act on a `World`, so that
what they write to the destination and the subscripts they make are part of the
result.
-/

namespace ElfLinker

/-! ## Raw memory of the arrays -/

/-- `fwrite(shtable, sizeof(Elf32_Shdr), n, file)`. -/
def shtableBytes (h : Heap) (host : Bool) (n : Nat) (t : List Elf32Shdr) : List UInt8 :=
  (shdr host).encodeAll ((List.range n).map (shdrAt h t))

/-- `fwrite(symtable, 1, size, file)`: past the last whole symbol, the bytes that
`malloc` left there. -/
def symtableBytes (h : Heap) (host : Bool) (size : Nat) (t : List Elf32Sym) : List UInt8 :=
  ((sym host).encodeAll ((List.range (size / 16 + 1)).map (symAt h t))).take size

/-- `for (i = 0; i < n; i++) swap_endianess_shtable(&shtable[i])` on a little-endian
host. -/
def swapShtable (host : Bool) (n : Nat) (e : Elf32) : Elf32 :=
  toHost host (fun e => { e with shtable := Loop.mapUpTo n swapEndianessShtable e.shtable }) e

def swapSymtable (host : Bool) (n : Nat) (e : Elf32) : Elf32 :=
  toHost host (fun e => { e with symtable := Loop.mapUpTo n swapEndianessSymbole e.symtable }) e

def swapElfhdr (host : Bool) (e : Elf32) : Elf32 :=
  toHost host (fun e => { e with elfhdr := swapEndianessElfhdr e.elfhdr }) e

/-- The subscripts of the loop of `swapShtable`. -/
def swapShtableSubs (host : Bool) (n : Nat) : List Int :=
  if host then [] else (List.range n).map Int.ofNat

theorem swapShtableSubs_bounds {host : Bool} {n : Nat} {i : Int} (hi : i ∈ swapShtableSubs host n) :
    0 ≤ i ∧ i < n := by
  unfold swapShtableSubs at hi
  split at hi
  · exact absurd hi List.not_mem_nil
  · obtain ⟨k, hk, rfl⟩ := List.mem_map.mp hi
    exact ⟨Int.natCast_nonneg k, Int.ofNat_lt.mpr (List.mem_range.mp hk)⟩

/-! ## update_sym_shndx -/

/-- The body of the loop: a symbol of section `oldShndx` goes to `newShndx`. -/
def moveSym (oldShndx newShndx : Nat) (s : Elf32Sym) : Elf32Sym :=
  if s.stShndx.toNat = oldShndx then { s with stShndx := UInt16.ofNat newShndx } else s

def updateSymShndx (h : Heap) (e : Elf32) (oldShndx newShndx : Nat) : Elf32 :=
  { e with symtable := Loop.mapUpTo (nombreDeSymboles h e) (moveSym oldShndx newShndx) e.symtable }

/-! ## supprime_sh -/

/-- The body of the loop of `supprime_sh`: entry `i + 1` moves to `i`, the symbol
table is followed when it is the entry that moved, and so are the symbols. -/
def decale (h : Heap) (e : Elf32) (i : Nat) : Elf32 :=
  let oldShndx := i + 1
  let newShndx := i
  let shtable := e.shtable.set newShndx (shdrAt h e.shtable oldShndx)
  let symtabIndex := if isSymtable h shtable newShndx then newShndx else e.symtabIndex
  updateSymShndx h { e with shtable := shtable, symtabIndex := symtabIndex } oldShndx newShndx

/-- The subscripts of one turn: the two of the copy, the one of `is_symtable` and
the one of `update_sym_shndx`. -/
def decaleSubs (h : Heap) (e : Elf32) (i : Nat) : List Int :=
  [(i + 1 : Nat), i, i, (decale h e i).symtabIndex]

def decaler (h : Heap) (w : World) (i : Nat) : World :=
  w.step (decale h w.elf i) (decaleSubs h w.elf i)

/-- `realloc` to one entry less, and `e_shnum -= 1`. -/
def retrecir (e : Elf32) : Elf32 :=
  { e with
    shtable := e.shtable.take (e.shnum - 1)
    elfhdr := { e.elfhdr with eShnum := e.elfhdr.eShnum - 1 } }

/-- `e_shstrndx = get_section_index(".shstrtab")`. -/
def majShstrndx (h : Heap) (e : Elf32) : Elf32 :=
  { e with elfhdr := { e.elfhdr with
    eShstrndx := UInt16.ofInt (getSectionIndex h e dotShstrtab) } }

/-- The second half of `supprime_sh`: swap the structures in place, write the
header, the section table and the symbol table, and swap back. -/
def ecrire (h : Heap) (host : Bool) (w : World) : World :=
  let shoff := w.elf.elfhdr.eShoff.toNat
  let shnum := w.elf.shnum
  let symtab := shdrAt h w.elf.shtable w.elf.symtabIndex
  let symoff := symtab.shOffset.toNat
  let symtabSize := symtab.shSize.toNat
  let n := symtabSize / 16
  let swap := fun e => swapSymtable host n (swapShtable host shnum (swapElfhdr host e))
  let w := w.step (swap w.elf)
    (List.replicate 2 (Int.ofNat w.elf.symtabIndex) ++ swapShtableSubs host shnum)
  let w := w.fwrite 0 ((ehdr host).encode w.elf.elfhdr)
  let w := w.fwrite shoff (shtableBytes h host shnum w.elf.shtable)
  let w := w.fwrite symoff (symtableBytes h host symtabSize w.elf.symtable)
  w.step (swap w.elf) (swapShtableSubs host shnum)

/-- `supprime_sh`. The loop runs up to `i = e_shnum - 1` and so copies the entry
past the end of the table over the last one. -/
def supprimeSh (h : Heap) (host : Bool) (index : Nat) (w : World) : Outcome :=
  let shnum := w.elf.shnum
  if index < shnum then
    let w := (List.range' index (shnum - index)).foldl (decaler h) w
    -- `realloc(shtable, 0)` returns NULL, which the assert after it refuses
    if shnum - 1 = 0 then .error w
    else
      let w := w.step (retrecir w.elf) []
      let w := w.step (majShstrndx h w.elf) (getSectionIndexSubs h w.elf dotShstrtab)
      let w := w.step (metAJourShlink h w.elf) (metAJourShlinkSubs h w.elf)
      .ok (ecrire h host w)
  else .error w

/-! ## supprime_rel_sections -/

/-- The loop, with `fuel` turns left: after a deletion the same index is tested
again. `none` when the turns run out. -/
def supprimeRelLoop (h : Heap) (host : Bool) : Nat → Nat → World → Option Outcome
  | 0, _, _ => none
  | fuel + 1, i, w =>
    if i < w.elf.shnum then
      let sectionType := (shdrAt h w.elf.shtable i).shType
      let w := w.step w.elf [i]
      if isRel sectionType then
        match supprimeSh h host i w with
        | .ok w => supprimeRelLoop h host fuel i w
        | .error w => some (.error w)
      else supprimeRelLoop h host fuel (i + 1) w
    else some (.ok w)

def supprimeRelSections (h : Heap) (host : Bool) (fuel : Nat) (w : World) : Option Outcome :=
  supprimeRelLoop h host fuel 0 w

/-! ## What is written -/

/-- Swapping a whole array is swapping each of its entries. -/
theorem toHost_mapUpTo {α : Type} (host : Bool) (swap : α → α) {n : Nat} {t : List α}
    (hn : t.length = n) : toHost host (Loop.mapUpTo n swap) t = t.map (toHost host swap) := by
  cases host
  · exact Loop.mapUpTo_of_length_le _ (Nat.le_of_eq hn)
  · exact (List.map_id t).symm

theorem shtableBytes_toHost (h : Heap) (host : Bool) {n : Nat} {t : List Elf32Shdr}
    (hn : t.length = n) :
    shtableBytes h host n (toHost host (Loop.mapUpTo n swapEndianessShtable) t) =
      (shdr true).encodeAll t := by
  have hread := Loop.map_getD_range (t.map (toHost host swapEndianessShtable)) fun i => h.shtable i
  rw [List.length_map, hn] at hread
  rw [shtableBytes, toHost_mapUpTo host _ hn, ← (turns_host turns_shdr host).encodeAll_map]
  exact congrArg _ hread

/-- A section header table takes 40 bytes for each section. -/
theorem Elf32.TableFull.length_encodeAll {e : Elf32} (hfull : e.TableFull) :
    ((shdr true).encodeAll e.shtable).length = 40 * e.shnum := by
  rw [Codec.length_encodeAll, size_shdr, hfull]

theorem length_symtableBytes (h : Heap) (host : Bool) (size : Nat) (t : List Elf32Sym) :
    (symtableBytes h host size t).length = size := by
  simp only [symtableBytes, List.length_take, Codec.length_encodeAll, size_sym, List.length_map,
    List.length_range]
  omega

/-- The whole symbols of the symbol table are written big-endian. -/
theorem take_symtableBytes (h : Heap) (host : Bool) {size : Nat} {t : List Elf32Sym}
    (hn : t.length = size / 16) :
    (symtableBytes h host size (toHost host (Loop.mapUpTo (size / 16) swapEndianessSymbole) t)).take
      (16 * (size / 16)) = (sym true).encodeAll t := by
  let u := t.map (toHost host swapEndianessSymbole)
  have hu : u.length = size / 16 := (List.length_map _).trans hn
  -- the last entry read is past the symbols: its bytes are cut off
  have hread : (List.range (size / 16 + 1)).map (symAt h u) = u ++ [symAt h u (size / 16)] := by
    have hsymbols := Loop.map_getD_range u h.symtable
    rw [hu] at hsymbols
    rw [List.range_succ, List.map_append, List.map_singleton]
    exact congrArg (· ++ _) hsymbols
  have hlen : ((sym true).encodeAll t).length = 16 * (size / 16) := by
    rw [Codec.length_encodeAll, size_sym, hn]
  rw [symtableBytes, toHost_mapUpTo host _ hn, hread, Codec.encodeAll_append,
    (turns_host turns_sym host).encodeAll_map, List.take_take, Nat.min_eq_left (by omega), ← hlen,
    List.take_left]

/-- What is read back of the symbols where they were written. -/
theorem readAt_symtableBytes (h : Heap) (host : Bool) (f : List UInt8) (off : Nat) {size : Nat}
    {t : List Elf32Sym} (hn : t.length = size / 16) :
    Patch.readAt (Patch.writeAt f off (symtableBytes h host size
      (toHost host (Loop.mapUpTo (size / 16) swapEndianessSymbole) t))) off (16 * (size / 16)) =
      (sym true).encodeAll t := by
  have hself := Patch.readAt_writeAt_self f off (length_symtableBytes h host size
    (toHost host (Loop.mapUpTo (size / 16) swapEndianessSymbole) t))
  rw [← take_symtableBytes h host hn, ← Patch.readAt_take _ off size _ (Nat.mul_div_le size 16), hself]

/-! ## The structures after the writes -/

theorem swapElfhdr_eq (host : Bool) (e : Elf32) :
    swapElfhdr host e = { e with elfhdr := toHost host swapEndianessElfhdr e.elfhdr } := by
  cases host <;> rfl

theorem swapShtable_eq (host : Bool) (n : Nat) (e : Elf32) : swapShtable host n e =
    { e with shtable := toHost host (Loop.mapUpTo n swapEndianessShtable) e.shtable } := by
  cases host <;> rfl

theorem swapSymtable_eq (host : Bool) (n : Nat) (e : Elf32) : swapSymtable host n e =
    { e with symtable := toHost host (Loop.mapUpTo n swapEndianessSymbole) e.symtable } := by
  cases host <;> rfl

theorem toHost_mapUpTo_twice {α : Type} {swap : α → α} (h : ∀ a, swap (swap a) = a) (host : Bool)
    (n : Nat) (t : List α) :
    toHost host (Loop.mapUpTo n swap) (toHost host (Loop.mapUpTo n swap) t) = t :=
  toHost_twice (Loop.mapUpTo_mapUpTo n h) host t

/-- Swapping back restores `elfdata`. -/
@[simp] theorem ecrire_elf (h : Heap) (host : Bool) (w : World) : (ecrire h host w).elf = w.elf := by
  simp only [ecrire, World.step_elf, World.fwrite_elf, swapElfhdr_eq, swapShtable_eq, swapSymtable_eq,
    toHost_twice swapEndianessElfhdr_twice, toHost_mapUpTo_twice swapEndianessShtable_twice,
    toHost_mapUpTo_twice swapEndianessSymbole_twice]

/-- The three writes: the header, the section table and the symbol table, each in
the layout of the file. -/
theorem ecrire_dest (h : Heap) (host : Bool) (w : World) (hfull : w.elf.TableFull) :
    (ecrire h host w).dest =
      let symtab := shdrAt h w.elf.shtable w.elf.symtabIndex
      let size := symtab.shSize.toNat
      Patch.writeAt
        (Patch.writeAt (Patch.writeAt w.dest 0 ((ehdr true).encode w.elf.elfhdr))
          w.elf.elfhdr.eShoff.toNat ((shdr true).encodeAll w.elf.shtable))
        symtab.shOffset.toNat
        (symtableBytes h host size
          (toHost host (Loop.mapUpTo (size / 16) swapEndianessSymbole) w.elf.symtable)) := by
  simp only [ecrire, World.step_elf, World.fwrite_elf, World.step_dest, World.fwrite_dest,
    swapElfhdr_eq, swapShtable_eq, swapSymtable_eq, (turns_host turns_ehdr host).encode_eq,
    shtableBytes_toHost h host hfull]

theorem ecrire_log_grows (h : Heap) (host : Bool) (w : World) : w.log <+: (ecrire h host w).log := by
  simp only [ecrire, World.step_log, World.fwrite_log, List.append_assoc]
  exact List.prefix_append _ _

/-- The header is written first, at the start of the file. -/
theorem ecrire_log_header (h : Heap) (host : Bool) (w : World) :
    Access.write 0 ((ehdr true).encode w.elf.elfhdr) ∈ (ecrire h host w).log := by
  simp only [ecrire, World.step_elf, World.fwrite_elf, World.step_log, World.fwrite_log,
    swapElfhdr_eq, swapShtable_eq, swapSymtable_eq, (turns_host turns_ehdr host).encode_eq]
  simp

end ElfLinker
