import ElfLinker.Lecture
import ElfLinker.Lib.HexDump

/-!
The dump of a section that `my_readelf -x` prints: `affiche_contenu_section` of
`my_elf.c`. One loop over the bytes prints the hexadecimal columns, and at the end of each
line the characters and the next address.
-/

namespace ElfLinker

/-- The variables of the loop, and the text printed so far. -/
structure Affichage where
  shAddr : UInt32
  j : Nat
  sortie : List UInt8

namespace Affichage

def printf (s : Affichage) (texte : List UInt8) : Affichage := { s with sortie := s.sortie ++ texte }

@[simp] theorem printf_shAddr (s : Affichage) (texte : List UInt8) :
    (s.printf texte).shAddr = s.shAddr := rfl
@[simp] theorem printf_j (s : Affichage) (texte : List UInt8) : (s.printf texte).j = s.j := rfl
@[simp] theorem printf_sortie (s : Affichage) (texte : List UInt8) :
    (s.printf texte).sortie = s.sortie ++ texte := rfl

end Affichage

/-! ## affiche_contenu_section -/

/-- `"0x%08x "`. -/
def texteAdresse (shAddr : UInt32) : List UInt8 :=
  cstr ['0', 'x'] ++ Hexa.digits 8 shAddr.toNat ++ cstr [' ']

def espaceGroupe (i : Nat) : List UInt8 := if (i + 1) % 4 = 0 then cstr [' '] else []

/-- `while (e % 16 != 0)`, from an `e` that is no multiple of 16. -/
def remplissage (e : Nat) : List UInt8 :=
  (List.range' e (16 - e % 16)).flatMap fun e => cstr [' ', ' '] ++ espaceGroupe e

/-- One turn of `while (j <= i)`. -/
def afficheCaractere (data : List UInt8) (size : Nat) (s : Affichage) (j : Nat) : Affichage :=
  let c := data.getD j 0
  let s := s.printf (if 32 ≤ c ∧ c ≤ 126 then [c] else cstr ['.'])
  let s :=
    if (j + 1) % 16 = 0 ∨ j + 1 = size then
      if j ≠ size - 1 then
        let shAddr := s.shAddr + 10
        { s.printf (cstr ['\n'] ++ texteAdresse shAddr) with shAddr := shAddr }
      else s.printf (cstr ['\n'])
    else s
  { s with j := j + 1 }

/-- One turn of the loop over the bytes. -/
def afficheOctet (data : List UInt8) (size : Nat) (s : Affichage) (i : Nat) : Affichage :=
  let s := s.printf (Hexa.digits 2 (data.getD i 0).toNat ++ espaceGroupe i)
  let s := if i + 1 = size ∧ (i + 1) % 16 ≠ 0 then s.printf (remplissage (i + 1)) else s
  if (i + 1) % 16 = 0 ∨ i + 1 = size then
    (List.range' s.j (i + 1 - s.j)).foldl (afficheCaractere data size) s
  else s

/-- What follows the title. The index of the loop is an `int`, which a section of 2^31 bytes
would overflow. -/
def corps (shAddr : UInt32) (data : List UInt8) : List UInt8 :=
  let debut : Affichage := ⟨shAddr, 0, texteAdresse shAddr⟩
  ((List.range data.length).foldl (afficheOctet data data.length) debut).sortie

/-- The line with the name of the section. -/
def titre (h : Heap) (shstrtabData : List UInt8) (shName : UInt32) : List UInt8 :=
  cstr ['H', 'e', 'x', ' ', 'd', 'u', 'm', 'p', ' '] ++
    cstr ['o', 'f', ' ', 's', 'e', 'c', 't', 'i', 'o', 'n', ' '] ++
    [0x27] ++ chaine h.strtab shstrtabData shName ++ [0x27] ++ cstr [':', '\n']

def afficheContenuSection (h : Heap) (f : List UInt8) (shtable : List Elf32Shdr)
    (shstrtabData : List UInt8) (sectionIndex : Nat) : Option (List UInt8) :=
  let s := shdrAt h shtable sectionIndex
  let sectionData := Patch.readAt f s.shOffset.toNat s.shSize.toNat
  if sectionData.length ≠ s.shSize.toNat then none
  else some (titre h shstrtabData s.shName ++ corps s.shAddr sectionData)

/-! ## One line -/

section

open HexDump

variable {data : List UInt8}

/-- What the loop prints for the byte at `i`, short of the end of a line. -/
def texteOctet (data : List UInt8) (i : Nat) : List UInt8 :=
  Hexa.digits 2 (data.getD i 0).toNat ++ espaceGroupe i

def texteCaractere (data : List UInt8) (j : Nat) : UInt8 := printable (data.getD j 0)

theorem length_chunk (k : Nat) : (chunk data k).length = min 16 (data.length - 16 * k) := by
  rw [chunk, List.length_take, List.length_drop]

theorem getD_chunk {k i : Nat} (hi : i < (chunk data k).length) :
    (chunk data k).getD i 0 = data.getD (16 * k + i) 0 := by
  rw [length_chunk] at hi
  rw [chunk, List.getD_eq_getElem?_getD, List.getElem?_take_of_lt (by omega), List.getElem?_drop,
    List.getD_eq_getElem?_getD]

theorem espaceGroupe_add (k i : Nat) : espaceGroupe (16 * k + i) = separator i := by
  unfold espaceGroupe separator
  rw [show (16 * k + i + 1) % 4 = (i + 1) % 4 by omega]
  rfl

/-- The columns of line `k`, as the loop prints them. -/
theorem columns_chunk (k : Nat) : columns (chunk data k) =
    (List.range' (16 * k) (chunk data k).length).flatMap (texteOctet data) ++
      if (chunk data k).length = 16 then [] else remplissage (16 * k + (chunk data k).length) := by
  have hle := length_chunk_le data k
  rw [columns_eq hle, List.range'_eq_map_range (s := 16 * k), List.flatMap_map]
  congr 1
  · refine List.flatMap_congr fun i hi => ?_
    rw [getD_chunk (List.mem_range.mp hi), texteOctet, espaceGroupe_add]
  · split
    · next hfull => rw [hfull]; rfl
    · next hpart =>
      have hmod : 16 - (16 * k + (chunk data k).length) % 16 = 16 - (chunk data k).length := by omega
      rw [remplissage, hmod, ← List.map_add_range' (a := 16 * k), List.flatMap_map]
      refine List.flatMap_congr fun i _ => ?_
      rw [espaceGroupe_add]
      rfl

theorem map_printable_chunk (k : Nat) : (chunk data k).map printable =
    (List.range' (16 * k) (chunk data k).length).map (texteCaractere data) := by
  have hbytes := Loop.map_getD_range (chunk data k) fun _ => 0
  conv_lhs => rw [← hbytes]
  rw [List.range'_eq_map_range (s := 16 * k), List.map_map, List.map_map]
  refine List.map_congr_left fun i hi => ?_
  exact congrArg printable (getD_chunk (List.mem_range.mp hi))

/-- The line is complete at byte `i`: what the loop prints of it. -/
theorem line_chunk (a : UInt32) {i : Nat} (hi : i < data.length)
    (hend : (i + 1) % 16 = 0 ∨ i + 1 = data.length) : line a (chunk data (i / 16)) =
      address a ++ ((List.range' (16 * (i / 16)) (i % 16 + 1)).flatMap (texteOctet data) ++
        if (i + 1) % 16 = 0 then [] else remplissage (i + 1)) ++
      (List.range' (16 * (i / 16)) (i % 16 + 1)).map (texteCaractere data) := by
  have hlen : (chunk data (i / 16)).length = i % 16 + 1 := by
    rw [length_chunk]
    omega
  rw [line, columns_chunk, map_printable_chunk, hlen, show 16 * (i / 16) + (i % 16 + 1) = i + 1 by omega]
  simp only [show i % 16 + 1 = 16 ↔ (i + 1) % 16 = 0 by omega]

/-! ## The loop on the characters -/

theorem printf_caractere (s : Affichage) (j : Nat) :
    s.printf (if 32 ≤ data.getD j 0 ∧ data.getD j 0 ≤ 126 then [data.getD j 0] else cstr ['.']) =
      { s with sortie := s.sortie ++ [texteCaractere data j] } := by
  unfold texteCaractere printable
  split <;> rfl

theorem afficheCaractere_dedans {size j : Nat} (s : Affichage) (hline : (j + 1) % 16 ≠ 0)
    (hsize : j + 1 ≠ size) : afficheCaractere data size s j =
      { s with j := j + 1, sortie := s.sortie ++ [texteCaractere data j] } := by
  simp only [afficheCaractere, printf_caractere, if_neg (not_or.mpr ⟨hline, hsize⟩)]

theorem afficheCaractere_fin {size j : Nat} (s : Affichage) (hj : j < size)
    (hend : (j + 1) % 16 = 0 ∨ j + 1 = size) : afficheCaractere data size s j =
      if j + 1 = size then
        { s with j := j + 1, sortie := s.sortie ++ [texteCaractere data j] ++ [HexDump.newline] }
      else
        { shAddr := s.shAddr + 10
          j := j + 1
          sortie := s.sortie ++ [texteCaractere data j] ++ [HexDump.newline] ++
            address (s.shAddr + 10) } := by
  simp only [afficheCaractere, printf_caractere, if_pos hend]
  by_cases hlast : j + 1 = size
  · rw [if_pos hlast, if_neg (by omega)]
    rfl
  · rw [if_neg hlast, if_pos (by omega), Affichage.printf, ← List.append_assoc]
    rfl

/-- Before the end of the line the characters are printed one after the other. -/
theorem foldl_afficheCaractere {size : Nat} (m : Nat) (s : Affichage)
    (hin : ∀ j, s.j ≤ j → j < s.j + m → (j + 1) % 16 ≠ 0 ∧ j + 1 ≠ size) :
    (List.range' s.j m).foldl (afficheCaractere data size) s =
      { s with
        j := s.j + m
        sortie := s.sortie ++ (List.range' s.j m).map (texteCaractere data) } := by
  induction m with
  | zero => simp only [List.range'_zero, List.foldl_nil, List.map_nil, List.append_nil, Nat.add_zero]
  | succ m ih =>
    have hlast := hin (s.j + m) (Nat.le_add_right _ _) (by omega)
    rw [List.range'_1_concat, List.foldl_append, ih fun j hlo hhi => hin j hlo (by omega),
      List.foldl_cons, List.foldl_nil, afficheCaractere_dedans _ hlast.1 hlast.2, List.map_append,
      List.map_singleton, List.append_assoc]
    rfl

/-- The characters of a line that is complete at byte `i`, and what follows them. -/
theorem foldl_finLigne {size i : Nat} (s : Affichage) (hj : s.j = 16 * (i / 16)) (hi : i < size)
    (hend : (i + 1) % 16 = 0 ∨ i + 1 = size) :
    (List.range' s.j (i + 1 - s.j)).foldl (afficheCaractere data size) s =
      if i + 1 = size then
        { s with
          j := i + 1
          sortie := s.sortie ++ (List.range' s.j (i % 16 + 1)).map (texteCaractere data) ++
            [HexDump.newline] }
      else
        { shAddr := s.shAddr + 10
          j := i + 1
          sortie := s.sortie ++ (List.range' s.j (i % 16 + 1)).map (texteCaractere data) ++
            [HexDump.newline] ++ address (s.shAddr + 10) } := by
  have hi' : s.j + i % 16 = i := by omega
  have hin : ∀ j, s.j ≤ j → j < s.j + i % 16 → (j + 1) % 16 ≠ 0 ∧ j + 1 ≠ size := by
    intro j hlo hhi
    omega
  rw [show i + 1 - s.j = i % 16 + 1 by omega, List.range'_1_concat, List.foldl_append,
    foldl_afficheCaractere _ s hin, List.foldl_cons, List.foldl_nil, hi',
    afficheCaractere_fin _ hi hend, List.map_append, List.map_singleton, ← List.append_assoc]

/-! ## The loop on the bytes -/

/-- The lines before line `k`, with the addresses the code gives them. -/
def lignes (a : UInt32) (data : List UInt8) (k : Nat) : List (List UInt8) :=
  (List.range k).map fun l => line (a + UInt32.ofNat (10 * l)) (chunk data l)

theorem unlines_lignes_succ (a : UInt32) (k : Nat) : unlines (lignes a data (k + 1)) =
    unlines (lignes a data k) ++ line (a + UInt32.ofNat (10 * k)) (chunk data k) ++
      [HexDump.newline] := by
  rw [lignes, List.range_succ, List.map_append, unlines, List.flatMap_append, List.map_singleton,
    List.flatMap_singleton, ← List.append_assoc]
  rfl

/-- Before byte `i`: the lines before its line, and of that line the address and the columns of
the bytes before it. -/
structure AvantOctet (a : UInt32) (data : List UInt8) (i : Nat) (s : Affichage) : Prop where
  shAddr : s.shAddr = a + UInt32.ofNat (10 * (i / 16))
  j : s.j = 16 * (i / 16)
  sortie : s.sortie = unlines (lignes a data (i / 16)) ++ address (a + UInt32.ofNat (10 * (i / 16))) ++
    (List.range' (16 * (i / 16)) (i % 16)).flatMap (texteOctet data)

theorem afficheOctet_dedans {size i : Nat} (s : Affichage) (hline : (i + 1) % 16 ≠ 0)
    (hsize : i + 1 ≠ size) : afficheOctet data size s i = s.printf (texteOctet data i) := by
  simp only [afficheOctet, hline, hsize, false_and, or_self, if_false]
  rfl

theorem afficheOctet_fin {size i : Nat} (s : Affichage) (hend : (i + 1) % 16 = 0 ∨ i + 1 = size) :
    afficheOctet data size s i = (List.range' s.j (i + 1 - s.j)).foldl (afficheCaractere data size)
      (s.printf (texteOctet data i ++ if (i + 1) % 16 = 0 then [] else remplissage (i + 1))) := by
  have hpad : (if i + 1 = size ∧ (i + 1) % 16 ≠ 0 then
      (s.printf (texteOctet data i)).printf (remplissage (i + 1)) else s.printf (texteOctet data i)) =
      s.printf (texteOctet data i ++ if (i + 1) % 16 = 0 then [] else remplissage (i + 1)) := by
    by_cases hline : (i + 1) % 16 = 0
    · rw [if_neg fun hc => hc.2 hline, if_pos hline, List.append_nil]
    · rw [if_pos ⟨hend.resolve_left hline, hline⟩, if_neg hline, Affichage.printf, Affichage.printf,
        Affichage.printf, List.append_assoc]
  unfold texteOctet at hpad ⊢
  simp only [afficheOctet, if_pos hend, hpad, Affichage.printf_j]

namespace AvantOctet

variable {a : UInt32} {i : Nat} {s : Affichage}

theorem debut (a : UInt32) (data : List UInt8) : AvantOctet a data 0 ⟨a, 0, texteAdresse a⟩ := by
  refine ⟨(UInt32.add_zero a).symm, rfl, ?_⟩
  rw [show a + UInt32.ofNat (10 * (0 / 16)) = a from UInt32.add_zero a]
  exact (List.append_nil _).symm

/-- The byte that ends a line completes it. -/
theorem ligne (h : AvantOctet a data i s) (hi : i < data.length)
    (hend : (i + 1) % 16 = 0 ∨ i + 1 = data.length) : afficheOctet data data.length s i =
      if i + 1 = data.length then
        { s with j := i + 1, sortie := unlines (lignes a data (i / 16 + 1)) }
      else
        { shAddr := s.shAddr + 10
          j := i + 1
          sortie := unlines (lignes a data (i / 16 + 1)) ++ address (s.shAddr + 10) } := by
  have htext : (s.printf (texteOctet data i ++
      if (i + 1) % 16 = 0 then [] else remplissage (i + 1))).sortie ++
      (List.range' s.j (i % 16 + 1)).map (texteCaractere data) ++ [HexDump.newline] =
        unlines (lignes a data (i / 16 + 1)) := by
    rw [Affichage.printf_sortie, unlines_lignes_succ, line_chunk _ hi hend, h.sortie, h.j,
      List.range'_1_concat (n := i % 16), List.flatMap_append, List.flatMap_singleton,
      show 16 * (i / 16) + i % 16 = i by omega]
    simp only [List.append_assoc]
  have hfold := @foldl_finLigne data _ i
    (s.printf (texteOctet data i ++ if (i + 1) % 16 = 0 then [] else remplissage (i + 1))) h.j hi hend
  simp only [Affichage.printf_j, Affichage.printf_shAddr, htext] at hfold
  rw [afficheOctet_fin s hend, hfold]

/-- One byte that is not the last. -/
theorem suivant (h : AvantOctet a data i s) (hi : i + 1 < data.length) :
    AvantOctet a data (i + 1) (afficheOctet data data.length s i) := by
  by_cases hend : (i + 1) % 16 = 0
  · have hquot : (i + 1) / 16 = i / 16 + 1 := by omega
    have hnext : s.shAddr + 10 = a + UInt32.ofNat (10 * (i / 16 + 1)) := by
      rw [h.shAddr, Nat.mul_succ, UInt32.ofNat_add, UInt32.add_assoc]
      rfl
    rw [h.ligne (by omega) (Or.inl hend), if_neg (Nat.ne_of_lt hi)]
    refine ⟨by rw [hquot, hnext], (by omega : i + 1 = 16 * ((i + 1) / 16)), ?_⟩
    rw [hquot, hend, hnext, List.range'_zero, List.flatMap_nil, List.append_nil]
  · have hquot : (i + 1) / 16 = i / 16 := by omega
    rw [afficheOctet_dedans s hend (Nat.ne_of_lt hi)]
    refine ⟨by rw [hquot]; exact h.shAddr, by rw [hquot]; exact h.j, ?_⟩
    rw [Affichage.printf_sortie, h.sortie, hquot, show (i + 1) % 16 = i % 16 + 1 by omega,
      List.range'_1_concat (n := i % 16), List.flatMap_append, List.flatMap_singleton,
      show 16 * (i / 16) + i % 16 = i by omega, List.append_assoc, List.append_assoc]

end AvantOctet

/-- What is printed after the title is a dump, with addresses that go up by 10. -/
theorem corps_eq (a : UInt32) (hdata : data ≠ []) : corps a data = unlines (dump 10 a data) := by
  obtain ⟨n, hn⟩ : ∃ n, data.length = n + 1 :=
    ⟨data.length - 1, by have := List.length_pos_iff.mpr hdata; omega⟩
  have hrun := Loop.range'_rule (afficheOctet data data.length) (AvantOctet a data) 0 n _
    (AvantOctet.debut a data) fun i s _ hi h => h.suivant (by omega)
  rw [Nat.zero_add] at hrun
  have hlines : (data.length + 15) / 16 = n / 16 + 1 := by omega
  rw [corps, List.range_eq_range', hn, List.range'_1_concat, List.foldl_append, List.foldl_cons,
    List.foldl_nil, ← hn, Nat.zero_add, hrun.ligne (by omega) (Or.inr hn.symm), if_pos hn.symm, dump,
    hlines]
  rfl

/-! ## The dump -/

/-- `texte` is the dump of the bytes `b` of a section at `a`: line `k` holds the bytes from
`16 * k` on, and its address is theirs. -/
structure DumpFidele (a : UInt32) (b texte : List UInt8) (lignes : List (List UInt8)) : Prop where
  coupe : texte = unlines lignes
  finies : ∀ l ∈ lignes, HexDump.newline ∉ l
  nombre : lignes.length = (b.length + 15) / 16
  ligne : ∀ k l, lignes[k]? = some l →
    l = line (UInt32.ofNat (a.toNat + 16 * k)) (chunk b k) ∧ l.drop 47 = (chunk b k).map printable
  octets : lignes.flatMap readColumns = b

theorem dumpFidele_dump (a : UInt32) (b : List UInt8) :
    DumpFidele a b (unlines (dump 16 a b)) (dump 16 a b) := by
  refine ⟨rfl, newline_notMem_dump, ?_, fun k l hl => ?_, readColumns_dump 16 a b⟩
  · rw [dump, List.length_map, List.length_range]
  · rw [dump, List.getElem?_map, Option.map_eq_some_iff] at hl
    obtain ⟨j, hj, rfl⟩ := hl
    obtain ⟨_, rfl⟩ := List.getElem?_eq_some_iff.mp hj
    rw [List.getElem_range, drop_line, UInt32.ofNat_add, UInt32.ofNat_toNat]
    exact ⟨rfl, rfl⟩

theorem corps_fidele_iff (a : UInt32) {b : List UInt8} (hb : b ≠ []) :
    (∃ lignes, DumpFidele a b (corps a b) lignes) ↔ b.length ≤ 16 := by
  have hpos := List.length_pos_iff.mpr hb
  rw [corps_eq a hb]
  constructor
  · rintro ⟨lignes, hdump⟩
    by_contra hlong
    have hlines : dump 10 a b = lignes := unlines_inj newline_notMem_dump hdump.finies hdump.coupe
    have hsecond := (hdump.ligne 1 _ (hlines ▸ getElem?_dump (by omega))).1
    have haddr := address_of_line_eq hsecond
    rw [UInt32.ofNat_add, UInt32.ofNat_toNat] at haddr
    exact absurd ((UInt32.add_right_inj a).mp haddr) (by decide)
  · intro hone
    rw [dump_congr 10 16 a hone]
    exact ⟨_, dumpFidele_dump a b⟩

theorem afficheContenuSection_eq {h : Heap} {f : List UInt8} {shtable : List Elf32Shdr}
    {sectionIndex : Nat} {s : Elf32Shdr} (shstrtabData : List UInt8)
    (hs : shtable[sectionIndex]? = some s) (hfit : s.shOffset.toNat + s.shSize.toNat ≤ f.length) :
    afficheContenuSection h f shtable shstrtabData sectionIndex = some (titre h shstrtabData s.shName ++
      corps s.shAddr (Patch.readAt f s.shOffset.toNat s.shSize.toNat)) := by
  have hlen : (Patch.readAt f s.shOffset.toNat s.shSize.toNat).length = s.shSize.toNat := by
    rw [Patch.length_readAt]
    omega
  simp only [afficheContenuSection, shdrAt_eq hs, hlen, ne_eq, not_true_eq_false, if_false]

/-- The addresses go up by 10 from one line to the next, so the dump is right as long as it has
one line. -/
theorem afficheContenuSection_fidele_iff {h : Heap} {f : List UInt8} {shtable : List Elf32Shdr}
    {sectionIndex : Nat} {s : Elf32Shdr} (shstrtabData : List UInt8)
    (hs : shtable[sectionIndex]? = some s) (hfit : s.shOffset.toNat + s.shSize.toNat ≤ f.length)
    (hn : 1 ≤ s.shSize.toNat) : ∃ texte,
    afficheContenuSection h f shtable shstrtabData sectionIndex =
      some (titre h shstrtabData s.shName ++ texte) ∧
    ((∃ lignes, DumpFidele s.shAddr (Patch.readAt f s.shOffset.toNat s.shSize.toNat) texte lignes) ↔
      s.shSize.toNat ≤ 16) := by
  refine ⟨_, afficheContenuSection_eq shstrtabData hs hfit, ?_⟩
  have hlen : (Patch.readAt f s.shOffset.toNat s.shSize.toNat).length = s.shSize.toNat := by
    rw [Patch.length_readAt]
    omega
  rw [corps_fidele_iff s.shAddr (List.length_pos_iff.mp (by omega)), hlen]

/-- A section of `n` bytes at the start of the file. -/
def exempleSection (n : Nat) : Elf32Shdr := { sectionNulle with shSize := UInt32.ofNat n }

theorem afficheContenuSection_fidele_iff_exemple : ∃ texte,
    afficheContenuSection tasNul [104, 105] [exempleSection 2] [0] 0 = some (titre tasNul [0] 0 ++ texte) ∧
    ∃ lignes, DumpFidele 0 [104, 105] texte lignes := by
  obtain ⟨texte, heq, hiff⟩ := afficheContenuSection_fidele_iff (h := tasNul) (f := [104, 105])
    [0] (show [exempleSection 2][0]? = some (exempleSection 2) from rfl) (by decide) (by decide)
  exact ⟨texte, heq, hiff.mpr (by decide)⟩

/-- Seventeen bytes: the second line is given the address 10. -/
theorem afficheContenuSection_dixSept : ∃ texte,
    afficheContenuSection tasNul (List.replicate 17 0) [exempleSection 17] [0] 0 =
      some (titre tasNul [0] 0 ++ texte) ∧
    ¬∃ lignes, DumpFidele 0 (List.replicate 17 0) texte lignes := by
  have hread : Patch.readAt (List.replicate 17 0) (exempleSection 17).shOffset.toNat
      (exempleSection 17).shSize.toNat = List.replicate 17 0 := by decide
  have heq := afficheContenuSection_eq (h := tasNul) (f := List.replicate 17 0) [0]
    (show [exempleSection 17][0]? = some (exempleSection 17) from rfl) (by decide)
  rw [hread] at heq
  refine ⟨_, heq, fun hfidele => ?_⟩
  have hle := (corps_fidele_iff 0 (by decide)).mp hfidele
  exact absurd hle (by decide)

end

end ElfLinker
