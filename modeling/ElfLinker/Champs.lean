import ElfLinker.Cibles

/-!
Relocations of a part of a word. `appliquer_relocations` adds the same way for every
type and then writes four bytes: a branch is right when the sum stays in the low 24
bits, and a field of one or two bytes when it is zero.
-/

namespace ElfLinker
open Endian

/-! ## Branches -/

/-- The low 24 bits of an instruction, sign-extended and multiplied by 4. -/
def imm24 (w : UInt32) : Int :=
  let low : Nat := w.toNat % 2 ^ 24
  4 * (if low < 2 ^ 23 then (low : Int) else low - 2 ^ 24)

/-- The instruction `v` is `w` with its displacement from `p` to the symbol at `s`. -/
structure BrancheJuste (w v s : UInt32) (p : Int) : Prop where
  opcode : v >>> 24 = w >>> 24
  displacement : imm24 v % 2 ^ 26 = (s.toNat + imm24 w - p) % 2 ^ 26

/-- The place of an entry in memory: the address given to the section that its table
applies to, plus `r_offset`. -/
def lieuMemoire (h : Heap) (e : Elf32) (addrText addrData : UInt32) (x : Relocation) : Int :=
  (sectionVisee h (adresser h e addrText addrData) x).shAddr.toNat + x.rel.rOffset.toNat

theorem toNat_shiftRight_24 (w : UInt32) : (w >>> 24).toNat = w.toNat / 2 ^ 24 := by
  rw [UInt32.toNat_shiftRight, Nat.shiftRight_eq_div_pow]
  rfl

/-- Modulo 2^26 the sign does not matter. -/
theorem imm24_emod (w : UInt32) : imm24 w % 2 ^ 26 = (4 * (w.toNat : Int)) % 2 ^ 26 := by
  unfold imm24
  dsimp only
  split <;> omega

/-- The opcode stays when the sum does not leave the low 24 bits. -/
theorem opcode_add_iff (w d : UInt32) :
    (w + d) >>> 24 = w >>> 24 ↔ (w.toNat % 2 ^ 24 + d.toNat) % 2 ^ 32 < 2 ^ 24 := by
  have hw := w.toNat_lt
  have hd := d.toNat_lt
  rw [← UInt32.toNat_inj, toNat_shiftRight_24, toNat_shiftRight_24, UInt32.toNat_add]
  omega

/-- The displacement that the sum holds: off by the section and by the factor 4. -/
theorem displacement_add_iff (w s offset addr : UInt32) :
    imm24 (w + (s - offset)) % 2 ^ 26 =
        (s.toNat + imm24 w - (addr.toNat + offset.toNat)) % 2 ^ 26 ↔
      (3 * ((s.toNat : Int) - offset.toNat) + addr.toNat) % 2 ^ 26 = 0 := by
  have hsum := imm24_emod (w + (s - offset))
  have himm := imm24_emod w
  have hs := s.toNat_lt
  have ho := offset.toNat_lt
  rw [UInt32.toNat_add, UInt32.toNat_sub] at hsum
  omega

theorem brancheJuste_add_iff (w s offset addr : UInt32) :
    BrancheJuste w (w + (s - offset)) s (addr.toNat + offset.toNat) ↔
      (w.toNat % 2 ^ 24 + (s - offset).toNat) % 2 ^ 32 < 2 ^ 24 ∧
        (3 * ((s.toNat : Int) - offset.toNat) + addr.toNat) % 2 ^ 26 = 0 := by
  rw [← opcode_add_iff, ← displacement_add_iff w s offset addr]
  exact ⟨fun hb => ⟨hb.opcode, hb.displacement⟩, fun hb => ⟨hb.1, hb.2⟩⟩

section

variable (h : Heap) (host : Bool) (e : Elf32) (source dest : List UInt8) (addrText addrData : UInt32)

/-- The word that an entry finds in the source. -/
def motSource (x : Relocation) : UInt32 := (word true).decode (Patch.readAt source (place h e x.rel) 4)

variable {h e source dest addrText addrData} in
/-- The run writes for an entry the word of its turn and no other. -/
theorem patch_mem_appliquerRelocations {x : Relocation} (hx : x ∈ atteintes h e source) {p : Patch}
    (hp : correction h e source addrText addrData x = some p) (off : Nat) (bytes : List UInt8) :
    Access.patch x.i x.j off bytes ∈
        (appliquerRelocations h host source addrText addrData ⟨e, dest, []⟩).world.log ↔
      off = p.off ∧ bytes = p.bytes := by
  rw [appliquerRelocations_world, patch_mem_bilan]
  constructor
  · intro hmem
    obtain ⟨y, hy, hi, hj, hq⟩ := hmem.resolve_left List.not_mem_nil
    obtain rfl := relocations_ext (Loop.mem_of_mem_reached hy) (Loop.mem_of_mem_reached hx) hi hj
    rw [hp, Option.some.injEq] at hq
    rw [hq]
    exact ⟨rfl, rfl⟩
  · rintro ⟨rfl, rfl⟩
    exact Or.inr ⟨x, hx, rfl, rfl, hp⟩

/-- A branch relocation is right exactly when adding `S - r_offset` does not carry out of
the low 24 bits and that difference, counted three times, makes up for the address of
the section. -/
theorem appliquerRelocations_branche_iff {x : Relocation} (hx : x ∈ atteintes h e source)
    (hin : place h e x.rel + 4 ≤ source.length)
    (htype : elf32RType x.rel.rInfo = rArmCall ∨ elf32RType x.rel.rInfo = rArmJump24) :
    let s := adresseAbsolueSymbole h e addrText addrData (symboleDe h e x.rel)
    let w := motSource h e source x
    let addr := (sectionVisee h (adresser h e addrText addrData) x).shAddr
    ∃ v, (∀ off bytes, Access.patch x.i x.j off bytes ∈
          (appliquerRelocations h host source addrText addrData ⟨e, dest, []⟩).world.log ↔
        off = place h e x.rel ∧ bytes = (word true).encode v) ∧
      (BrancheJuste w v s (lieuMemoire h e addrText addrData x) ↔
        (w.toNat % 2 ^ 24 + (s - x.rel.rOffset).toNat) % 2 ^ 32 < 2 ^ 24 ∧
          (3 * ((s.toNat : Int) - x.rel.rOffset.toNat) + addr.toNat) % 2 ^ 26 = 0) := by
  intro s w addr
  have hp : correction h e source addrText addrData x =
      some ⟨place h e x.rel, (word true).encode (w + (s - x.rel.rOffset))⟩ := by
    rw [correction, lisible, if_pos (decide_eq_true hin), valeurCorrigee]
    rcases htype with ht | ht <;> rw [ht] <;> rfl
  exact ⟨w + (s - x.rel.rOffset), patch_mem_appliquerRelocations host hx hp,
    brancheJuste_add_iff w s x.rel.rOffset addr⟩

end

theorem appliquerRelocations_branche_iff_exemple :
    let x : Relocation := ⟨0, 0, ⟨4, 0x11c⟩⟩
    let s := adresseAbsolueSymbole tasNul (exemple 0x11c) 0x20 0x2800
      (symboleDe tasNul (exemple 0x11c) x.rel)
    let w := motSource tasNul (exemple 0x11c) (exempleImage 0x11c) x
    let addr := (sectionVisee tasNul (adresser tasNul (exemple 0x11c) 0x20 0x2800) x).shAddr
    ∃ v, (∀ off bytes, Access.patch x.i x.j off bytes ∈ (appliquerRelocations tasNul false
          (exempleImage 0x11c) 0x20 0x2800 ⟨exemple 0x11c, exempleImage 0x11c, []⟩).world.log ↔
        off = place tasNul (exemple 0x11c) x.rel ∧ bytes = (word true).encode v) ∧
      (BrancheJuste w v s (lieuMemoire tasNul (exemple 0x11c) 0x20 0x2800 x) ↔
        (w.toNat % 2 ^ 24 + (s - x.rel.rOffset).toNat) % 2 ^ 32 < 2 ^ 24 ∧
          (3 * ((s.toNat : Int) - x.rel.rOffset.toNat) + addr.toNat) % 2 ^ 26 = 0) :=
  appliquerRelocations_branche_iff tasNul false (exemple 0x11c) (exempleImage 0x11c)
    (exempleImage 0x11c) 0x20 0x2800 (by decide +kernel) (by decide +kernel) (Or.inl (by decide))

/-- A call to the symbol at 0x24 from the place 0x24: the displacement 0 is meant, and
0x20 is written. -/
theorem branche_exemple :
    mainLecture tasNul false (exempleImage 0x11c) = some (exemple 0x11c) ∧
    ⟨0, 0, ⟨4, 0x11c⟩⟩ ∈ relocations tasNul (exemple 0x11c) ∧ elf32RType 0x11c = rArmCall ∧
    motSource tasNul (exemple 0x11c) (exempleImage 0x11c) ⟨0, 0, ⟨4, 0x11c⟩⟩ = 0 ∧
    adresseAbsolueSymbole tasNul (exemple 0x11c) 0x20 0x2800
      (symboleDe tasNul (exemple 0x11c) ⟨4, 0x11c⟩) = 0x24 ∧
    lieuMemoire tasNul (exemple 0x11c) 0x20 0x2800 ⟨0, 0, ⟨4, 0x11c⟩⟩ = 0x24 ∧
    Access.patch 0 0 56 ((word true).encode 0x20) ∈ (appliquerRelocations tasNul false
      (exempleImage 0x11c) 0x20 0x2800 ⟨exemple 0x11c, exempleImage 0x11c, []⟩).world.log ∧
    ¬BrancheJuste 0 0x20 0x24 0x24 := by
  refine ⟨by decide +kernel, by decide +kernel, by decide, by decide +kernel, by decide +kernel,
    by decide +kernel, by decide +kernel, fun hc => ?_⟩
  exact absurd hc.displacement (by decide)

/-! ## Fields of one, two and four bytes -/

/-- The width of an absolute relocation. -/
def largeur (relType : UInt32) : Nat :=
  if relType = rArmAbs32 then 4 else if relType = rArmAbs16 then 2 else if relType = rArmAbs8 then 1 else 0

/-- The types with a field narrower than a word. -/
def etroite (relType : UInt32) : Prop := relType = rArmAbs16 ∨ relType = rArmAbs8

def absolue (relType : UInt32) : Prop := relType = rArmAbs32 ∨ etroite relType

section

variable (h : Heap) (host : Bool) (e : Elf32) (source : List UInt8) (addrText addrData : UInt32)
  (x : Relocation)

/-- The bytes of the field of an entry. -/
def champ : Set Nat := Patch.window (place h e x.rel) (largeur (elf32RType x.rel.rInfo))

/-- The field holds the sum of the symbol and of the same field in the source. -/
def ChampJuste (dest : List UInt8) : Prop :=
  let n := largeur (elf32RType x.rel.rInfo)
  let s := adresseAbsolueSymbole h e addrText addrData (symboleDe h e x.rel)
  (Patch.readAt dest (place h e x.rel) n).length = n ∧
    beNat (Patch.readAt dest (place h e x.rel) n) =
      (s.toNat + beNat (Patch.readAt source (place h e x.rel) n)) % 256 ^ n

instance (dest : List UInt8) :
    Decidable (ChampJuste h e source addrText addrData x dest) :=
  inferInstanceAs (Decidable (_ ∧ _))

/-- The turn of an entry returns, leaves its field right and every other byte as it was. -/
def TourJuste (w : World) : Prop :=
  ∃ w', appliquerRelocation h host source addrText addrData w x = .ok w' ∧
    ChampJuste h w.elf source addrText addrData x w'.dest ∧
    ∀ k, k ∉ champ h w.elf x → w'.dest[k]? = w.dest[k]?

/-- The word that an absolute relocation writes. -/
def motEcrit : UInt32 :=
  let s := adresseAbsolueSymbole h e addrText addrData (symboleDe h e x.rel)
  UInt32.ofNat ((s.toNat + (motSource h e source x).toNat) % 256 ^ largeur (elf32RType x.rel.rInfo))

/-- What the turn of an entry needs: a whole word in the source and, when its field is
narrower, a sum of zero in it and behind it the bytes that will be written there. -/
structure Conforme (dest : List UInt8) : Prop where
  word : lisible h e source x = true
  field : etroite (elf32RType x.rel.rInfo) →
    ((adresseAbsolueSymbole h e addrText addrData (symboleDe h e x.rel)).toNat +
      beNat (Patch.readAt source (place h e x.rel) (largeur (elf32RType x.rel.rInfo)))) %
        256 ^ largeur (elf32RType x.rel.rInfo) = 0
  after : etroite (elf32RType x.rel.rInfo) →
    Patch.readAt dest (place h e x.rel + largeur (elf32RType x.rel.rInfo))
        (4 - largeur (elf32RType x.rel.rInfo)) =
      (wordBytes true (motEcrit h e source addrText addrData x)).drop (largeur (elf32RType x.rel.rInfo))

variable {h e source addrText addrData x}

theorem largeur_etroite {t : UInt32} (ht : etroite t) : largeur t = 2 ∨ largeur t = 1 := by
  rcases ht with rfl | rfl
  · exact Or.inl rfl
  · exact Or.inr rfl

theorem largeur_lt {t : UInt32} (ht : etroite t) : largeur t < 4 := by
  rcases largeur_etroite ht with hn | hn <;> omega

/-- The three cases of the switch are one sum, cut to the width of the field. -/
theorem valeurCorrigee_absolue {t : UInt32} (ht : absolue t) (w s offset : UInt32) :
    valeurCorrigee t w s offset = some (UInt32.ofNat ((s.toNat + w.toNat) % 256 ^ largeur t)) := by
  have hmask : ∀ m ≤ 32, ∀ v : UInt32, (v &&& UInt32.ofNat (2 ^ m - 1)).toNat = v.toNat % 2 ^ m := by
    intro m hm v
    have hpow : 2 ^ m ≤ 2 ^ 32 := Nat.pow_le_pow_right (by decide) hm
    have hpos : 0 < 2 ^ m := Nat.two_pow_pos m
    rw [UInt32.toNat_and, UInt32.toNat_ofNat', Nat.mod_eq_of_lt (by omega),
      Nat.and_two_pow_sub_one_eq_mod]
  have hadd : (s + w).toNat = (s.toNat + w.toNat) % 2 ^ 32 := UInt32.toNat_add s w
  rcases ht with rfl | rfl | rfl
  · change some (w + s) = _
    rw [UInt32.add_comm, Option.some.injEq, ← UInt32.toNat_inj, hadd, UInt32.toNat_ofNat']
    exact (Nat.mod_mod _ _).symm
  · have h16 := hmask 16 (by decide) (s + w)
    change some ((s + w) &&& UInt32.ofNat (2 ^ 16 - 1)) = some (UInt32.ofNat (_ % 256 ^ 2))
    rw [Option.some.injEq, ← UInt32.toNat_inj, h16, hadd, UInt32.toNat_ofNat']
    omega
  · have h8 := hmask 8 (by decide) (s + w)
    change some ((s + w) &&& UInt32.ofNat (2 ^ 8 - 1)) = some (UInt32.ofNat (_ % 256 ^ 1))
    rw [Option.some.injEq, ← UInt32.toNat_inj, h8, hadd, UInt32.toNat_ofNat']
    omega

/-- The patch of an absolute relocation. -/
theorem correction_absolue (ht : absolue (elf32RType x.rel.rInfo)) (hl : lisible h e source x = true) :
    correction h e source addrText addrData x =
      some ⟨place h e x.rel, wordBytes true (motEcrit h e source addrText addrData x)⟩ := by
  rw [correction, if_pos hl, valeurCorrigee_absolue ht, Option.map_some]
  rfl

theorem toNat_etroite {t : UInt32} (ht : etroite t) (m : Nat) :
    (UInt32.ofNat (m % 256 ^ largeur t)).toNat = m % 256 ^ largeur t := by
  rw [UInt32.toNat_ofNat']
  rcases largeur_etroite ht with hn | hn <;> rw [hn] <;> omega

/-- A word that fits a narrow field is zero in it: the field is the first bytes. -/
theorem beNat_take_etroite {t : UInt32} (ht : etroite t) (m : Nat) :
    beNat ((wordBytes true (UInt32.ofNat (m % 256 ^ largeur t))).take (largeur t)) = 0 := by
  rw [beNat_take, beNat_wordBytes, toNat_etroite ht]
  change _ / 256 ^ (4 - _) = 0
  rcases largeur_etroite ht with hn | hn <;> rw [hn] <;> omega

theorem toNat_motEcrit (ht : etroite (elf32RType x.rel.rInfo)) :
    (motEcrit h e source addrText addrData x).toNat =
      ((adresseAbsolueSymbole h e addrText addrData (symboleDe h e x.rel)).toNat +
        (motSource h e source x).toNat) % 256 ^ largeur (elf32RType x.rel.rInfo) :=
  toNat_etroite ht _

theorem ChampJuste.congr {dest dest' : List UInt8} (hc : ChampJuste h e source addrText addrData x dest)
    (hsame : Patch.readAt dest' (place h e x.rel) (largeur (elf32RType x.rel.rInfo)) =
      Patch.readAt dest (place h e x.rel) (largeur (elf32RType x.rel.rInfo))) :
    ChampJuste h e source addrText addrData x dest' := by
  simp only [ChampJuste, hsame]
  exact hc

/-- What is read of the field once the word is written. -/
theorem readAt_champ (hle : largeur (elf32RType x.rel.rInfo) ≤ 4) (v : UInt32) (dest : List UInt8) :
    Patch.readAt (Patch.writeAt dest (place h e x.rel) (wordBytes true v)) (place h e x.rel)
      (largeur (elf32RType x.rel.rInfo)) = (wordBytes true v).take (largeur (elf32RType x.rel.rInfo)) := by
  have hself : Patch.readAt (Patch.writeAt dest (place h e x.rel) (wordBytes true v)) (place h e x.rel) 4 =
      wordBytes true v := Patch.readAt_writeAt_self dest (place h e x.rel) rfl
  rw [← Patch.readAt_take _ _ 4 _ hle, hself]

/-- A narrow field is right after the write when the sum meant for it is zero. -/
theorem champJuste_etroite_iff (ht : etroite (elf32RType x.rel.rInfo)) (dest : List UInt8) :
    ChampJuste h e source addrText addrData x (Patch.writeAt dest (place h e x.rel)
        (wordBytes true (motEcrit h e source addrText addrData x))) ↔
      ((adresseAbsolueSymbole h e addrText addrData (symboleDe h e x.rel)).toNat +
        beNat (Patch.readAt source (place h e x.rel) (largeur (elf32RType x.rel.rInfo)))) %
          256 ^ largeur (elf32RType x.rel.rInfo) = 0 := by
  have hle := Nat.le_of_lt (largeur_lt ht)
  have hlen : (wordBytes true (motEcrit h e source addrText addrData x)).length = 4 := rfl
  have hzero : beNat ((wordBytes true (motEcrit h e source addrText addrData x)).take
      (largeur (elf32RType x.rel.rInfo))) = 0 := beNat_take_etroite ht _
  simp only [ChampJuste, readAt_champ hle, hzero, List.length_take, hlen,
    Nat.min_eq_left hle, true_and, eq_comm]

/-- The bytes of a word in the source. -/
theorem readAt_motSource (hl : lisible h e source x = true) :
    Patch.readAt source (place h e x.rel) 4 = wordBytes true (motSource h e source x) := by
  have hlen : (Patch.readAt source (place h e x.rel) 4).length = 4 := by
    rw [lisible, decide_eq_true_eq] at hl
    rw [Patch.length_readAt]
    omega
  have hbytes := (word true).encode_decode _ (Nat.le_of_eq hlen.symm)
  rw [show (word true).size = 4 from rfl, List.take_of_length_le (Nat.le_of_eq hlen)] at hbytes
  exact hbytes.symm

/-- A field of four bytes is right after the write. -/
theorem champJuste_abs32 (ht : elf32RType x.rel.rInfo = rArmAbs32) (hl : lisible h e source x = true)
    (dest : List UInt8) : ChampJuste h e source addrText addrData x (Patch.writeAt dest
      (place h e x.rel) (wordBytes true (motEcrit h e source addrText addrData x))) := by
  have hn : largeur (elf32RType x.rel.rInfo) = 4 := by
    rw [ht]
    rfl
  have hlen : (wordBytes true (motEcrit h e source addrText addrData x)).length = 4 := rfl
  rw [ChampJuste, readAt_champ (Nat.le_of_eq hn), hn, List.take_of_length_le (Nat.le_of_eq hlen), beNat_wordBytes,
    readAt_motSource hl, beNat_wordBytes, motEcrit, hn, UInt32.toNat_ofNat']
  exact ⟨rfl, Nat.mod_mod _ _⟩

variable (addrText addrData) in
/-- The turn of a readable entry writes its word. -/
theorem appliquerRelocation_absolue (host : Bool) {w : World} (ht : absolue (elf32RType x.rel.rInfo))
    (hl : lisible h w.elf source x = true) :
    ∃ w', appliquerRelocation h host source addrText addrData w x = .ok w' ∧
      w'.dest = Patch.writeAt w.dest (place h w.elf x.rel)
        (wordBytes true (motEcrit h w.elf source addrText addrData x)) := by
  refine ⟨effet h w.elf source addrText addrData x w, ?_, ?_⟩
  · rw [appliquerRelocation_eq, if_pos hl]
  · rw [effet, correction_absolue ht hl]
    rfl

/-- A narrow relocation changes its field alone, and rightly, in the states that meet the
condition and in no others. -/
theorem tourJuste_iff (host : Bool) {w : World} (ht : etroite (elf32RType x.rel.rInfo)) :
    TourJuste h host source addrText addrData x w ↔
      Conforme h w.elf source addrText addrData x w.dest := by
  have hframe : (∀ k, k ∉ champ h w.elf x → (Patch.writeAt w.dest (place h w.elf x.rel)
        (wordBytes true (motEcrit h w.elf source addrText addrData x)))[k]? = w.dest[k]?) ↔ _ :=
    Patch.writeAt_frame_iff (largeur_lt ht)
  constructor
  · rintro ⟨w', hrun, hfield, hrest⟩
    have hl : lisible h w.elf source x = true := by
      by_contra hl
      rw [appliquerRelocation_eq, if_neg hl] at hrun
      cases hrun
    obtain ⟨w'', hrun', hdest⟩ := appliquerRelocation_absolue addrText addrData host
      (Or.inr ht) hl
    rw [hrun', Except.ok.injEq] at hrun
    subst hrun
    rw [hdest] at hfield hrest
    exact ⟨hl, fun _ => (champJuste_etroite_iff ht w.dest).mp hfield, fun _ => hframe.mp hrest⟩
  · rintro ⟨hl, hfield, hafter⟩
    obtain ⟨w', hrun, hdest⟩ := appliquerRelocation_absolue addrText addrData host
      (Or.inr ht) hl
    refine ⟨w', hrun, ?_, ?_⟩
    · rw [hdest]
      exact (champJuste_etroite_iff ht w.dest).mpr (hfield ht)
    · rw [hdest]
      exact hframe.mpr (hafter ht)

/-- The field in the source: the quotient of its word. -/
theorem beNat_champ_source (hle : largeur (elf32RType x.rel.rInfo) ≤ 4) (hl : lisible h e source x = true) :
    beNat (Patch.readAt source (place h e x.rel) (largeur (elf32RType x.rel.rInfo))) =
      (motSource h e source x).toNat / 256 ^ (4 - largeur (elf32RType x.rel.rInfo)) := by
  rw [← Patch.readAt_take _ _ 4 _ hle, readAt_motSource hl, beNat_take, beNat_wordBytes]
  rfl

/-- The end of two words is the same when the remainders are. -/
theorem drop_wordBytes_eq_iff (n : Nat) (v w : UInt32) :
    (wordBytes true v).drop n = (wordBytes true w).drop n ↔
      v.toNat % 256 ^ (4 - n) = w.toNat % 256 ^ (4 - n) := by
  have hdrop : ∀ u : UInt32, beNat ((wordBytes true u).drop n) = u.toNat % 256 ^ (4 - n) := fun u => by
    rw [beNat_drop, beNat_wordBytes]
    rfl
  have hlen : ((wordBytes true v).drop n).length = ((wordBytes true w).drop n).length := by
    rw [List.length_drop, List.length_drop]
    rfl
  rw [← hdrop, ← hdrop]
  exact ⟨congrArg beNat, beNat_injective hlen⟩

/-- A sum that is zero in the field and leaves the bytes behind it: nothing of the word
reaches the field, and the symbol brings nothing to either. -/
theorem champ_nul_iff {n s w : Nat} (hn : n = 2 ∨ n = 1) (hw : w < 2 ^ 32) :
    ((s + w / 256 ^ (4 - n)) % 256 ^ n = 0 ∧
        w % 256 ^ (4 - n) = (s + w) % 256 ^ n % 256 ^ (4 - n)) ↔
      w < 256 ^ n ∧ 256 ^ n ∣ s := by
  rcases hn with rfl | rfl
  · constructor
    · rintro ⟨hzero, hend⟩
      omega
    · rintro ⟨hfits, hdvd⟩
      omega
  · constructor
    · rintro ⟨hzero, hend⟩
      omega
    · rintro ⟨hfits, hdvd⟩
      omega

/-- Where nothing has changed the word yet: it fits the field, and so many low bits of the
address of the symbol are zero. -/
theorem conforme_source_iff {dest : List UInt8} (ht : etroite (elf32RType x.rel.rInfo))
    (hsame : Patch.readAt dest (place h e x.rel) 4 = Patch.readAt source (place h e x.rel) 4) :
    Conforme h e source addrText addrData x dest ↔ lisible h e source x = true ∧
      (motSource h e source x).toNat < 256 ^ largeur (elf32RType x.rel.rInfo) ∧
      256 ^ largeur (elf32RType x.rel.rInfo) ∣
        (adresseAbsolueSymbole h e addrText addrData (symboleDe h e x.rel)).toNat := by
  have hparts : Conforme h e source addrText addrData x dest ↔ lisible h e source x = true ∧ _ ∧ _ :=
    ⟨fun hc => ⟨hc.word, hc.field ht, hc.after ht⟩, fun hc => ⟨hc.1, fun _ => hc.2.1, fun _ => hc.2.2⟩⟩
  rw [hparts]
  refine and_congr_right fun hl => ?_
  rw [beNat_champ_source (Nat.le_of_lt (largeur_lt ht)) hl, ← Patch.readAt_drop, hsame, readAt_motSource hl,
    drop_wordBytes_eq_iff, toNat_motEcrit ht]
  exact champ_nul_iff (largeur_etroite ht) (motSource h e source x).toNat_lt

/-- One turn of a run: the field of the entry is right, the rest is as before. -/
theorem tour_conforme {dest : List UInt8} (ht : absolue (elf32RType x.rel.rInfo))
    (hlen : source.length ≤ dest.length) (hc : Conforme h e source addrText addrData x dest) :
    let dest' := Patch.applyAll (correction h e source addrText addrData x).toList dest
    ChampJuste h e source addrText addrData x dest' ∧
      (∀ k, k ∉ champ h e x → dest'[k]? = dest[k]?) ∧ dest'.length = dest.length := by
  obtain ⟨hl, hfield, hafter⟩ := hc
  have hin : place h e x.rel + 4 ≤ dest.length := by
    rw [lisible, decide_eq_true_eq] at hl
    omega
  have hdest : Patch.applyAll (correction h e source addrText addrData x).toList dest =
      Patch.writeAt dest (place h e x.rel) (wordBytes true (motEcrit h e source addrText addrData x)) := by
    rw [correction_absolue ht hl]
    rfl
  dsimp only
  rw [hdest]
  refine ⟨?_, ?_, Patch.length_writeAt hin⟩
  · rcases ht with ht | ht
    · exact champJuste_abs32 ht hl dest
    · exact (champJuste_etroite_iff ht dest).mpr (hfield ht)
  · rcases ht with ht | ht
    · have hn : largeur (elf32RType x.rel.rInfo) = 4 := by
        rw [ht]
        rfl
      have hso : Patch.SameOutside (Patch.window (place h e x.rel) 4) dest (Patch.writeAt dest
          (place h e x.rel) (wordBytes true (motEcrit h e source addrText addrData x))) :=
        Patch.sameOutside_writeAt rfl hin
      rw [champ, hn]
      exact hso.byte_eq
    · exact (Patch.writeAt_frame_iff (largeur_lt ht)).mpr (hafter ht)

/-- Every turn meets its condition, in the destination that the turns before it left. -/
def Conformes (h : Heap) (e : Elf32) (source : List UInt8) (addrText addrData : UInt32) :
    List Relocation → List UInt8 → Prop
  | [], _ => True
  | x :: xs, dest => Conforme h e source addrText addrData x dest ∧
      Conformes h e source addrText addrData xs
        (Patch.applyAll (correction h e source addrText addrData x).toList dest)

theorem lisible_of_conformes {xs : List Relocation} {dest : List UInt8}
    (hc : Conformes h e source addrText addrData xs dest) : ∀ y ∈ xs, lisible h e source y = true := by
  induction xs generalizing dest with
  | nil => exact fun y hy => absurd hy List.not_mem_nil
  | cons x xs ih =>
    intro y hy
    rcases List.mem_cons.mp hy with rfl | hy
    · exact hc.1.word
    · exact ih hc.2 y hy

/-- Fields apart from each other all hold their own value in the end. -/
theorem champs_of_conformes {xs : List Relocation} {dest : List UInt8}
    (habs : ∀ y ∈ xs, absolue (elf32RType y.rel.rInfo)) (hlen : source.length ≤ dest.length)
    (hdisj : xs.Pairwise fun y z => Disjoint (champ h e y) (champ h e z))
    (hc : Conformes h e source addrText addrData xs dest) :
    let dest' := Patch.applyAll (xs.filterMap (correction h e source addrText addrData)) dest
    (∀ y ∈ xs, ChampJuste h e source addrText addrData y dest') ∧
      ∀ k, (∀ y ∈ xs, k ∉ champ h e y) → dest'[k]? = dest[k]? := by
  induction xs generalizing dest with
  | nil => exact ⟨fun y hy => absurd hy List.not_mem_nil, fun _ _ => rfl⟩
  | cons x xs ih =>
    rw [List.pairwise_cons] at hdisj
    obtain ⟨hfield, hframe, hlen'⟩ := tour_conforme (habs x List.mem_cons_self) hlen hc.1
    obtain ⟨hrest, hframe'⟩ := ih (fun y hy => habs y (List.mem_cons_of_mem x hy))
      (hlen'.symm ▸ hlen) hdisj.2 hc.2
    have hsplit : Patch.applyAll ((x :: xs).filterMap (correction h e source addrText addrData)) dest =
        Patch.applyAll (xs.filterMap (correction h e source addrText addrData))
          (Patch.applyAll (correction h e source addrText addrData x).toList dest) := by
      rw [List.filterMap_cons]
      cases correction h e source addrText addrData x <;> rfl
    dsimp only at hrest hframe' ⊢
    rw [hsplit]
    refine ⟨fun y hy => ?_, fun k hk => ?_⟩
    · rcases List.mem_cons.mp hy with rfl | hy
      · -- the later turns stay out of the field of this one
        have hsame := Patch.readAt_congr fun k hk =>
          hframe' k fun z hz => Set.disjoint_left.mp (hdisj.1 z hz) hk
        exact hfield.congr hsame
      · exact hrest y hy
    · rw [hframe' k fun y hy => hk y (List.mem_cons_of_mem x hy)]
      exact hframe k (hk x List.mem_cons_self)

end

/-- A narrow relocation leaves its field right and every other byte alone exactly in the
states that meet its condition; in a run whose turns all meet it, fields apart from each
other all hold their own value in the end, in whatever order they are listed. -/
theorem appliquerRelocations_champs (h : Heap) (host : Bool) (e : Elf32) (source : List UInt8)
    (addrText addrData : UInt32) :
    (∀ (w : World) (x : Relocation), etroite (elf32RType x.rel.rInfo) →
      (TourJuste h host source addrText addrData x w ↔
        Conforme h w.elf source addrText addrData x w.dest)) ∧
    ((∀ x ∈ relocations h e, absolue (elf32RType x.rel.rInfo)) →
      (relocations h e).Pairwise (fun x y => Disjoint (champ h e x) (champ h e y)) →
      Conformes h e source addrText addrData (relocations h e)
        (fwriteShAddrTestData h host addrText addrData ⟨e, source, []⟩).dest →
      ∃ w', appliquerRelocations h host source addrText addrData ⟨e, source, []⟩ = .ok w' ∧
        ∀ x ∈ relocations h e, ChampJuste h e source addrText addrData x w'.dest) := by
  refine ⟨fun w x ht => tourJuste_iff host ht, fun habs hdisj hc => ?_⟩
  have hall := lisible_of_conformes hc
  have hlen : source.length ≤ (fwriteShAddrTestData h host addrText addrData ⟨e, source, []⟩).dest.length :=
    Patch.length_le_writeAt _ _ _
  refine ⟨bilan h source addrText addrData host ⟨e, source, []⟩, ?_, ?_⟩
  · rw [appliquerRelocations_eq, if_pos (List.all_eq_true.mpr hall)]
  · rw [bilan, atteintes, Loop.reached_of_all hall]
    exact (champs_of_conformes habs hlen hdisj hc).1

/-- With `.text` at 0xfffc the symbol is at 0x10000, and a halfword relocation of a zero
word is as it should be. -/
theorem appliquerRelocations_champs_exemple :
    ∃ w', appliquerRelocations tasNul false (exempleImage 0x105) 0xfffc 0x2800
        ⟨exemple 0x105, exempleImage 0x105, []⟩ = .ok w' ∧
      ∀ x ∈ relocations tasNul (exemple 0x105),
        ChampJuste tasNul (exemple 0x105) (exempleImage 0x105) 0xfffc 0x2800 x w'.dest :=
  (appliquerRelocations_champs tasNul false (exemple 0x105) (exempleImage 0x105) 0xfffc 0x2800).2
    (by
      have hall : ∀ x ∈ relocations tasNul (exemple 0x105), elf32RType x.rel.rInfo = rArmAbs16 := by
        decide +kernel
      exact fun x hx => Or.inr (Or.inl (hall x hx)))
    (List.pairwise_singleton _ _)
    ⟨⟨by decide +kernel, fun _ => by decide +kernel, fun _ => by decide +kernel⟩, trivial⟩

/-- With `.text` at 0x20 the symbol is at 0x24: the field at 56 stays zero, and byte 59 of
the destination holds the value. -/
theorem champ_exemple : ∃ w', appliquerRelocations tasNul false (exempleImage 0x105) 0x20 0x2800
      ⟨exemple 0x105, exempleImage 0x105, []⟩ = .ok w' ∧
    ⟨0, 0, ⟨4, 0x105⟩⟩ ∈ relocations tasNul (exemple 0x105) ∧ elf32RType 0x105 = rArmAbs16 ∧
    place tasNul (exemple 0x105) ⟨4, 0x105⟩ = 56 ∧
    adresseAbsolueSymbole tasNul (exemple 0x105) 0x20 0x2800
      (symboleDe tasNul (exemple 0x105) ⟨4, 0x105⟩) = 0x24 ∧
    Patch.readAt (exempleImage 0x105) 56 4 = [0, 0, 0, 0] ∧ Patch.readAt w'.dest 56 4 = [0, 0, 0, 0x24] ∧
    ¬ChampJuste tasNul (exemple 0x105) (exempleImage 0x105) 0x20 0x2800 ⟨0, 0, ⟨4, 0x105⟩⟩ w'.dest := by
  refine ⟨bilan tasNul (exempleImage 0x105) 0x20 0x2800 false ⟨exemple 0x105, exempleImage 0x105, []⟩, ?_,
    by decide +kernel, by decide, by decide +kernel, by decide +kernel, by decide +kernel,
    by decide +kernel, by decide +kernel⟩
  rw [appliquerRelocations_eq, if_pos (by decide +kernel)]

end ElfLinker
