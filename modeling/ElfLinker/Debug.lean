import Mathlib.Data.List.Induction
import Mathlib.Data.List.Lex
import ElfLinker.Lib.Loop
import ElfLinker.Lib.SortedArray

/-!
The set of files to trace of `debug.c`: `add_debug_to` keeps `debugged_files` in the
order of `strcmp`, and `__is_debugged` looks a name up by halving.
-/

namespace ElfLinker

/-! ## Strings -/

/-- A C string, less the NUL that ends it. -/
structure Chaine where
  octets : List UInt8
  sansNul : 0 ∉ octets
  deriving DecidableEq

/-- The difference of the first two bytes that differ, the end of a string being a NUL. -/
def strcmpOctets : List UInt8 → List UInt8 → Int
  | [], [] => 0
  | [], d :: _ => 0 - d.toNat
  | c :: _, [] => c.toNat - 0
  | c :: s, d :: t => if c = d then strcmpOctets s t else (c.toNat : Int) - d.toNat

def strcmp (a b : Chaine) : Int := strcmpOctets a.octets b.octets

namespace Chaine

def codes (s : Chaine) : List Nat := s.octets.map UInt8.toNat

theorem codes_injective : Function.Injective codes := by
  rintro ⟨a, ha⟩ ⟨b, hb⟩ heq
  obtain rfl : a = b := List.map_injective_iff.mpr (fun _ _ h => UInt8.toNat_inj.mp h) heq
  rfl

/-- The order of the bytes, first to last. -/
instance : LinearOrder Chaine := LinearOrder.lift' codes codes_injective

end Chaine

theorem strcmpOctets_spec {a b : List UInt8} (ha : 0 ∉ a) (hb : 0 ∉ b) :
    (strcmpOctets a b < 0 ↔ List.Lex (· < ·) (a.map UInt8.toNat) (b.map UInt8.toNat)) ∧
      (strcmpOctets a b = 0 ↔ a = b) := by
  have hchar : ∀ {c : UInt8}, ¬0 = c → c.toNat ≠ 0 := fun hc h => hc (UInt8.toNat_inj.mp h).symm
  induction a generalizing b with
  | nil =>
    cases b with
    | nil => exact ⟨iff_of_false (by decide) (fun hc => nomatch hc), iff_of_true rfl rfl⟩
    | cons d b =>
      rw [List.mem_cons, not_or] at hb
      have hd := hchar hb.1
      rw [strcmpOctets, List.map_nil, List.map_cons]
      exact ⟨iff_of_true (by omega) List.Lex.nil, iff_of_false (by omega) (List.cons_ne_nil d b).symm⟩
  | cons c a ih =>
    rw [List.mem_cons, not_or] at ha
    cases b with
    | nil =>
      have hc := hchar ha.1
      rw [strcmpOctets, List.map_nil, List.map_cons]
      exact ⟨iff_of_false (by omega) (fun hc => nomatch hc), iff_of_false (by omega) (List.cons_ne_nil c a)⟩
    | cons d b =>
      rw [List.mem_cons, not_or] at hb
      rw [strcmpOctets, List.map_cons, List.map_cons, List.cons_lex_cons_iff, List.cons.injEq]
      by_cases hcd : c = d
      · obtain ⟨hneg, hzero⟩ := ih ha.2 hb.2
        rw [if_pos hcd, hneg, hzero, hcd]
        exact ⟨by rw [or_iff_right (Nat.lt_irrefl _), and_iff_right rfl], (and_iff_right rfl).symm⟩
      · -- the first bytes decide
        have hne : c.toNat ≠ d.toNat := fun hc => hcd (UInt8.toNat_inj.mp hc)
        rw [if_neg hcd]
        refine ⟨?_, iff_of_false (by omega) fun hc => hcd hc.1⟩
        rw [or_iff_left fun hc => hne hc.1]
        omega

section

variable {a b : Chaine}

theorem strcmp_neg_iff : strcmp a b < 0 ↔ a < b := (strcmpOctets_spec a.sansNul b.sansNul).1

theorem strcmp_eq_zero_iff : strcmp a b = 0 ↔ a = b := by
  rw [strcmp, (strcmpOctets_spec a.sansNul b.sansNul).2]
  cases a
  cases b
  rw [Chaine.mk.injEq]

theorem strcmp_nonpos_iff : strcmp a b ≤ 0 ↔ a ≤ b := by
  rw [Int.le_iff_lt_or_eq, strcmp_neg_iff, strcmp_eq_zero_iff, le_iff_lt_or_eq]

theorem strcmp_pos_iff : 0 < strcmp a b ↔ b < a := by
  rw [← not_le, strcmp_nonpos_iff, not_le]

end

/-! ## Functions of debug.c -/

def maxFilesNumber : Nat := 64

/-- The two globals, and the subscripts into `debugged_files` made so far. What the array
holds from `nb_debugged_files` on is arbitrary; a store past its end is kept as a subscript
out of it. -/
structure Debug where
  debuggedFiles : Memory Chaine
  nbDebuggedFiles : Nat
  subs : List Int

/-- Where `name` goes: before the first name that is not below it. The search reads names of
the array only. -/
def placeNom (s : Debug) (name : Chaine) : Nat :=
  Loop.first (fun i => !(strcmp (s.debuggedFiles i) name < 0)) (min s.nbDebuggedFiles maxFilesNumber)

/-- The subscripts of the search: it reads up to the name it stops at, if there is one. -/
def placeSubs (s : Debug) (name : Chaine) : List Int :=
  (List.range (min (placeNom s name + 1) (min s.nbDebuggedFiles maxFilesNumber))).map Int.ofNat

/-- The subscripts of the loop that moves the names up: it reads one and writes the next. -/
def decalageSubs (i n : Nat) : List Int :=
  (List.range' (i + 1) (n - i)).reverse.flatMap fun j : Nat => [(j : Int) - 1, j]

/-- What is compared with the size of the array is the place, not the number of names. -/
def addDebugTo (s : Debug) (name : Chaine) : Debug :=
  let i := placeNom s name
  let n := s.nbDebuggedFiles
  if maxFilesNumber ≤ i then { s with subs := s.subs ++ placeSubs s name }
  else
    { debuggedFiles := (SortedArray.shift i n s.debuggedFiles).store i [name]
      nbDebuggedFiles := n + 1
      subs := s.subs ++ placeSubs s name ++ decalageSubs i n ++ [(i : Int)] }

/-- The loop of `__is_debugged` and the test after it: the result and the subscripts made.
`none`: the loop made `fuel` turns without an end. -/
def isDebuggedLoop (s : Debug) (name : Chaine) : Nat → Int → Int → Option (Int × List Int)
  | 0, _, _ => none
  | fuel + 1, lo, hi =>
    if lo < hi then
      let middle := (lo + hi).tdiv 2
      let result := strcmp (s.debuggedFiles middle.toNat) name
      let suite :=
        if result < 0 then isDebuggedLoop s name fuel (middle + 1) hi
        else if 0 < result then isDebuggedLoop s name fuel lo (middle - 1)
        else some (1, [])
      suite.map fun r => (r.1, middle :: r.2)
    else if lo = hi then
      some (if strcmp (s.debuggedFiles lo.toNat) name = 0 then 1 else 0, [lo])
    else some (0, [])

def isDebugged (fuel : Nat) (s : Debug) (name : Chaine) : Option (Int × List Int) :=
  isDebuggedLoop s name fuel 0 (s.nbDebuggedFiles - 1)

/-- Calls of `add_debug_to` from the start of the program on. -/
def ajouter (m : Memory Chaine) (names : List Chaine) : Debug := names.foldl addDebugTo ⟨m, 0, []⟩

/-! ## The place of a name -/

section

variable {s : Debug} {name : Chaine}

theorem placeNom_le : placeNom s name ≤ s.nbDebuggedFiles ∧ placeNom s name ≤ maxFilesNumber := by
  have hle := Loop.first_le (fun i => !(strcmp (s.debuggedFiles i) name < 0))
    (min s.nbDebuggedFiles maxFilesNumber)
  exact ⟨hle.trans (Nat.min_le_left _ _), hle.trans (Nat.min_le_right _ _)⟩

theorem lt_of_lt_placeNom {k : Nat} (hk : k < placeNom s name) : s.debuggedFiles k < name := by
  have hbelow := Loop.not_of_lt_first hk
  rw [Bool.not_eq_false', decide_eq_true_eq] at hbelow
  exact strcmp_neg_iff.mp hbelow

theorem le_of_placeNom (hn : placeNom s name < s.nbDebuggedFiles)
    (hmax : placeNom s name < maxFilesNumber) : name ≤ s.debuggedFiles (placeNom s name) := by
  have hfound := Loop.of_first_lt (Nat.lt_min.mpr ⟨hn, hmax⟩)
  rw [Bool.not_eq_true', decide_eq_false_iff_not, strcmp_neg_iff, not_lt] at hfound
  exact hfound

/-- The names stored after an insertion, as an insertion in order. -/
theorem load_addDebugTo (hplace : placeNom s name < maxFilesNumber) :
    (addDebugTo s name).debuggedFiles.load 0 (addDebugTo s name).nbDebuggedFiles =
      (s.debuggedFiles.load 0 s.nbDebuggedFiles).orderedInsert (· ≤ ·) name := by
  rw [addDebugTo, if_neg (Nat.not_le.mpr hplace)]
  exact SortedArray.load_insert_ordered _ placeNom_le.1 (fun k hk => lt_of_lt_placeNom hk)
    fun hn => le_of_placeNom hn hplace

end

/-! ## Runs -/

/-- The subscript is in the array. -/
def Indice (j : Int) : Prop := 0 ≤ j ∧ j < maxFilesNumber

/-- The array holds `names` in order, and no access was made out of it. -/
structure Rangee (s : Debug) (names : List Chaine) : Prop where
  nb : s.nbDebuggedFiles = names.length
  trie : SortedArray.Sorted s.debuggedFiles s.nbDebuggedFiles
  perm : (s.debuggedFiles.load 0 s.nbDebuggedFiles).Perm names
  subs : ∀ j ∈ s.subs, Indice j

theorem indice_placeSubs {s : Debug} {name : Chaine} : ∀ j ∈ placeSubs s name, Indice j := by
  intro j hj
  obtain ⟨k, hk, rfl⟩ := List.mem_map.mp hj
  rw [List.mem_range, Nat.lt_min, Nat.lt_min] at hk
  exact ⟨Int.natCast_nonneg k, Int.ofNat_lt.mpr hk.2.2⟩

theorem indice_decalageSubs {i n : Nat} (hn : n < maxFilesNumber) :
    ∀ j ∈ decalageSubs i n, Indice j := by
  intro j hj
  obtain ⟨k, hk, hjk⟩ := List.mem_flatMap.mp hj
  rw [List.mem_reverse, List.mem_range'_1] at hk
  rw [List.mem_cons, List.mem_singleton] at hjk
  unfold Indice
  omega

namespace Rangee

variable {s : Debug} {names : List Chaine}

/-- One call while there is room. -/
theorem ajout (h : Rangee s names) (hroom : names.length < maxFilesNumber) (name : Chaine) :
    Rangee (addDebugTo s name) (names ++ [name]) := by
  have hplace : placeNom s name < maxFilesNumber :=
    Nat.lt_of_le_of_lt placeNom_le.1 (by rw [h.nb]; exact hroom)
  have hload := load_addDebugTo hplace
  refine ⟨?_, ?_, ?_, ?_⟩
  · rw [addDebugTo, if_neg (Nat.not_le.mpr hplace), List.length_append, ← h.nb]
    rfl
  · rw [SortedArray.Sorted, hload]
    exact h.trie.orderedInsert name _
  · rw [hload]
    exact (List.perm_orderedInsert _ name _).trans ((h.perm.cons name).trans
      (List.perm_append_singleton name names).symm)
  · rw [addDebugTo, if_neg (Nat.not_le.mpr hplace)]
    simp only [List.mem_append, List.mem_singleton]
    rintro j (((hj | hj) | hj) | rfl)
    · exact h.subs j hj
    · exact indice_placeSubs j hj
    · exact indice_decalageSubs (by rw [h.nb]; exact hroom) j hj
    · exact ⟨Int.natCast_nonneg _, Int.ofNat_lt.mpr hplace⟩

/-- The search in a full array runs to its end when every name is below the new one. -/
theorem placeNom_iff (h : Rangee s names) (hfull : names.length = maxFilesNumber) (name : Chaine) :
    maxFilesNumber ≤ placeNom s name ↔ ∀ a ∈ names, strcmp a name < 0 := by
  have hnb : s.nbDebuggedFiles = maxFilesNumber := h.nb.trans hfull
  have hmem : ∀ a, a ∈ names ↔ ∃ k < maxFilesNumber, s.debuggedFiles k = a := fun a => by
    rw [← h.perm.mem_iff, Memory.mem_load, hnb]
    simp only [Nat.zero_le, Nat.zero_add, true_and]
  constructor
  · intro hend a ha
    obtain ⟨k, hk, rfl⟩ := (hmem a).mp ha
    exact strcmp_neg_iff.mpr (lt_of_lt_placeNom (Nat.lt_of_lt_of_le hk hend))
  · intro hall
    by_contra hlt
    rw [Nat.not_le] at hlt
    have hle := le_of_placeNom (hnb ▸ hlt) hlt
    have hbelow := hall _ ((hmem _).mpr ⟨placeNom s name, hlt, rfl⟩)
    exact absurd (strcmp_neg_iff.mp hbelow) (not_lt_of_ge hle)

/-- A call on a full array that finds no place in it. -/
theorem refus (h : Rangee s names) (hfull : names.length = maxFilesNumber) {name : Chaine}
    (hall : ∀ a ∈ names, strcmp a name < 0) :
    addDebugTo s name = { s with subs := s.subs ++ placeSubs s name } ∧
      Rangee (addDebugTo s name) names := by
  have heq : addDebugTo s name = { s with subs := s.subs ++ placeSubs s name } := by
    rw [addDebugTo, if_pos ((h.placeNom_iff hfull name).mpr hall)]
  refine ⟨heq, ?_⟩
  rw [heq]
  refine ⟨h.nb, h.trie, h.perm, fun j hj => ?_⟩
  rcases List.mem_append.mp hj with hj | hj
  · exact h.subs j hj
  · exact indice_placeSubs j hj

/-- A call on a full array that finds a place in it. -/
theorem depasse (h : Rangee s names) (hfull : names.length = maxFilesNumber) {name : Chaine}
    (hsome : ¬∀ a ∈ names, strcmp a name < 0) :
    (addDebugTo s name).nbDebuggedFiles = maxFilesNumber + 1 := by
  rw [addDebugTo, if_neg fun hend => hsome ((h.placeNom_iff hfull name).mp hend)]
  exact congrArg (· + 1) (h.nb.trans hfull)

end Rangee

@[simp] theorem ajouter_append (m : Memory Chaine) (names : List Chaine) (name : Chaine) :
    ajouter m (names ++ [name]) = addDebugTo (ajouter m names) name := List.foldl_append

/-- Every name after the first that fill the array is above all of these. -/
def SuiteAuDessus (names : List Chaine) : Prop :=
  ∀ b ∈ names.drop maxFilesNumber, ∀ a ∈ names.take maxFilesNumber, strcmp a b < 0

theorem suiteAuDessus_append {names : List Chaine} {name : Chaine} :
    SuiteAuDessus (names ++ [name]) ↔ SuiteAuDessus names ∧
      (maxFilesNumber ≤ names.length → ∀ a ∈ names.take maxFilesNumber, strcmp a name < 0) := by
  unfold SuiteAuDessus
  rcases Nat.lt_or_ge names.length maxFilesNumber with hlt | hge
  · have hdrop : ∀ l : List Chaine, l.length ≤ maxFilesNumber →
        ∀ b ∈ l.drop maxFilesNumber, ∀ a ∈ l.take maxFilesNumber, strcmp a b < 0 := by
      intro l hl b hb
      rw [List.drop_of_length_le hl] at hb
      cases hb
    refine iff_of_true (hdrop _ ?_) ⟨hdrop _ (Nat.le_of_lt hlt), fun hge => absurd hge (by omega)⟩
    rw [List.length_append, List.length_singleton]
    omega
  · rw [List.drop_append_of_le_length hge, List.take_append_of_le_length hge, List.forall_mem_append,
      List.forall_mem_singleton]
    exact and_congr_right fun _ => (imp_iff_right hge).symm

theorem SuiteAuDessus.take {names : List Chaine} (h : SuiteAuDessus names) (k : Nat) :
    SuiteAuDessus (names.take k) := by
  intro b hb a ha
  rw [List.drop_take] at hb
  rw [List.take_take] at ha
  exact h b (List.mem_of_mem_take hb) a (List.take_subset_take_left names (Nat.min_le_left _ _) ha)

/-- While the condition holds, the array holds the first names. -/
theorem rangee_ajouter (m : Memory Chaine) {names : List Chaine} (h : SuiteAuDessus names) :
    Rangee (ajouter m names) (names.take maxFilesNumber) := by
  induction names using List.reverseRecOn with
  | nil => exact ⟨rfl, List.Pairwise.nil, List.Perm.nil, fun _ hj => nomatch hj⟩
  | append_singleton names name ih =>
    obtain ⟨hnames, hname⟩ := suiteAuDessus_append.mp h
    rw [ajouter_append]
    rcases Nat.lt_or_ge names.length maxFilesNumber with hlt | hge
    · have hr := ih hnames
      rw [List.take_of_length_le (Nat.le_of_lt hlt)] at hr
      rw [List.take_of_length_le (by rw [List.length_append, List.length_singleton]; omega)]
      exact hr.ajout hlt name
    · rw [List.take_append_of_le_length hge]
      exact ((ih hnames).refus (List.length_take_of_le hge) (hname hge)).2

/-! ## The size of the array -/

/-- What is said of the array over a run: the subscripts are in it, it holds no more names than
it has room for, and once it is full a further call leaves it as it is. -/
structure DansTable (m : Memory Chaine) (names : List Chaine) : Prop where
  subs : ∀ j ∈ (ajouter m names).subs, Indice j
  nb : ∀ k ≤ names.length, (ajouter m (names.take k)).nbDebuggedFiles ≤ maxFilesNumber
  pleine : ∀ k < names.length, (ajouter m (names.take k)).nbDebuggedFiles = maxFilesNumber →
    (ajouter m (names.take (k + 1))).debuggedFiles = (ajouter m (names.take k)).debuggedFiles ∧
      (ajouter m (names.take (k + 1))).nbDebuggedFiles = maxFilesNumber

/-- The calls before the last. -/
theorem DansTable.init {m : Memory Chaine} {names : List Chaine} {name : Chaine}
    (h : DansTable m (names ++ [name])) : DansTable m names := by
  have hlen : (names ++ [name]).length = names.length + 1 := by
    rw [List.length_append, List.length_singleton]
  have htake : ∀ k ≤ names.length, (names ++ [name]).take k = names.take k :=
    fun k hk => List.take_append_of_le_length hk
  refine ⟨fun j hj => h.subs j ?_, fun k hk => ?_, fun k hk => ?_⟩
  · rw [ajouter_append, addDebugTo]
    split
    · exact List.mem_append_left _ hj
    · exact List.mem_append_left _ (List.mem_append_left _ (List.mem_append_left _ hj))
  · rw [← htake k hk]
    exact h.nb k (by omega)
  · rw [← htake k (Nat.le_of_lt hk), ← htake (k + 1) hk]
    exact h.pleine k (by omega)

/-- A name that is not above all those of a full array takes a place in it, and the last one
leaves the array. -/
theorem DansTable.dernier {m : Memory Chaine} {names : List Chaine} {name : Chaine}
    (h : DansTable m (names ++ [name])) (hnames : SuiteAuDessus names)
    (hfull : maxFilesNumber ≤ names.length) : ∀ a ∈ names.take maxFilesNumber, strcmp a name < 0 := by
  by_contra hsome
  have hnb := (rangee_ajouter m hnames).depasse (List.length_take_of_le hfull) hsome
  have hle := h.nb (names ++ [name]).length (Nat.le_refl _)
  rw [List.take_length, ajouter_append, hnb] at hle
  omega

/-- `debugged_files` is never outgrown exactly when each name added after the first
`MAX_FILES_NUMBER` is above all of these. -/
theorem ajouter_dansTable_iff (m : Memory Chaine) (names : List Chaine) :
    DansTable m names ↔
      ∀ b ∈ names.drop maxFilesNumber, ∀ a ∈ names.take maxFilesNumber, strcmp a b < 0 := by
  constructor
  · intro h
    induction names using List.reverseRecOn with
    | nil => exact fun _ hb => nomatch hb
    | append_singleton names name ih =>
      exact suiteAuDessus_append.mpr ⟨ih h.init, h.dernier (ih h.init)⟩
  · intro h
    have hrun := fun k => rangee_ajouter m (SuiteAuDessus.take h k)
    have hnb : ∀ k, (ajouter m (names.take k)).nbDebuggedFiles ≤ maxFilesNumber := fun k => by
      rw [(hrun k).nb, List.length_take]
      exact Nat.min_le_left _ _
    refine ⟨(rangee_ajouter m h).subs, fun k _ => hnb k, fun k hk hfull => ?_⟩
    have hlen : ((names.take k).take maxFilesNumber).length = maxFilesNumber := (hrun k).nb ▸ hfull
    have htake : names.take (k + 1) = names.take k ++ [names[k]] := by
      rw [List.take_append_getElem]
    have habove : ∀ a ∈ (names.take k).take maxFilesNumber, strcmp a names[k] < 0 := by
      have hsuite := SuiteAuDessus.take h (k + 1)
      rw [htake] at hsuite
      refine (suiteAuDessus_append.mp hsuite).2 ?_
      rw [List.length_take] at hlen
      omega
    rw [htake, ajouter_append, ((hrun k).refus hlen habove).1]
    exact ⟨rfl, hfull⟩

def exempleNom : Chaine := ⟨[97], by decide⟩

/-- One name added 65 times: it goes to the first place each time, and the last call moves the
name at 63 to 64. -/
theorem ajouter_memeNom :
    ¬DansTable (fun _ => ⟨[], List.not_mem_nil⟩) (List.replicate 65 exempleNom) := by
  intro h
  rw [List.replicate_succ'] at h
  have hsuite : SuiteAuDessus (List.replicate 64 exempleNom) := fun b hb => by
    rw [maxFilesNumber, List.drop_replicate] at hb
    cases hb
  have hlt := h.dernier hsuite (by rw [List.length_replicate, maxFilesNumber]) exempleNom
    (by rw [maxFilesNumber, List.take_replicate]; exact List.mem_cons_self)
  exact absurd hlt (by decide)

/-! ## The lookup -/

/-- The lookup ends, reads names that were stored, and its result says whether `name` is among
them. -/
def Conclut (s : Debug) (name : Chaine) (r : Option (Int × List Int)) : Prop :=
  ∃ result subs, r = some (result, subs) ∧ (∀ j ∈ subs, 0 ≤ j ∧ j < s.nbDebuggedFiles) ∧
    result = if name ∈ s.debuggedFiles.load 0 s.nbDebuggedFiles then 1 else 0

theorem Conclut.lit {s : Debug} {name : Chaine} {r : Option (Int × List Int)} {j : Int}
    (h : Conclut s name r) (hlo : 0 ≤ j) (hhi : j < s.nbDebuggedFiles) :
    Conclut s name (r.map fun r => (r.1, j :: r.2)) := by
  obtain ⟨result, subs, rfl, hsubs, hresult⟩ := h
  exact ⟨result, j :: subs, rfl, List.forall_mem_cons.mpr ⟨⟨hlo, hhi⟩, hsubs⟩, hresult⟩

section

open SortedArray

/-- The loop keeps all the places of `name` from `lo` to `hi`, and makes them fewer. -/
theorem isDebuggedLoop_conclut {s : Debug} {name : Chaine}
    (hs : Sorted s.debuggedFiles s.nbDebuggedFiles) (fuel : Nat) {lo hi : Int}
    (hb : Between s.debuggedFiles s.nbDebuggedFiles name lo hi) (hlo : 0 ≤ lo)
    (hhi : hi < s.nbDebuggedFiles) (hfuel : (hi + 1 - lo).toNat < fuel) :
    Conclut s name (isDebuggedLoop s name fuel lo hi) := by
  induction fuel generalizing lo hi with
  | zero => exact absurd hfuel (Nat.not_lt_zero _)
  | succ fuel ih =>
    unfold isDebuggedLoop
    rcases Int.lt_trichotomy lo hi with hlt | heq | hgt
    · obtain ⟨k, hk, hmiddle⟩ := exists_middle hlo hlt
      have hkn : k < s.nbDebuggedFiles := by omega
      rw [if_pos hlt]
      simp only [hk, Int.toNat_natCast]
      refine Conclut.lit ?_ (Int.natCast_nonneg k) (by omega)
      rcases lt_trichotomy (s.debuggedFiles k) name with hless | hsame | hmore
      · rw [if_pos (strcmp_neg_iff.mpr hless)]
        exact ih (hb.right hs hkn hless) (by omega) hhi (by omega)
      · have hzero := strcmp_eq_zero_iff.mpr hsame
        rw [if_neg (by omega), if_neg (by omega)]
        refine ⟨1, [], rfl, List.forall_mem_nil _, ?_⟩
        rw [if_pos (Memory.mem_load.mpr ⟨k, by omega, hsame⟩)]
      · have hpos := strcmp_pos_iff.mpr hmore
        rw [if_neg (by omega), if_pos hpos]
        exact ih (hb.left hs hmore) hlo (by omega) (by omega)
    · obtain ⟨k, rfl⟩ := Int.eq_ofNat_of_zero_le hlo
      rw [if_neg (by omega), if_pos heq]
      refine ⟨_, _, rfl, ?_, ?_⟩
      · rw [List.forall_mem_singleton]
        omega
      · simp only [Int.toNat_natCast, strcmp_eq_zero_iff,
          hb.mem_iff (show k < s.nbDebuggedFiles by omega) rfl heq.symm]
    · rw [if_neg (by omega), if_neg (by omega)]
      refine ⟨0, [], rfl, List.forall_mem_nil _, ?_⟩
      rw [if_neg (hb.notMem hgt)]

theorem isDebugged_conclut {s : Debug} (hs : Sorted s.debuggedFiles s.nbDebuggedFiles) (name : Chaine)
    {fuel : Nat} (hfuel : s.nbDebuggedFiles < fuel) : Conclut s name (isDebugged fuel s name) :=
  isDebuggedLoop_conclut hs fuel (Between.start _ _ _) (Int.le_refl 0) (by omega) (by omega)

end

/-- After as many calls as the array has room for, in any order, the names added are stored in the
order of `strcmp`, and the lookup of a name ends, stays among them, and returns 1 exactly when the
name was added. -/
theorem isDebugged_ajouter (m : Memory Chaine) {names : List Chaine}
    (hroom : names.length ≤ maxFilesNumber) :
    let s := ajouter m names
    (s.debuggedFiles.load 0 s.nbDebuggedFiles).Pairwise (fun a b => strcmp a b ≤ 0) ∧
      (s.debuggedFiles.load 0 s.nbDebuggedFiles).Perm names ∧
      ∀ name fuel, names.length < fuel → ∃ result subs,
        isDebugged fuel s name = some (result, subs) ∧
        (∀ j ∈ subs, 0 ≤ j ∧ j < s.nbDebuggedFiles) ∧ result = if name ∈ names then 1 else 0 := by
  intro s
  have hsuite : SuiteAuDessus names := fun b hb => by
    rw [List.drop_of_length_le hroom] at hb
    cases hb
  have hr := rangee_ajouter m hsuite
  rw [List.take_of_length_le hroom] at hr
  refine ⟨hr.trie.imp strcmp_nonpos_iff.mpr, hr.perm, fun name fuel hfuel => ?_⟩
  obtain ⟨result, subs, heq, hsubs, hresult⟩ := isDebugged_conclut hr.trie name (hr.nb ▸ hfuel)
  exact ⟨result, subs, heq, hsubs, by simp only [hresult, hr.perm.mem_iff]⟩

theorem isDebugged_ajouter_exemple :
    let s := ajouter (fun _ => ⟨[], List.not_mem_nil⟩) [exempleNom, ⟨[98], by decide⟩, exempleNom]
    (s.debuggedFiles.load 0 s.nbDebuggedFiles).Pairwise (fun a b => strcmp a b ≤ 0) ∧
      ∃ subs, isDebugged 4 s exempleNom = some (1, subs) ∧ ∀ j ∈ subs, 0 ≤ j ∧ j < 3 := by
  obtain ⟨hsorted, _, hlookup⟩ := isDebugged_ajouter (fun _ => ⟨[], List.not_mem_nil⟩)
    (show [exempleNom, ⟨[98], by decide⟩, exempleNom].length ≤ maxFilesNumber by decide)
  obtain ⟨_, subs, heq, hsubs, rfl⟩ := hlookup exempleNom 4 (by decide)
  exact ⟨hsorted, subs, heq, hsubs⟩

end ElfLinker
