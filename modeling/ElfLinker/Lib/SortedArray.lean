import Mathlib.Data.List.Sort
import ElfLinker.Lib.Memory

/-!
Sorted arrays: the first `n` cells of a memory, in increasing order. An element is
inserted by moving up the cells from its place on, and looked up by halving an interval
that holds all its places.
-/

namespace SortedArray

variable {α : Type}

/-! ## Insertion -/

/-- `for (j = n; j > i; j--) m[j] = m[j - 1]`. -/
def shift (i : Nat) : Nat → Memory α → Memory α
  | 0, m => m
  | j + 1, m => if i < j + 1 then shift i j (m.store (j + 1) [m j]) else m

theorem shift_apply (i n : Nat) (m : Memory α) (k : Nat) :
    shift i n m k = if i < k ∧ k ≤ n then m (k - 1) else m k := by
  induction n generalizing m with
  | zero => rw [shift, if_neg (by omega)]
  | succ n ih =>
    unfold shift
    by_cases hi : i < n + 1
    · rw [if_pos hi, ih, Memory.store_singleton, Memory.store_singleton]
      by_cases hk : k = n + 1
      · subst hk
        rw [if_neg (by omega), if_pos rfl, if_pos ⟨hi, Nat.le_refl _⟩, Nat.add_sub_cancel]
      · by_cases hin : i < k ∧ k ≤ n
        · rw [if_pos hin, if_neg (by omega), if_pos (by omega)]
        · rw [if_neg hin, if_neg hk, if_neg (by omega)]
    · rw [if_neg hi, if_neg (by omega)]

/-- The cells after a store in the gap that the shift leaves. -/
theorem load_insert (m : Memory α) (a : α) {i n : Nat} (hi : i ≤ n) :
    ((shift i n m).store i [a]).load 0 (n + 1) = m.load 0 i ++ a :: m.load i (n - i) := by
  have hcell : ∀ k, (shift i n m).store i [a] k =
      if k = i then a else if i < k ∧ k ≤ n then m (k - 1) else m k := fun k => by
    rw [Memory.store_singleton, shift_apply]
  apply List.ext_getElem
  · simp only [Memory.length_load, List.length_append, List.length_cons]
    omega
  · intro k hk _
    rw [Memory.length_load] at hk
    rw [Memory.getElem_load, Nat.zero_add, hcell]
    rcases Nat.lt_trichotomy k i with hlt | rfl | hgt
    · rw [if_neg (by omega), if_neg (by omega),
        List.getElem_append_left (by rwa [Memory.length_load]), Memory.getElem_load, Nat.zero_add]
    · rw [if_pos rfl, List.getElem_append_right (by rw [Memory.length_load])]
      simp
    · rw [if_neg (by omega), if_pos (by omega),
        List.getElem_append_right (by rw [Memory.length_load]; omega)]
      obtain ⟨j, rfl⟩ : ∃ j, k = i + 1 + j := ⟨k - (i + 1), by omega⟩
      have hindex : i + 1 + j - (m.load 0 i).length = j + 1 := by
        rw [Memory.length_load]
        omega
      simp only [hindex, List.getElem_cons_succ, Memory.getElem_load]
      congr 1
      omega

theorem orderedInsert_append [LinearOrder α] {l₁ l₂ : List α} {a : α} (hbelow : ∀ b ∈ l₁, b < a)
    (hfrom : ∀ b ∈ l₂.head?, a ≤ b) : (l₁ ++ l₂).orderedInsert (· ≤ ·) a = l₁ ++ a :: l₂ := by
  induction l₁ with
  | nil =>
    cases l₂ with
    | nil => rfl
    | cons b l₂ => exact List.orderedInsert_cons_of_le (· ≤ ·) l₂ (hfrom b rfl)
  | cons b l₁ ih =>
    rw [List.forall_mem_cons] at hbelow
    rw [List.cons_append, List.orderedInsert_of_not_le (· ≤ ·) _ (not_le_of_gt hbelow.1), ih hbelow.2]
    rfl

/-- Inserting `a` at the first cell that is not below it is the insertion in order. -/
theorem load_insert_ordered [LinearOrder α] (m : Memory α) {a : α} {i n : Nat} (hi : i ≤ n)
    (hbelow : ∀ k < i, m k < a) (hfrom : i < n → a ≤ m i) :
    ((shift i n m).store i [a]).load 0 (n + 1) = (m.load 0 n).orderedInsert (· ≤ ·) a := by
  have hsplit : m.load 0 n = m.load 0 i ++ m.load i (n - i) := by
    have hadd := m.load_add 0 i (n - i)
    rwa [Nat.add_sub_cancel' hi, Nat.zero_add] at hadd
  rw [load_insert m a hi, hsplit, orderedInsert_append]
  · intro b hb
    obtain ⟨k, hk, rfl⟩ := Memory.mem_load.mp hb
    exact hbelow k (by omega)
  · intro b hb
    rcases Nat.lt_or_ge i n with hlt | hge
    · obtain ⟨j, hj⟩ : ∃ j, n - i = j + 1 := ⟨n - i - 1, by omega⟩
      rw [hj, Memory.load_succ, List.head?_cons, Option.mem_some_iff] at hb
      exact hb ▸ hfrom hlt
    · rw [show n - i = 0 by omega] at hb
      cases hb

/-! ## Search -/

/-- The cells below `n` are in increasing order. -/
def Sorted [LinearOrder α] (m : Memory α) (n : Nat) : Prop := (m.load 0 n).Pairwise (· ≤ ·)

theorem Sorted.le [LinearOrder α] {m : Memory α} {n : Nat} (hs : Sorted m n) {i j : Nat} (hij : i ≤ j)
    (hj : j < n) : m i ≤ m j := by
  by_cases heq : i = j
  · rw [heq]
  · have hlen := Memory.length_load m 0 n
    have hpair := List.pairwise_iff_getElem.mp hs i j (by omega) (by omega) (by omega)
    rwa [Memory.getElem_load, Memory.getElem_load, Nat.zero_add, Nat.zero_add] at hpair

/-- The middle of an interval, rounded down, is a cell of it below the last. -/
theorem exists_middle {lo hi : Int} (hlo : 0 ≤ lo) (hlt : lo < hi) :
    ∃ k : Nat, (lo + hi).tdiv 2 = k ∧ lo ≤ k ∧ (k : Int) < hi := by
  rw [Int.tdiv_eq_ediv_of_nonneg (by omega)]
  exact ⟨((lo + hi) / 2).toNat, by omega, by omega, by omega⟩

/-- All the places of `x` below `n` are from `lo` to `hi`. -/
def Between (m : Memory α) (n : Nat) (x : α) (lo hi : Int) : Prop :=
  ∀ k < n, m k = x → lo ≤ k ∧ (k : Int) ≤ hi

namespace Between

variable {m : Memory α} {n : Nat} {x : α} {lo hi : Int}

theorem start (m : Memory α) (n : Nat) (x : α) : Between m n x 0 (n - 1) :=
  fun k hk _ => ⟨Int.natCast_nonneg k, by omega⟩

theorem right [LinearOrder α] (h : Between m n x lo hi) (hs : Sorted m n) {mid : Nat}
    (hmid : mid < n) (hlt : m mid < x) : Between m n x (mid + 1) hi := by
  intro k hk hx
  refine ⟨?_, (h k hk hx).2⟩
  by_contra hle
  have hmk := hs.le (show k ≤ mid by omega) hmid
  rw [hx] at hmk
  exact absurd hlt (not_lt_of_ge hmk)

theorem left [LinearOrder α] (h : Between m n x lo hi) (hs : Sorted m n) {mid : Nat}
    (hlt : x < m mid) : Between m n x lo (mid - 1) := by
  intro k hk hx
  refine ⟨(h k hk hx).1, ?_⟩
  by_contra hle
  have hmk := hs.le (show mid ≤ k by omega) hk
  rw [hx] at hmk
  exact absurd hlt (not_lt_of_ge hmk)

/-- When one place is left, it decides. -/
theorem mem_iff (h : Between m n x lo hi) {k : Nat} (hk : k < n) (hlo : lo = k) (hhi : hi = k) :
    x ∈ m.load 0 n ↔ m k = x := by
  rw [Memory.mem_load]
  constructor
  · rintro ⟨j, hj, hx⟩
    have hplace := h j (by omega) hx
    obtain rfl : j = k := by omega
    exact hx
  · rintro rfl
    exact ⟨k, by omega, rfl⟩

theorem notMem (h : Between m n x lo hi) (hempty : hi < lo) : x ∉ m.load 0 n := by
  intro hx
  obtain ⟨k, hk, hkx⟩ := Memory.mem_load.mp hx
  have hplace := h k (by omega) hkx
  omega

end Between

end SortedArray
