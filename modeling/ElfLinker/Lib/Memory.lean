import Mathlib.Tactic.Common

/-!
Memory from some address on, without a bound: a value at every offset. A store
replaces the cells it covers and a load reads a stretch of them; whether an
access stays inside an object is a matter for the program that makes it.
-/

abbrev Memory (α : Type) := Nat → α

namespace Memory

variable {α : Type}

/-- The values `xs` stored from `off` on. -/
def store (m : Memory α) (off : Nat) (xs : List α) : Memory α :=
  fun k => if off ≤ k then xs.getD (k - off) (m k) else m k

/-- The `n` values from `off` on. -/
def load (m : Memory α) (off n : Nat) : List α := (List.range' off n).map m

@[simp] theorem length_load (m : Memory α) (off n : Nat) : (load m off n).length = n := by
  rw [load, List.length_map, List.length_range']

theorem load_add (m : Memory α) (off n k : Nat) :
    load m off (n + k) = load m off n ++ load m (off + n) k := by
  rw [load, load, load, ← List.map_append, ← List.range'_append_1]

theorem load_succ (m : Memory α) (off n : Nat) : load m off (n + 1) = m off :: load m (off + 1) n := by
  rw [load, List.range'_succ, List.map_cons, load]

theorem getElem_load (m : Memory α) (off n : Nat) {k : Nat} (hk : k < (load m off n).length) :
    (load m off n)[k] = m (off + k) := by
  simp [load]

theorem mem_load {m : Memory α} {off n : Nat} {a : α} :
    a ∈ load m off n ↔ ∃ k, (off ≤ k ∧ k < off + n) ∧ m k = a := by
  simp only [load, List.mem_map, List.mem_range'_1]

/-- A load sees only the cells it reads. -/
theorem load_congr {m m' : Memory α} {off n : Nat} (h : ∀ k, off ≤ k → k < off + n → m k = m' k) :
    load m off n = load m' off n := by
  refine List.map_congr_left fun k hk => ?_
  rw [List.mem_range'_1] at hk
  exact h k hk.1 hk.2

theorem store_singleton (m : Memory α) (off : Nat) (a : α) (k : Nat) :
    store m off [a] k = if k = off then a else m k := by
  unfold store
  rcases Nat.lt_trichotomy k off with hlt | rfl | hgt
  · rw [if_neg (by omega), if_neg (by omega)]
  · rw [if_pos (Nat.le_refl k), if_pos rfl, Nat.sub_self]
    rfl
  · rw [if_pos (by omega), if_neg (by omega), List.getD_eq_getElem?_getD,
      List.getElem?_eq_none (by rw [List.length_singleton]; omega), Option.getD_none]

theorem store_of_lt {m : Memory α} {off k : Nat} (xs : List α) (h : k < off) :
    store m off xs k = m k := if_neg (by omega)

theorem store_of_le {m : Memory α} {off k : Nat} (xs : List α) (h : off + xs.length ≤ k) :
    store m off xs k = m k := by
  unfold store
  split
  · rw [List.getD_eq_getElem?_getD, List.getElem?_eq_none (by omega), Option.getD_none]
  · rfl

/-- Frame: a load beside the cells stored does not see the store. -/
theorem load_store_of_disjoint {m : Memory α} {a off n : Nat} {xs : List α}
    (h : off + n ≤ a ∨ a + xs.length ≤ off) : load (store m a xs) off n = load m off n := by
  refine load_congr fun k hlo hhi => ?_
  cases h with
  | inl hbelow => exact store_of_lt xs (by omega)
  | inr habove => exact store_of_le xs (by omega)

/-- What was stored is loaded back. -/
theorem load_store_self (m : Memory α) (a : Nat) (xs : List α) :
    load (store m a xs) a xs.length = xs := by
  apply List.ext_getElem
  · exact length_load _ _ _
  · intro i _ hi
    simp [load, store, List.getElem?_eq_getElem hi]

/-- Two stores one after the other are one store. -/
theorem store_append (m : Memory α) (a : Nat) (xs ys : List α) :
    store (store m a xs) (a + xs.length) ys = store m a (xs ++ ys) := by
  funext k
  rcases Nat.lt_or_ge k (a + xs.length) with hk | hk
  · rw [store_of_lt ys hk]
    unfold store
    split
    · rw [List.getD_eq_getElem?_getD, List.getD_eq_getElem?_getD, List.getElem?_append_left (by omega)]
    · rfl
  · unfold store
    rw [if_pos hk, if_pos (by omega), if_pos (by omega), List.getD_eq_getElem?_getD,
      List.getD_eq_getElem?_getD, List.getD_eq_getElem?_getD, List.getElem?_append_right (by omega),
      List.getElem?_eq_none (l := xs) (by omega), Option.getD_none]
    congr 2
    omega

/-- A store that covers an earlier one hides it. -/
theorem store_store {xs ys : List α} (m : Memory α) (a : Nat) (h : xs.length ≤ ys.length) :
    store (store m a xs) a ys = store m a ys := by
  funext k
  rcases Nat.lt_or_ge k (a + ys.length) with hk | hk
  · unfold store
    split
    · have hlt : k - a < ys.length := by omega
      simp only [List.getD_eq_getElem?_getD, List.getElem?_eq_getElem hlt, Option.getD_some]
    · rfl
  · rw [store_of_le ys hk, store_of_le ys hk, store_of_le xs (by omega)]

/-- The same for a store that begins where the kept part of the earlier one ends. -/
theorem store_append_store (m : Memory α) (a : Nat) (xs : List α) {ys zs : List α}
    (h : zs.length ≤ ys.length) :
    store (store m a (xs ++ zs)) (a + xs.length) ys = store m a (xs ++ ys) := by
  rw [← store_append m a xs zs, store_store _ _ h, store_append]

end Memory
