import Mathlib.Tactic.Common

/-!
Loops over an index. A counting loop is a fold over its indices and a search is
the least index that satisfies a test; each has one rule that the proofs about a
particular loop use.
-/

namespace Loop

/-! ## Counting loops -/

/-- Invariant rule for `for (i = a; i < a + n; i++) s = f(s, i)`. -/
theorem range'_rule {σ : Type} (f : σ → Nat → σ) (P : Nat → σ → Prop) (a n : Nat) (s : σ)
    (start : P a s) (step : ∀ i s, a ≤ i → i < a + n → P i s → P (i + 1) (f s i)) :
    P (a + n) ((List.range' a n).foldl f s) := by
  induction n generalizing a s with
  | zero => exact start
  | succ n ih =>
    rw [List.range'_succ, List.foldl_cons, show a + (n + 1) = a + 1 + n by omega]
    refine ih (a + 1) (f s a) (step a s (Nat.le_refl a) (by omega) start) fun i s hi hlt => ?_
    exact step i s (by omega) (by omega)

/-- `for (i = 0; i < n; i++) t[i] = f(t[i])`, on the entries the array has. -/
def mapUpTo {α : Type} (n : Nat) (f : α → α) (t : List α) : List α := (t.take n).map f ++ t.drop n

@[simp] theorem length_mapUpTo {α : Type} (n : Nat) (f : α → α) (t : List α) :
    (mapUpTo n f t).length = t.length := by
  simp only [mapUpTo, List.length_append, List.length_map, List.length_take, List.length_drop]
  omega

theorem mapUpTo_of_length_le {α : Type} {n : Nat} (f : α → α) {t : List α} (h : t.length ≤ n) :
    mapUpTo n f t = t.map f := by
  rw [mapUpTo, List.take_of_length_le h, List.drop_of_length_le h, List.append_nil]

theorem getElem?_mapUpTo {α : Type} (n : Nat) (f : α → α) (t : List α) (i : Nat) :
    (mapUpTo n f t)[i]? = if i < n then t[i]?.map f else t[i]? := by
  unfold mapUpTo
  by_cases hi : i < (t.take n).length
  · have hin : i < n := by rw [List.length_take] at hi; omega
    rw [List.getElem?_append_left (by rwa [List.length_map]), List.getElem?_map,
      List.getElem?_take_of_lt hin, if_pos hin]
  · rw [List.getElem?_append_right (by rw [List.length_map]; omega), List.length_map,
      List.getElem?_drop]
    rw [List.length_take] at hi ⊢
    by_cases hn : n ≤ t.length
    · rw [if_neg (by omega), Nat.min_eq_left hn, show n + (i - n) = i by omega]
    · rw [List.getElem?_eq_none (by omega), List.getElem?_eq_none (l := t) (by omega)]
      simp

theorem mapUpTo_mapUpTo {α : Type} (n : Nat) {f : α → α} (h : ∀ a, f (f a) = a) (t : List α) :
    mapUpTo n f (mapUpTo n f t) = t := by
  apply List.ext_getElem?
  intro i
  rw [getElem?_mapUpTo, getElem?_mapUpTo]
  split
  · cases t[i]? <;> simp [h]
  · rfl

/-- Reading the entries of an array one after the other gives the array. -/
theorem map_getD_range {α : Type} (t : List α) (d : Nat → α) :
    (List.range t.length).map (fun i => t.getD i (d i)) = t := by
  apply List.ext_getElem
  · rw [List.length_map, List.length_range]
  · intro i _ hi
    rw [List.getElem_map, List.getElem_range, List.getD_eq_getElem?_getD, List.getElem?_eq_getElem hi,
      Option.getD_some]

/-! ## Loops that may stop

The body turns the state `s` into `g s x`, and stops the run there when `p x` is
false. -/

/-- The turns that are made: up to and including the first that stops. -/
def reached {ι : Type} (p : ι → Bool) : List ι → List ι
  | [] => []
  | x :: xs => x :: if p x then reached p xs else []

theorem mem_of_mem_reached {ι : Type} {p : ι → Bool} {xs : List ι} {x : ι} (h : x ∈ reached p xs) :
    x ∈ xs := by
  induction xs with
  | nil => exact h
  | cons y ys ih =>
    rw [reached, List.mem_cons] at h
    rcases h with rfl | h
    · exact List.mem_cons_self
    · split at h
      · exact List.mem_cons_of_mem _ (ih h)
      · exact absurd h List.not_mem_nil

/-- Two tests that agree on what is reached reach the same, and fail together. -/
theorem reached_congr {ι : Type} {p q : ι → Bool} {xs : List ι} (h : ∀ x ∈ reached p xs, q x = p x) :
    reached q xs = reached p xs ∧ xs.all q = xs.all p := by
  induction xs with
  | nil => exact ⟨rfl, rfl⟩
  | cons x xs ih =>
    rw [reached] at h ⊢
    rw [reached, List.all_cons, List.all_cons, h x List.mem_cons_self]
    cases hp : p x with
    | false => exact ⟨rfl, rfl⟩
    | true =>
      rw [if_pos hp] at h
      obtain ⟨hreached, hall⟩ := ih fun y hy => h y (List.mem_cons_of_mem x hy)
      rw [if_pos rfl, if_pos rfl, hreached, hall]
      exact ⟨rfl, rfl⟩

theorem reached_of_all {ι : Type} {p : ι → Bool} {xs : List ι} (h : ∀ x ∈ xs, p x = true) :
    reached p xs = xs := by
  induction xs with
  | nil => rfl
  | cons x xs ih =>
    rw [reached, if_pos (h x List.mem_cons_self), ih fun y hy => h y (List.mem_cons_of_mem _ hy)]

/-- Such a loop makes the turns it reaches, and returns when none of them stops it. -/
theorem foldlM_reached {σ ι : Type} {f : σ → ι → Except σ σ} {p : ι → Bool} {g : σ → ι → σ}
    {I : σ → Prop} (hg : ∀ s x, I s → I (g s x))
    (hf : ∀ s x, I s → f s x = if p x then .ok (g s x) else .error (g s x)) (xs : List ι) {s : σ}
    (hs : I s) : xs.foldlM f s =
      if xs.all p then .ok ((reached p xs).foldl g s) else .error ((reached p xs).foldl g s) := by
  induction xs generalizing s with
  | nil => rfl
  | cons x xs ih =>
    rw [List.foldlM_cons, hf s x hs, reached, List.foldl_cons, List.all_cons]
    cases hx : p x with
    | false => rfl
    | true => exact ih (hg s x hs)

/-- Two nested loops are one loop over the pairs. -/
theorem foldlM_flatMap {σ ε ι κ : Type} (f : σ → κ → Except ε σ) (g : ι → List κ) (xs : List ι) (s : σ) :
    (xs.flatMap g).foldlM f s = xs.foldlM (fun s x => (g x).foldlM f s) s := by
  induction xs generalizing s with
  | nil => rfl
  | cons x xs ih =>
    rw [List.flatMap_cons, List.foldlM_append, List.foldlM_cons]
    exact congrArg _ (funext fun t => ih t)

/-! ## Searches -/

/-- `while (i < i + n && !p(i)) i++`. -/
def searchUp (p : Nat → Bool) : Nat → Nat → Nat
  | 0, i => i
  | n + 1, i => if p i then i else searchUp p n (i + 1)

/-- The least index below `n` that satisfies `p`, or `n`. -/
def first (p : Nat → Bool) (n : Nat) : Nat := searchUp p n 0

theorem searchUp_spec (p : Nat → Bool) (n i : Nat) :
    i ≤ searchUp p n i ∧ searchUp p n i ≤ i + n ∧
      (∀ k, i ≤ k → k < searchUp p n i → p k = false) ∧
      (searchUp p n i < i + n → p (searchUp p n i) = true) := by
  induction n generalizing i with
  | zero =>
    refine ⟨Nat.le_refl i, Nat.le_refl i, fun k h₁ h₂ => ?_, fun h => ?_⟩
    · simp only [searchUp] at h₂
      omega
    · simp [searchUp] at h
  | succ n ih =>
    unfold searchUp
    split
    next hp => exact ⟨Nat.le_refl i, by omega, fun k h₁ h₂ => by omega, fun _ => hp⟩
    next hp =>
      obtain ⟨hle, hub, hbelow, hfound⟩ := ih (i + 1)
      refine ⟨by omega, by omega, fun k h₁ h₂ => ?_, fun h => hfound (by omega)⟩
      by_cases hk : k = i
      · subst hk
        simpa using hp
      · exact hbelow k (by omega) h₂

theorem first_le (p : Nat → Bool) (n : Nat) : first p n ≤ n := by
  have := (searchUp_spec p n 0).2.1
  rwa [Nat.zero_add] at this

theorem not_of_lt_first {p : Nat → Bool} {n k : Nat} (h : k < first p n) : p k = false :=
  (searchUp_spec p n 0).2.2.1 k (Nat.zero_le k) h

theorem of_first_lt {p : Nat → Bool} {n : Nat} (h : first p n < n) : p (first p n) = true :=
  (searchUp_spec p n 0).2.2.2 (by rwa [Nat.zero_add])

/-- A search that succeeds stops at the first index that satisfies the test. -/
theorem first_eq_iff {p : Nat → Bool} {n k : Nat} (hk : k < n) :
    first p n = k ↔ p k = true ∧ ∀ j < k, p j = false := by
  constructor
  · rintro rfl
    exact ⟨of_first_lt hk, fun j hj => not_of_lt_first hj⟩
  · rintro ⟨hp, hbelow⟩
    rcases Nat.lt_trichotomy (first p n) k with h | h | h
    · have := of_first_lt (p := p) (n := n) (by omega)
      rw [hbelow _ h] at this
      exact absurd this Bool.false_ne_true
    · exact h
    · have := not_of_lt_first h
      rw [hp] at this
      exact absurd this.symm Bool.false_ne_true

/-- A search fails exactly when no index satisfies the test. -/
theorem first_eq_bound_iff {p : Nat → Bool} {n : Nat} :
    first p n = n ↔ ∀ j < n, p j = false := by
  constructor
  · intro h j hj
    exact not_of_lt_first (by rwa [h])
  · intro h
    by_contra hne
    have hlt : first p n < n := Nat.lt_of_le_of_ne (first_le p n) hne
    have := of_first_lt hlt
    rw [h _ hlt] at this
    exact Bool.false_ne_true this

theorem first_congr {p q : Nat → Bool} {n : Nat} (h : ∀ j < n, p j = q j) :
    first p n = first q n := by
  rcases Nat.lt_or_ge (first q n) n with hlt | hge
  · rw [first_eq_iff hlt]
    obtain ⟨hq, hbelow⟩ := (first_eq_iff hlt).mp rfl
    exact ⟨(h _ hlt).trans hq, fun j hj => (h j (by omega)).trans (hbelow j hj)⟩
  · have hq : first q n = n := Nat.le_antisymm (first_le q n) hge
    rw [hq, first_eq_bound_iff]
    exact fun j hj => (h j hj).trans (first_eq_bound_iff.mp hq j hj)

end Loop
