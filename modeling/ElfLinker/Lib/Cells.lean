import Mathlib.Tactic.Common

/-!
Blocks of allocated memory. A block has a number of cells, each of which may not
be set yet; reading or writing outside the block and reading a cell that is not
set are faults.
-/

abbrev Cells (α : Type) := List (Option α)

namespace Cells

variable {α : Type}

def read (b : Cells α) (i : Nat) : Option α := b[i]?.join

def write (b : Cells α) (i : Nat) (a : α) : Option (Cells α) :=
  if i < b.length then some (b.set i (some a)) else none

/-- The values `xs` written from `off` on. -/
def store (b : Cells α) (off : Nat) (xs : List α) : Option (Cells α) :=
  if off + xs.length ≤ b.length then
    some (b.take off ++ xs.map some ++ b.drop (off + xs.length))
  else none

/-- The `n` values from `off` on. -/
def load (b : Cells α) (off n : Nat) : Option (List α) :=
  (List.range' off n).mapM fun i => b.read i

/-- `for (i = 0; i < n; i++) b[i] = b[off + i]`. -/
def move (b : Cells α) (off n : Nat) : Option (Cells α) :=
  (List.range n).foldlM (fun b i => do
    let a ← b.read (off + i)
    b.write i a) b

/-- The block made `n` cells longer: what it holds is kept, what is new is not set. -/
def extend (b : Cells α) (n : Nat) : Cells α := b ++ List.replicate n none

/-! ## What a block holds -/

/-- The values `xs` are in the cells from `off` on. -/
def Holds (b : Cells α) (off : Nat) (xs : List α) : Prop :=
  ∀ i, i < xs.length → b.read (off + i) = xs[i]?

theorem read_of_write {b b' : Cells α} {i : Nat} {a : α} (h : b.write i a = some b') (j : Nat) :
    b'.read j = if j = i then some a else b.read j := by
  unfold write at h
  split at h
  next hi =>
    obtain rfl := Option.some.inj h
    unfold read
    split
    next hj => rw [hj, List.getElem?_set_self hi]; rfl
    next hj => rw [List.getElem?_set_ne (Ne.symm hj)]
  next => exact absurd h (by simp)

theorem length_write {b b' : Cells α} {i : Nat} {a : α} (h : b.write i a = some b') :
    b'.length = b.length := by
  unfold write at h
  split at h
  next => rw [← Option.some.inj h, List.length_set]
  next => exact absurd h (by simp)

theorem exists_write {b : Cells α} {i : Nat} (a : α) (hi : i < b.length) : ∃ b', b.write i a = some b' :=
  ⟨_, if_pos hi⟩

/-- Writing back what a cell held undoes a write. -/
theorem write_write {b b' : Cells α} {i : Nat} {a a' : α} (hread : b.read i = some a)
    (h : b.write i a' = some b') : b'.write i a = some b := by
  have hlen := length_write h
  unfold write at h ⊢
  split at h
  next hi =>
    obtain rfl := Option.some.inj h
    rw [if_pos (by rwa [hlen]), List.set_set]
    refine congrArg some (List.ext_getElem? fun j => ?_)
    by_cases hj : i = j
    · rw [← hj, List.getElem?_set_self hi]
      unfold read at hread
      rw [List.getElem?_eq_getElem hi, Option.join_some] at hread
      rw [List.getElem?_eq_getElem hi, hread]
    · rw [List.getElem?_set_ne hj]
  next => exact absurd h (by simp)

theorem read_of_store {b b' : Cells α} {off : Nat} {xs : List α} (h : b.store off xs = some b') (j : Nat) :
    b'.read j = if off ≤ j ∧ j < off + xs.length then xs[j - off]? else b.read j := by
  unfold store at h
  split at h
  next hle =>
    obtain rfl := Option.some.inj h
    unfold read
    rw [List.append_assoc]
    rcases Nat.lt_or_ge j off with hj | hj
    · rw [if_neg (by omega), List.getElem?_append_left (by rw [List.length_take]; omega),
        List.getElem?_take_of_lt hj]
    · rw [List.getElem?_append_right (by rw [List.length_take]; omega), List.length_take,
        Nat.min_eq_left (by omega)]
      rcases Nat.lt_or_ge j (off + xs.length) with hj' | hj'
      · rw [if_pos ⟨hj, hj'⟩, List.getElem?_append_left (by rw [List.length_map]; omega),
          List.getElem?_map]
        cases xs[j - off]? <;> rfl
      · rw [if_neg (by omega), List.getElem?_append_right (by rw [List.length_map]; omega),
          List.length_map, List.getElem?_drop]
        congr 2
        omega
  next => exact absurd h (by simp)

theorem length_store {b b' : Cells α} {off : Nat} {xs : List α} (h : b.store off xs = some b') :
    b'.length = b.length := by
  unfold store at h
  split at h
  next hle =>
    rw [← Option.some.inj h]
    simp only [List.length_append, List.length_take, List.length_map, List.length_drop]
    omega
  next => exact absurd h (by simp)

theorem exists_store {b : Cells α} {off : Nat} {xs : List α} (h : off + xs.length ≤ b.length) :
    ∃ b', b.store off xs = some b' :=
  ⟨_, if_pos h⟩

theorem read_extend {b : Cells α} {i : Nat} {a : α} (h : b.read i = some a) (n : Nat) :
    (b.extend n).read i = some a := by
  unfold read at h ⊢
  rw [extend, List.getElem?_append_left]
  · exact h
  · by_contra hi
    rw [List.getElem?_eq_none (by omega)] at h
    exact absurd h (by simp)

theorem extend_extend (b : Cells α) (m n : Nat) : (b.extend m).extend n = b.extend (m + n) := by
  rw [extend, extend, extend, List.append_assoc, List.replicate_append_replicate]

@[simp] theorem extend_zero (b : Cells α) : b.extend 0 = b := List.append_nil b

@[simp] theorem length_extend (b : Cells α) (n : Nat) : (b.extend n).length = b.length + n := by
  rw [extend, List.length_append, List.length_replicate]

/-- Moving to the front goes through when every cell read is set: the cell that is
read next has not been written, by induction on the number of cells moved. -/
theorem exists_move {b : Cells α} {off : Nat} {xs : List α} (h : b.Holds off xs)
    (hlen : xs.length ≤ b.length) :
    ∃ b', b.move off xs.length = some b' ∧ b'.length = b.length ∧ b'.Holds 0 xs ∧
      ∀ j, xs.length ≤ j → b'.read j = b.read j := by
  have hstep : ∀ n, n ≤ xs.length → ∃ b', b.move off n = some b' ∧ b'.length = b.length ∧
      (∀ j, j < n → b'.read j = xs[j]?) ∧ ∀ j, n ≤ j → b'.read j = b.read j := by
    intro n
    induction n with
    | zero => exact fun _ => ⟨b, rfl, rfl, fun j hj => absurd hj (Nat.not_lt_zero j), fun _ _ => rfl⟩
    | succ n ih =>
      intro hn
      obtain ⟨b', hmove, hl, hfront, hrest⟩ := ih (by omega)
      have hread : b'.read (off + n) = xs[n]? := (hrest _ (by omega)).trans (h n (by omega))
      rw [List.getElem?_eq_getElem (by omega)] at hread
      obtain ⟨b'', hwrite⟩ := exists_write xs[n] (show n < b'.length by omega)
      refine ⟨b'', ?_, (length_write hwrite).trans hl, fun j hj => ?_, fun j hj => ?_⟩
      · unfold move at hmove ⊢
        rw [List.range_succ, List.foldlM_append, hmove]
        simp only [List.foldlM_cons, List.foldlM_nil, Option.bind_eq_bind, Option.bind_some, hread,
          hwrite]
        rfl
      · rw [read_of_write hwrite]
        split
        next hjn => rw [hjn, List.getElem?_eq_getElem (by omega)]
        next hjn => exact hfront j (by omega)
      · rw [read_of_write hwrite, if_neg (by omega)]
        exact hrest j (by omega)
  obtain ⟨b', hmove, hl, hfront, hrest⟩ := hstep xs.length (Nat.le_refl _)
  exact ⟨b', hmove, hl, fun i hi => by rw [Nat.zero_add]; exact hfront i hi, hrest⟩

/-- What a block holds can be loaded. -/
theorem load_of_holds {b : Cells α} {off : Nat} {xs : List α} (h : b.Holds off xs) :
    b.load off xs.length = some xs := by
  induction xs generalizing off with
  | nil => rfl
  | cons a xs ih =>
    have hhead : b.read off = some a := h 0 (Nat.succ_pos _)
    have htail : b.Holds (off + 1) xs := by
      intro i hi
      have := h (i + 1) (by rw [List.length_cons]; omega)
      rwa [show off + (i + 1) = off + 1 + i by omega, List.getElem?_cons_succ] at this
    have hload := ih htail
    unfold load at hload ⊢
    rw [List.length_cons, List.range'_succ, List.mapM_cons, hhead, hload]
    rfl

theorem Holds.take {b : Cells α} {off : Nat} {xs : List α} (h : b.Holds off xs) (n : Nat) :
    b.Holds off (xs.take n) := by
  intro i hi
  rw [List.length_take] at hi
  rw [h i (by omega), List.getElem?_take_of_lt (by omega)]

theorem Holds.drop {b : Cells α} {off : Nat} {xs : List α} (h : b.Holds off xs) (n : Nat) :
    b.Holds (off + n) (xs.drop n) := by
  intro i hi
  rw [List.length_drop] at hi
  rw [Nat.add_assoc, h (n + i) (by omega), List.getElem?_drop]

theorem Holds.append {b : Cells α} {off : Nat} {xs ys : List α} (h : b.Holds off xs)
    (h' : b.Holds (off + xs.length) ys) : b.Holds off (xs ++ ys) := by
  intro i hi
  rw [List.length_append] at hi
  rcases Nat.lt_or_ge i xs.length with hlt | hge
  · rw [h i hlt, List.getElem?_append_left hlt]
  · have := h' (i - xs.length) (by omega)
    rw [List.getElem?_append_right hge, ← this]
    congr 1
    omega

theorem Holds.extend {b : Cells α} {off : Nat} {xs : List α} (h : b.Holds off xs) (n : Nat) :
    (b.extend n).Holds off xs := by
  intro i hi
  rw [List.getElem?_eq_getElem hi]
  exact read_extend ((h i hi).trans (List.getElem?_eq_getElem hi)) n

/-- Only the cells it covers matter to what a block holds. -/
theorem Holds.congr {b b' : Cells α} {off : Nat} {xs : List α} (h : b.Holds off xs)
    (heq : ∀ j, off ≤ j → j < off + xs.length → b'.read j = b.read j) : b'.Holds off xs :=
  fun i hi => (heq (off + i) (by omega) (by omega)).trans (h i hi)

/-- Values stored after others that the block holds. -/
theorem Holds.store {b b' : Cells α} {xs ys : List α} (h : b.Holds 0 xs)
    (h' : b.store xs.length ys = some b') : b'.Holds 0 (xs ++ ys) := by
  refine Holds.append (h.congr fun j _ hj => ?_) fun i hi => ?_
  · rw [read_of_store h', if_neg (by omega)]
  · rw [read_of_store h', if_pos (by omega), Nat.zero_add, Nat.add_sub_cancel_left]

end Cells
