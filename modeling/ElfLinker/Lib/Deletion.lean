import ElfLinker.Lib.Loop

/-!
Deleting entries of a table and renumbering what refers to them. `renumber d` is
the new index of an entry when entry `d` is deleted, `rank q l` the index an
entry gets when only the entries that satisfy `q` are kept; deleting one entry
that does not satisfy `q` leaves the ranks of the others alone, so deletions one
at a time add up to the filter.
-/

namespace Deletion

variable {α : Type}

/-- The index after the deletion of entry `d`. -/
def renumber (d k : Nat) : Nat := if d < k then k - 1 else k

/-- The entry that gets index `j` when entry `d` is deleted. -/
def origin (d j : Nat) : Nat := if j < d then j else j + 1

theorem origin_ne (d j : Nat) : origin d j ≠ d := by
  unfold origin
  split <;> omega

@[simp] theorem renumber_origin (d j : Nat) : renumber d (origin d j) = j := by
  unfold renumber origin
  split <;> split <;> omega

theorem origin_renumber {d k : Nat} (h : k ≠ d) : origin d (renumber d k) = k := by
  unfold renumber origin
  split <;> split <;> omega

theorem renumber_lt {d k n : Nat} (hk : k < n) (hd : d < n) (h : k ≠ d) :
    renumber d k < n - 1 := by
  unfold renumber
  split <;> omega

theorem origin_lt {d j n : Nat} (hj : j < n - 1) : origin d j < n := by
  unfold origin
  split <;> omega

theorem renumber_eq_self_iff {d k : Nat} : renumber d k = k ↔ ¬d < k := by
  unfold renumber
  split <;> omega

theorem renumber_inj {d j k : Nat} (hj : j ≠ d) (hk : k ≠ d) :
    renumber d j = renumber d k ↔ j = k := by
  unfold renumber
  split <;> split <;> omega

theorem getElem?_eraseIdx_origin (l : List α) (d j : Nat) :
    (l.eraseIdx d)[j]? = l[origin d j]? := by
  rw [List.getElem?_eraseIdx]
  unfold origin
  split <;> rfl

/-- A search over the table without entry `d` finds entry `k` when `k` is the
first of the other entries that satisfies the test. -/
theorem first_origin_eq_iff {p : Nat → Bool} {d k n : Nat} (hk : k < n) (hd : d < n) (h : k ≠ d) :
    Loop.first (fun j => p (origin d j)) (n - 1) = renumber d k ↔
      p k = true ∧ ∀ j < k, j ≠ d → p j = false := by
  rw [Loop.first_eq_iff (renumber_lt hk hd h), origin_renumber h]
  refine and_congr_right fun _ => ⟨fun hbelow j hj hjd => ?_, fun hbelow j hj => ?_⟩
  · have := hbelow (renumber d j) (by unfold renumber; split <;> split <;> omega)
    rwa [origin_renumber hjd] at this
  · refine hbelow _ ?_ (origin_ne d j)
    unfold renumber at hj
    unfold origin
    split at hj <;> split <;> omega

/-! ## The shifting loop -/

/-- Entry `i + 1` is copied over entry `i`; `past` is what lies after the table. -/
def shiftStep (past : Nat → α) (t : List α) (i : Nat) : List α :=
  t.set i (t.getD (i + 1) (past (i + 1)))

/-- The loop from entry `d` to the last one, up to index `p`: the entries below
`p` are replaced by their successors, the last one by what lies after the table. -/
theorem shift_entries (past : Nat → α) (l : List α) (d p : Nat) (hd : d ≤ p) (hp : p ≤ l.length) :
    ((List.range' d (p - d)).foldl (shiftStep past) l).length = l.length ∧
      ∀ j, ((List.range' d (p - d)).foldl (shiftStep past) l)[j]? =
        if d ≤ j ∧ j < p then (l ++ [past l.length])[j + 1]? else l[j]? := by
  have key := Loop.range'_rule (shiftStep past)
    (fun p t => t.length = l.length ∧
      ∀ j, t[j]? = if d ≤ j ∧ j < p then (l ++ [past l.length])[j + 1]? else l[j]?) d (p - d) l
    ⟨rfl, fun j => by rw [if_neg (by omega)]⟩ ?_
  · rwa [show d + (p - d) = p by omega] at key
  rintro i t hdi hi ⟨hlen, hget⟩
  refine ⟨by rw [shiftStep, List.length_set, hlen], fun j => ?_⟩
  have hnext : t.getD (i + 1) (past (i + 1)) = (l ++ [past l.length]).getD (i + 1) (past (i + 1)) := by
    rw [List.getD_eq_getElem?_getD, hget, if_neg (by omega), List.getD_eq_getElem?_getD]
    by_cases hl : i + 1 < l.length
    · rw [List.getElem?_append_left hl]
    · rw [List.getElem?_eq_none (by omega), show i + 1 = l.length by omega]
      simp
  rw [shiftStep, List.getElem?_set, hnext]
  by_cases hij : i = j
  · subst hij
    rw [if_pos rfl, if_pos (by omega), if_pos (by omega), List.getD_eq_getElem?_getD,
      List.getElem?_eq_getElem (by rw [List.length_append, List.length_singleton]; omega)]
    rfl
  · rw [if_neg hij, hget]
    by_cases hj : d ≤ j ∧ j < i
    · rw [if_pos hj, if_pos (by omega)]
    · rw [if_neg hj, if_neg (by omega)]

/-- Shifting down to the end and dropping the last entry deletes entry `d`,
whatever lies after the table. -/
theorem take_shift (past : Nat → α) (l : List α) (d : Nat) (hd : d < l.length) :
    ((List.range' d (l.length - d)).foldl (shiftStep past) l).take (l.length - 1) = l.eraseIdx d := by
  obtain ⟨-, hget⟩ := shift_entries past l d l.length (by omega) (Nat.le_refl _)
  apply List.ext_getElem?
  intro j
  rw [List.getElem?_take, hget, List.getElem?_eraseIdx]
  by_cases hj : j < l.length - 1
  · rw [if_pos hj]
    by_cases hdj : j < d
    · rw [if_neg (by omega), if_pos hdj]
    · rw [if_pos (by omega), if_neg hdj, List.getElem?_append_left (by omega)]
  · rw [if_neg hj, if_neg (by omega), List.getElem?_eq_none (by omega)]

/-! ## Keeping the entries that satisfy a test -/

/-- The index of entry `k` among the entries that satisfy `q`. -/
def rank (q : α → Bool) (l : List α) (k : Nat) : Nat := (l.take k).countP q

/-- The entries before and after entry `d`. -/
theorem exists_split {l : List α} {d : Nat} {a : α} (ha : l[d]? = some a) :
    ∃ pre post, l = pre ++ a :: post ∧ pre.length = d := by
  obtain ⟨hd, rfl⟩ := List.getElem?_eq_some_iff.mp ha
  refine ⟨l.take d, l.drop (d + 1), ?_, List.length_take_of_le (Nat.le_of_lt hd)⟩
  rw [← List.drop_eq_getElem_cons hd, List.take_append_drop]

theorem eraseIdx_split (pre post : List α) (a : α) :
    (pre ++ a :: post).eraseIdx pre.length = pre ++ post := by
  rw [List.eraseIdx_append_of_length_le (Nat.le_refl _), Nat.sub_self, List.eraseIdx_zero, List.tail_cons]

theorem filter_eraseIdx {q : α → Bool} {l : List α} {d : Nat} {a : α} (ha : l[d]? = some a)
    (hq : q a = false) : (l.eraseIdx d).filter q = l.filter q := by
  obtain ⟨pre, post, rfl, rfl⟩ := exists_split ha
  rw [eraseIdx_split, List.filter_append, List.filter_append, List.filter_cons_of_neg (by simp [hq])]

/-- Deleting an entry that is not kept changes no rank. -/
theorem rank_eraseIdx {q : α → Bool} {l : List α} {d k : Nat} {a : α} (ha : l[d]? = some a)
    (hq : q a = false) : rank q (l.eraseIdx d) (renumber d k) = rank q l k := by
  obtain ⟨pre, post, rfl, rfl⟩ := exists_split ha
  rw [eraseIdx_split]
  unfold rank renumber
  split
  next hdk =>
    have hpre : ∀ n, pre.length ≤ n → pre.take n = pre := fun n => List.take_of_length_le
    rw [List.take_append, List.take_append, hpre (k - 1) (by omega), hpre k (by omega),
      show k - pre.length = (k - 1 - pre.length) + 1 by omega, List.take_succ_cons,
      List.countP_append, List.countP_append, List.countP_cons_of_neg (by simp [hq])]
  next hdk =>
    rw [List.take_append_of_le_length (by omega), List.take_append_of_le_length (by omega)]

/-- Kept entries come out of the filter at their rank. -/
theorem getElem?_filter_rank {q : α → Bool} {l : List α} {k : Nat} {a : α} (ha : l[k]? = some a)
    (hq : q a = true) : (l.filter q)[rank q l k]? = some a := by
  obtain ⟨pre, post, rfl, rfl⟩ := exists_split ha
  rw [rank, List.take_left, List.countP_eq_length_filter, List.filter_append,
    List.filter_cons_of_pos hq, List.getElem?_append_right (Nat.le_refl _), Nat.sub_self,
    List.getElem?_cons_zero]

/-- Deleting an entry that is counted lowers the count by one. -/
theorem countP_eraseIdx {q : α → Bool} {l : List α} {d : Nat} {a : α} (ha : l[d]? = some a)
    (hq : q a = true) : (l.eraseIdx d).countP q + 1 = l.countP q := by
  obtain ⟨pre, post, rfl, rfl⟩ := exists_split ha
  rw [eraseIdx_split, List.countP_append, List.countP_append, List.countP_cons_of_pos hq, Nat.add_assoc]

/-- The rank depends on which entries stay only. -/
theorem rank_congr {β : Type} {keep : α → Bool} {keep' : β → Bool} {l : List α} {l' : List β}
    (h : l.map keep = l'.map keep') (k : Nat) : rank keep l k = rank keep' l' k := by
  have hrank : ∀ {γ : Type} (p : γ → Bool) (m : List γ), rank p m k = ((m.map p).take k).countP id := by
    intro γ p m
    rw [rank, ← List.map_take, List.countP_map, Function.id_comp]
  rw [hrank, hrank, h]

/-- When every entry is kept the rank is the index. -/
theorem rank_of_forall {q : α → Bool} {l : List α} {k : Nat} (hk : k ≤ l.length)
    (h : ∀ a ∈ l, q a = true) : rank q l k = k := by
  rw [rank, List.countP_eq_length.mpr fun a ha => h a (List.mem_of_mem_take ha), List.length_take]
  omega

end Deletion
