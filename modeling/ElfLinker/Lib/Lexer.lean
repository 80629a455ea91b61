import Mathlib.Computability.RegularExpressions

/-!
Scanners by longest match. A scanner is a list of rules, each a regular
expression with an action; at every position it takes the longest piece of the
input that some rule matches, and the first of the rules that match it. A
character that starts no match is passed over by itself.
-/

namespace Lexer

variable {α τ : Type}

/-! ## Character classes -/

/-- `[..]`: one character of a list. -/
def cls : List α → RegularExpression α
  | [] => 0
  | c :: cs => .char c + cls cs

theorem mem_matches_cls {cs : List α} {w : List α} :
    w ∈ (cls cs).matches' ↔ ∃ c ∈ cs, w = [c] := by
  induction cs with
  | nil => exact iff_of_false (Language.notMem_zero w) (by simp)
  | cons a cs ih =>
    rw [cls, RegularExpression.matches'_add, Language.mem_add, ih, RegularExpression.matches'_char]
    simp only [List.mem_cons, exists_eq_or_imp]
    rfl

/-- `[..]*`: the strings over a list of characters. -/
theorem mem_matches_star_cls {cs : List α} {w : List α} :
    w ∈ (cls cs).star.matches' ↔ ∀ c ∈ w, c ∈ cs := by
  rw [RegularExpression.matches'_star, Language.mem_kstar]
  constructor
  · rintro ⟨pieces, rfl, hpieces⟩ c hc
    rw [List.mem_flatten] at hc
    obtain ⟨piece, hpiece, hc⟩ := hc
    obtain ⟨a, ha, rfl⟩ := mem_matches_cls.mp (hpieces piece hpiece)
    rwa [List.mem_singleton.mp hc]
  · intro h
    refine ⟨w.map fun c => [c], ?_, fun piece hpiece => ?_⟩
    · induction w with
      | nil => rfl
      | cons c w ih =>
        rw [List.map_cons, List.flatten_cons, ← ih fun a ha => h a (List.mem_cons_of_mem _ ha)]
        rfl
    · obtain ⟨c, hc, rfl⟩ := List.mem_map.mp hpiece
      exact mem_matches_cls.mpr ⟨c, h c hc, rfl⟩

/-! ## Longest match -/

structure Rule (α τ : Type) where
  action : τ
  pattern : RegularExpression α

variable [DecidableEq α]

/-- The action of the first rule that matches the whole of `w`. -/
def firstMatch (rules : List (Rule α τ)) (w : List α) : Option τ :=
  (rules.find? fun r => r.pattern.rmatch w).map Rule.action

/-- The longest match among the prefixes of `n` characters or less. -/
def longestUpTo (rules : List (Rule α τ)) (input : List α) : Nat → Option (τ × Nat)
  | 0 => none
  | n + 1 =>
    match firstMatch rules (input.take (n + 1)) with
    | some t => some (t, n + 1)
    | none => longestUpTo rules input n

def longest (rules : List (Rule α τ)) (input : List α) : Option (τ × Nat) :=
  longestUpTo rules input input.length

/-- `w` is the piece of the input that the scanner takes, for the action `t`. -/
structure LongestMatch (rules : List (Rule α τ)) (input : List α) (t : τ) (w rest : List α) : Prop where
  split : input = w ++ rest
  nonempty : w ≠ []
  first : firstMatch rules w = some t
  maximal : ∀ w' rest', input = w' ++ rest' → w.length < w'.length → firstMatch rules w' = none

theorem longestUpTo_some {rules : List (Rule α τ)} {input : List α} {n k : Nat} {t : τ}
    (h : longestUpTo rules input n = some (t, k)) :
    0 < k ∧ k ≤ n ∧ firstMatch rules (input.take k) = some t := by
  induction n with
  | zero => exact absurd h (by simp [longestUpTo])
  | succ n ih =>
    unfold longestUpTo at h
    split at h
    next t' ht =>
      obtain ⟨rfl, rfl⟩ := Prod.mk.inj (Option.some.inj h)
      exact ⟨by omega, Nat.le_refl _, ht⟩
    next =>
      obtain ⟨hpos, hle, hm⟩ := ih h
      exact ⟨hpos, by omega, hm⟩

/-- A match longer than every other one is the one the search finds. -/
theorem longestUpTo_of_match {rules : List (Rule α τ)} {input : List α} {n k : Nat} {t : τ}
    (hpos : 0 < k) (hk : k ≤ n) (hm : firstMatch rules (input.take k) = some t)
    (hmax : ∀ j, k < j → j ≤ n → firstMatch rules (input.take j) = none) :
    longestUpTo rules input n = some (t, k) := by
  induction n with
  | zero => omega
  | succ n ih =>
    rcases Nat.lt_or_ge n k with hn | hn
    · obtain rfl : k = n + 1 := by omega
      rw [longestUpTo, hm]
    · rw [longestUpTo, hmax (n + 1) (by omega) (Nat.le_refl _)]
      exact ih hn fun j hj hjn => hmax j hj (by omega)

theorem longest_of_longestMatch {rules : List (Rule α τ)} {input w rest : List α} {t : τ}
    (h : LongestMatch rules input t w rest) : longest rules input = some (t, w.length) := by
  have htake : input.take w.length = w := by rw [h.split, List.take_left]
  have hlen : w.length ≤ input.length := by rw [h.split, List.length_append]; omega
  refine longestUpTo_of_match (List.length_pos_iff.mpr h.nonempty) hlen (by rw [htake]; exact h.first) ?_
  intro j hj hjn
  refine h.maximal _ (input.drop j) (List.take_append_drop j input).symm ?_
  rw [List.length_take]
  omega

/-! ## The pieces of an input -/

/-- The input cut into pieces: each match with its action, and each character
that no match starts with. -/
def tokens (rules : List (Rule α τ)) : List α → List (Option τ × List α)
  | [] => []
  | c :: cs =>
    match _h : longest rules (c :: cs) with
    | some (t, n) => (some t, (c :: cs).take n) :: tokens rules ((c :: cs).drop n)
    | none => (none, [c]) :: tokens rules cs
termination_by input => input.length
decreasing_by
  · have := (longestUpTo_some _h).1
    rw [List.length_drop]
    simp only [List.length_cons]
    omega
  · simp

@[simp] theorem tokens_nil (rules : List (Rule α τ)) : tokens rules [] = [] := by
  rw [tokens]

/-- The scanner takes the longest match first. -/
theorem tokens_of_longestMatch {rules : List (Rule α τ)} {input w rest : List α} {t : τ}
    (h : LongestMatch rules input t w rest) : tokens rules input = (some t, w) :: tokens rules rest := by
  have hlong := longest_of_longestMatch h
  cases input with
  | nil => exact absurd (List.append_eq_nil_iff.mp h.split.symm).1 h.nonempty
  | cons c cs =>
    rw [tokens]
    split
    next t' n hn =>
      obtain ⟨rfl, rfl⟩ := Prod.mk.inj (Option.some.inj (hn.symm.trans hlong))
      rw [h.split, List.take_left, List.drop_left]
    next hn => exact absurd (hn.symm.trans hlong) (by simp)

/-- Every piece taken for an action is matched by a rule with that action. -/
theorem firstMatch_of_mem_tokens {rules : List (Rule α τ)} {input w : List α} {t : τ}
    (h : (some t, w) ∈ tokens rules input) : firstMatch rules w = some t := by
  induction input using tokens.induct rules with
  | case1 => exact absurd h (by simp)
  | case2 c cs t' n hn ih =>
    rw [tokens] at h
    split at h
    next t'' k hk =>
      obtain ⟨rfl, rfl⟩ := Prod.mk.inj (Option.some.inj (hn.symm.trans hk))
      rw [List.mem_cons] at h
      cases h with
      | inl heq =>
        obtain ⟨ht, rfl⟩ := Prod.mk.inj heq
        rw [Option.some.inj ht]
        exact (longestUpTo_some hn).2.2
      | inr hrest => exact ih hrest
    next hk => exact absurd (hn.symm.trans hk) (by simp)
  | case3 c cs hn ih =>
    rw [tokens] at h
    split at h
    next t'' k hk => exact absurd (hn.symm.trans hk) (by simp)
    next =>
      rw [List.mem_cons] at h
      cases h with
      | inl heq => exact absurd (Prod.mk.inj heq).1 (by simp)
      | inr hrest => exact ih hrest

/-- The pieces make up the input. -/
theorem flatMap_tokens (rules : List (Rule α τ)) (input : List α) :
    (tokens rules input).flatMap Prod.snd = input := by
  induction input using tokens.induct rules with
  | case1 => rw [tokens_nil]; rfl
  | case2 c cs t n hn ih =>
    rw [tokens]
    split
    next t' k hk =>
      obtain ⟨rfl, rfl⟩ := Prod.mk.inj (Option.some.inj (hn.symm.trans hk))
      rw [List.flatMap_cons, ih]
      exact List.take_append_drop n (c :: cs)
    next hk => exact absurd (hn.symm.trans hk) (by simp)
  | case3 c cs hn ih =>
    rw [tokens]
    split
    next t' k hk => exact absurd (hn.symm.trans hk) (by simp)
    next => rw [List.flatMap_cons, ih]; rfl

/-- No piece is empty. -/
theorem ne_nil_of_mem_tokens {rules : List (Rule α τ)} {input : List α} {p : Option τ × List α}
    (h : p ∈ tokens rules input) : p.2 ≠ [] := by
  induction input using tokens.induct rules with
  | case1 => exact absurd h (by simp)
  | case2 c cs t n hn ih =>
    rw [tokens] at h
    split at h
    next t' k hk =>
      obtain ⟨rfl, rfl⟩ := Prod.mk.inj (Option.some.inj (hn.symm.trans hk))
      rw [List.mem_cons] at h
      rcases h with rfl | h
      · have hpos := (longestUpTo_some hn).1
        obtain ⟨n, rfl⟩ := Nat.exists_eq_add_of_le' hpos
        exact List.cons_ne_nil c _
      · exact ih h
    next hk => exact absurd (hn.symm.trans hk) (by simp)
  | case3 c cs hn ih =>
    rw [tokens] at h
    split at h
    next t' k hk => exact absurd (hn.symm.trans hk) (by simp)
    next =>
      rw [List.mem_cons] at h
      rcases h with rfl | h
      · exact List.cons_ne_nil c []
      · exact ih h

theorem exists_rule_of_firstMatch {rules : List (Rule α τ)} {w : List α} {t : τ}
    (h : firstMatch rules w = some t) : ∃ r ∈ rules, r.action = t ∧ w ∈ r.pattern.matches' := by
  unfold firstMatch at h
  rw [Option.map_eq_some_iff] at h
  obtain ⟨r, hr, ht⟩ := h
  have hm : r.pattern.rmatch w = true := by simpa using List.find?_some hr
  exact ⟨r, List.mem_of_find?_eq_some hr, ht, (r.pattern.rmatch_iff_matches' w).mp hm⟩

theorem firstMatch_cons_of_mem {r : Rule α τ} (rules : List (Rule α τ)) {w : List α}
    (hw : w ∈ r.pattern.matches') : firstMatch (r :: rules) w = some r.action := by
  rw [firstMatch, List.find?_cons, (r.pattern.rmatch_iff_matches' w).mpr hw]
  rfl

theorem firstMatch_cons_of_notMem {r : Rule α τ} (rules : List (Rule α τ)) {w : List α}
    (hw : w ∉ r.pattern.matches') : firstMatch (r :: rules) w = firstMatch rules w := by
  have hm : r.pattern.rmatch w = false :=
    Bool.eq_false_iff.mpr fun ht => hw ((r.pattern.rmatch_iff_matches' w).mp ht)
  rw [firstMatch, List.find?_cons, hm]
  rfl

end Lexer
