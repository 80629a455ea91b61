import ElfLinker.Lib.Lexer

/-!
Automata for scanners by longest match: each state says what the text read so far
is a match of, and the piece to take is the longest text after which some state
did. A default rule takes a character alone that starts no match.
-/

structure Automaton (α σ τ : Type) where
  start : σ
  step : σ → α → σ
  accept : σ → Option τ

namespace Automaton

variable {α σ τ : Type} (A : Automaton α σ τ)

/-- The state after the text `w`. -/
def after (w : List α) : σ := w.foldl A.step A.start

@[simp] theorem after_nil : A.after [] = A.start := rfl

theorem after_append_singleton (w : List α) (c : α) : A.after (w ++ [c]) = A.step (A.after w) c := by
  rw [after, List.foldl_append]
  rfl

/-- The longest match among the prefixes of `n` characters or less. -/
def lastAccept (input : List α) : Nat → Option (τ × Nat)
  | 0 => none
  | n + 1 =>
    match A.accept (A.after (input.take (n + 1))) with
    | some t => some (t, n + 1)
    | none => lastAccept input n

theorem lastAccept_succ_of_some {input : List α} {n : Nat} {t : τ}
    (h : A.accept (A.after (input.take (n + 1))) = some t) :
    A.lastAccept input (n + 1) = some (t, n + 1) := by
  rw [lastAccept, h]

theorem lastAccept_succ_of_none {input : List α} {n : Nat}
    (h : A.accept (A.after (input.take (n + 1))) = none) :
    A.lastAccept input (n + 1) = A.lastAccept input n := by
  rw [lastAccept, h]

theorem lastAccept_some {input : List α} {n k : Nat} {t : τ} (h : A.lastAccept input n = some (t, k)) :
    0 < k ∧ k ≤ n ∧ A.accept (A.after (input.take k)) = some t := by
  induction n with
  | zero => exact absurd h (by simp [lastAccept])
  | succ n ih =>
    cases ha : A.accept (A.after (input.take (n + 1))) with
    | some t' =>
      rw [A.lastAccept_succ_of_some ha] at h
      obtain ⟨rfl, rfl⟩ := Prod.mk.inj (Option.some.inj h)
      exact ⟨by omega, Nat.le_refl _, ha⟩
    | none =>
      rw [A.lastAccept_succ_of_none ha] at h
      obtain ⟨hpos, hle, hk⟩ := ih h
      exact ⟨hpos, by omega, hk⟩

/-- Only the characters read are looked at. -/
theorem lastAccept_congr {input input' : List α} {n : Nat} (h : input.take n = input'.take n) :
    A.lastAccept input n = A.lastAccept input' n := by
  induction n with
  | zero => rfl
  | succ n ih =>
    have hn : input.take n = input'.take n := by
      have := congrArg (List.take n) h
      rwa [List.take_take, List.take_take, Nat.min_eq_left (Nat.le_succ n)] at this
    rw [lastAccept, lastAccept, h, ih hn]

/-! ## States that end a match -/

/-- No match goes through this state. -/
def Dead (s : σ) : Prop := ∀ w : List α, A.accept (w.foldl A.step s) = none

/-- No match is longer than one that leads here. -/
def Final (s : σ) : Prop := ∀ c, A.Dead (A.step s c)

variable {A}

/-- When the state after `n` characters is final, no longer text has to be read. -/
theorem lastAccept_of_final {input : List α} {n : Nat} (h : A.Final (A.after (input.take n)))
    (hn : n ≤ input.length) : A.lastAccept input input.length = A.lastAccept input n := by
  obtain ⟨k, hk⟩ := Nat.exists_eq_add_of_le hn
  rw [hk]
  have hstep : ∀ j, j ≤ k → A.lastAccept input (n + j) = A.lastAccept input n := by
    intro j
    induction j with
    | zero => exact fun _ => rfl
    | succ j ih =>
      intro hj
      have hlt : n + j < input.length := by omega
      have hlt' : n < input.length := by omega
      have hsplit : input.take (n + (j + 1)) =
          input.take n ++ (input[n] :: (input.drop (n + 1)).take j) := by
        rw [List.take_add, List.drop_eq_getElem_cons hlt',
          List.take_succ_cons]
      rw [show n + (j + 1) = (n + j) + 1 by omega, A.lastAccept_succ_of_none, ih (by omega)]
      rw [show n + j + 1 = n + (j + 1) by omega, hsplit, after, List.foldl_append, List.foldl_cons]
      exact h _ _
  exact hstep k (Nat.le_refl k)

theorem Dead.final {s : σ} (h : A.Dead s) : A.Final s := fun c w => h (c :: w)

/-! ## The automaton of a list of rules -/

/-- The automaton says which rule matches a text, and that the default rule does
where none matches a character alone. -/
def Recognizes [DecidableEq α] (A : Automaton α σ (Option τ)) (rules : List (Lexer.Rule α τ)) : Prop :=
  ∀ w, A.accept (A.after w) =
    match Lexer.firstMatch rules w with
    | some t => some (some t)
    | none => if w.length = 1 then some none else none

variable [DecidableEq α] {B : Automaton α σ (Option τ)} {rules : List (Lexer.Rule α τ)}

/-- The search with the automaton is the search with the rules, and the default rule
when that one finds nothing. -/
theorem Recognizes.lastAccept_eq (h : Recognizes B rules) {input : List α} {n : Nat} (hpos : 0 < n)
    (hn : n ≤ input.length) : B.lastAccept input n =
      match Lexer.longestUpTo rules input n with
      | some (t, k) => some (some t, k)
      | none => some (none, 1) := by
  obtain ⟨n, rfl⟩ := Nat.exists_eq_add_of_le' hpos
  induction n with
  | zero =>
    have hone : (input.take (0 + 1)).length = 1 := by rw [List.length_take]; omega
    rw [lastAccept, h, Lexer.longestUpTo]
    cases Lexer.firstMatch rules (input.take (0 + 1)) with
    | some t => rfl
    | none => simp only [hone, if_true, Lexer.longestUpTo]
  | succ n ih =>
    have hlong : (input.take (n + 1 + 1)).length ≠ 1 := by rw [List.length_take]; omega
    rw [lastAccept, h, Lexer.longestUpTo]
    cases Lexer.firstMatch rules (input.take (n + 1 + 1)) with
    | some t => rfl
    | none =>
      simp only [hlong, if_false]
      exact ih (by omega) (by omega)

/-- The first piece of an input, as the automaton finds it. -/
theorem Recognizes.tokens_eq (h : Recognizes B rules) {input : List α} {t : Option τ} {k : Nat}
    (hk : B.lastAccept input input.length = some (t, k)) :
    Lexer.tokens rules input = (t, input.take k) :: Lexer.tokens rules (input.drop k) := by
  cases input with
  | nil => exact absurd hk (by simp [lastAccept])
  | cons c cs =>
    rw [h.lastAccept_eq (by simp) (Nat.le_refl _)] at hk
    rw [Lexer.tokens]
    split
    next t' n hn =>
      rw [Lexer.longest] at hn
      rw [hn] at hk
      obtain ⟨rfl, rfl⟩ := Prod.mk.inj (Option.some.inj hk)
      rfl
    next hn =>
      rw [Lexer.longest] at hn
      rw [hn] at hk
      obtain ⟨rfl, rfl⟩ := Prod.mk.inj (Option.some.inj hk)
      rfl

/-- Every input has a first piece. -/
theorem Recognizes.exists_lastAccept (h : Recognizes B rules) {input : List α} (hne : input ≠ []) :
    ∃ t k, B.lastAccept input input.length = some (t, k) := by
  rw [h.lastAccept_eq (List.length_pos_iff.mpr hne) (Nat.le_refl _)]
  split
  · exact ⟨_, _, rfl⟩
  · exact ⟨_, _, rfl⟩

end Automaton
