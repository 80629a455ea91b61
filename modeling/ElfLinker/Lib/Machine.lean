import Mathlib.Logic.Relation

/-!
Machines that take one step after the other until a step gives a result. A step
that is not defined is a fault: a run that ends has made none.
-/

namespace Machine

variable {σ ρ : Type}

/-- At most `n` steps. -/
def run (step : σ → Option (σ ⊕ ρ)) : Nat → σ → Option ρ
  | 0, _ => none
  | n + 1, s =>
    match step s with
    | none => none
    | some (.inl s') => run step n s'
    | some (.inr r) => some r

def Reaches (step : σ → Option (σ ⊕ ρ)) : σ → σ → Prop :=
  Relation.ReflTransGen fun s s' => step s = some (.inl s')

/-- The run from `s` ends, with the result `r`. -/
def Ends (step : σ → Option (σ ⊕ ρ)) (s : σ) (r : ρ) : Prop :=
  ∃ s', Reaches step s s' ∧ step s' = some (.inr r)

variable {step : σ → Option (σ ⊕ ρ)} {s s' s'' : σ} {r : ρ}

theorem Reaches.refl : Reaches step s s := Relation.ReflTransGen.refl

theorem Reaches.single (h : step s = some (.inl s')) : Reaches step s s' :=
  Relation.ReflTransGen.single h

theorem Reaches.trans (h : Reaches step s s') (h' : Reaches step s' s'') : Reaches step s s'' :=
  Relation.ReflTransGen.trans h h'

/-- A machine whose steps another one makes. -/
theorem Reaches.lift {σ' ρ' : Type} {step' : σ' → Option (σ' ⊕ ρ')} (f : σ → σ')
    (hf : ∀ s s', step s = some (.inl s') → step' (f s) = some (.inl (f s'))) (h : Reaches step s s') :
    Reaches step' (f s) (f s') :=
  Relation.ReflTransGen.lift f hf _ _ h

theorem Ends.of_reaches (h : Reaches step s s') (h' : Ends step s' r) : Ends step s r := by
  obtain ⟨t, ht, hr⟩ := h'
  exact ⟨t, h.trans ht, hr⟩

theorem Ends.single (h : step s = some (.inr r)) : Ends step s r := ⟨s, Reaches.refl, h⟩

/-- Every number of steps from some one on gives the result of a run that ends. -/
theorem Ends.run (h : Ends step s r) : ∃ n, ∀ k, n ≤ k → run step k s = some r := by
  obtain ⟨t, ht, hr⟩ := h
  induction ht using Relation.ReflTransGen.head_induction_on with
  | refl =>
    refine ⟨1, fun k hk => ?_⟩
    obtain ⟨k, rfl⟩ := Nat.exists_eq_add_of_le' hk
    rw [Machine.run, hr]
  | head hstep _ ih =>
    obtain ⟨n, hn⟩ := ih
    refine ⟨n + 1, fun k hk => ?_⟩
    obtain ⟨k, rfl⟩ := Nat.exists_eq_add_of_le' hk
    rw [show k + (n + 1) = (k + n) + 1 by omega, Machine.run, hstep]
    exact hn (k + n) (by omega)

end Machine
