import Mathlib.Data.List.Forall2

/-!
Delivery at least once. Messages that are sent again until one copy arrives have the
effect of one delivery each, when to apply a message twice is to apply it once and
no message goes out before the one in front of it has arrived.
-/

namespace Delivery

variable {σ μ : Type} (f : σ → μ → σ)

/-- What arrives for one message: a copy of it at least, and what has no effect. -/
structure Delivers (m : μ) (arrived : List μ) : Prop where
  one : m ∈ arrived
  other : ∀ x ∈ arrived, x = m ∨ ∀ s, f s x = s

variable {f}

theorem foldl_of_applied {m : μ} (hidem : ∀ s, f (f s m) m = f s m) {xs : List μ}
    (h : ∀ x ∈ xs, x = m ∨ ∀ s, f s x = s) (s : σ) : xs.foldl f (f s m) = f s m := by
  induction xs with
  | nil => rfl
  | cons x xs ih =>
    rw [List.forall_mem_cons] at h
    rw [List.foldl_cons]
    rcases h.1 with rfl | hx
    · rw [hidem, ih h.2]
    · rw [hx, ih h.2]

/-- The copies of a message have the effect of one. -/
theorem Delivers.foldl {m : μ} (hidem : ∀ s, f (f s m) m = f s m) {arrived : List μ}
    (h : Delivers f m arrived) (s : σ) : arrived.foldl f s = f s m := by
  obtain ⟨hone, hother⟩ := h
  induction arrived generalizing s with
  | nil => exact absurd hone List.not_mem_nil
  | cons x xs ih =>
    rw [List.forall_mem_cons] at hother
    rw [List.foldl_cons]
    rcases List.mem_cons.mp hone with rfl | hmem
    · exact foldl_of_applied hidem hother.2 s
    · rcases hother.1 with rfl | hx
      · exact foldl_of_applied hidem hother.2 s
      · rw [hx, ih s hmem hother.2]

/-- Messages delivered in order, each at least once, have the effect of each once. -/
theorem foldl_delivered {ms : List μ} {arrived : List (List μ)} (h : List.Forall₂ (Delivers f) ms arrived)
    (hidem : ∀ m ∈ ms, ∀ s, f (f s m) m = f s m) (s : σ) : arrived.flatten.foldl f s = ms.foldl f s := by
  induction h generalizing s with
  | nil => rfl
  | cons hm _ ih =>
    rw [List.forall_mem_cons] at hidem
    rw [List.flatten_cons, List.foldl_append, hm.foldl hidem.1, List.foldl_cons, ih hidem.2]

/-- A part of what arrives for one message has its effect once or none. -/
theorem Delivers.foldl_prefix {m : μ} (hidem : ∀ s, f (f s m) m = f s m) {arrived xs : List μ}
    (h : Delivers f m arrived) (hxs : xs <+: arrived) :
    (∀ s, xs.foldl f s = s) ∨ ∀ s, xs.foldl f s = f s m := by
  have hother : ∀ x ∈ xs, x = m ∨ ∀ s, f s x = s := fun x hx => h.other x (hxs.subset hx)
  by_cases hm : m ∈ xs
  · exact Or.inr (Delivers.foldl hidem ⟨hm, hother⟩)
  · refine Or.inl fun s => ?_
    clear hxs
    induction xs with
    | nil => rfl
    | cons x xs ih =>
      rw [List.mem_cons, not_or] at hm
      rw [List.forall_mem_cons] at hother
      rw [List.foldl_cons, hother.1.resolve_left fun hx => hm.1 hx.symm, ih hother.2 hm.2]

/-- Wherever the arrivals stop, they have the effect of the first messages, each once. -/
theorem foldl_prefix {ms : List μ} {arrived : List (List μ)} (h : List.Forall₂ (Delivers f) ms arrived)
    (hidem : ∀ m ∈ ms, ∀ s, f (f s m) m = f s m) {xs : List μ} (hxs : xs <+: arrived.flatten) :
    ∃ n, ∀ s, xs.foldl f s = (ms.take n).foldl f s := by
  induction h generalizing xs with
  | nil =>
    rw [List.flatten_nil, List.prefix_nil] at hxs
    exact ⟨0, fun s => by rw [hxs]; rfl⟩
  | @cons m a ms arrived hm _ ih =>
    rw [List.forall_mem_cons] at hidem
    rw [List.flatten_cons] at hxs
    rcases List.prefix_or_prefix_of_prefix hxs (List.prefix_append a arrived.flatten) with hin | ⟨rest, rfl⟩
    · rcases hm.foldl_prefix hidem.1 hin with hnone | hone
      · exact ⟨0, hnone⟩
      · exact ⟨1, hone⟩
    · obtain ⟨n, hn⟩ := ih hidem.2 ((List.prefix_append_right_inj a).mp hxs)
      refine ⟨n + 1, fun s => ?_⟩
      rw [List.foldl_append, hm.foldl hidem.1, hn, List.take_succ_cons, List.foldl_cons]

end Delivery
