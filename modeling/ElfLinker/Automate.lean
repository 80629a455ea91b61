import ElfLinker.Protocole
import ElfLinker.Lib.Automaton

/-!
The tables of `scanner.c`, which flex made from the rules of `scanner.l`, and the
transitions that the generated code reads from them. The tables are compressed: a
state lists the entries in which it differs from its default state.
-/

namespace ElfLinker

/-! ## The tables -/

def yyAccept : List Nat := [0, 0, 0, 6, 4, 5, 4, 1, 2, 0, 0, 0, 3, 0]

/-- The class of each byte. -/
def yyEc : List Nat := [
    0, 1, 1, 1, 1, 1, 1, 1, 1, 1, 2, 1, 1, 1, 1, 1, 1, 1, 1, 1,
    1, 1, 1, 1, 1, 1, 1, 1, 1, 1, 1, 1, 1, 1, 1, 3, 4, 1, 1, 1,
    1, 1, 1, 5, 1, 6, 1, 1, 7, 7, 7, 7, 7, 7, 7, 7, 7, 7, 1, 1,
    1, 1, 1, 1, 1, 7, 7, 7, 7, 7, 7, 1, 1, 1, 1, 1, 1, 1, 1, 1,
    1, 1, 1, 1, 1, 1, 1, 1, 1, 1, 1, 1, 1, 1, 1, 1, 1, 7, 7, 7,
    7, 7, 7, 1, 1, 1, 1, 1, 1, 1, 1, 1, 1, 1, 1, 1, 1, 1, 1, 1,
    1, 1, 1, 1, 1, 1, 1, 1, 1, 1, 1, 1, 1, 1, 1, 1, 1, 1, 1, 1,
    1, 1, 1, 1, 1, 1, 1, 1, 1, 1, 1, 1, 1, 1, 1, 1, 1, 1, 1, 1,
    1, 1, 1, 1, 1, 1, 1, 1, 1, 1, 1, 1, 1, 1, 1, 1, 1, 1, 1, 1,
    1, 1, 1, 1, 1, 1, 1, 1, 1, 1, 1, 1, 1, 1, 1, 1, 1, 1, 1, 1,
    1, 1, 1, 1, 1, 1, 1, 1, 1, 1, 1, 1, 1, 1, 1, 1, 1, 1, 1, 1,
    1, 1, 1, 1, 1, 1, 1, 1, 1, 1, 1, 1, 1, 1, 1, 1, 1, 1, 1, 1,
    1, 1, 1, 1, 1, 1, 1, 1, 1, 1, 1, 1, 1, 1, 1, 1]

def yyMeta : List Nat := [0, 1, 1, 1, 2, 1, 1, 1]

def yyBase : List Nat := [0, 0, 0, 13, 14, 14, 9, 14, 14, 8, 3, 2, 14, 14, 7]

def yyDef : List Nat := [0, 13, 1, 13, 13, 13, 14, 13, 13, 14, 13, 13, 13, 0, 13]

def yyNxt : List Nat := [0, 4, 5, 4, 6, 7, 8, 4, 9, 12, 11, 10, 10, 13, 3, 13, 13, 13, 13, 13, 13, 13]

def yyChk : List Nat := [0, 1, 1, 1, 1, 1, 1, 1, 14, 11, 10, 9, 6, 3, 13, 13, 13, 13, 13, 13, 13, 13]

/-! ## Transitions -/

/-- The `while` loop on `yy_chk` and the transition after it, for a state and a
class. Every subscript is checked; the chain of default states visits no state of
`yy_def` twice. -/
def yyTransition : Nat → Nat → Nat → Option Nat
  | 0, _, _ => none
  | tours + 1, etat, yyC => do
    let base ← yyBase[etat]?
    let chk ← yyChk[base + yyC]?
    if chk ≠ etat then
      let etat ← yyDef[etat]?
      let yyC ← if 14 ≤ etat then yyMeta[yyC]? else some yyC
      yyTransition tours etat yyC
    else
      yyNxt[base + yyC]?

/-- The next state, when no subscript is out of bounds. -/
def etatSuivant (etat yyC : Nat) : Nat := (yyTransition yyDef.length etat yyC).getD 0

/-- The states of the tables: 13 is the one that jams. -/
def yyJam : Nat := 13

/-- The state that the end of the buffer leads to. -/
def yyEtatEob : Nat := 3

/-- A state that a transition leads to: no subscript goes out of the tables from
there. -/
def Etat (etat : Nat) : Prop := 1 ≤ etat ∧ etat < 14

instance (etat : Nat) : Decidable (Etat etat) := inferInstanceAs (Decidable (_ ∧ _))

theorem yyTransition_eq {etat yyC : Nat} (he : Etat etat) (hc : yyC < 8) :
    yyTransition yyDef.length etat yyC = some (etatSuivant etat yyC) ∧ Etat (etatSuivant etat yyC) := by
  have h : ∀ etat < 14, ∀ yyC < 8, Etat etat →
      yyTransition yyDef.length etat yyC = some (etatSuivant etat yyC) ∧ Etat (etatSuivant etat yyC) := by
    decide
  exact h etat he.2 yyC hc he

/-- The class of a character of the input, of which a NUL is one like most. -/
def classe (c : UInt8) : Nat := if c = 0 then 1 else yyEc.getD c.toNat 0

/-- The class that the loop `yy_match` gives a byte. -/
theorem yyEc_eq (c : UInt8) : yyEc[c.toNat]? = some (if c = 0 then 0 else classe c) := by
  have h : ∀ n < 256, yyEc[n]? = some (if UInt8.ofNat n = 0 then 0 else classe (UInt8.ofNat n)) := by
    decide +kernel
  have hc := h c.toNat c.toNat_lt
  rwa [UInt8.ofNat_toNat] at hc

theorem classe_mem (c : UInt8) : 1 ≤ classe c ∧ classe c < 8 := by
  have h : ∀ n < 256, 1 ≤ classe (UInt8.ofNat n) ∧ classe (UInt8.ofNat n) < 8 := by decide +kernel
  have hc := h c.toNat c.toNat_lt
  rwa [UInt8.ofNat_toNat] at hc

/-- The characters that the rules tell apart. -/
theorem classe_iff (c : UInt8) : (classe c = 2 ↔ c = newline) ∧ (classe c = 3 ↔ c = hash) ∧
    (classe c = 4 ↔ c = dollar) ∧ (classe c = 5 ↔ c = plus) ∧ (classe c = 6 ↔ c = minus) ∧
    (classe c = 7 ↔ Hexa.isDigit c = true) := by
  have h : ∀ n < 256, let c := UInt8.ofNat n
      (classe c = 2 ↔ c = newline) ∧ (classe c = 3 ↔ c = hash) ∧ (classe c = 4 ↔ c = dollar) ∧
      (classe c = 5 ↔ c = plus) ∧ (classe c = 6 ↔ c = minus) ∧
      (classe c = 7 ↔ Hexa.isDigit c = true) := by decide +kernel
  have hc := h c.toNat c.toNat_lt
  rwa [UInt8.ofNat_toNat] at hc

/-! ## The automaton -/

/-- The rule that an action of `yylex` belongs to; action 5 is the default one. -/
def regleDe : Nat → Option (Option Regle)
  | 1 => some (some .ack)
  | 2 => some (some .retransmission)
  | 3 => some (some .packet)
  | 4 => some (some .caractere)
  | 5 => some none
  | _ => none

def automate : Automaton UInt8 Nat (Option Regle) where
  start := 1
  step etat c := etatSuivant etat (classe c)
  accept etat := regleDe (yyAccept.getD etat 0)

theorem automate_step (etat : Nat) (c : UInt8) : automate.step etat c = etatSuivant etat (classe c) := rfl

/-- No character leaves the state that jams. -/
theorem jam_dead : automate.Dead yyJam := by
  intro w
  induction w with
  | nil => rfl
  | cons c w ih =>
    have hstep : automate.step yyJam c = yyJam := by
      have h : ∀ yyC < 8, 1 ≤ yyC → etatSuivant yyJam yyC = yyJam := by decide
      exact h _ (classe_mem c).2 (classe_mem c).1
    rw [List.foldl_cons, hstep, ih]

/-- The states whose base is 14, where the loop stops: every character jams there. -/
theorem final_of_base {etat : Nat} (hb : yyBase[etat]? = some 14) : automate.Final etat := by
  intro c
  have h : ∀ etat < 15, yyBase[etat]? = some 14 → ∀ yyC < 8, 1 ≤ yyC → etatSuivant etat yyC = yyJam := by
    decide
  have hlt : etat < 15 := (List.getElem?_eq_some_iff.mp hb).1
  rw [automate_step, h etat hlt hb _ (classe_mem c).2 (classe_mem c).1]
  exact jam_dead

/-- A text without its end leads to a state of the tables other than the one of the
end of the buffer. -/
theorem after_etat (w : List UInt8) : Etat (automate.after w) ∧ automate.after w ≠ yyEtatEob := by
  have h : ∀ etat < 14, ∀ yyC < 8, 1 ≤ yyC → Etat etat → etatSuivant etat yyC ≠ yyEtatEob := by decide
  induction w using List.reverseRecOn with
  | nil => decide
  | append_singleton w c ih =>
    obtain ⟨hpos, hlt⟩ := classe_mem c
    rw [Automaton.after_append_singleton, automate_step]
    exact ⟨(yyTransition_eq ih.1 hlt).2, h _ ih.1.2 _ hlt hpos ih.1⟩

/-! ## What the automaton recognizes -/

/-- What has to follow a `$` for a packet. -/
def FinDePacket (w : List UInt8) : Prop :=
  ∃ p a b, w = p ++ [hash, a, b] ∧ Free p ∧ Hexa.isDigit a = true ∧ Hexa.isDigit b = true

/-- What has to follow its `#`. -/
def deuxChiffres : List UInt8 → Bool
  | [a, b] => Hexa.isDigit a && Hexa.isDigit b
  | _ => false

theorem cons_mem_packetPattern {w : List UInt8} :
    dollar :: w ∈ packetPattern.matches' ↔ FinDePacket w := by
  rw [mem_packetPattern]
  constructor
  · rintro ⟨p, a, b, hw, hp⟩
    exact ⟨p, a, b, (List.cons.inj hw).2, hp⟩
  · rintro ⟨p, a, b, hw, hp⟩
    exact ⟨p, a, b, congrArg (dollar :: ·) hw, hp⟩

theorem not_finDePacket_nil : ¬ FinDePacket [] := by
  rintro ⟨p, a, b, hw, _⟩
  exact absurd (congrArg List.length hw) (by simp)

theorem not_finDePacket_dollar (w : List UInt8) : ¬ FinDePacket (dollar :: w) := by
  rintro ⟨p, a, b, hw, hp, _⟩
  cases p with
  | nil => exact absurd (List.cons.inj hw).1 (by decide)
  | cons c p =>
    obtain ⟨rfl, _⟩ := List.cons.inj hw
    exact (hp dollar List.mem_cons_self).1 rfl

theorem finDePacket_hash {w : List UInt8} : FinDePacket (hash :: w) ↔ deuxChiffres w = true := by
  constructor
  · rintro ⟨p, a, b, hw, hp, ha, hb⟩
    cases p with
    | nil =>
      obtain ⟨_, rfl⟩ := List.cons.inj hw
      rw [deuxChiffres, ha, hb]
      rfl
    | cons c p =>
      obtain ⟨rfl, _⟩ := List.cons.inj hw
      exact absurd rfl (hp hash List.mem_cons_self).2
  · intro h
    unfold deuxChiffres at h
    split at h
    next a b =>
      rw [Bool.and_eq_true] at h
      exact ⟨[], a, b, rfl, by decide, h.1, h.2⟩
    next => exact absurd h (by simp)

theorem finDePacket_cons {c : UInt8} {w : List UInt8} (hd : c ≠ dollar) (hh : c ≠ hash) :
    FinDePacket (c :: w) ↔ FinDePacket w := by
  constructor
  · rintro ⟨p, a, b, hw, hp, ha, hb⟩
    cases p with
    | nil => exact absurd (List.cons.inj hw).1 hh
    | cons d p => exact ⟨p, a, b, (List.cons.inj hw).2, fun e he => hp e (List.mem_cons_of_mem _ he), ha, hb⟩
  · rintro ⟨p, a, b, rfl, hp, ha, hb⟩
    exact ⟨c :: p, a, b, rfl, List.forall_mem_cons.mpr ⟨⟨hd, hh⟩, hp⟩, ha, hb⟩

theorem step_diese (c : UInt8) :
    automate.step 10 c = (if Hexa.isDigit c then 11 else yyJam) ∧
      automate.step 11 c = if Hexa.isDigit c then 12 else yyJam := by
  have h : ∀ yyC < 8, 1 ≤ yyC → etatSuivant 10 yyC = (if yyC = 7 then 11 else yyJam) ∧
      etatSuivant 11 yyC = if yyC = 7 then 12 else yyJam := by decide
  have hc := h (classe c) (classe_mem c).2 (classe_mem c).1
  simp only [(classe_iff c).2.2.2.2.2] at hc
  exact hc

/-- After the `#`: two digits end the packet, anything else jams. -/
theorem accept_diese (w : List UInt8) :
    automate.accept (w.foldl automate.step 10) = if deuxChiffres w then some (some .packet) else none := by
  match w with
  | [] => rfl
  | [a] =>
    rw [List.foldl_cons, (step_diese a).1]
    split <;> rfl
  | [a, b] =>
    rw [List.foldl_cons, List.foldl_cons, (step_diese a).1, deuxChiffres]
    cases ha : Hexa.isDigit a with
    | false => exact jam_dead [b]
    | true =>
      rw [if_pos rfl, (step_diese b).2, Bool.true_and]
      split <;> rfl
  | a :: b :: c :: w =>
    rw [List.foldl_cons, List.foldl_cons, (step_diese a).1]
    split
    · rw [(step_diese b).2]
      split
      · exact final_of_base (show yyBase[12]? = some 14 from rfl) c w
      · exact jam_dead (c :: w)
    · exact jam_dead (b :: c :: w)

/-- The states after a `$`, and after a character of the payload. -/
theorem step_corps {etat : Nat} (he : etat = 6 ∨ etat = 9) (c : UInt8) :
    automate.step etat c = if c = dollar then yyJam else if c = hash then 10 else 9 := by
  have h : ∀ yyC < 8, 1 ≤ yyC →
      etatSuivant etat yyC = if yyC = 4 then yyJam else if yyC = 3 then 10 else 9 := by
    rcases he with rfl | rfl <;> decide
  have hc := h (classe c) (classe_mem c).2 (classe_mem c).1
  simp only [(classe_iff c).2.1, (classe_iff c).2.2.1] at hc
  exact hc

/-- After the `$`, by induction on the text: each character of the payload leads back
to the same state. -/
theorem accept_corps {etat : Nat} (he : etat = 6 ∨ etat = 9) {w : List UInt8} (hne : w ≠ []) :
    (FinDePacket w → automate.accept (w.foldl automate.step etat) = some (some .packet)) ∧
      (¬ FinDePacket w → automate.accept (w.foldl automate.step etat) = none) := by
  induction w generalizing etat with
  | nil => exact absurd rfl hne
  | cons c w ih =>
    rw [List.foldl_cons, step_corps he]
    by_cases hd : c = dollar
    · rw [if_pos hd, hd]
      exact ⟨fun h => absurd h (not_finDePacket_dollar w), fun _ => jam_dead w⟩
    · by_cases hh : c = hash
      · rw [if_neg hd, if_pos hh, hh, accept_diese, finDePacket_hash]
        exact ⟨fun h => if_pos h, fun h => if_neg h⟩
      · rw [if_neg hd, if_neg hh, finDePacket_cons hd hh]
        cases w with
        | nil => exact ⟨fun h => absurd h not_finDePacket_nil, fun _ => rfl⟩
        | cons d w => exact ih (Or.inr rfl) (List.cons_ne_nil d w)

/-- A character that is not `$` is a whole match by itself. -/
theorem step_start (c : UInt8) : automate.step 1 c =
    if c = dollar then 6 else if c = newline then 5 else if c = plus then 7 else if c = minus then 8
    else 4 := by
  have h : ∀ yyC < 8, 1 ≤ yyC → etatSuivant 1 yyC =
      if yyC = 4 then 6 else if yyC = 2 then 5 else if yyC = 5 then 7 else if yyC = 6 then 8 else 4 := by
    decide
  have hc := h (classe c) (classe_mem c).2 (classe_mem c).1
  obtain ⟨hnl, _, hd, hp, hm, _⟩ := classe_iff c
  simp only [hnl, hd, hp, hm] at hc
  exact hc

/-- No rule matches the empty text. -/
theorem firstMatch_nil : Lexer.firstMatch regles [] = none := by
  have hpacket : [] ∉ packetPattern.matches' := by
    rw [mem_packetPattern]
    rintro ⟨p, a, b, hw, _⟩
    exact List.cons_ne_nil _ _ hw.symm
  have hdot : [] ∉ (Lexer.cls (allBut [newline])).matches' := by
    rw [Lexer.mem_matches_cls]
    rintro ⟨c, _, hw⟩
    exact List.cons_ne_nil _ _ hw.symm
  have hchar : ∀ d : UInt8, [] ∉ (RegularExpression.char d).matches' :=
    fun d hw => List.cons_ne_nil _ _ (Eq.symm hw)
  rw [regles, Lexer.firstMatch_cons_of_notMem _ (hchar plus), Lexer.firstMatch_cons_of_notMem _ (hchar minus),
    Lexer.firstMatch_cons_of_notMem _ hpacket, Lexer.firstMatch_cons_of_notMem _ hdot]
  rfl

/-- The rules on a character alone. -/
theorem firstMatch_singleton (c : UInt8) : Lexer.firstMatch regles [c] =
    if c = plus then some .ack else if c = minus then some .retransmission
    else if c = newline then none else some .caractere := by
  have hpacket : [c] ∉ packetPattern.matches' := by
    rw [mem_packetPattern]
    rintro ⟨p, a, b, hw, _⟩
    exact absurd (congrArg List.length hw) (by rw [length_packetText]; simp)
  have hchar : ∀ d : UInt8, [c] ∈ (RegularExpression.char d).matches' ↔ c = d := by
    intro d
    rw [RegularExpression.matches'_char]
    exact ⟨fun h => (List.cons.inj h).1, fun h => congrArg (fun e => [e]) h⟩
  have hdot : [c] ∈ (Lexer.cls (allBut [newline])).matches' ↔ c ≠ newline := by
    rw [Lexer.mem_matches_cls]
    simp
  rw [regles]
  split
  next hp => exact Lexer.firstMatch_cons_of_mem _ ((hchar plus).mpr hp)
  next hp =>
    rw [Lexer.firstMatch_cons_of_notMem _ (mt (hchar plus).mp hp)]
    split
    next hm => exact Lexer.firstMatch_cons_of_mem _ ((hchar minus).mpr hm)
    next hm =>
      rw [Lexer.firstMatch_cons_of_notMem _ (mt (hchar minus).mp hm),
        Lexer.firstMatch_cons_of_notMem _ hpacket]
      split
      next hn => exact Lexer.firstMatch_cons_of_notMem _ fun h => hdot.mp h hn
      next hn => exact Lexer.firstMatch_cons_of_mem _ (hdot.mpr hn)

/-- The state after a character alone accepts it, for the default rule if no other. -/
theorem accept_start (c : UInt8) :
    automate.accept (automate.step 1 c) = some (Lexer.firstMatch regles [c]) := by
  rw [step_start, firstMatch_singleton]
  by_cases hd : c = dollar
  · rw [hd]; decide
  · by_cases hn : c = newline
    · rw [hn]; decide
    · rw [if_neg hd, if_neg hn, if_neg hn]
      split
      · rfl
      · split <;> rfl

/-- Every state after one character other than `$` is one where the scanner stops. -/
theorem step_start_final {c : UInt8} (hd : c ≠ dollar) : yyBase[automate.step 1 c]? = some 14 := by
  rw [step_start, if_neg hd]
  repeat' split
  all_goals rfl

/-- The tables recognize the rules of `scanner.l`: after any text they say which rule
it matches, and that the default rule does when it is a newline. -/
theorem automate_recognizes : Automaton.Recognizes automate regles := by
  intro w
  match w with
  | [] => rw [firstMatch_nil]; rfl
  | [c] =>
    refine (accept_start c).trans ?_
    cases Lexer.firstMatch regles [c] <;> rfl
  | c :: d :: w =>
    have hlong := firstMatch_long (w := c :: d :: w) (by simp)
    have hafter : automate.after (c :: d :: w) = (d :: w).foldl automate.step (automate.step 1 c) := rfl
    rw [hafter]
    by_cases hd : c = dollar
    · obtain ⟨hpos, hneg⟩ := accept_corps (Or.inl rfl) (List.cons_ne_nil d w)
      rw [hd, cons_mem_packetPattern] at hlong
      rw [hd, step_start, if_pos rfl]
      by_cases hfin : FinDePacket (d :: w)
      · rw [hpos hfin, hlong.1 hfin]
      · rw [hneg hfin, hlong.2 hfin]
        rfl
    · have hnot : c :: d :: w ∉ packetPattern.matches' := by
        rw [mem_packetPattern]
        rintro ⟨p, a, b, hw, _⟩
        exact hd (List.cons.inj hw).1
      rw [hlong.2 hnot]
      exact final_of_base (step_start_final hd) d w

end ElfLinker
