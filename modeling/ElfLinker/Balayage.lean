import ElfLinker.Flex

/-!
What the engine of `scanner.c` takes is the next token of the stream, however the
reads cut it: the buffer holds the text not yet taken and two NUL, the state is the
one that the text read so far leads to, and each reading keeps both.
-/

namespace ElfLinker

open Yyguts

/-! ## The bytes to come -/

theorem fluxDe_append (as bs : List Arrivee) : fluxDe (as ++ bs) = fluxDe as ++ fluxDe bs := by
  induction as with
  | nil => rfl
  | cons a as ih =>
    cases a with
    | interruption => exact ih
    | octets lus reste => rw [List.cons_append, fluxDe, fluxDe, ih, List.append_assoc]

/-- A reading takes bytes from the front, at least one while some are to come, and
leaves what follows the arrivals it needs as it is. -/
theorem yyInput_spec {max : Nat} (hmax : 0 < max) (as : List Arrivee) :
    (yyInput max as).1 ++ fluxDe (yyInput max as).2 = fluxDe as ∧ (yyInput max as).1.length ≤ max ∧
      (fluxDe as ≠ [] → (yyInput max as).1 ≠ [] ∧
        ∀ bs, ∃ as', yyInput max (as ++ bs) = ((yyInput max as).1, as' ++ bs)) := by
  induction as with
  | nil => exact ⟨rfl, Nat.zero_le _, fun h => absurd rfl h⟩
  | cons a as ih =>
    cases a with
    | interruption => exact ih
    | octets lus reste =>
      by_cases hd : lus.drop max = []
      · have hall : yyInput max (.octets lus reste :: as) = (lus, as) := dif_pos hd
        rw [hall]
        refine ⟨rfl, List.drop_eq_nil_iff.mp hd, fun _ => ⟨reste, fun bs => ⟨as, ?_⟩⟩⟩
        exact dif_pos hd
      · have hcut : ∀ bs, yyInput max (.octets lus reste :: bs) =
            (lus.take max, .octets (lus.drop max) hd :: bs) := fun bs => dif_neg hd
        rw [hcut]
        refine ⟨?_, List.length_take_le _ _, fun _ => ⟨fun h => ?_, fun bs => ?_⟩⟩
        · rw [fluxDe, fluxDe, ← List.append_assoc, List.take_append_drop]
        · rw [List.take_eq_nil_iff] at h
          rcases h with h | h
          · omega
          · exact reste h
        · exact ⟨.octets (lus.drop max) hd :: as, hcut (as ++ bs)⟩

/-! ## The buffer -/

/-- The buffer holds `texte` from `debut` on, and the two NUL that end it. -/
structure Tampon (g : Yyguts) (debut : Nat) (texte : List UInt8) : Prop where
  taille : g.yyChBuf.length = g.yyBufSize + 2
  place : g.yyNChars < g.yyBufSize
  fin : debut + texte.length = g.yyNChars
  contenu : g.yyChBuf.Holds debut (texte ++ [0, 0])
  nouveau : g.yyBufferStatus = .new → g.bufNChars = g.yyNChars
  attente : g.yyBufferStatus = .eofPending → fluxDe g.arrivees = []

/-- The engine between two tokens: the byte that gave way to a NUL is back, and `P` is
what is left of the stream. -/
def Pret (g : Yyguts) (P : List UInt8) : Prop :=
  ∃ buf texte, g.yyChBuf.write g.yyCBufP g.yyHoldChar = some buf ∧
    Tampon { g with yyChBuf := buf } g.yyCBufP texte ∧ P = texte ++ fluxDe g.arrivees

theorem yylexInit_pret (etat pos : Nat) (arrivees : List Arrivee) :
    Pret (yylexInit etat pos arrivees) (fluxDe arrivees) := by
  have hlen : (yylexInit etat pos arrivees).yyChBuf.length = yyBufSizeInitial + 2 := by
    simp only [yylexInit, List.length_append, List.length_replicate, List.length_cons, List.length_nil]
    omega
  have hholds : (yylexInit etat pos arrivees).yyChBuf.Holds 0 [0, 0] := by
    intro i hi
    match i, hi with
    | 0, _ => rfl
    | 1, _ => rfl
  obtain ⟨buf, hbuf⟩ := Cells.exists_write (b := (yylexInit etat pos arrivees).yyChBuf) (i := 0) (0 : UInt8)
    (by rw [hlen]; omega)
  refine ⟨buf, [], hbuf, ⟨(Cells.length_write hbuf).trans hlen, Nat.succ_pos _, rfl, ?_, fun _ => rfl, ?_⟩, rfl⟩
  · refine hholds.congr fun j _ hj => ?_
    rw [Cells.read_of_write hbuf]
    split
    next h => rw [h]; rfl
    next => rfl
  · intro h
    exact absurd h (by simp [yylexInit])

/-- The two NUL are written where the text ends. -/
theorem exists_write_eob {b : Cells UInt8} {n taille : Nat} {texte : List UInt8} (htaille : b.length = taille + 2)
    (hplace : n < taille) (hfin : texte.length = n) (hb : b.Holds 0 texte) :
    ∃ b' b'', b.write n 0 = some b' ∧ b'.write (n + 1) 0 = some b'' ∧ b''.length = taille + 2 ∧
      b''.Holds 0 (texte ++ [0, 0]) := by
  obtain ⟨b', h'⟩ := Cells.exists_write (i := n) (0 : UInt8) (show n < b.length by omega)
  have hlen' := Cells.length_write h'
  obtain ⟨b'', h''⟩ := Cells.exists_write (i := n + 1) (0 : UInt8) (show n + 1 < b'.length by omega)
  refine ⟨b', b'', h', h'', by rw [Cells.length_write h'', hlen', htaille], ?_⟩
  refine Cells.Holds.append (hb.congr fun j _ hj => ?_) fun i hi => ?_
  · rw [Cells.read_of_write h'', if_neg (by omega), Cells.read_of_write h', if_neg (by omega)]
  · rw [Cells.read_of_write h'', Cells.read_of_write h', Nat.zero_add, hfin]
    match i, hi with
    | 0, _ => rw [if_neg (by omega), if_pos (by omega)]; rfl
    | 1, _ => rw [if_pos rfl]; rfl

/-! ## The last accepting state -/

variable {g g' : Yyguts} {debut k : Nat} {texte P : List UInt8}

/-- The engine keeps the longest match among the prefixes of `n` characters or less. -/
def Memoire (g : Yyguts) (debut : Nat) (P : List UInt8) (n : Nat) : Prop :=
  ∀ t j, automate.lastAccept P n = some (t, j) →
    g.yyLastAcceptingState = automate.after (P.take j) ∧ g.yyLastAcceptingCpos = debut + j

/-- `g` after the transition from `etat` at `yyCp` has recorded it. -/
def Yyguts.marque (g : Yyguts) (etat yyCp : Nat) : Yyguts :=
  if yyAccept.getD etat 0 ≠ 0 then g.setLastAccepting etat yyCp else g

theorem marque_eq (g : Yyguts) (etat yyCp : Nat) :
    ∃ e p, g.marque etat yyCp = g.setLastAccepting e p := by
  unfold Yyguts.marque
  split
  · exact ⟨_, _, rfl⟩
  · exact ⟨g.yyLastAcceptingState, g.yyLastAcceptingCpos, rfl⟩

theorem retient_eq {etat : Nat} (he : Etat etat) (g : Yyguts) (yyCp : Nat) :
    g.retient etat yyCp = some (g.marque etat yyCp) := by
  have hget : yyAccept[etat]? = some (yyAccept.getD etat 0) := by
    rw [List.getD_eq_getElem?_getD, List.getElem?_eq_getElem (show etat < yyAccept.length from he.2)]
    rfl
  unfold Yyguts.retient
  rw [hget]
  rfl

/-- The states without an action are those where no text is accepted. -/
theorem yyAccept_eq_zero {etat : Nat} (he : Etat etat) (hne : etat ≠ yyEtatEob) :
    yyAccept[etat]? = some (yyAccept.getD etat 0) ∧
      (automate.accept etat = none ↔ yyAccept.getD etat 0 = 0) := by
  have h : ∀ etat < 14, Etat etat → etat ≠ yyEtatEob → yyAccept[etat]? = some (yyAccept.getD etat 0) ∧
      (automate.accept etat = none ↔ yyAccept.getD etat 0 = 0) := by decide
  exact h etat he.2 he hne

theorem Memoire.marque (h : Memoire g debut P (k - 1)) (hk : k ≤ P.length) :
    Memoire (g.marque (automate.after (P.take k)) (debut + k)) debut P k := by
  cases k with
  | zero => exact fun t j hj => absurd hj (by simp [Automaton.lastAccept])
  | succ k =>
    obtain ⟨he, hne⟩ := after_etat (P.take (k + 1))
    have hzero := (yyAccept_eq_zero he hne).2
    intro t j hj
    cases ha : automate.accept (automate.after (P.take (k + 1))) with
    | some t' =>
      rw [automate.lastAccept_succ_of_some ha] at hj
      obtain ⟨_, rfl⟩ := Prod.mk.inj (Option.some.inj hj)
      rw [Yyguts.marque, if_pos (fun h0 => by rw [hzero.mpr h0] at ha; exact absurd ha (by simp))]
      exact ⟨rfl, rfl⟩
    | none =>
      rw [automate.lastAccept_succ_of_none ha] at hj
      rw [Yyguts.marque, if_neg (fun h0 => h0 (hzero.mp ha))]
      exact h t j hj

theorem Tampon.setLastAccepting (h : Tampon g debut texte) (etat yyCp : Nat) :
    Tampon (g.setLastAccepting etat yyCp) debut texte :=
  ⟨h.taille, h.place, h.fin, h.contenu, h.nouveau, h.attente⟩

theorem Tampon.setCBufP (h : Tampon g debut texte) (p : Nat) : Tampon { g with yyCBufP := p } debut texte :=
  ⟨h.taille, h.place, h.fin, h.contenu, h.nouveau, h.attente⟩

theorem Tampon.read (h : Tampon g debut texte) {i : Nat} (hi : i < texte.length) :
    g.yyChBuf.read (debut + i) = some texte[i] := by
  rw [h.contenu i (by rw [List.length_append]; omega), List.getElem?_append_left hi,
    List.getElem?_eq_getElem hi]

theorem classePrecedente_eq (c : UInt8) : classePrecedente c = some (classe c) := by
  unfold classePrecedente
  by_cases hc : c = 0
  · rw [if_neg (not_not.mpr hc), hc]; rfl
  · rw [if_pos hc, yyEc_eq, if_neg hc]

/-- `yy_get_previous_state` recomputes the state and the last accepting one, by
induction on the characters before `yy_c_buf_p`. -/
theorem foldlM_avance (h : Tampon g debut texte) (hk : k ≤ texte.length) (hP : texte <+: P) : ∃ e p,
    (List.range' debut k).foldlM avance (1, g) =
      some (automate.after (P.take k), g.setLastAccepting e p) ∧
    Memoire (g.setLastAccepting e p) debut P (k - 1) := by
  induction k with
  | zero =>
    refine ⟨g.yyLastAcceptingState, g.yyLastAcceptingCpos, rfl, fun t j hj => ?_⟩
    exact absurd hj (by simp [Automaton.lastAccept])
  | succ k ih =>
    obtain ⟨e, p, hfold, hmem⟩ := ih (by omega)
    have hkP : k < P.length := Nat.lt_of_lt_of_le hk hP.length_le
    have hchar : texte[k] = P[k] := hP.getElem hk
    obtain ⟨e', p', hmarque⟩ := marque_eq (g.setLastAccepting e p) (automate.after (P.take k)) (debut + k)
    refine ⟨e', p', ?_, ?_⟩
    · have hread : (g.setLastAccepting e p).yyChBuf.read (debut + k) = some P[k] :=
        (h.read hk).trans (congrArg some hchar)
      have hnext := (yyTransition_eq (after_etat (P.take k)).1 (classe_mem P[k]).2).1
      have hturn : avance (automate.after (P.take k), g.setLastAccepting e p) (debut + k) =
          some (automate.after (P.take (k + 1)), g.setLastAccepting e' p') := by
        simp only [avance, hread, classePrecedente_eq, retient_eq (after_etat (P.take k)).1, hmarque,
          hnext, Option.bind_eq_bind, Option.bind_some]
        rw [List.take_add_one, List.getElem?_eq_getElem hkP, Option.toList_some,
          Automaton.after_append_singleton]
        rfl
      rw [List.range'_1_concat, List.foldlM_append, hfold]
      simp only [Option.bind_eq_bind, Option.bind_some, List.foldlM_cons, List.foldlM_nil, hturn]
      rfl
    · have hm := hmem.marque (Nat.le_of_lt hkP)
      rw [hmarque] at hm
      exact hm

theorem yyGetPreviousState_eq (h : Tampon g debut texte) (hdebut : g.yytext = debut)
    (hp : g.yyCBufP = debut + k) (hk : k ≤ texte.length) (hP : texte <+: P) : ∃ e p,
      g.yyGetPreviousState = some (automate.after (P.take k), g.setLastAccepting e p) ∧
      Memoire (g.setLastAccepting e p) debut P (k - 1) := by
  unfold yyGetPreviousState
  rw [hdebut, hp, Nat.add_sub_cancel_left]
  exact foldlM_avance h hk hP

/-! ## Reading into the buffer -/

theorem agrandit_eq {tours : Nat} (hpos : 0 < g.yyBufSize) (htours : k + 1 < g.yyBufSize + tours)
    (htaille : g.yyChBuf.length = g.yyBufSize + 2) : ∃ n m,
      agrandit k (tours + 1) g = some { g with yyBufSize := n, yyChBuf := g.yyChBuf.extend m } ∧
      k + 1 < n ∧ g.yyChBuf.length + m = n + 2 := by
  induction tours generalizing g with
  | zero =>
    refine ⟨g.yyBufSize, 0, ?_, htours, htaille⟩
    rw [agrandit, if_neg (by omega), Cells.extend_zero]
  | succ tours ih =>
    rw [agrandit]
    split
    next =>
      obtain ⟨n, m, hgrow, hn, hm⟩ := ih
        (g := { g with yyBufSize := g.yyBufSize * 2, yyChBuf := g.yyChBuf.extend g.yyBufSize })
        (by simp only; omega) (by simp only; omega)
        (by simp only [Cells.length_extend, htaille]; omega)
      refine ⟨n, g.yyBufSize + m, ?_, hn, ?_⟩
      · rw [hgrow, Cells.extend_extend]
      · rw [Cells.length_extend] at hm
        omega
    next h => exact ⟨g.yyBufSize, 0, by rw [Cells.extend_zero], by omega, htaille⟩

/-- What a reading leaves: the text at the front, and what was read after it. -/
structure Rempli (g g' : Yyguts) (texte lus : List UInt8) : Prop where
  taille : g'.yyChBuf.length = g'.yyBufSize + 2
  place : texte.length + lus.length < g'.yyBufSize
  contenu : g'.yyChBuf.Holds 0 (texte ++ lus)
  compte : g'.yyNChars = lus.length
  statut : g'.yyBufferStatus = g.yyBufferStatus
  flux : lus ++ fluxDe g'.arrivees = fluxDe g.arrivees
  avance : fluxDe g.arrivees ≠ [] → lus ≠ []
  presse : ∀ as bs, g.arrivees = as ++ bs → fluxDe as ≠ [] → ∃ as', g'.arrivees = as' ++ bs

theorem remplit_spec (htaille : g.yyChBuf.length = g.yyBufSize + 2) (hplace : texte.length < g.yyBufSize)
    (hb : g.yyChBuf.Holds 0 texte) : ∃ g' lus, g.remplit texte.length = some g' ∧ Rempli g g' texte lus := by
  obtain ⟨n, m, hgrow, hn, hm⟩ : ∃ n m, agrandit texte.length (texte.length + 2) g =
      some { g with yyBufSize := n, yyChBuf := g.yyChBuf.extend m } ∧ texte.length + 1 < n ∧
        g.yyChBuf.length + m = n + 2 := agrandit_eq (by omega) (by omega) htaille
  have hmax : 0 < min (n - texte.length - 1) yyReadBufSize := by
    simp only [yyReadBufSize]
    omega
  obtain ⟨hflux, hle, hlus⟩ := yyInput_spec hmax g.arrivees
  obtain ⟨buf, hstore⟩ : ∃ buf, (g.yyChBuf.extend m).store texte.length
      (yyInput (min (n - texte.length - 1) yyReadBufSize) g.arrivees).1 = some buf :=
    Cells.exists_store (by rw [Cells.length_extend]; omega)
  refine ⟨{ g with
    yyBufSize := n
    yyChBuf := buf
    yyNChars := (yyInput (min (n - texte.length - 1) yyReadBufSize) g.arrivees).1.length
    bufNChars := (yyInput (min (n - texte.length - 1) yyReadBufSize) g.arrivees).1.length
    arrivees := (yyInput (min (n - texte.length - 1) yyReadBufSize) g.arrivees).2 }, _, ?_,
    ⟨?_, ?_, (hb.extend m).store hstore, rfl, rfl, hflux, fun h => (hlus h).1, ?_⟩⟩
  · unfold remplit
    simp only [hgrow, hstore, Option.bind_eq_bind, Option.bind_some]
    rfl
  · rw [Cells.length_store hstore, Cells.length_extend, hm]
  · simp only
    omega
  · intro as bs has hne
    obtain ⟨hsplit, _, hpres⟩ := yyInput_spec hmax as
    obtain ⟨as', hcut⟩ := (hpres hne).2 bs
    exact ⟨as', by rw [has, hcut]⟩

theorem termine_eq (htaille : g.yyChBuf.length = g.yyBufSize + 2) (hplace : texte.length < g.yyBufSize)
    (hk : g.yyNChars + k = texte.length) (hb : g.yyChBuf.Holds 0 texte) : ∃ buf,
      g.termine k = some { g with yyNChars := texte.length, yyChBuf := buf, yytext := 0 } ∧
      buf.length = g.yyBufSize + 2 ∧ buf.Holds 0 (texte ++ [0, 0]) := by
  obtain ⟨b', b'', h', h'', hlen, hholds⟩ := exists_write_eob htaille hplace rfl hb
  refine ⟨b'', ?_, hlen, hholds⟩
  unfold termine
  rw [if_neg (by omega)]
  simp only [hk, h', h'', Option.bind_eq_bind, Option.bind_some]
  rfl

/-- `yy_get_next_buffer` at the end of the text `texte`: the end of the stream when
there is no text either, the text as it is when no byte comes, or more text. -/
inductive Suivant (g : Yyguts) (texte : List UInt8) : Prop
  | endOfFile (g' : Yyguts) (hvide : texte = []) (hfin : fluxDe g.arrivees = [])
      (h : g.yyGetNextBuffer = some (.endOfFile, g')) (hprop : g'.yytext = 0 ∧ g'.yyHoldChar = 0)
      (tampon : Tampon g' 0 []) (flux : fluxDe g'.arrivees = [])
  | lastMatch (g' : Yyguts) (hne : texte ≠ []) (hfin : fluxDe g.arrivees = [])
      (h : g.yyGetNextBuffer = some (.lastMatch, g')) (hprop : g'.yytext = 0)
      (tampon : Tampon g' 0 texte) (flux : fluxDe g'.arrivees = [])
  | continueScan (g' : Yyguts) (lus : List UInt8) (reste : lus ≠ [])
      (h : g.yyGetNextBuffer = some (.continueScan, g')) (hprop : g'.yytext = 0)
      (tampon : Tampon g' 0 (texte ++ lus)) (flux : lus ++ fluxDe g'.arrivees = fluxDe g.arrivees)
      (presse : ∀ as bs, g.arrivees = as ++ bs → fluxDe as ≠ [] → ∃ as', g'.arrivees = as' ++ bs)

/-- The scanner that `yyrestart` leaves, with the bytes `buf`. -/
def Yyguts.relance (g : Yyguts) (buf : Cells UInt8) : Yyguts :=
  { g with
    bufNChars := 0
    yyChBuf := buf
    yyBufferStatus := .new
    yyNChars := 0
    yytext := 0
    yyCBufP := 0
    yyHoldChar := 0 }

theorem yyrestart_eq (htaille : 2 ≤ g.yyChBuf.length) :
    ∃ buf, g.yyrestart = some (g.relance buf) ∧ buf.length = g.yyChBuf.length := by
  obtain ⟨b', h'⟩ := Cells.exists_write (b := g.yyChBuf) (i := 0) (0 : UInt8) (by omega)
  obtain ⟨b'', h''⟩ := Cells.exists_write (b := b') (i := 1) (0 : UInt8) (by rw [Cells.length_write h']; omega)
  have hread : b''.read 0 = some 0 := by
    rw [Cells.read_of_write h'', if_neg (by omega), Cells.read_of_write h', if_pos rfl]
  refine ⟨b'', ?_, by rw [Cells.length_write h'', Cells.length_write h']⟩
  unfold yyrestart
  simp only [h', h'', hread, Option.bind_eq_bind, Option.bind_some]
  rfl

section FinDeLecture

variable {g₁ g₂ : Yyguts} {lus : List UInt8}

/-- Nothing read and no text: `yyrestart` has made the buffer new. -/
theorem suite_vide (h : Rempli g₁ g₂ [] []) : ∃ buf,
    g₂.suite 0 = some (.endOfFile, { g₂.relance buf with yyNChars := 0, yytext := 0 }) ∧
      buf.length = g₂.yyBufSize + 2 ∧ buf.Holds 0 [0, 0] := by
  obtain ⟨buf, hrestart, hlen⟩ := yyrestart_eq (g := g₂) (by rw [h.taille]; omega)
  have hverdict : g₂.verdict 0 = some (.endOfFile, g₂.relance buf) := by
    have hzero : g₂.yyNChars = 0 := h.compte
    unfold verdict
    rw [if_pos hzero, if_pos rfl, hrestart]
    rfl
  have hvide : (g₂.relance buf).yyChBuf.Holds 0 [] := fun i hi => absurd hi (Nat.not_lt_zero i)
  obtain ⟨buf', htermine, hlen', hholds⟩ := termine_eq (g := g₂.relance buf) (k := 0)
    (hlen.trans h.taille) h.place rfl hvide
  refine ⟨buf', ?_, hlen', hholds⟩
  unfold Yyguts.suite
  rw [hverdict]
  simp only [Option.bind_eq_bind, Option.bind_some, htermine]
  rfl

/-- Nothing read after some text: the text is matched as it is. -/
theorem suite_texte (h : Rempli g₁ g₂ texte []) (hne : texte ≠ []) : ∃ buf,
    g₂.suite texte.length = some (.lastMatch, { g₂ with
      yyBufferStatus := .eofPending
      yyNChars := texte.length
      yyChBuf := buf
      yytext := 0 }) ∧ buf.length = g₂.yyBufSize + 2 ∧ buf.Holds 0 (texte ++ [0, 0]) := by
  have hcontenu := h.contenu
  rw [List.append_nil] at hcontenu
  have hverdict : g₂.verdict texte.length = some (.lastMatch, { g₂ with yyBufferStatus := .eofPending }) := by
    have hzero : g₂.yyNChars = 0 := h.compte
    unfold verdict
    rw [if_pos hzero, if_neg fun h0 => hne (List.length_eq_zero_iff.mp h0)]
  obtain ⟨buf, htermine, hlen, hholds⟩ := termine_eq (k := texte.length)
    (g := { g₂ with yyBufferStatus := .eofPending }) h.taille h.place
    ((congrArg (· + texte.length) h.compte).trans (Nat.zero_add _)) hcontenu
  refine ⟨buf, ?_, hlen, hholds⟩
  unfold Yyguts.suite
  rw [hverdict]
  simp only [Option.bind_eq_bind, Option.bind_some, htermine]
  rfl

/-- Something read: the scan goes on. -/
theorem suite_lus (h : Rempli g₁ g₂ texte lus) (hlus : lus ≠ []) : ∃ buf,
    g₂.suite texte.length = some (.continueScan, { g₂ with
      yyNChars := (texte ++ lus).length
      yyChBuf := buf
      yytext := 0 }) ∧ buf.length = g₂.yyBufSize + 2 ∧ buf.Holds 0 (texte ++ lus ++ [0, 0]) := by
  have hverdict : g₂.verdict texte.length = some (.continueScan, g₂) := by
    unfold verdict
    rw [if_neg fun h0 => hlus (List.length_eq_zero_iff.mp (h.compte.symm.trans h0))]
  have hk : g₂.yyNChars + texte.length = (texte ++ lus).length := by
    rw [List.length_append, h.compte, Nat.add_comm]
  obtain ⟨buf, htermine, hlen, hholds⟩ := termine_eq h.taille
    (by rw [List.length_append]; exact h.place) hk h.contenu
  refine ⟨buf, ?_, hlen, hholds⟩
  unfold Yyguts.suite
  rw [hverdict]
  simp only [Option.bind_eq_bind, Option.bind_some, htermine]
  rfl

end FinDeLecture

/-- `yy_get_next_buffer` by what was read and what was there. -/
theorem suivant_of_rempli {g₁ g₂ : Yyguts} {lus : List UInt8} (h : Rempli g₁ g₂ texte lus)
    (hstatut : g₁.yyBufferStatus ≠ .new) (harr : g₁.arrivees = g.arrivees)
    (hattente : g₁.yyBufferStatus = .eofPending → fluxDe g.arrivees = [])
    (hnext : g.yyGetNextBuffer = g₂.suite texte.length) : Suivant g texte := by
  have hflux := h.flux
  rw [harr] at hflux
  by_cases hlus : lus = []
  · subst hlus
    have hfin : fluxDe g.arrivees = [] := by
      by_contra hne
      exact h.avance (by rwa [harr]) rfl
    rw [List.nil_append, hfin] at hflux
    by_cases hvide : texte = []
    · subst hvide
      obtain ⟨buf, hsuite, hlen, hholds⟩ := suite_vide h
      exact .endOfFile _ rfl hfin (hnext.trans hsuite) ⟨rfl, rfl⟩
        ⟨hlen, h.place, rfl, hholds, fun _ => rfl, fun _ => hflux⟩ hflux
    · obtain ⟨buf, hsuite, hlen, hholds⟩ := suite_texte h hvide
      exact .lastMatch _ hvide hfin (hnext.trans hsuite) rfl
        ⟨hlen, h.place, Nat.zero_add _, hholds, fun h0 => absurd h0 (by simp), fun _ => hflux⟩ hflux
  · obtain ⟨buf, hsuite, hlen, hholds⟩ := suite_lus h hlus
    refine .continueScan _ lus hlus (hnext.trans hsuite) rfl
      ⟨hlen, ?_, Nat.zero_add _, hholds, ?_, ?_⟩ hflux ?_
    · rw [List.length_append]
      exact h.place
    · exact fun h0 => absurd (h.statut.symm.trans h0) hstatut
    · intro h0
      rw [hattente (h.statut.symm.trans h0), List.append_eq_nil_iff] at hflux
      exact absurd hflux.1 hlus
    · intro as bs has hne
      exact h.presse as bs (harr.trans has) hne

/-- One call of `yy_get_next_buffer`, when the whole text has been matched. -/
theorem yyGetNextBuffer_spec (h : Tampon g g.yytext texte) (hp : g.yyCBufP = g.yytext + texte.length + 1)
    (hstatut : g.yyBufferStatus ≠ .new) : Suivant g texte := by
  have hfin := h.fin
  have htaille := h.taille
  have hplace := h.place
  have htexte : g.yyChBuf.Holds g.yytext texte := by
    have := h.contenu.take texte.length
    rwa [List.take_left] at this
  obtain ⟨buf, hmove, hlen, hfront, _⟩ := Cells.exists_move htexte (by omega)
  have hk : g.yyCBufP - g.yytext - 1 = texte.length := by omega
  have hcall : g.yyGetNextBuffer =
      (lit { g with yyChBuf := buf } texte.length).bind fun g₂ => g₂.suite texte.length := by
    unfold yyGetNextBuffer
    rw [if_neg (by omega)]
    simp only [hk, hmove, Option.bind_eq_bind, Option.bind_some]
  unfold lit at hcall
  by_cases heof : g.yyBufferStatus = .eofPending
  · rw [if_pos heof, Option.bind_some] at hcall
    have hvide := h.attente heof
    have hrempli : Rempli g { g with yyChBuf := buf, yyNChars := 0, bufNChars := 0 } texte [] := by
      refine ⟨hlen.trans htaille, ?_, ?_, rfl, rfl, rfl, fun hne => absurd hvide hne, fun as bs has _ => ⟨as, has⟩⟩
      · simp only [List.length_nil]
        omega
      · rwa [List.append_nil]
    exact suivant_of_rempli hrempli hstatut rfl h.attente hcall
  · obtain ⟨g₂, lus, hremplit, hrempli⟩ := remplit_spec (g := { g with yyChBuf := buf })
      (hlen.trans htaille) (by simp only; omega) hfront
    rw [if_neg heof, hremplit, Option.bind_some] at hcall
    exact suivant_of_rempli hrempli hstatut rfl h.attente hcall

/-! ## The invariant of a match -/

/-- The engine stops at the `m`-th character at the latest: every longer text jams. A
NUL alone is the exception, after which one more character is looked at. -/
def Arret (P : List UInt8) (m : Nat) : Prop :=
  yyBase[automate.after (P.take m)]? = some 14 ∧
    (automate.after (P.take m) = yyJam ∨ P.head? ≠ some 0)

/-- The engine at `yy_match`, `k` characters of `P` read. -/
structure EnLecture (g : Yyguts) (debut k : Nat) (texte P : List UInt8) : Prop where
  tampon : Tampon g debut texte
  flux : P = texte ++ fluxDe g.arrivees
  lu : k ≤ texte.length
  memoire : Memoire g debut P (k - 1)
  avant : ∀ m ≤ k, ¬ Arret P m

/-- The engine at `yy_find_action`, when no longer match is possible. -/
structure Acheve (g : Yyguts) (debut k : Nat) (texte P : List UInt8) : Prop where
  tampon : Tampon g debut texte
  flux : P = texte ++ fluxDe g.arrivees
  lu : k ≤ texte.length
  complet : automate.lastAccept P P.length = automate.lastAccept P k
  memoire : automate.accept (automate.after (P.take k)) = none → Memoire g debut P k

/-- Nothing that arrives after what the token needs has been read. -/
def Presse (g : Yyguts) (P : List UInt8) (g' : Yyguts) : Prop :=
  ∀ as bs m, g.arrivees = as ++ bs → Arret P m → m + (fluxDe bs).length ≤ P.length →
    ∃ as', g'.arrivees = as' ++ bs

theorem Presse.of_eq (h : g'.arrivees = g.arrivees) (P : List UInt8) : Presse g P g' :=
  fun as _ _ has _ _ => ⟨as, h.trans has⟩

theorem Presse.of_left {g₁ : Yyguts} (h : g₁.arrivees = g.arrivees) (h' : Presse g₁ P g') : Presse g P g' :=
  fun as bs m has => h' as bs m (h.trans has)

/-- What the engine is to hand over when `P` is left of the stream. -/
def Donne (P : List UInt8) : Sortie × Yyguts → Prop
  | (.fin, g') => P = [] ∧ Pret g' []
  | (.action yyAct text, g') => ∃ t j, automate.lastAccept P P.length = some (t, j) ∧
      regleDe yyAct = some t ∧ text = P.take j ∧ Pret g' (P.drop j)

/-! ## One character -/

variable (debut) in
theorem yyMatch_eq {etat yyCp suivant : Nat} {c : UInt8} {yyC : Nat} (he : Etat etat)
    (hread : g.yyChBuf.read yyCp = some c) (hec : yyEc[c.toNat]? = some yyC) (hyyC : yyC < 8)
    (hs : etatSuivant etat yyC = suivant) : pasYylex (.yyMatch etat yyCp debut, g) = some (.inl
      (if yyBase[suivant]? = some 14 then .yyFindAction suivant (yyCp + 1) debut
        else .yyMatch suivant (yyCp + 1) debut, g.marque etat yyCp)) := by
  obtain ⟨htrans, hsuivant⟩ := yyTransition_eq he hyyC
  rw [hs] at htrans hsuivant
  have hbase : yyBase[suivant]? = some (yyBase.getD suivant 0) := by
    have hlt : suivant < yyBase.length := Nat.lt_trans hsuivant.2 (by decide)
    rw [List.getD_eq_getElem?_getD, List.getElem?_eq_getElem hlt]
    rfl
  rw [hbase]
  simp only [pasYylex, Yyguts.yyMatch, hread, hec, retient_eq he, htrans, hbase, Option.bind_eq_bind,
    Option.bind_some]
  by_cases h14 : yyBase.getD suivant 0 = 14
  · rw [if_neg (not_not.mpr h14), if_pos (congrArg some h14)]
    rfl
  · rw [if_pos h14, if_neg fun h => h14 (Option.some.inj h)]
    rfl

theorem after_succ {c : UInt8} (hc : P[k]? = some c) :
    automate.after (P.take (k + 1)) = etatSuivant (automate.after (P.take k)) (classe c) := by
  rw [List.take_add_one, hc, Option.toList_some, Automaton.after_append_singleton]
  rfl

theorem avant_succ (havant : ∀ m ≤ k, ¬ Arret P m) (hk : ¬ Arret P (k + 1)) : ∀ m ≤ k + 1, ¬ Arret P m := by
  intro m hm
  rcases Nat.le_succ_iff.mp hm with hle | rfl
  · exact havant m hle
  · exact hk

/-- A character that is not NUL leads on, or ends the match. -/
theorem pas_caractere (h : EnLecture g debut k texte P) (hk : k < texte.length) (hc : texte[k] ≠ 0) :
    ∃ e p, (Machine.Reaches pasYylex (.yyMatch (automate.after (P.take k)) (debut + k) debut, g)
        (.yyFindAction (automate.after (P.take (k + 1))) (debut + (k + 1)) debut, g.setLastAccepting e p) ∧
        Acheve (g.setLastAccepting e p) debut (k + 1) texte P) ∨
      (Machine.Reaches pasYylex (.yyMatch (automate.after (P.take k)) (debut + k) debut, g)
        (.yyMatch (automate.after (P.take (k + 1))) (debut + (k + 1)) debut, g.setLastAccepting e p) ∧
        EnLecture (g.setLastAccepting e p) debut (k + 1) texte P) := by
  have hlen : texte.length ≤ P.length := by rw [h.flux, List.length_append]; omega
  have hPk : P[k]? = some texte[k] := by
    rw [h.flux, List.getElem?_append_left hk, List.getElem?_eq_getElem hk]
  have hafter := after_succ hPk
  have hec : yyEc[texte[k].toNat]? = some (classe texte[k]) := by rw [yyEc_eq, if_neg hc]
  have hstep := yyMatch_eq debut (after_etat (P.take k)).1 (h.tampon.read hk) hec
    (classe_mem _).2 hafter.symm
  have hmem := h.memoire.marque (k := k) (by omega)
  obtain ⟨e, p, hmarque⟩ := marque_eq g (automate.after (P.take k)) (debut + k)
  rw [hmarque] at hstep hmem
  refine ⟨e, p, ?_⟩
  by_cases hbase : yyBase[automate.after (P.take (k + 1))]? = some 14
  · rw [if_pos hbase] at hstep
    refine Or.inl ⟨Machine.Reaches.single hstep, h.tampon.setLastAccepting e p, h.flux, hk, ?_, ?_⟩
    · exact Automaton.lastAccept_of_final (final_of_base hbase) (by omega)
    · intro hnone t j hj
      rw [automate.lastAccept_succ_of_none hnone] at hj
      exact hmem t j hj
  · rw [if_neg hbase] at hstep
    exact Or.inr ⟨Machine.Reaches.single hstep, h.tampon.setLastAccepting e p, h.flux, hk, hmem,
      avant_succ h.avant fun harret => hbase harret.1⟩

/-! ## A NUL, or the end of the buffer -/

/-- Where `YY_END_OF_BUFFER` stands after the `k` characters read and a NUL. -/
structure AuBord (g : Yyguts) (debut k : Nat) (texte : List UInt8) : Prop where
  tampon : Tampon g debut texte
  yytext : g.yytext = debut
  yyCBufP : g.yyCBufP = debut + k + 1
  statut : g.yyBufferStatus ≠ .new

/-- The scanner on the `i` characters from `debut` on, before their action. -/
def Yyguts.avantAction (g : Yyguts) (debut i : Nat) (hold : UInt8) (buf : Cells UInt8) : Yyguts :=
  { g with
    yytext := debut
    yyleng := i
    yyHoldChar := hold
    yyChBuf := buf
    yyCBufP := debut + i }

/-- `YY_DO_BEFORE_ACTION`, and the byte put back. -/
theorem yyDoBeforeAction_eq {i : Nat} (h : Tampon g debut texte) (hi : i ≤ texte.length + 1) :
    ∃ hold buf, g.yyDoBeforeAction (debut + i) debut = some (g.avantAction debut i hold buf) ∧
      buf.write (debut + i) hold = some g.yyChBuf ∧ g.yyChBuf.write (debut + i) 0 = some buf := by
  have htaille := h.taille
  have hplace := h.place
  have hfin := h.fin
  have hlen : i < (texte ++ [0, 0]).length := by
    simp only [List.length_append, List.length_cons, List.length_nil]
    omega
  have hread := h.contenu i hlen
  rw [List.getElem?_eq_getElem hlen] at hread
  obtain ⟨buf, hwrite⟩ := Cells.exists_write (b := g.yyChBuf) (i := debut + i) (0 : UInt8) (by omega)
  refine ⟨_, buf, ?_, Cells.write_write hread hwrite, hwrite⟩
  unfold yyDoBeforeAction
  simp only [hread, hwrite, Option.bind_eq_bind, Option.bind_some, Nat.add_sub_cancel_left]
  rfl

theorem etatSuivant_eob {etat : Nat} (he : Etat etat) (hne : etat ≠ yyEtatEob) :
    etatSuivant etat 0 = yyEtatEob := by
  have hall : ∀ etat < 14, Etat etat → etat ≠ yyEtatEob → etatSuivant etat 0 = yyEtatEob := by decide
  exact hall _ he.2 he hne

theorem etatSuivant_jam {yyC : Nat} (hyyC : yyC < 8) : etatSuivant yyEtatEob yyC = yyJam := by
  have hall : ∀ yyC < 8, etatSuivant yyEtatEob yyC = yyJam := by decide
  exact hall yyC hyyC

/-- Behind the NUL at `debut + k`, its byte back in the buffer, which is no longer new. -/
def Yyguts.auNul (g : Yyguts) (debut k : Nat) (hold : UInt8) : Yyguts :=
  { (g.setLastAccepting yyEtatEob (debut + k + 1)).avantAction debut (k + 1) hold g.yyChBuf with
    yyBufferStatus := if g.yyBufferStatus = .new then .normal else g.yyBufferStatus }

theorem statut_auNul (g : Yyguts) (debut k : Nat) (hold : UInt8) : (g.auNul debut k hold).yyBufferStatus ≠ .new := by
  unfold Yyguts.auNul
  by_cases hnew : g.yyBufferStatus = .new
  · simp [hnew]
  · simp [hnew]

theorem Tampon.auBord (h : Tampon g debut texte) (k : Nat) (hold : UInt8) :
    AuBord (g.auNul debut k hold) debut k texte := by
  have hneuf := statut_auNul g debut k hold
  refine ⟨⟨h.taille, h.place, h.fin, h.contenu, fun hnew => absurd hnew hneuf, fun heof => ?_⟩, rfl, rfl, hneuf⟩
  refine h.attente ?_
  by_cases hnew : g.yyBufferStatus = .new
  · simp [Yyguts.auNul, hnew] at heof
  · simpa [Yyguts.auNul, hnew] using heof

theorem yyEndOfBuffer_eq (h : Tampon g debut texte) {hold : UInt8} {buf : Cells UInt8}
    (hback : buf.write (debut + (k + 1)) hold = some g.yyChBuf) :
    ((g.setLastAccepting yyEtatEob (debut + k + 1)).avantAction debut (k + 1) hold buf).yyEndOfBuffer
        (debut + k + 1) =
      if k < texte.length then ((g.auNul debut k hold).nulReel k).map .inl
      else (g.auNul debut k hold).tamponVide k := by
  have hfin := h.fin
  have hamount : debut + k + 1 - debut - 1 = k := by omega
  have hback' : Cells.write buf (debut + k + 1) hold = some g.yyChBuf := hback
  have hiff : debut + (k + 1) ≤ g.yyNChars ↔ k < texte.length := by omega
  unfold yyEndOfBuffer Yyguts.auNul
  simp only [Yyguts.avantAction, hamount, hback', Option.bind_eq_bind, Option.bind_some]
  by_cases hnew : g.yyBufferStatus = .new
  · simp only [setLastAccepting, hnew, if_true, h.nouveau hnew, hiff]
  · simp only [setLastAccepting, hnew, if_false, hiff]

/-- Every state goes to the one of the end of the buffer on a NUL, and jams from there
on whatever follows: the engine backs up to behind the NUL. -/
theorem pas_nul (h : EnLecture g debut k texte P) (hnul : (texte ++ [0, 0])[k]? = some 0) :
    ∃ g₁ g₂ : Yyguts, Machine.Reaches pasYylex
        (.yyMatch (automate.after (P.take k)) (debut + k) debut, g) (.doAction 6 (debut + k + 1), g₁) ∧
      g₁.yyEndOfBuffer (debut + k + 1) =
        (if k < texte.length then (g₂.nulReel k).map .inl else g₂.tamponVide k) ∧
      AuBord g₂ debut k texte ∧ g₂.arrivees = g.arrivees := by
  have hk := h.lu
  have hlen : (texte ++ [0, 0]).length = texte.length + 2 := by
    simp only [List.length_append, List.length_cons, List.length_nil]
  obtain ⟨he, hne⟩ := after_etat (P.take k)
  have hread : g.yyChBuf.read (debut + k) = some 0 :=
    (h.tampon.contenu k (by omega)).trans hnul
  have hone := yyMatch_eq debut he hread rfl (by omega) (etatSuivant_eob he hne)
  -- any character at all follows the NUL
  obtain ⟨c, hc⟩ : ∃ c, (texte ++ [0, 0])[k + 1]? = some c :=
    ⟨_, List.getElem?_eq_getElem (show k + 1 < (texte ++ [0, 0]).length by omega)⟩
  have hread' : g.yyChBuf.read (debut + k + 1) = some c :=
    (h.tampon.contenu (k + 1) (by omega)).trans hc
  obtain ⟨yyC, hec, hyyC⟩ : ∃ yyC, yyEc[c.toNat]? = some yyC ∧ yyC < 8 := by
    refine ⟨_, yyEc_eq c, ?_⟩
    split
    · omega
    · exact (classe_mem c).2
  obtain ⟨e, p, hmarque⟩ := marque_eq g (automate.after (P.take k)) (debut + k)
  rw [hmarque] at hone
  have htwo := yyMatch_eq (g := g.setLastAccepting e p) debut (by decide) hread' hec hyyC (etatSuivant_jam hyyC)
  obtain ⟨hold, buf, hbefore, hback, _⟩ := yyDoBeforeAction_eq
    (h.tampon.setLastAccepting yyEtatEob (debut + k + 1)) (show k + 1 ≤ texte.length + 1 by omega)
  have hthree : pasYylex (.yyFindAction yyJam (debut + k + 1 + 1) debut,
      g.setLastAccepting yyEtatEob (debut + k + 1)) = some (.inl (.doAction 6 (debut + k + 1),
        (g.setLastAccepting yyEtatEob (debut + k + 1)).avantAction debut (k + 1) hold buf)) := by
    have hjamAcc : yyAccept[yyJam]? = some 0 := rfl
    have heobAcc : yyAccept[yyEtatEob]? = some 6 := rfl
    have hstate : (g.setLastAccepting yyEtatEob (debut + k + 1)).yyLastAcceptingState = yyEtatEob := rfl
    have hpos : (g.setLastAccepting yyEtatEob (debut + k + 1)).yyLastAcceptingCpos = debut + (k + 1) := rfl
    simp only [pasYylex, Yyguts.yyFindAction, hjamAcc, heobAcc, hstate, hpos, hbefore, Option.bind_eq_bind,
      Option.bind_some, if_true]
    rfl
  exact ⟨_, g.auNul debut k hold,
    ((Machine.Reaches.single hone).trans (Machine.Reaches.single htwo)).trans (Machine.Reaches.single hthree),
    yyEndOfBuffer_eq h.tampon hback, h.tampon.auBord k hold, rfl⟩

/-- A NUL ends a match only as the first character. -/
theorem start_of_nul (he : Etat (automate.after (P.take k)))
    (hbase : yyBase[etatSuivant (automate.after (P.take k)) 1]? = some 14)
    (hjam : etatSuivant (automate.after (P.take k)) 1 ≠ yyJam) : P.take k = [] := by
  have hstart : ∀ etat < 14, Etat etat → yyBase[etatSuivant etat 1]? = some 14 →
      etatSuivant etat 1 ≠ yyJam → etat ≤ 2 := by decide
  have hnext : ∀ etat < 14, Etat etat → ∀ yyC < 8, 2 < etatSuivant etat yyC := by decide
  have hle := hstart _ he.2 he hbase hjam
  generalize P.take k = w at hle
  cases w using List.reverseRecOn with
  | nil => rfl
  | append_singleton w c =>
    obtain ⟨he, _⟩ := after_etat w
    have := hnext _ he.2 he _ (classe_mem c).2
    rw [Automaton.after_append_singleton, automate_step] at hle
    omega

/-- A NUL after which the engine goes on is no place where it has to stop. -/
theorem pas_arret_nul (hnul : P[k]? = some 0) (hjam : automate.after (P.take (k + 1)) ≠ yyJam) :
    ¬ Arret P (k + 1) := by
  rintro ⟨hbase, hor⟩
  rw [after_succ hnul] at hbase hjam hor
  have hzero : k = 0 := by
    have := congrArg List.length (start_of_nul (after_etat (P.take k)).1 hbase hjam)
    have hk := (List.getElem?_eq_some_iff.mp hnul).1
    rw [List.length_take, List.length_nil] at this
    omega
  rw [hzero] at hnul
  rw [List.head?_eq_getElem?] at hor
  exact hor.elim hjam fun h => h hnul

theorem yyTryNulTrans_eq {etat : Nat} (he : Etat etat) (g : Yyguts) : g.yyTryNulTrans etat =
    some (if etatSuivant etat 1 = yyJam then 0 else etatSuivant etat 1, g.marque etat g.yyCBufP) := by
  unfold yyTryNulTrans
  simp only [retient_eq he, (yyTransition_eq he (show 1 < 8 by omega)).1, Option.bind_eq_bind, Option.bind_some]
  rfl

/-- What a NUL of the input leads to, the state before it being recomputed. -/
theorem nulReel_eq {etat e p e' p' : Nat} (he : Etat etat)
    (hprev : yyGetPreviousState { g with yyCBufP := g.yytext + k } =
      some (etat, setLastAccepting { g with yyCBufP := g.yytext + k } e p))
    (hmarque : (setLastAccepting { g with yyCBufP := g.yytext + k } e p).marque etat (g.yytext + k) =
      setLastAccepting { g with yyCBufP := g.yytext + k } e' p') :
    g.nulReel k = if etatSuivant etat 1 = yyJam then
        some (.yyFindAction etat (g.yytext + k) g.yytext, setLastAccepting { g with yyCBufP := g.yytext + k } e' p')
      else some (.yyMatch (etatSuivant etat 1) (g.yytext + (k + 1)) g.yytext,
        setLastAccepting { g with yyCBufP := g.yytext + (k + 1) } e' p') := by
  have htry := yyTryNulTrans_eq he (setLastAccepting { g with yyCBufP := g.yytext + k } e p)
  rw [show (setLastAccepting { g with yyCBufP := g.yytext + k } e p).yyCBufP = g.yytext + k from rfl,
    hmarque] at htry
  have hsuivant := (yyTransition_eq he (show 1 < 8 by omega)).2
  unfold nulReel
  simp only [hprev, htry, Option.bind_eq_bind, Option.bind_some]
  by_cases hjam : etatSuivant etat 1 = yyJam
  · simp only [hjam, if_true, ne_eq, not_true, if_false]
    rfl
  · have hpos : etatSuivant etat 1 ≠ 0 := by have := hsuivant.1; omega
    simp only [hjam, if_false, ne_eq, hpos, not_false_iff, if_true]
    rfl

/-- A NUL of the input is a character: it leads on, or no longer text is a match. Only
as the first character does it end a match by itself. -/
theorem nulReel_spec (hb : AuBord g debut k texte) (hflux : P = texte ++ fluxDe g.arrivees)
    (hk : k < texte.length) (hnul : texte[k] = 0) (havant : ∀ m ≤ k, ¬ Arret P m) :
    ∃ g₃ : Yyguts, ((g.nulReel k = some (.yyFindAction (automate.after (P.take k)) (debut + k) debut, g₃) ∧
          Acheve g₃ debut k texte P) ∨
        (g.nulReel k = some (.yyMatch (automate.after (P.take (k + 1))) (debut + (k + 1)) debut, g₃) ∧
          EnLecture g₃ debut (k + 1) texte P)) ∧ g₃.arrivees = g.arrivees := by
  obtain ⟨htampon, rfl, _, _⟩ := hb
  have hlen : texte.length ≤ P.length := by rw [hflux, List.length_append]; omega
  have hPk : P[k]? = some 0 := by
    rw [hflux, List.getElem?_append_left hk, List.getElem?_eq_getElem hk, hnul]
  have htampon' := htampon.setCBufP (g.yytext + k)
  obtain ⟨e, p, hprev, hmem⟩ := yyGetPreviousState_eq htampon' rfl rfl (Nat.le_of_lt hk)
    ⟨fluxDe g.arrivees, hflux.symm⟩
  have hmem' := hmem.marque (k := k) (by omega)
  obtain ⟨e', p', hmarque⟩ := marque_eq (setLastAccepting { g with yyCBufP := g.yytext + k } e p)
    (automate.after (P.take k)) (g.yytext + k)
  rw [hmarque] at hmem'
  have hafter : automate.after (P.take (k + 1)) = etatSuivant (automate.after (P.take k)) 1 := after_succ hPk
  have hnext := nulReel_eq (after_etat (P.take k)).1 hprev hmarque
  rw [← hafter] at hnext
  by_cases hjam : automate.after (P.take (k + 1)) = yyJam
  · rw [if_pos hjam] at hnext
    refine ⟨_, Or.inl ⟨hnext, htampon'.setLastAccepting e' p', hflux, Nat.le_of_lt hk, ?_, fun _ => hmem'⟩, rfl⟩
    have hdead : automate.Dead (automate.after (P.take (k + 1))) := by
      rw [hjam]
      exact jam_dead
    rw [Automaton.lastAccept_of_final hdead.final (by omega), automate.lastAccept_succ_of_none (hdead [])]
  · rw [if_neg hjam] at hnext
    exact ⟨_, Or.inr ⟨hnext, (htampon.setCBufP (g.yytext + (k + 1))).setLastAccepting e' p', hflux, hk, hmem',
      avant_succ havant (pas_arret_nul hPk hjam)⟩, rfl⟩

/-- At the end of the stream the buffer is empty, and its first byte a NUL again. -/
theorem pret_fin (h : Tampon g 0 []) (hyytext : g.yytext = 0) (hhold : g.yyHoldChar = 0)
    (hvide : fluxDe g.arrivees = []) : Pret { g with yyCBufP := g.yytext } [] := by
  have hread : g.yyChBuf.read 0 = some 0 := h.contenu 0 (Nat.succ_pos _)
  have htaille := h.taille
  have hfin := h.fin
  rw [List.length_nil] at hfin
  obtain ⟨buf, hwrite⟩ := Cells.exists_write (b := g.yyChBuf) (i := g.yytext) g.yyHoldChar (by rw [hyytext]; omega)
  refine ⟨buf, [], hwrite, ⟨(Cells.length_write hwrite).trans htaille, h.place, ?_, ?_, h.nouveau, h.attente⟩,
    hvide.symm⟩
  · exact (congrArg (· + 0) hyytext).trans hfin
  · refine Cells.Holds.congr (b := g.yyChBuf) ?_ fun j _ _ => ?_
    · simp only [hyytext]
      exact h.contenu
    · simp only
      rw [Cells.read_of_write hwrite, hyytext, hhold]
      split
      next h => rw [h, hread]
      next => rfl

/-- The end of the buffer: the end of the stream, or the longest match of what is
left, or more text to match. -/
theorem tamponVide_spec (hb : AuBord g debut texte.length texte) (hflux : P = texte ++ fluxDe g.arrivees) :
    (P = [] ∧ ∃ g' : Yyguts, g.tamponVide texte.length = some (.inr (.fin, g')) ∧ Pret g' []) ∨
      (∃ g' : Yyguts, g.tamponVide texte.length =
          some (.inl (.yyFindAction (automate.after (P.take texte.length)) (0 + texte.length) 0, g')) ∧
        Acheve g' 0 texte.length texte P ∧ texte = P ∧ P ≠ []) ∨
      ∃ (g' : Yyguts) (lus : List UInt8), g.tamponVide texte.length =
          some (.inl (.yyMatch (automate.after (P.take texte.length)) (0 + texte.length) 0, g')) ∧
        lus ≠ [] ∧ Tampon g' 0 (texte ++ lus) ∧ lus ++ fluxDe g'.arrivees = fluxDe g.arrivees ∧
        Memoire g' 0 P (texte.length - 1) ∧
        ∀ as bs, g.arrivees = as ++ bs → fluxDe as ≠ [] → ∃ as', g'.arrivees = as' ++ bs := by
  obtain ⟨htampon, rfl, hp, hstatut⟩ := hb
  rcases yyGetNextBuffer_spec htampon hp hstatut with
    ⟨g', rfl, hfin, hcall, hprop, htampon', hvide⟩ | ⟨g', hne, hfin, hcall, hprop, htampon', hvide⟩ |
      ⟨g', lus, hlus, hcall, hprop, htampon', hlire, hpresse⟩
  · exact Or.inl ⟨by rw [hflux, hfin]; rfl, _, by unfold tamponVide; rw [hcall]; rfl,
      pret_fin htampon' hprop.1 hprop.2 hvide⟩
  · have hall : texte = P := by rw [hflux, hfin, List.append_nil]
    have htampon'' := htampon'.setCBufP g'.yyNChars
    obtain ⟨e, p, hprev, hmem⟩ := yyGetPreviousState_eq htampon'' hprop htampon'.fin.symm (Nat.le_refl _)
      ⟨[], by rw [List.append_nil, hall]⟩
    refine Or.inr (Or.inl ⟨_, ?_, ⟨htampon''.setLastAccepting e p, ?_, Nat.le_refl _, ?_, ?_⟩, hall, hall ▸ hne⟩)
    · have hend : g'.yyNChars = 0 + texte.length := htampon'.fin.symm
      unfold tamponVide
      simp only [hcall, Option.bind_eq_bind, Option.bind_some, hprev]
      simp only [setLastAccepting, hprop, hend]
      rfl
    · exact hflux.trans (by rw [hfin]; exact congrArg (texte ++ ·) hvide.symm)
    · rw [hall]
    · intro hnone t j hj
      refine hmem t j ?_
      obtain ⟨n, hn⟩ := Nat.exists_eq_succ_of_ne_zero (mt List.length_eq_zero_iff.mp hne)
      rw [hn, Nat.succ_eq_add_one] at hnone hj
      rw [hn, ← hj, Nat.succ_eq_add_one, automate.lastAccept_succ_of_none hnone, Nat.add_sub_cancel]
  · have htampon'' := htampon'.setCBufP (g'.yytext + texte.length)
    obtain ⟨e, p, hprev, hmem⟩ := yyGetPreviousState_eq (P := P) htampon'' hprop
      (show g'.yytext + texte.length = 0 + texte.length by rw [hprop])
      (by rw [List.length_append]; omega)
      ⟨fluxDe g'.arrivees, by rw [hflux, List.append_assoc, hlire]⟩
    refine Or.inr (Or.inr ⟨_, lus, ?_, hlus, htampon''.setLastAccepting e p, hlire, hmem, hpresse⟩)
    unfold tamponVide
    simp only [hcall, Option.bind_eq_bind, Option.bind_some, hprev]
    simp only [setLastAccepting, hprop]
    rfl

theorem doAction_eq {yyAct yyCp : Nat} {t : Option Regle} (h : regleDe yyAct = some t) (g : Yyguts) :
    pasYylex (.doAction yyAct yyCp, g) =
      (g.yyChBuf.load g.yytext g.yyleng).bind fun text => some (.inr (.action yyAct text, g)) := by
  match yyAct, h with
  | 1, _ | 2, _ | 3, _ | 4, _ | 5, _ => rfl

/-- The text taken leaves the rest of the buffer. -/
theorem Tampon.drop {j : Nat} (h : Tampon g debut texte) (hj : j ≤ texte.length) :
    Tampon g (debut + j) (texte.drop j) := by
  refine ⟨h.taille, h.place, ?_, ?_, h.nouveau, h.attente⟩
  · rw [List.length_drop, ← h.fin]
    omega
  · have := h.contenu.drop j
    rwa [List.drop_append_of_le_length hj] at this

/-- `yy_find_action` takes the longest match, from the state or from the last accepting
one. -/
theorem yyFindAction_step (h : Acheve g debut k texte P) {t : Option Regle} {j : Nat}
    (hlast : automate.lastAccept P P.length = some (t, j)) : ∃ yyAct, regleDe yyAct = some t ∧
      pasYylex (.yyFindAction (automate.after (P.take k)) (debut + k) debut, g) =
        (g.yyDoBeforeAction (debut + j) debut).bind fun g' => some (.inl (.doAction yyAct (debut + j), g')) := by
  rw [h.complet] at hlast
  obtain ⟨hpos, hjk, hacc⟩ := automate.lastAccept_some hlast
  have hact : ∀ w, ∃ yyAct, yyAccept[automate.after w]? = some yyAct ∧
      (automate.accept (automate.after w) = none ↔ yyAct = 0) ∧
      automate.accept (automate.after w) = regleDe yyAct := by
    intro w
    obtain ⟨he, hne⟩ := after_etat w
    obtain ⟨hget, hzero⟩ := yyAccept_eq_zero he hne
    exact ⟨_, hget, hzero, rfl⟩
  obtain ⟨act, hget, hzero, hregle⟩ := hact (P.take k)
  by_cases hnone : automate.accept (automate.after (P.take k)) = none
  · obtain ⟨hstate, hpos⟩ := h.memoire hnone t j hlast
    obtain ⟨act', hget', _, hregle'⟩ := hact (P.take j)
    refine ⟨act', hregle'.symm.trans hacc, ?_⟩
    have hback : yyAccept[g.yyLastAcceptingState]? = some act' := by rw [hstate, hget']
    simp only [pasYylex, Yyguts.yyFindAction, hget, hzero.mp hnone, hback, hpos, Option.bind_eq_bind,
      Option.bind_some, if_true]
    cases g.yyDoBeforeAction (debut + j) debut <;> rfl
  · have hj : j = k := by
      obtain ⟨n, rfl⟩ := Nat.exists_eq_add_of_le' (Nat.lt_of_lt_of_le hpos hjk)
      obtain ⟨t', ht'⟩ := Option.ne_none_iff_exists'.mp hnone
      rw [automate.lastAccept_succ_of_some ht'] at hlast
      exact (Prod.mk.inj (Option.some.inj hlast)).2.symm
    subst hj
    refine ⟨act, hregle.symm.trans hacc, ?_⟩
    have hne : act ≠ 0 := fun h0 => hnone (hzero.mpr h0)
    simp only [pasYylex, Yyguts.yyFindAction, hget, hne, Option.bind_eq_bind, Option.bind_some, if_false]
    cases g.yyDoBeforeAction (debut + j) debut <;> rfl

/-- The action of the longest match, and the engine ready for what follows it. -/
theorem yyFindAction_spec (h : Acheve g debut k texte P) (hne : P ≠ []) : ∃ r,
    Machine.Ends pasYylex (.yyFindAction (automate.after (P.take k)) (debut + k) debut, g) r ∧
      Donne P r ∧ r.2.arrivees = g.arrivees := by
  obtain ⟨t, j, hlast⟩ := automate_recognizes.exists_lastAccept hne
  obtain ⟨yyAct, hregle, hstep⟩ := yyFindAction_step h hlast
  have hj : j ≤ texte.length := by
    have hk := hlast
    rw [h.complet] at hk
    have := (automate.lastAccept_some hk).2.1
    have := h.lu
    omega
  obtain ⟨hold, buf, hbefore, hback, hwrite⟩ :=
    yyDoBeforeAction_eq h.tampon (show j ≤ texte.length + 1 by omega)
  rw [hbefore, Option.bind_some] at hstep
  have htake : texte.take j = P.take j := by rw [h.flux, List.take_append_of_le_length hj]
  have hload : Cells.load buf debut j = some (P.take j) := by
    have hholds : Cells.Holds buf debut (texte.take j) := by
      have hleft := h.tampon.contenu.take j
      rw [List.take_append_of_le_length hj] at hleft
      refine hleft.congr fun i _ hi => ?_
      rw [List.length_take, Nat.min_eq_left hj] at hi
      rw [Cells.read_of_write hwrite, if_neg (by omega)]
    have hl := Cells.load_of_holds hholds
    rwa [List.length_take, Nat.min_eq_left hj, htake] at hl
  refine ⟨(.action yyAct (P.take j), g.avantAction debut j hold buf),
    Machine.Ends.of_reaches (Machine.Reaches.single hstep) (Machine.Ends.single ?_), ?_, rfl⟩
  · rw [doAction_eq hregle]
    simp only [Yyguts.avantAction, hload, Option.bind_some]
  · refine ⟨t, j, hlast, hregle, rfl, g.yyChBuf, texte.drop j, hback, ?_, ?_⟩
    · have hd := h.tampon.drop hj
      exact ⟨hd.taille, hd.place, hd.fin, hd.contenu, hd.nouveau, hd.attente⟩
    · rw [h.flux, List.drop_append_of_le_length hj]
      rfl

section Fin

variable {g₁ : Yyguts} {c c' : Etiquette}

/-- The engine hands over what it is to when `P` is left, reading no more than it has to. -/
def Rend (c : Etiquette × Yyguts) (P : List UInt8) : Prop :=
  ∃ r, Machine.Ends pasYylex c r ∧ Donne P r ∧ Presse c.2 P r.2

theorem Rend.of_reaches (h : Machine.Reaches pasYylex (c, g) (c', g₁)) (harr : g₁.arrivees = g.arrivees)
    (h' : Rend (c', g₁) P) : Rend (c, g) P := by
  obtain ⟨r, hends, hdonne, hpresse⟩ := h'
  exact ⟨r, Machine.Ends.of_reaches h hends, hdonne, hpresse.of_left harr⟩

end Fin

theorem Acheve.rend (h : Acheve g debut k texte P) (hne : P ≠ []) :
    Rend (.yyFindAction (automate.after (P.take k)) (debut + k) debut, g) P := by
  obtain ⟨r, hends, hdonne, harr⟩ := yyFindAction_spec h hne
  exact ⟨r, hends, hdonne, Presse.of_eq harr P⟩

/-- A NUL that is not the end of the buffer. -/
theorem EnLecture.nul (h : EnLecture g debut k texte P) (hk : k < texte.length) (hc : texte[k] = 0) :
    ∃ g₃ : Yyguts, g₃.arrivees = g.arrivees ∧
      ((Machine.Reaches pasYylex (.yyMatch (automate.after (P.take k)) (debut + k) debut, g)
          (.yyFindAction (automate.after (P.take k)) (debut + k) debut, g₃) ∧
          Acheve g₃ debut k texte P) ∨
        (Machine.Reaches pasYylex (.yyMatch (automate.after (P.take k)) (debut + k) debut, g)
          (.yyMatch (automate.after (P.take (k + 1))) (debut + (k + 1)) debut, g₃) ∧
          EnLecture g₃ debut (k + 1) texte P)) := by
  have hnul : (texte ++ [0, 0])[k]? = some 0 := by
    rw [List.getElem?_append_left hk, List.getElem?_eq_getElem hk, hc]
  obtain ⟨g₁, g₂, hreach, hend, hbord, harr⟩ := pas_nul h hnul
  rw [if_pos hk] at hend
  obtain ⟨g₃, hor, harr'⟩ := nulReel_spec hbord (harr ▸ h.flux) hk hc h.avant
  refine ⟨g₃, harr'.trans harr, ?_⟩
  rcases hor with ⟨hstep, hacheve⟩ | ⟨hstep, hlecture⟩
  · rw [hstep] at hend
    exact Or.inl ⟨hreach.trans (Machine.Reaches.single hend), hacheve⟩
  · rw [hstep] at hend
    exact Or.inr ⟨hreach.trans (Machine.Reaches.single hend), hlecture⟩

/-- At the end of the buffer, what the token needs has not all arrived. -/
theorem EnLecture.loin (h : EnLecture g debut texte.length texte P) {as bs : List Arrivee} {m : Nat}
    (has : g.arrivees = as ++ bs) (harret : Arret P m) (hm : m + (fluxDe bs).length ≤ P.length) :
    fluxDe as ≠ [] := by
  intro hvide
  refine h.avant m ?_ harret
  have hlen := congrArg List.length h.flux
  rw [List.length_append, has, fluxDe_append, hvide, List.nil_append] at hlen
  omega

theorem EnLecture.presse_vide (h : EnLecture g debut texte.length texte P) (hvide : fluxDe g.arrivees = [])
    (g' : Yyguts) : Presse g P g' := by
  intro as bs m has harret hm
  refine absurd ?_ (h.loin has harret hm)
  rw [has, fluxDe_append, List.append_eq_nil_iff] at hvide
  exact hvide.1

/-- From `yy_match` the engine hands over the next token, by induction on the
characters not yet read and on the bytes to come. -/
theorem EnLecture.rend (h : EnLecture g debut k texte P) :
    Rend (.yyMatch (automate.after (P.take k)) (debut + k) debut, g) P := by
  obtain ⟨n, hn⟩ : ∃ n, n = P.length - k + (fluxDe g.arrivees).length := ⟨_, rfl⟩
  induction n using Nat.strong_induction_on generalizing g debut k texte with
  | _ n ih =>
    have hlen : P.length = texte.length + (fluxDe g.arrivees).length := by
      rw [← List.length_append, ← h.flux]
    rcases Nat.lt_or_ge k texte.length with hk | hge
    · have hne : P ≠ [] := List.length_pos_iff.mp (by omega)
      by_cases hc : texte[k] = 0
      · obtain ⟨g₃, harr, ⟨hreach, hacheve⟩ | ⟨hreach, hlecture⟩⟩ := h.nul hk hc
        · exact Rend.of_reaches hreach harr (hacheve.rend hne)
        · exact Rend.of_reaches hreach harr (ih _ (by rw [harr, hn]; omega) hlecture rfl)
      · obtain ⟨e, p, ⟨hreach, hacheve⟩ | ⟨hreach, hlecture⟩⟩ := pas_caractere h hk hc
        · exact Rend.of_reaches hreach rfl (hacheve.rend hne)
        · refine Rend.of_reaches hreach rfl (ih _ ?_ hlecture rfl)
          rw [show (g.setLastAccepting e p).arrivees = g.arrivees from rfl, hn]
          omega
    · obtain rfl : k = texte.length := Nat.le_antisymm h.lu hge
      have hnul : (texte ++ [0, 0])[texte.length]? = some 0 := by
        rw [List.getElem?_append_right (Nat.le_refl _), Nat.sub_self]
        rfl
      obtain ⟨g₁, g₂, hreach, hend, hbord, harr⟩ := pas_nul h hnul
      rw [if_neg (Nat.lt_irrefl _)] at hend
      rcases tamponVide_spec hbord (harr ▸ h.flux) with
        ⟨hP, g', hstep, hpret⟩ | ⟨g', hstep, hacheve, htexte, hne⟩ |
          ⟨g', lus, hstep, hlus, htampon, hlire, hmem, hpresse⟩
      · rw [hstep] at hend
        refine ⟨_, Machine.Ends.of_reaches hreach (Machine.Ends.single hend), ⟨hP, hpret⟩, ?_⟩
        exact h.presse_vide (List.length_eq_zero_iff.mp (by rw [hP, List.length_nil] at hlen; omega)) _
      · rw [hstep] at hend
        obtain ⟨r, hends, hdonne, hpresse⟩ := hacheve.rend hne
        refine ⟨r, Machine.Ends.of_reaches (hreach.trans (Machine.Reaches.single hend)) hends, hdonne, ?_⟩
        exact h.presse_vide (List.length_eq_zero_iff.mp (by rw [htexte] at hlen; omega)) _
      · rw [hstep] at hend
        have hlecture : EnLecture g' 0 texte.length (texte ++ lus) P := by
          refine ⟨htampon, ?_, by rw [List.length_append]; omega, hmem, h.avant⟩
          rw [List.append_assoc, hlire, harr, ← h.flux]
        have hmoins : (fluxDe g'.arrivees).length < (fluxDe g.arrivees).length := by
          have := congrArg List.length hlire
          have := List.length_pos_iff.mpr hlus
          rw [List.length_append, harr] at *
          omega
        obtain ⟨r, hends, hdonne, hpresse'⟩ := ih _ (by rw [hn]; omega) hlecture rfl
        refine ⟨r, Machine.Ends.of_reaches (hreach.trans (Machine.Reaches.single hend)) hends, hdonne, ?_⟩
        intro as bs m has harret hm
        obtain ⟨as', has'⟩ := hpresse as bs (harr.trans has) (h.loin has harret hm)
        exact hpresse' as' bs m has' harret hm

/-- Between two tokens, the engine goes on to the next one. -/
theorem Pret.rend (h : Pret g P) : Rend (.debut, g) P := by
  obtain ⟨buf, texte, hwrite, htampon, hflux⟩ := h
  have hstep : pasYylex (.debut, g) =
      some (.inl (.yyMatch 1 g.yyCBufP g.yyCBufP, { g with yyChBuf := buf })) := by
    simp only [pasYylex, hwrite, Option.bind_eq_bind, Option.bind_some]
    rfl
  refine Rend.of_reaches (Machine.Reaches.single hstep) rfl
    (EnLecture.rend (k := 0) ⟨htampon, hflux, Nat.zero_le _, ?_, ?_⟩)
  · exact fun t j hj => absurd hj (by simp [Automaton.lastAccept])
  · intro m hm harret
    obtain rfl : m = 0 := by omega
    exact absurd harret.1 (by simp [automate, yyBase])

end ElfLinker
