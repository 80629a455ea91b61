import ElfLinker.Balayage
import ElfLinker.Recepteur

/-!
`yylex` as flex generated it, with its actions: on the bytes that the connection
delivers, however they arrive, each call returns and does what the model of the
receiver says on the tokens of the stream, and it reads no arrival that comes after
the packet it returns.
-/

namespace ElfLinker

/-! ## The calls on the engine -/

/-- The session without the tokens to come, which the engine does not have. -/
def Session.sansFlux (s : Session) : Session := { s with flux := [] }

/-- One step of `yylex`: of the engine, or the action it hands over. -/
def pasGdb : (Etiquette × Yyguts) × Session →
    Option (((Etiquette × Yyguts) × Session) ⊕ (Int × Yyguts × Session))
  | (c, s) =>
    match pasYylex c with
    | none => none
    | some (.inl c') => some (.inl (c', s))
    | some (.inr (.fin, g)) => some (.inr (eof, g, handleError s))
    | some (.inr (.action yyAct text, g)) =>
      match regleDe yyAct with
      | none => none
      | some regle =>
        match action s (regle, text) with
        | (some result, s') => some (.inr (result, g, s'))
        | (none, s') => some (.inl ((.debut, g), s'))

/-- The calls in order, each of them with at most `tours` steps of the engine. -/
def executerFlex (tours : Nat) : List Appel → Yyguts × Session →
    Option (List (Int × Session) × Yyguts × Session)
  | [], (g, s) => some ([], g, s)
  | .sendBuffer payload :: appels, (g, s) => executerFlex tours appels (g, envoyer s payload)
  | .getPacket :: appels, (g, s) => do
    let (r, g, s) ← Machine.run pasGdb tours ((.debut, g), s)
    let (rs, fin) ← executerFlex tours appels (g, s)
    return ((r, s) :: rs, fin)

/-! ## Actions -/

theorem handleError_sansFlux (s : Session) : handleError s.sansFlux = (handleError s).sansFlux := by
  unfold handleError
  by_cases h : s.data.len = 0
  · have h' : s.sansFlux.data.len = 0 := h
    rw [if_pos h, if_pos h']
  · have h' : ¬ s.sansFlux.data.len = 0 := h
    rw [if_neg h, if_neg h']
    rfl

theorem action_sansFlux (s : Session) (j : Jeton) :
    action s.sansFlux j = ((action s j).1, (action s j).2.sansFlux) := by
  obtain ⟨regle, text⟩ := j
  cases regle with
  | none => rfl
  | some regle =>
    cases regle with
    | ack => exact congrArg (Prod.mk none) (handleError_sansFlux s)
    | retransmission => exact congrArg (fun s => (none, gdbTransmitPacket s)) (handleError_sansFlux s)
    | packet =>
      simp only [action, handleError_sansFlux]
      unfold gdbPacketCheck
      simp only
      split <;> rfl
    | caractere =>
      have hstore : ∀ s : Session, ((s.sansFlux.bufferStore s.sansFlux.data.len (text.headD 0)).setDataLen
          (s.sansFlux.data.len + 1)) = ((s.bufferStore s.data.len (text.headD 0)).setDataLen
          (s.data.len + 1)).sansFlux := fun _ => rfl
      simp only [action, addCharacterToError]
      by_cases hfull : maxErrorSize - 2 < s.data.len
      · have hfull' : maxErrorSize - 2 < s.sansFlux.data.len := hfull
        rw [if_pos hfull, if_pos hfull', handleError_sansFlux]
        exact congrArg (Prod.mk none) (hstore _)
      · have hfull' : ¬ maxErrorSize - 2 < s.sansFlux.data.len := hfull
        rw [if_neg hfull, if_neg hfull']
        exact congrArg (Prod.mk none) (hstore _)

/-- A token makes `yylex` return exactly when it is a good packet. -/
theorem action_isSome (s : Session) {j : Jeton} (hj : ∀ w, j = (some .packet, w) → w ∈ packetPattern.matches') :
    (action s j).1.isSome = estBon j := by
  obtain ⟨regle, text⟩ := j
  cases regle with
  | none => rfl
  | some regle =>
    cases regle with
    | ack => rfl
    | retransmission => rfl
    | caractere => rfl
    | packet =>
      have hres := (gdbPacketCheck_avance (handleError s) (hj text rfl)).1
      rw [action, hres, estBon]
      cases sommeJuste text <;> rfl

/-! ## What has arrived is enough -/

theorem jam_of_dollar {u : List UInt8} (hu : u ≠ []) : automate.after (u ++ [dollar]) = yyJam := by
  have hcases : ∀ etat < 14, 2 < etat → etatSuivant etat 4 = yyJam := by decide
  have hstart : ∀ etat < 14, Etat etat → ∀ yyC < 8, 2 < etatSuivant etat yyC := by decide
  cases u using List.reverseRecOn with
  | nil => exact absurd rfl hu
  | append_singleton u c =>
    obtain ⟨he, _⟩ := after_etat u
    have hlt := (after_etat (u ++ [c])).1.2
    have hgt := hstart _ he.2 he _ (classe_mem c).2
    rw [Automaton.after_append_singleton, automate_step, (classe_iff dollar).2.2.1.mpr rfl]
    rw [Automaton.after_append_singleton, automate_step] at hlt ⊢
    exact hcases _ hlt hgt

/-- The state at the end of a packet. -/
theorem base_of_packet {w : List UInt8} (h : Lexer.firstMatch regles w = some .packet) :
    yyBase[automate.after w]? = some 14 := by
  have hall : ∀ etat < 14, regleDe (yyAccept.getD etat 0) = some (some .packet) →
      yyBase[etat]? = some 14 := by decide
  refine hall _ (after_etat w).1.2 ?_
  have hrec := automate_recognizes w
  rw [h] at hrec
  exact hrec

/-- A packet in `Q` stops the engine inside `Q`: at its end when it comes first, and
otherwise at its `$` at the latest, on which every match under way jams. -/
theorem arret_of_packet {Q w : List UInt8} (h : (some .packet, w) ∈ jetons Q) :
    ∃ m ≤ Q.length, ∀ R, Arret (Q ++ R) m := by
  obtain ⟨p, a, b, hw, _⟩ := mem_packetPattern.mp (filtrees_jetons Q w h)
  obtain ⟨js, js', hjs⟩ := List.append_of_mem h
  have hQ : Q = js.flatMap Prod.snd ++ (w ++ js'.flatMap Prod.snd) := by
    rw [← Lexer.flatMap_tokens regles Q]
    change (jetons Q).flatMap Prod.snd = _
    rw [hjs, List.flatMap_append, List.flatMap_cons]
  cases js with
  | nil =>
    rw [List.flatMap_nil, List.nil_append] at hQ
    refine ⟨w.length, by rw [hQ, List.length_append]; omega, fun R => ?_⟩
    have htake : (Q ++ R).take w.length = w := by rw [hQ, List.append_assoc, List.take_left]
    rw [Arret, htake]
    refine ⟨base_of_packet (Lexer.firstMatch_of_mem_tokens h), Or.inr ?_⟩
    rw [hQ, hw]
    exact fun h0 => absurd (Option.some.inj h0) (by decide)
  | cons j js =>
    have hne : (j :: js).flatMap Prod.snd ≠ [] := by
      have hj : j ∈ jetons Q := by
        rw [hjs]
        exact List.mem_cons_self
      rw [List.flatMap_cons]
      exact fun h0 => Lexer.ne_nil_of_mem_tokens hj (List.append_eq_nil_iff.mp h0).1
    generalize (j :: js).flatMap Prod.snd = u at hQ hne
    refine ⟨u.length + 1, by rw [hQ, hw]; simp only [List.length_append, List.length_cons]; omega, fun R => ?_⟩
    have htake : (Q ++ R).take (u.length + 1) = u ++ [dollar] := by
      rw [hQ, hw, List.append_assoc, List.take_append, List.take_of_length_le (by omega),
        Nat.add_sub_cancel_left]
      rfl
    rw [Arret, htake, jam_of_dollar hne]
    exact ⟨rfl, Or.inl rfl⟩

/-- Bytes after the place where the engine stops do not change the token. -/
theorem lastAccept_of_arret {Q : List UInt8} {m : Nat} (hm : m ≤ Q.length) (R : List UInt8)
    (h : Arret Q m) : automate.lastAccept (Q ++ R) (Q ++ R).length = automate.lastAccept Q Q.length := by
  have htake : (Q ++ R).take m = Q.take m := List.take_append_of_le_length hm
  have hbase := h.1
  rw [Automaton.lastAccept_of_final (final_of_base hbase) hm,
    Automaton.lastAccept_of_final (final_of_base (htake ▸ hbase)) (by rw [List.length_append]; omega)]
  exact automate.lastAccept_congr htake

/-! ## One call -/

/-- The call has read no arrival behind those that hold a good packet, and the packets
it leaves there are the others. -/
def SansAttendre (g g' : Yyguts) (P P' : List UInt8) : Prop :=
  ∀ as bs Q, g.arrivees = as ++ bs → P = Q ++ fluxDe bs → bons (jetons Q) ≠ [] →
    ∃ as' Q', g'.arrivees = as' ++ bs ∧ P' = Q' ++ fluxDe bs ∧ bons (jetons Q') = (bons (jetons Q)).drop 1

theorem jetons_of_lastAccept {P : List UInt8} {t : Option Regle} {j : Nat}
    (h : automate.lastAccept P P.length = some (t, j)) :
    jetons P = (t, P.take j) :: jetons (P.drop j) := automate_recognizes.tokens_eq h

/-- The first token when a good packet has arrived: it lies in what has arrived, and so
do the good packets after it. -/
theorem premier_jeton {Q R : List UInt8} {t : Option Regle} {j : Nat} (h : bons (jetons Q) ≠ [])
    (hlast : automate.lastAccept (Q ++ R) (Q ++ R).length = some (t, j)) :
    j ≤ Q.length ∧ jetons Q = (t, (Q ++ R).take j) :: jetons (Q.drop j) ∧
      ∃ m ≤ Q.length, Arret (Q ++ R) m := by
  obtain ⟨⟨regle, w⟩, hmem⟩ := List.exists_mem_of_ne_nil _ h
  rw [bons, List.mem_filter] at hmem
  obtain ⟨hmem, hbon⟩ := hmem
  have hpacket : regle = some .packet := by
    rw [estBon, Bool.and_eq_true, decide_eq_true_eq] at hbon
    exact hbon.1
  subst hpacket
  obtain ⟨m, hm, harret⟩ := arret_of_packet hmem
  have hnil := harret []
  rw [List.append_nil] at hnil
  rw [lastAccept_of_arret hm R hnil] at hlast
  have hj := (automate.lastAccept_some hlast).2.1
  refine ⟨hj, ?_, m, hm, harret R⟩
  rw [List.take_append_of_le_length hj]
  exact jetons_of_lastAccept hlast

/-- The steps of the engine leave the session alone. -/
theorem reaches_pasGdb {c c' : Etiquette × Yyguts} (h : Machine.Reaches pasYylex c c') (s : Session) :
    Machine.Reaches pasGdb (c, s) (c', s) := by
  refine h.lift (fun c => (c, s)) fun c c' hc => ?_
  simp only [pasGdb, hc]

/-- With a good packet among the first arrivals the token at hand is one of theirs, and
nothing after them has been read for it. -/
theorem attend_jeton {g g₁ : Yyguts} {P Q : List UInt8} {t : Option Regle} {j : Nat} {as bs : List Arrivee}
    (hlast : automate.lastAccept P P.length = some (t, j)) (hpresse : Presse g P g₁)
    (has : g.arrivees = as ++ bs) (hQ : P = Q ++ fluxDe bs) (hbons : bons (jetons Q) ≠ []) :
    ∃ as', g₁.arrivees = as' ++ bs ∧ P.drop j = Q.drop j ++ fluxDe bs ∧
      jetons Q = (t, P.take j) :: jetons (Q.drop j) := by
  obtain ⟨hj, hfirst, m, hm, harret⟩ := premier_jeton hbons (hQ ▸ hlast)
  obtain ⟨as', has'⟩ := hpresse as bs m has (hQ ▸ harret) (by rw [hQ, List.length_append]; omega)
  exact ⟨as', has', by rw [hQ, List.drop_append_of_le_length hj], hQ ▸ hfirst⟩

/-- A call of `yylex` on the engine is a call on the tokens, by induction on what is
left of the stream. -/
theorem yylex_flex {g : Yyguts} {P : List UInt8} (h : Pret g P) (s : Session) : ∃ g' P',
    Machine.Ends pasGdb ((.debut, g), s.sansFlux)
      ((yylexLoop (jetons P) s).1, g', (yylexLoop (jetons P) s).2.sansFlux) ∧
    Pret g' P' ∧ (yylexLoop (jetons P) s).2.flux = jetons P' ∧ SansAttendre g g' P P' := by
  obtain ⟨n, hn⟩ : ∃ n, n = P.length := ⟨_, rfl⟩
  induction n using Nat.strong_induction_on generalizing g P s with
  | _ n ih =>
    obtain ⟨⟨sortie, g₁⟩, ⟨c, hreach, hlast⟩, hdonne, hpresse⟩ := h.rend
    have hlift := reaches_pasGdb hreach s.sansFlux
    cases sortie with
    | fin =>
      obtain ⟨rfl, hpret⟩ := hdonne
      have hnil : jetons [] = [] := Lexer.tokens_nil regles
      rw [hnil]
      refine ⟨g₁, [], ⟨_, hlift, ?_⟩, hpret, hnil.symm, ?_⟩
      · simp only [pasGdb, hlast, handleError_sansFlux]
        rfl
      · intro as bs Q _ hQ hbons
        obtain ⟨rfl, _⟩ := List.append_eq_nil_iff.mp hQ.symm
        exact absurd (by rw [hnil]; rfl) hbons
    | action yyAct text =>
      obtain ⟨t, j, hlast', hregle, rfl, hpret⟩ := hdonne
      have hpos := (automate.lastAccept_some hlast').1
      have hlen := (automate.lastAccept_some hlast').2.1
      have hjetons := jetons_of_lastAccept hlast'
      have hbon : (action s (t, P.take j)).1.isSome = estBon (t, P.take j) := by
        refine action_isSome s fun w hw => filtrees_jetons P w ?_
        rw [hjetons, hw]
        exact List.mem_cons_self
      have hstep : pasGdb (c, s.sansFlux) = match action s (t, P.take j) with
          | (some result, s') => some (.inr (result, g₁, s'.sansFlux))
          | (none, s') => some (.inl ((.debut, g₁), s'.sansFlux)) := by
        simp only [pasGdb, hlast, hregle, action_sansFlux]
        rcases action s (t, P.take j) with ⟨_ | _, _⟩ <;> rfl
      rw [hjetons, yylexLoop]
      rcases hact : action s (t, P.take j) with ⟨result, s'⟩
      rw [hact] at hstep hbon
      cases result with
      | some result =>
        refine ⟨g₁, P.drop j, ⟨_, hlift, hstep⟩, hpret, rfl, ?_⟩
        intro as bs Q has hQ hbons
        obtain ⟨as', has', hdrop, hfirst⟩ := attend_jeton hlast' hpresse has hQ hbons
        refine ⟨as', Q.drop j, has', hdrop, ?_⟩
        rw [hfirst, bons, bons, List.filter_cons_of_pos hbon.symm]
        rfl
      | none =>
        obtain ⟨g', P', hends, hpret', hflux, hattend'⟩ := ih (P.drop j).length
          (by rw [List.length_drop, hn]; omega) hpret s' rfl
        refine ⟨g', P', hends.of_reaches (hlift.trans (Machine.Reaches.single hstep)), hpret', hflux, ?_⟩
        intro as bs Q has hQ hbons
        obtain ⟨as', has', hdrop, hfirst⟩ := attend_jeton hlast' hpresse has hQ hbons
        have hsame : bons (jetons Q) = bons (jetons (Q.drop j)) := by
          rw [hfirst, bons, bons, List.filter_cons_of_neg (by rw [← hbon]; simp)]
        rw [hsame] at hbons ⊢
        exact hattend' as' bs (Q.drop j) has' hdrop hbons

/-! ## Runs -/

/-- What the calls returned, without the tokens to come. -/
def sansFlux (rs : List (Int × Session)) : List (Int × Session) := rs.map fun r => (r.1, r.2.sansFlux)

/-- The run of the calls `appels` on the engine `g`, when `P` is left of the stream:
what it gives, and that it has not waited for more than it needs. -/
def Deroule (appels : List Appel) (g : Yyguts) (P : List UInt8) (s : Session) : Prop :=
  ∃ g' n, (∀ tours, n ≤ tours → executerFlex tours appels (g, s.sansFlux) =
      some (sansFlux (executer appels s).1, g', (executer appels s).2.sansFlux)) ∧
    ∀ as bs Q, g.arrivees = as ++ bs → P = Q ++ fluxDe bs →
      appels.count .getPacket ≤ (bons (jetons Q)).length → ∃ as', g'.arrivees = as' ++ bs

/-- A run on the engine is the run on the tokens, one call at a time. -/
theorem executer_flex (appels : List Appel) {g : Yyguts} {P : List UInt8} (h : Pret g P) {s : Session}
    (hs : s.flux = jetons P) : Deroule appels g P s := by
  induction appels generalizing g P s with
  | nil => exact ⟨g, 0, fun _ _ => rfl, fun as bs Q has _ _ => ⟨as, has⟩⟩
  | cons appel appels ih =>
    cases appel with
    | sendBuffer payload =>
      obtain ⟨g', n, hrun, hattend⟩ := ih h (s := envoyer s payload) hs
      refine ⟨g', n, fun tours htours => ?_, fun as bs Q has hQ hcount => hattend as bs Q has hQ ?_⟩
      · exact hrun tours htours
      · rwa [List.count_cons_of_ne (by simp)] at hcount
    | getPacket =>
      obtain ⟨g₁, P₁, hends, hpret, hflux, hattend⟩ := yylex_flex h s
      rw [← hs] at hends hflux
      obtain ⟨n₁, hn₁⟩ := hends.run
      obtain ⟨g', n, hrun, hattend'⟩ := ih hpret (s := (gdbGetPacket s).2) hflux
      refine ⟨g', max n₁ n, fun tours htours => ?_, fun as bs Q has hQ hcount => ?_⟩
      · rw [executerFlex, hn₁ tours (by omega)]
        simp only [Option.bind_eq_bind, Option.bind_some]
        refine (congrArg (Option.bind · _) (hrun tours (by omega))).trans ?_
        rfl
      · rw [List.count_cons_self] at hcount
        have hne : bons (jetons Q) ≠ [] := List.length_pos_iff.mp (by omega)
        obtain ⟨as', Q', has', hQ', hbons⟩ := hattend as bs Q has hQ hne
        refine hattend' as' bs Q' has' hQ' ?_
        rw [hbons, List.length_drop]
        omega

/-- However the stream arrives, calls of `gdb_send_buffer` and `gdb_get_packet` in any
order return and do, on the scanner that flex generated, what they do on the tokens of
the stream: no subscript leaves a table or the buffer, no byte is read that is not set,
and the loops end. -/
theorem executerFlex_eq (packet buffer : Memory UInt8) (answer : List UInt8) (answerLen etat pos : Nat)
    (arrivees : List Arrivee) (appels : List Appel) : ∃ g n, ∀ tours, n ≤ tours →
      executerFlex tours appels (yylexInit etat pos arrivees,
          (connexion packet buffer answer answerLen []).sansFlux) =
        some (sansFlux (executer appels (connexion packet buffer answer answerLen (fluxDe arrivees))).1, g,
          (executer appels (connexion packet buffer answer answerLen (fluxDe arrivees))).2.sansFlux) := by
  obtain ⟨g, n, hrun, _⟩ := executer_flex appels (yylexInit_pret etat pos arrivees)
    (s := connexion packet buffer answer answerLen (fluxDe arrivees)) rfl
  exact ⟨g, n, hrun⟩

/-- The receiver does not wait: calls of `gdb_get_packet` that the good packets among the
arrivals `as` can serve read no arrival after these. -/
theorem executerFlex_sansAttendre (packet buffer : Memory UInt8) (answer : List UInt8)
    (answerLen etat pos : Nat) (as bs : List Arrivee) (appels : List Appel)
    (hcount : appels.count .getPacket ≤ (bons (jetons (fluxDe as))).length) :
    ∃ rs g s as' n, (∀ tours, n ≤ tours → executerFlex tours appels (yylexInit etat pos (as ++ bs),
        (connexion packet buffer answer answerLen []).sansFlux) = some (rs, g, s)) ∧
      g.arrivees = as' ++ bs := by
  obtain ⟨g, n, hrun, hattend⟩ := executer_flex appels (yylexInit_pret etat pos (as ++ bs))
    (s := connexion packet buffer answer answerLen (fluxDe (as ++ bs))) rfl
  obtain ⟨as', has'⟩ := hattend as bs (fluxDe as) rfl (fluxDe_append as bs) hcount
  exact ⟨_, g, _, as', n, hrun, has'⟩

/-- A frame in two arrivals, and a third one that the call does not read. -/
theorem executerFlex_sansAttendre_exemple : ∃ rs g s as' n, (∀ tours, n ≤ tours →
    executerFlex tours [.getPacket] (yylexInit 0 0 ([.octets [dollar] (by decide), .interruption,
        .octets [hash, ascii '0', ascii '0'] (by decide)] ++ [.octets [plus] (by decide)]),
      (connexion (fun _ => 0) (fun _ => 0) [] 0 []).sansFlux) = some (rs, g, s)) ∧
    g.arrivees = as' ++ [.octets [plus] (by decide)] := by
  have htoken := Lexer.tokens_of_longestMatch (longestMatch_packet (p := []) (a := ascii '0')
    (b := ascii '0') (by decide) (by decide) (by decide) [])
  refine executerFlex_sansAttendre (fun _ => 0) (fun _ => 0) [] 0 0 0 _ _ [.getPacket] ?_
  change 1 ≤ (bons (Lexer.tokens regles _)).length
  refine Nat.le_of_eq ?_
  have hbons : bons [(some Regle.packet, [dollar, hash, ascii '0', ascii '0'])] =
      [(some Regle.packet, [dollar, hash, ascii '0', ascii '0'])] := by decide
  rw [Lexer.tokens_nil] at htoken
  exact (congrArg (fun js => (bons js).length) (htoken.trans rfl)).trans (congrArg List.length hbons) |>.symm

end ElfLinker
