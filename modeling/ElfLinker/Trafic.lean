import ElfLinker.Emission

/-!
What the commands put on the connection. Each packet comes first, and only
acknowledgements, requests and copies of that packet come between it and the next one.
-/

namespace ElfLinker

/-! ## On the wire -/

/-- What comes after the packet of the payload `p` and before the next packet. -/
def EntreDeux (p w : List UInt8) : Prop := w = [plus] ∨ w = [minus] ∨ w = trame p

/-- The packet of `p` and what is written before the next packet, in order. -/
def BlocDe (p : List UInt8) (bloc : List (List UInt8)) : Prop :=
  ∃ suite, bloc = trame p :: suite ∧ ∀ w ∈ suite, EntreDeux p w

/-- What the program writes in one go: an acknowledgement, a request or a packet. -/
def Mot (w : List UInt8) : Prop := w = [plus] ∨ w = [minus] ∨ ∃ p, Free p ∧ w = trame p

theorem EntreDeux.mot {p w : List UInt8} (hfree : Free p) (h : EntreDeux p w) : Mot w :=
  h.imp id fun h => h.imp id fun h => ⟨p, hfree, h⟩

theorem BlocDe.mots {p : List UInt8} {bloc : List (List UInt8)} (hfree : Free p) (h : BlocDe p bloc) :
    ∀ w ∈ bloc, Mot w := by
  obtain ⟨suite, rfl, hsuite⟩ := h
  rw [List.forall_mem_cons]
  exact ⟨Or.inr (Or.inr ⟨p, hfree, rfl⟩), fun w hw => (hsuite w hw).mot hfree⟩

theorem mots_blocs {ps : List (List UInt8)} {blocs : List (List (List UInt8))} (hfree : ∀ p ∈ ps, Free p)
    (h : List.Forall₂ BlocDe ps blocs) : ∀ w ∈ blocs.flatten, Mot w := by
  induction h with
  | nil => simp
  | cons hp _ ih =>
    rw [List.forall_mem_cons] at hfree
    rw [List.flatten_cons, List.forall_mem_append]
    exact ⟨hp.mots hfree.1, ih hfree.2⟩

/-- The bytes `b` are acknowledgements, requests and copies of the packet `envoye`. -/
def EnMots (envoye b : List UInt8) : Prop :=
  ∃ ws : List (List UInt8), b = ws.flatten ∧ ∀ w ∈ ws, w = [plus] ∨ w = [minus] ∨ w = envoye

theorem EnMots.append {envoye b b' : List UInt8} (h : EnMots envoye b) (h' : EnMots envoye b') :
    EnMots envoye (b ++ b') := by
  obtain ⟨ws, rfl, hmots⟩ := h
  obtain ⟨ws', rfl, hmots'⟩ := h'
  refine ⟨ws ++ ws', List.flatten_append.symm, fun w hw => ?_⟩
  exact (List.mem_append.mp hw).elim (hmots w) (hmots' w)

theorem enMots_singleton {envoye w : List UInt8} (h : w = [plus] ∨ w = [minus] ∨ w = envoye) : EnMots envoye w :=
  ⟨[w], List.flatten_singleton.symm, fun _ hw => List.mem_singleton.mp hw ▸ h⟩

theorem enMots_redemandes (envoye : List UInt8) (g : Nat) : EnMots envoye (redemandes g) := by
  unfold redemandes
  induction (g + 1022) / 1023 with
  | zero => exact ⟨[], rfl, by simp⟩
  | succ n ih => exact (enMots_singleton (Or.inr (Or.inl rfl))).append ih

/-- The bytes that the receiver writes back are such words. -/
theorem reponse_mots (envoye : List UInt8) (g : Nat) (js : List Jeton) : EnMots envoye (reponse envoye g js) := by
  induction js generalizing g with
  | nil => exact enMots_redemandes envoye g
  | cons j js ih =>
    obtain ⟨regle, text⟩ := j
    have hredemandes := enMots_redemandes envoye g
    cases regle with
    | none => exact ih g
    | some regle =>
      cases regle with
      | ack => exact hredemandes.append (ih 0)
      | retransmission => exact (hredemandes.append (enMots_singleton (Or.inr (Or.inr rfl)))).append (ih 0)
      | packet =>
        have hverdict : EnMots envoye [if sommeJuste text then plus else minus] := by
          split
          · exact enMots_singleton (Or.inl rfl)
          · exact enMots_singleton (Or.inr (Or.inl rfl))
        exact (hredemandes.append hverdict).append (ih 0)
      | caractere => exact ih (g + 1)

/-- From `s` to `fin` the packets of the payloads `ps` go out, each in its block, and
nothing else. -/
structure Trafic (s : Session) (ps : List (List UInt8)) (fin : Session) : Prop where
  mots : ∃ evs, ∃ blocs : List (List (List UInt8)), fin.log = s.log ++ evs ∧
    List.Forall₂ BlocDe ps blocs ∧ written evs = blocs.flatten.flatten
  len : fin.data.len = 0
  filtrees : Filtrees fin.flux

theorem Trafic.refl {s : Session} (hlen : s.data.len = 0) (hf : Filtrees s.flux) : Trafic s [] s :=
  ⟨⟨[], [], (List.append_nil _).symm, .nil, rfl⟩, hlen, hf⟩

theorem Trafic.trans {s s' s'' : Session} {ps ps' : List (List UInt8)} (h : Trafic s ps s')
    (h' : Trafic s' ps' s'') : Trafic s (ps ++ ps') s'' := by
  obtain ⟨evs, blocs, hlog, hblocs, hw⟩ := h.mots
  obtain ⟨evs', blocs', hlog', hblocs', hw'⟩ := h'.mots
  refine ⟨⟨evs ++ evs', blocs ++ blocs', ?_, List.rel_append hblocs hblocs', ?_⟩, h'.len, h'.filtrees⟩
  · rw [hlog', hlog, List.append_assoc]
  · rw [written_append, hw, hw', List.flatten_append, List.flatten_append]

/-- A payload that is ready, sent and answered. -/
theorem ChargePrete.trafic {s s' : Session} {p : List UInt8} (h : ChargePrete s p s') (hlen : s.data.len = 0)
    (hf : Filtrees s.flux) : Trafic s [p] (gdbGetAnswer (gdbSendBuffer s')).2 := by
  obtain ⟨rfl, ⟨evs, hlog, hevs⟩, hdata, hflux⟩ := h
  rw [← hflux] at hf
  rw [← hdata] at hlen
  have hlu : Lu (gdbSendBuffer s') 0 s'.flux (gdbGetAnswer (gdbSendBuffer s')) := yylexLoop_lu hf hlen
  obtain ⟨_, ⟨evs', hlog', rfl, _⟩, hrep⟩ := hlu.octets
  obtain ⟨ws, hws, hmots⟩ := reponse_mots (gdbSendBuffer s').envoye 0 (coupeBon s'.flux).1
  rw [gdbSendBuffer_envoye] at hmots
  refine ⟨⟨evs ++ envoi s'.payload ++ evs', [trame s'.payload :: ws], ?_, .cons ⟨ws, rfl, hmots⟩ .nil, ?_⟩,
    hlu.len, ?_⟩
  · rw [hlog', gdbSendBuffer_log, hlog, List.append_assoc, List.append_assoc, List.append_assoc]
  · have hnone : written evs = [] := by
      rw [written, List.flatMap_eq_nil_iff]
      intro e he
      cases e with
      | packetStore off bytes => rfl
      | _ => exact (hevs _ he).elim
    have hanswer : written evs' = ws.flatten := hrep.trans hws
    rw [written_append, written_append, hnone, written_envoi, hanswer]
    simp
  · rw [hlu.flux]
    exact hf.coupeBon

/-! ## The commands -/

/-- The payloads of a command, a transfer being short enough for one. -/
def charges (simulateur : Bool) : Commande → List (List UInt8)
  | .writeRegister num value => [chargeRegistre simulateur num value]
  | .writeMemory address buffer => if buffer = [] then [] else [chargeUtile address buffer]
  | .cont => [[ascii 'c']]
  | .step => [[ascii 's']]

/-- One turn of `gdb_write_memory` takes the whole of a short transfer. -/
theorem ecrireBloc_trafic {s : Session} (address : UInt32) {src : List UInt8}
    (hcourt : (src.flatMap echappe).length ≤ 1000) (hlen : s.data.len = 0) (hf : Filtrees s.flux) :
    Trafic s [chargeUtile address src] (ecrireBloc s address src).1 ∧ (ecrireBloc s address src).2.2 = [] := by
  obtain ⟨pre, reste, s', h, _⟩ := ecrireBloc_pret s address src
  have hreste : reste = [] := by
    rcases h.plein with hnil | hplein
    · exact hnil
    · have hle : (pre.flatMap echappe).length ≤ (src.flatMap echappe).length := by
        rw [h.split, List.flatMap_append, List.length_append]
        exact Nat.le_add_right _ _
      simp only [maxBufferSize, maxPacketSize] at hplein
      omega
  have hpre : src = pre := by rw [h.split, hreste, List.append_nil]
  rw [h.tour, hpre]
  exact ⟨h.trafic hlen hf, hreste⟩

/-- Every short command ends, and the packets that go out are its own. -/
theorem lancer_trafic (host simulateur : Bool) {s : Session} {commande : Commande} (hcourt : commande.Court)
    (hlen : s.data.len = 0) (hf : Filtrees s.flux) : ∃ fin,
      (∀ fuel, commande.tours < fuel → commande.lancer host simulateur fuel s = some fin) ∧
        Trafic s (charges simulateur commande) fin := by
  cases commande with
  | writeRegister num value =>
    exact ⟨_, fun _ _ => rfl, (gdbWriteRegister_pret host simulateur s num value).trafic hlen hf⟩
  | cont => exact ⟨_, fun _ _ => rfl, (gdbSendData_pret s (ascii 'c')).trafic hlen hf⟩
  | step => exact ⟨_, fun _ _ => rfl, (gdbSendData_pret s (ascii 's')).trafic hlen hf⟩
  | writeMemory address buffer =>
    by_cases hvide : buffer = []
    · subst hvide
      refine ⟨s, fun fuel hfuel => ?_, Trafic.refl hlen hf⟩
      obtain ⟨n, rfl⟩ := Nat.exists_eq_add_of_le' hfuel
      rfl
    · obtain ⟨htrafic, hreste⟩ := ecrireBloc_trafic (s := s) address
        (by rw [length_flatMap_echappe]; exact hcourt) hlen hf
      refine ⟨_, fun fuel hfuel => ?_, by rw [charges, if_neg hvide]; exact htrafic⟩
      have hpos := List.length_pos_iff.mpr hvide
      obtain ⟨n, rfl⟩ := Nat.exists_eq_add_of_le' (show 2 ≤ fuel by rw [Commande.tours] at hfuel; omega)
      change gdbWriteMemory (n + 1 + 1) s address buffer = _
      rw [gdbWriteMemory, if_pos hpos]
      simp only [hreste]
      rfl

/-- The commands in order, each with at most `fuel` turns. -/
def lancerTout (host simulateur : Bool) (fuel : Nat) (s : Session) (commandes : List Commande) :
    Option Session :=
  commandes.foldlM (fun s commande => commande.lancer host simulateur fuel s) s

theorem lancerTout_trafic (host simulateur : Bool) {commandes : List Commande}
    (hcourt : ∀ commande ∈ commandes, commande.Court) {s : Session} (hlen : s.data.len = 0)
    (hf : Filtrees s.flux) : ∃ fin, (∀ fuel, (∀ commande ∈ commandes, commande.tours < fuel) →
        lancerTout host simulateur fuel s commandes = some fin) ∧
      Trafic s (commandes.flatMap (charges simulateur)) fin := by
  induction commandes generalizing s with
  | nil => exact ⟨s, fun _ _ => rfl, Trafic.refl hlen hf⟩
  | cons commande commandes ih =>
    rw [List.forall_mem_cons] at hcourt
    obtain ⟨s', hrun, htrafic⟩ := lancer_trafic host simulateur hcourt.1 hlen hf
    obtain ⟨fin, hrun', htrafic'⟩ := ih hcourt.2 htrafic.len htrafic.filtrees
    refine ⟨fin, fun fuel hfuel => ?_, htrafic.trans htrafic'⟩
    rw [List.forall_mem_cons] at hfuel
    rw [lancerTout, List.foldlM_cons, hrun fuel hfuel.1]
    exact hrun' fuel hfuel.2

theorem free_charges (simulateur : Bool) (commande : Commande) : ∀ p ∈ charges simulateur commande, Free p := by
  cases commande with
  | writeRegister num value =>
    simp only [charges, List.mem_singleton, forall_eq]
    exact free_chargeRegistre simulateur num value
  | writeMemory address buffer =>
    rw [charges]
    by_cases hvide : buffer = []
    · rw [if_pos hvide]
      exact fun p hp => absurd hp List.not_mem_nil
    · rw [if_neg hvide, List.forall_mem_singleton]
      exact free_chargeUtile address buffer
  | cont =>
    simp only [charges, List.mem_singleton, forall_eq]
    decide
  | step =>
    simp only [charges, List.mem_singleton, forall_eq]
    decide

/-- The blocks that short commands put on the connection, one for each of their payloads. -/
theorem lancerTout_blocs (host simulateur : Bool) (packet buffer : Memory UInt8) (answer : List UInt8)
    (answerLen : Nat) (flux : List UInt8) {commandes : List Commande}
    (hcourt : ∀ commande ∈ commandes, commande.Court) : ∃ fin, ∃ blocs : List (List (List UInt8)),
      (∀ fuel, (∀ commande ∈ commandes, commande.tours < fuel) → lancerTout host simulateur fuel
        (connexion packet buffer answer answerLen flux) commandes = some fin) ∧
      written fin.log = blocs.flatten.flatten ∧ (∀ w ∈ blocs.flatten, Mot w) ∧
      List.Forall₂ BlocDe (commandes.flatMap (charges simulateur)) blocs := by
  obtain ⟨fin, hrun, htrafic⟩ := lancerTout_trafic host simulateur hcourt
    (s := connexion packet buffer answer answerLen flux) rfl (filtrees_jetons flux)
  obtain ⟨evs, blocs, hlog, hblocs, hw⟩ := htrafic.mots
  have hevs : fin.log = evs := hlog
  have hfree : ∀ p ∈ commandes.flatMap (charges simulateur), Free p := by
    intro p hp
    obtain ⟨commande, _, hp⟩ := List.mem_flatMap.mp hp
    exact free_charges simulateur commande p hp
  exact ⟨fin, blocs, hrun, by rw [hevs, hw], mots_blocs hfree hblocs, hblocs⟩

end ElfLinker
