import ElfLinker.Trafic
import ElfLinker.Lib.Delivery

/-!
The simulator at the other end of the connection. It is a program of its own, so all that
is said of it is what the remote protocol of GDB promises. A simulator that gets at least
one copy of each packet does what the calls ask for, each once and in their order.
-/

namespace ElfLinker

/-! ## A simulator -/

/-- A simulator, by the states of its memory and its registers: the state after some bytes
came in, and what it makes of an order to write memory or a register. -/
structure Simulateur (σ : Type) where
  recoit : σ → List UInt8 → σ
  ecrit : σ → UInt32 → List UInt8 → σ
  charge : σ → UInt8 → UInt32 → σ

/-- The remote protocol of GDB, for the byte order `gros`. The words that come in are dealt
with one after the other; an acknowledgement, a request and the start of a packet order
nothing; an `X` and a `P` packet order what they encode; and an order given twice in a row
is given once. -/
structure Simulateur.Conforme {σ : Type} (m : Simulateur σ) (gros : Bool) : Prop where
  rien : ∀ c, m.recoit c [] = c
  mot : ∀ c w suite, Mot w → m.recoit c (w ++ suite) = m.recoit (m.recoit c w) suite
  ack : ∀ c, m.recoit c [plus] = c
  retransmission : ∀ c, m.recoit c [minus] = c
  debut : ∀ c p v, Free p → v <+: trame p → v.length < (trame p).length → m.recoit c v = c
  memoire : ∀ c (x : Morceau) p, Free p → x.Code p → m.recoit c (trame p) = m.ecrit c x.adresse x.donnees
  registre : ∀ c num value p, Free p → RegistreCode gros num value p →
    m.recoit c (trame p) = m.charge c num value
  ecrit_ecrit : ∀ c adresse donnees, m.ecrit (m.ecrit c adresse donnees) adresse donnees =
    m.ecrit c adresse donnees
  charge_charge : ∀ c num value, m.charge (m.charge c num value) num value = m.charge c num value

/-- What a call asks for: `arm_write_register` and `arm_write_memory`. -/
def Simulateur.demande {σ : Type} (m : Simulateur σ) (c : σ) : Commande → σ
  | .writeRegister num value => m.charge c num value
  | .writeMemory address buffer => if buffer = [] then c else m.ecrit c address buffer
  | .cont => c
  | .step => c

def Commande.EstEcriture : Commande → Prop
  | .writeRegister _ _ => True
  | .writeMemory _ _ => True
  | _ => False

section

variable {σ : Type} {m : Simulateur σ} {simulateur : Bool}

/-- The words one by one. -/
theorem Simulateur.Conforme.mots (hm : m.Conforme simulateur) {ws : List (List UInt8)} (hws : ∀ w ∈ ws, Mot w)
    (c : σ) (suite : List UInt8) : m.recoit c (ws.flatten ++ suite) = m.recoit (ws.foldl m.recoit c) suite := by
  induction ws generalizing c with
  | nil => rfl
  | cons w ws ih =>
    rw [List.forall_mem_cons] at hws
    rw [List.flatten_cons, List.append_assoc, hm.mot c w _ hws.1, ih hws.2, List.foldl_cons]

theorem Simulateur.Conforme.flatten (hm : m.Conforme simulateur) {ws : List (List UInt8)} (hws : ∀ w ∈ ws, Mot w)
    (c : σ) : m.recoit c ws.flatten = ws.foldl m.recoit c := by
  have h := hm.mots hws c []
  rwa [List.append_nil, hm.rien] at h

/-- The packet of a write orders what the call asks for. -/
theorem Simulateur.Conforme.trame_charges (hm : m.Conforme simulateur) {commande : Commande}
    (hcourt : commande.Court) (hecrit : commande.EstEcriture) {p : List UInt8}
    (hp : p ∈ charges simulateur commande) (c : σ) : m.recoit c (trame p) = m.demande c commande := by
  have hfree := free_charges simulateur commande p hp
  cases commande with
  | writeRegister num value =>
    obtain rfl := List.mem_singleton.mp hp
    exact hm.registre c num value _ hfree (registreCode_chargeRegistre simulateur num value)
  | writeMemory address buffer =>
    have hle : buffer.length + buffer.countP special ≤ 1000 := hcourt
    rw [charges] at hp
    split at hp
    · cases hp
    next hvide =>
      obtain rfl := List.mem_singleton.mp hp
      have hcode : (Morceau.mk address buffer).Code (chargeUtile address buffer) :=
        Morceau.code_payload (List.length_pos_iff.mpr hvide)
          (by simp only [maxBufferSize, maxPacketSize]; omega)
      rw [hm.memoire c _ _ hfree hcode, Simulateur.demande, if_neg hvide]
  | cont => exact hecrit.elim
  | step => exact hecrit.elim

/-- A call made again changes nothing. -/
theorem Simulateur.Conforme.demande_demande (hm : m.Conforme simulateur) (c : σ) (commande : Commande) :
    m.demande (m.demande c commande) commande = m.demande c commande := by
  cases commande with
  | writeRegister num value => exact hm.charge_charge c num value
  | writeMemory address buffer =>
    simp only [Simulateur.demande]
    split
    · rfl
    · exact hm.ecrit_ecrit c address buffer
  | cont => rfl
  | step => rfl

/-- The packets of the writes, each once, order what the calls ask for. -/
theorem Simulateur.Conforme.foldl_charges (hm : m.Conforme simulateur) {commandes : List Commande}
    (h : ∀ commande ∈ commandes, commande.Court ∧ commande.EstEcriture) (c : σ) :
    ((commandes.flatMap (charges simulateur)).map trame).foldl m.recoit c = commandes.foldl m.demande c := by
  induction commandes generalizing c with
  | nil => rfl
  | cons commande commandes ih =>
    rw [List.forall_mem_cons] at h
    have hone : ((charges simulateur commande).map trame).foldl m.recoit c = m.demande c commande := by
      have hp := fun p hp => hm.trame_charges h.1.1 h.1.2 (p := p) hp c
      cases commande with
      | writeRegister num value => exact hp _ List.mem_cons_self
      | writeMemory address buffer =>
        rw [charges] at hp ⊢
        split at hp
        next hvide => rw [if_pos hvide, Simulateur.demande, if_pos hvide]; rfl
        next hvide => rw [if_neg hvide]; exact hp _ List.mem_cons_self
      | cont => exact h.1.2.elim
      | step => exact h.1.2.elim
    rw [List.flatMap_cons, List.map_append, List.foldl_append, hone, ih h.2, List.foldl_cons]

end

/-! ## Delivery -/

/-- What arrives of a block: a part of it with the packet in it at least once. -/
def Arrive (bloc recu : List (List UInt8)) : Prop := recu.Sublist bloc ∧ ∀ w ∈ bloc.head?, w ∈ recu

theorem arrive_refl (bloc : List (List UInt8)) : Arrive bloc bloc :=
  ⟨List.Sublist.refl _, fun _ hw => List.mem_of_mem_head? hw⟩

section

variable {σ : Type} {m : Simulateur σ} {simulateur : Bool} {ps : List (List UInt8)}
  {blocs recus : List (List (List UInt8))}

theorem Simulateur.Conforme.delivers (hm : m.Conforme simulateur) {p : List UInt8} {bloc recu : List (List UInt8)}
    (h : BlocDe p bloc) (harr : Arrive bloc recu) : Delivery.Delivers m.recoit (trame p) recu := by
  obtain ⟨suite, rfl, hsuite⟩ := h
  obtain ⟨hsub, hone⟩ := harr
  refine ⟨hone _ rfl, fun w hw => ?_⟩
  rcases List.mem_cons.mp (hsub.subset hw) with rfl | hmem
  · exact Or.inl rfl
  · rcases hsuite w hmem with rfl | rfl | rfl
    · exact Or.inr hm.ack
    · exact Or.inr hm.retransmission
    · exact Or.inl rfl

theorem Simulateur.Conforme.delivers_all (hm : m.Conforme simulateur) (h : List.Forall₂ BlocDe ps blocs)
    (harr : List.Forall₂ Arrive blocs recus) :
    List.Forall₂ (Delivery.Delivers m.recoit) (ps.map trame) recus := by
  induction h generalizing recus with
  | nil =>
    cases harr
    exact .nil
  | cons hp _ ih =>
    cases harr with
    | cons hrecu hrest => exact .cons (hm.delivers hp hrecu) (ih hrest)

/-- A packet of a write that comes again changes nothing. -/
theorem Simulateur.Conforme.recoit_recoit (hm : m.Conforme simulateur) {commandes : List Commande}
    (h : ∀ commande ∈ commandes, commande.Court ∧ commande.EstEcriture) :
    ∀ w ∈ (commandes.flatMap (charges simulateur)).map trame, ∀ c,
      m.recoit (m.recoit c w) w = m.recoit c w := by
  intro w hw c
  obtain ⟨p, hp, rfl⟩ := List.mem_map.mp hw
  obtain ⟨commande, hmem, hp⟩ := List.mem_flatMap.mp hp
  have hone := hm.trame_charges (h commande hmem).1 (h commande hmem).2 hp
  rw [hone, hone, hm.demande_demande]

theorem mot_recus (hmots : ∀ w ∈ blocs.flatten, Mot w) (harr : List.Forall₂ Arrive blocs recus) :
    ∀ w ∈ recus.flatten, Mot w := by
  induction harr with
  | nil => simp
  | cons hrecu _ ih =>
    rw [List.flatten_cons, List.forall_mem_append] at hmots ⊢
    exact ⟨fun w hw => hmots.1 w (hrecu.1.subset hw), ih hmots.2⟩

end

/-- Whatever comes in, the packets of short commands are on the wire in the order of the
commands; between one and the next there are acknowledgements, requests and copies of
the first, never an earlier packet. So no write is lost and none has its effect twice:
if a copy at least of each packet gets through, a simulator ends as the calls leave it,
from any state. -/
theorem ecritures_livrees (host simulateur : Bool) (packet buffer : Memory UInt8) (answer : List UInt8)
    (answerLen : Nat) (flux : List UInt8) {commandes : List Commande}
    (hcourt : ∀ commande ∈ commandes, commande.Court) : ∃ fin, ∃ blocs : List (List (List UInt8)),
      (∀ fuel, (∀ commande ∈ commandes, commande.tours < fuel) → lancerTout host simulateur fuel
        (connexion packet buffer answer answerLen flux) commandes = some fin) ∧
      written fin.log = blocs.flatten.flatten ∧
      List.Forall₂ BlocDe (commandes.flatMap (charges simulateur)) blocs ∧
      ((∀ commande ∈ commandes, commande.EstEcriture) → ∀ (σ : Type) (m : Simulateur σ), m.Conforme simulateur →
        ∀ recus, List.Forall₂ Arrive blocs recus →
          ∀ c, m.recoit c recus.flatten.flatten = commandes.foldl m.demande c) := by
  obtain ⟨fin, blocs, hrun, hw, hmots, hblocs⟩ :=
    lancerTout_blocs host simulateur packet buffer answer answerLen flux hcourt
  refine ⟨fin, blocs, hrun, hw, hblocs, fun hecrit σ m hm recus harr c => ?_⟩
  have hcommandes : ∀ commande ∈ commandes, commande.Court ∧ commande.EstEcriture :=
    fun commande hmem => ⟨hcourt commande hmem, hecrit commande hmem⟩
  rw [hm.flatten (mot_recus hmots harr),
    Delivery.foldl_delivered (hm.delivers_all hblocs harr) (hm.recoit_recoit hcommandes),
    hm.foldl_charges hcommandes]

/-! ## The words as tokens -/

/-- An acknowledgement or a request is one token, whatever follows it. -/
theorem tokens_controle {c : UInt8} {r : Regle} (hd : c ≠ dollar)
    (hfirst : Lexer.firstMatch regles [c] = some r) (suite : List UInt8) :
    jetons ([c] ++ suite) = (some r, [c]) :: jetons suite := by
  refine Lexer.tokens_of_longestMatch ⟨rfl, List.cons_ne_nil _ _, hfirst, ?_⟩
  intro w' rest' hsplit hlen
  refine (firstMatch_long hlen).2 fun hm => ?_
  obtain ⟨p, a, b, rfl, _⟩ := mem_packetPattern.mp hm
  exact hd (List.cons.inj hsplit).1

/-- The token of a word. -/
def jetonDe (w : List UInt8) : Jeton :=
  if w = [plus] then (some .ack, w) else if w = [minus] then (some .retransmission, w) else (some .packet, w)

theorem jetonDe_trame (p : List UInt8) : jetonDe (trame p) = (some .packet, trame p) := by
  have hhead : ∀ c : UInt8, c ≠ dollar → trame p ≠ [c] := fun c hc h => hc (List.cons.inj h).1.symm
  rw [jetonDe, if_neg (hhead plus (by decide)), if_neg (hhead minus (by decide))]

theorem firstMatch_plus : Lexer.firstMatch regles [plus] = some .ack :=
  Lexer.firstMatch_cons_of_mem _ rfl

theorem firstMatch_minus : Lexer.firstMatch regles [minus] = some .retransmission := by
  have hplus : [minus] ∉ (RegularExpression.char plus).matches' := by
    intro h
    exact absurd (List.cons.inj h).1 (by decide)
  rw [regles, Lexer.firstMatch_cons_of_notMem _ hplus]
  exact Lexer.firstMatch_cons_of_mem _ rfl

/-- A word is one token, whatever follows it. -/
theorem jetons_mot {w : List UInt8} (h : Mot w) (suite : List UInt8) :
    jetons (w ++ suite) = jetonDe w :: jetons suite := by
  rcases h with rfl | rfl | ⟨p, hp, rfl⟩
  · exact tokens_controle (by decide) firstMatch_plus _
  · exact tokens_controle (by decide) firstMatch_minus _
  · rw [jetonDe_trame]
    exact Lexer.tokens_of_longestMatch (longestMatch_trame hp _)

theorem jetons_mot_seul {w : List UInt8} (h : Mot w) : jetons w = [jetonDe w] := by
  have hone := jetons_mot h []
  rwa [List.append_nil, show jetons [] = [] from Lexer.tokens_nil regles] at hone

/-- The `#` of a packet is the one before its two digits. -/
theorem getElem?_trame_hash {p : List UInt8} (hp : Free p) {j : Nat} (h : (trame p)[j]? = some hash) :
    j = p.length + 1 := by
  cases j with
  | zero => exact absurd (Option.some.inj h) (by decide)
  | succ j =>
    change (p ++ hash :: Hexa.digits 2 p.sum.toNat)[j]? = some hash at h
    rcases Nat.lt_or_ge j p.length with hlt | hge
    · rw [List.getElem?_append_left hlt] at h
      exact absurd rfl (hp hash (List.mem_of_getElem? h)).2
    · rw [List.getElem?_append_right hge] at h
      rcases Nat.eq_zero_or_pos (j - p.length) with hz | hpos
      · omega
      · obtain ⟨k, hk⟩ := Nat.exists_eq_add_of_le' hpos
        rw [hk, List.getElem?_cons_succ] at h
        have hdigit := Hexa.isDigit_of_mem_digits (List.mem_of_getElem? h)
        exact absurd hdigit (by decide)

/-- A packet that stops before its end is no packet for the scanner. -/
theorem estBon_debut {p v : List UInt8} (hp : Free p) (hv : v <+: trame p) (hlen : v.length < (trame p).length) :
    ∀ j ∈ jetons v, estBon j = false := by
  rintro ⟨regle, w⟩ hj
  by_contra hbon
  rw [Bool.not_eq_false, estBon, Bool.and_eq_true, decide_eq_true_eq] at hbon
  obtain rfl : regle = some .packet := hbon.1
  obtain ⟨q, a, b, rfl, _⟩ := mem_packetPattern.mp (filtrees_jetons v w hj)
  obtain ⟨js, js', hjs⟩ := List.append_of_mem hj
  obtain ⟨suite, hsuite⟩ := hv
  -- the `#` of the token would be that of the packet
  have hsplit : v = js.flatMap Prod.snd ++ (dollar :: (q ++ [hash, a, b]) ++ js'.flatMap Prod.snd) := by
    rw [← Lexer.flatMap_tokens regles v]
    change (jetons v).flatMap Prod.snd = _
    rw [hjs, List.flatMap_append, List.flatMap_cons]
  have hhash : (trame p)[(js.flatMap Prod.snd).length + (q.length + 1)]? = some hash := by
    rw [← hsuite, hsplit]
    simp
  have hpos := getElem?_trame_hash hp hhash
  have htrame : (trame p).length = p.length + 4 := by
    rw [trame, List.length_cons, List.length_append, List.length_cons, Hexa.length_digits]
  rw [hsplit, List.length_append, List.length_append, length_packetText] at hlen
  omega

/-! ## A simulator in memory -/

/-- A memory of 2^32 bytes and 256 registers. -/
structure Cible where
  memoire : UInt32 → UInt8
  registres : UInt8 → UInt32

/-- The last byte that goes to the address `x` when `donnees` are written from `adresse` on. -/
def ecritA (x : UInt32) : UInt32 → List UInt8 → Option UInt8
  | _, [] => none
  | adresse, d :: donnees => (ecritA x (adresse + 1) donnees).or (if x = adresse then some d else none)

namespace Cible

def ecrit (c : Cible) (adresse : UInt32) (donnees : List UInt8) : Cible :=
  { c with memoire := fun x => (ecritA x adresse donnees).getD (c.memoire x) }

def charge (c : Cible) (num : UInt8) (valeur : UInt32) : Cible :=
  { c with registres := fun n => if n = num then valeur else c.registres n }

theorem ecrit_ecrit (c : Cible) (adresse : UInt32) (donnees : List UInt8) :
    (c.ecrit adresse donnees).ecrit adresse donnees = c.ecrit adresse donnees := by
  simp only [ecrit, Cible.mk.injEq, and_true]
  funext x
  cases ecritA x adresse donnees <;> rfl

theorem charge_charge (c : Cible) (num : UInt8) (valeur : UInt32) :
    (c.charge num valeur).charge num valeur = c.charge num valeur := by
  simp only [charge, Cible.mk.injEq, true_and]
  funext n
  split <;> rfl

end Cible

/-- What follows the character `c` at the start of the text. -/
def apresCaractere (c : UInt8) : List UInt8 → Option (List UInt8)
  | d :: reste => if d = c then some reste else none
  | [] => none

/-- The address and the bytes of an `X` packet. -/
def ordreMemoire (payload : List UInt8) : Option (UInt32 × List UInt8) := do
  let a ← apresCaractere (ascii 'X') payload
  let n ← apresCaractere (ascii ',') (a.dropWhile Hexa.isDigit)
  let d ← apresCaractere (ascii ':') (n.dropWhile Hexa.isDigit)
  let donnees ← desechappe d
  return (UInt32.ofNat (Hexa.scan a), donnees)

/-- The number and the value of a `P` packet, in the order of the simulator. -/
def ordreRegistre (simulateur : Bool) (payload : List UInt8) : Option (UInt8 × UInt32) := do
  let n ← apresCaractere (ascii 'P') payload
  let d ← apresCaractere (ascii '=') (n.dropWhile Hexa.isDigit)
  let octets := if simulateur then Hexa.bytes d else (Hexa.bytes d).reverse
  return (UInt8.ofNat (Hexa.scan n), UInt32.ofNat (Endian.beNat octets))

/-- The orders of a payload, the ones that run the program apart. -/
def obeit (simulateur : Bool) (c : Cible) (payload : List UInt8) : Cible :=
  match ordreMemoire payload with
  | some (adresse, donnees) => c.ecrit adresse donnees
  | none =>
    match ordreRegistre simulateur payload with
    | some (num, valeur) => c.charge num valeur
    | none => c

/-- The good packets are obeyed, and nothing else. -/
def obeitJeton (simulateur : Bool) (c : Cible) (j : Jeton) : Cible :=
  if estBon j then obeit simulateur c ((j.2.drop 1).take (j.2.length - 4)) else c

/-- A simulator that has the scanner of the program. -/
def simulateurExemple (simulateur : Bool) : Simulateur Cible where
  recoit c octets := (jetons octets).foldl (obeitJeton simulateur) c
  ecrit := Cible.ecrit
  charge := Cible.charge

theorem scan_append {a r : List UInt8} {c : UInt8} (ha : ∀ d ∈ a, Hexa.isDigit d = true)
    (hc : Hexa.isDigit c = false) :
    Hexa.scan (a ++ c :: r) = Hexa.value a ∧ (a ++ c :: r).dropWhile Hexa.isDigit = c :: r := by
  have hnot : ¬ Hexa.isDigit c = true := by rw [hc]; exact Bool.false_ne_true
  constructor
  · rw [Hexa.scan, List.takeWhile_append_of_pos ha, List.takeWhile_cons_of_neg hnot, List.append_nil]
  · rw [List.dropWhile_append_of_pos ha, List.dropWhile_cons_of_neg hnot]

theorem ordreMemoire_code {x : Morceau} {p : List UInt8} (h : x.Code p) :
    ordreMemoire p = some (x.adresse, x.donnees) := by
  obtain ⟨a, n, d, rfl, ⟨_, ha, haddr⟩, ⟨_, hn, _⟩, _, _, hdonnees⟩ := h
  obtain ⟨hscan, hvirgule⟩ := scan_append (r := n ++ ascii ':' :: d) ha
    (show Hexa.isDigit (ascii ',') = false from rfl)
  obtain ⟨_, hdeux⟩ := scan_append (r := d) hn (show Hexa.isDigit (ascii ':') = false from rfl)
  simp only [ordreMemoire, apresCaractere, if_true, Option.bind_eq_bind, Option.bind_some, hvirgule, hdeux,
    hdonnees, hscan, haddr, UInt32.ofNat_toNat, Option.pure_def]

theorem ordreRegistre_code {simulateur : Bool} {num : UInt8} {value : UInt32} {p : List UInt8}
    (h : RegistreCode simulateur num value p) :
    ordreMemoire p = none ∧ ordreRegistre simulateur p = some (num, value) := by
  obtain ⟨n, d, rfl, ⟨_, hn, hnum⟩, _, _, hvalue⟩ := h.code
  obtain ⟨hscan, hegal⟩ := scan_append (r := d) hn (show Hexa.isDigit (ascii '=') = false from rfl)
  constructor
  · rfl
  · rw [List.cons_append]
    simp only [ordreRegistre, apresCaractere, if_true, Option.bind_eq_bind, Option.bind_some, hegal, hscan, hnum,
      hvalue, UInt8.ofNat_toNat, UInt32.ofNat_toNat, Option.pure_def]

theorem recoit_trame (simulateur : Bool) (c : Cible) {p : List UInt8} (hp : Free p) :
    (simulateurExemple simulateur).recoit c (trame p) = obeit simulateur c p := by
  have hjetons := jetons_mot_seul (Or.inr (Or.inr ⟨p, hp, rfl⟩))
  have hbon : estBon (some .packet, trame p) = true := by rw [estBon, sommeJuste_trame]; rfl
  have hlen : (trame p).length - 4 = p.length := by
    rw [trame, List.length_cons, List.length_append, List.length_cons, Hexa.length_digits]
    omega
  rw [jetonDe_trame] at hjetons
  change (jetons (trame p)).foldl (obeitJeton simulateur) c = _
  rw [hjetons, List.foldl_cons, List.foldl_nil, obeitJeton, if_pos hbon, hlen, trame, List.drop_succ_cons,
    List.drop_zero, List.take_left]

theorem foldl_obeitJeton {simulateur : Bool} {js : List Jeton} (h : ∀ j ∈ js, estBon j = false) (c : Cible) :
    js.foldl (obeitJeton simulateur) c = c := by
  induction js with
  | nil => rfl
  | cons j js ih =>
    rw [List.forall_mem_cons] at h
    rw [List.foldl_cons, obeitJeton, if_neg (by rw [h.1]; exact Bool.false_ne_true), ih h.2]

theorem simulateurExemple_conforme (simulateur : Bool) : (simulateurExemple simulateur).Conforme simulateur where
  rien _ := congrArg (List.foldl _ _) (Lexer.tokens_nil regles)
  mot c w suite hw := by
    change (jetons (w ++ suite)).foldl _ c = (jetons suite).foldl _ ((jetons w).foldl _ c)
    rw [jetons_mot hw suite, jetons_mot_seul hw]
    rfl
  ack c := by
    change (jetons [plus]).foldl _ c = c
    rw [jetons_mot_seul (Or.inl rfl)]
    rfl
  retransmission c := by
    change (jetons [minus]).foldl _ c = c
    rw [jetons_mot_seul (Or.inr (Or.inl rfl))]
    rfl
  debut c _ _ hp hv hlen := foldl_obeitJeton (estBon_debut hp hv hlen) c
  memoire c x p hp hcode := by
    rw [recoit_trame simulateur c hp, obeit, ordreMemoire_code hcode]
    rfl
  registre c num value p hp hcode := by
    obtain ⟨hnone, hsome⟩ := ordreRegistre_code hcode
    rw [recoit_trame simulateur c hp, obeit, hnone, hsome]
    rfl
  ecrit_ecrit := Cible.ecrit_ecrit
  charge_charge := Cible.charge_charge

/-! ## sample_run -/

/-- The array `code`, as the host has it in memory. -/
def code (host : Bool) : List UInt8 :=
  [0x0500a0e3, 0x010050e2, 0xfdffff1a, 0x563412ef].flatMap (Endian.wordBytes host)

/-- `sample_run` up to `arm_run`: the code and its address in the PC. -/
def sampleRun (host : Bool) : List Commande := [.writeMemory 0x58 (code host), .writeRegister 15 0x58]

theorem sampleRun_ecritures : ∀ commande ∈ sampleRun false, commande.Court ∧ commande.EstEcriture := by
  simp only [sampleRun, List.forall_mem_cons]
  exact ⟨⟨show (code false).length + (code false).countP special ≤ 1000 by decide, trivial⟩,
    ⟨trivial, trivial⟩, fun _ h => absurd h List.not_mem_nil⟩

theorem ecritures_livrees_sampleRun : ∃ fin, ∃ blocs : List (List (List UInt8)),
    (∀ fuel, (∀ commande ∈ sampleRun false, commande.tours < fuel) → lancerTout false true fuel
      (connexion (fun _ => 0) (fun _ => 0) [] 0 [minus]) (sampleRun false) = some fin) ∧
    written fin.log = blocs.flatten.flatten ∧
    List.Forall₂ BlocDe ((sampleRun false).flatMap (charges true)) blocs ∧
    ∀ recus, List.Forall₂ Arrive blocs recus → ∀ c, (simulateurExemple true).recoit c recus.flatten.flatten =
      (sampleRun false).foldl (simulateurExemple true).demande c := by
  obtain ⟨fin, blocs, hrun, hw, hblocs, hrecus⟩ := ecritures_livrees false true (fun _ => 0) (fun _ => 0) [] 0
    [minus] fun commande hmem => (sampleRun_ecritures commande hmem).1
  exact ⟨fin, blocs, hrun, hw, hblocs, hrecus (fun commande hmem => (sampleRun_ecritures commande hmem).2) Cible
    (simulateurExemple true) (simulateurExemple_conforme true)⟩

end ElfLinker
