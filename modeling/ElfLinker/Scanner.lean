import ElfLinker.Protocole

/-!
The receiver: the actions of `scanner.l`, `yylex` and `gdb_get_packet`, and what a
sequence of calls returns and writes back for a given stream.
-/

namespace ElfLinker

/-! ## Functions of scanner.l -/

/-- The results of `yylex`. -/
def packetCode : Int := 0
def eof : Int := -1

namespace Session

def bufferStore (s : Session) (i : Nat) (c : UInt8) : Session :=
  { s with
    data := { s.data with buffer := s.data.buffer.store i [c] }
    log := s.log ++ [.bufferStore i] }

def setDataLen (s : Session) (n : Nat) : Session :=
  { s with data := { s.data with len := n }, log := s.log ++ [.dataLen n] }

end Session

def handleError (s : Session) : Session :=
  if s.data.len = 0 then s
  else (gdbRequireRetransmission (s.bufferStore s.data.len 0)).setDataLen 0

def addCharacterToError (s : Session) (c : UInt8) : Session :=
  let s := if maxErrorSize - 2 < s.data.len then handleError s else s
  let i := s.data.len
  (s.bufferStore i c).setDataLen (i + 1)

/-- The action of a token, with the value it returns from `yylex` if it does. A
newline is echoed. -/
def action (s : Session) : Jeton → Option Int × Session
  | (some .ack, _) => (none, handleError s)
  | (some .retransmission, _) => (none, gdbTransmitPacket (handleError s))
  | (some .packet, yytext) =>
    let result := gdbPacketCheck (handleError s) yytext yytext.length
    (if result.1 ≠ 0 then some packetCode else none, result.2)
  | (some .caractere, yytext) => (none, addCharacterToError s (yytext.headD 0))
  | (none, yytext) => (none, s.note (.echo yytext))

/-- `yylex` on the tokens that are left: the last rule is the one for the end of the
stream. -/
def yylexLoop : List Jeton → Session → Int × Session
  | [], s => (eof, { handleError s with flux := [] })
  | j :: js, s =>
    match action s j with
    | (some result, s') => (result, { s' with flux := js })
    | (none, s') => yylexLoop js s'

def yylex (s : Session) : Int × Session := yylexLoop s.flux s

def gdbGetPacket (s : Session) : Int × Session := yylex s

/-! ## What the receiver is to write back -/

/-- The two digits of a packet token are the sum of its payload. -/
def sommeJuste (text : List UInt8) : Bool :=
  ((text.drop 1).take (text.length - 4)).sum.toNat = Hexa.value (text.drop (text.length - 2))

def estBon (j : Jeton) : Bool := j.1 = some .packet && sommeJuste j.2

/-- One `-` for each 1023 bytes of garbage begun. -/
def redemandes (g : Nat) : List UInt8 := List.replicate ((g + 1022) / 1023) minus

/-- The bytes written back for a stretch of the stream, when `g` bytes of garbage
precede it and `envoye` was the last packet sent. -/
def reponse (envoye : List UInt8) : Nat → List Jeton → List UInt8
  | g, [] => redemandes g
  | g, (none, _) :: js => reponse envoye g js
  | g, (some .caractere, _) :: js => reponse envoye (g + 1) js
  | g, (some .ack, _) :: js => redemandes g ++ reponse envoye 0 js
  | g, (some .retransmission, _) :: js => redemandes g ++ envoye ++ reponse envoye 0 js
  | g, (some .packet, text) :: js =>
    redemandes g ++ [if sommeJuste text then plus else minus] ++ reponse envoye 0 js

/-- The stretch up to the first good packet and that packet, and what follows. -/
def coupeBon : List Jeton → List Jeton × List Jeton
  | [] => ([], [])
  | j :: js => if estBon j then ([j], js) else (j :: (coupeBon js).1, (coupeBon js).2)

def bons (js : List Jeton) : List Jeton := js.filter estBon

theorem bons_coupeBon (js : List Jeton) :
    (bons (coupeBon js).1 = (bons js).take 1) ∧ bons (coupeBon js).2 = (bons js).drop 1 := by
  induction js with
  | nil => exact ⟨rfl, rfl⟩
  | cons j js ih =>
    unfold coupeBon bons
    cases hj : estBon j with
    | true => simp [hj]
    | false => simpa [hj, bons] using ih

/-! ## What the receiver leaves alone -/

/-- An event of the receiver: it neither stores into `packet` nor sends one. -/
def Evenement.DeReception : Evenement → Prop
  | .packetStore _ _ => False
  | .sendBuffer _ _ => False
  | _ => True

/-- The receiver goes from `s` to `s'`: the packet to retransmit is as it was. -/
structure Recoit (s s' : Session) : Prop where
  packet : s'.gdb.packet = s.gdb.packet
  len : s'.gdb.len = s.gdb.len
  events : ∃ evs, s'.log = s.log ++ evs ∧ ∀ e ∈ evs, e.DeReception

namespace Recoit

variable {s s' s'' : Session}

theorem refl (s : Session) : Recoit s s := ⟨rfl, rfl, [], (List.append_nil _).symm, by simp⟩

theorem note (s : Session) {e : Evenement} (h : e.DeReception) : Recoit s (s.note e) :=
  ⟨rfl, rfl, [e], rfl, by simpa using h⟩

theorem trans (h : Recoit s s') (h' : Recoit s' s'') : Recoit s s'' := by
  obtain ⟨evs, hlog, hb⟩ := h.events
  obtain ⟨evs', hlog', hb'⟩ := h'.events
  refine ⟨h'.packet.trans h.packet, h'.len.trans h.len, evs ++ evs', ?_, ?_⟩
  · rw [hlog', hlog, List.append_assoc]
  · intro e he
    rw [List.mem_append] at he
    cases he with
    | inl h => exact hb e h
    | inr h => exact hb' e h

theorem envoye_eq (h : Recoit s s') : s'.envoye = s.envoye := by
  rw [Session.envoye, Session.envoye, h.packet, h.len]

end Recoit

theorem handleError_recoit (s : Session) : Recoit s (handleError s) := by
  unfold handleError
  split
  · exact Recoit.refl s
  · refine ⟨rfl, rfl, [.bufferStore s.data.len, .writen [minus], .dataLen 0], ?_, ?_⟩
    · simp [Session.setDataLen, gdbRequireRetransmission, Session.bufferStore]
    · simp [Evenement.DeReception]

theorem addCharacterToError_recoit (s : Session) (c : UInt8) : Recoit s (addCharacterToError s c) := by
  have hstore : ∀ s : Session, Recoit s ((s.bufferStore s.data.len c).setDataLen (s.data.len + 1)) := by
    intro s
    refine ⟨rfl, rfl, [.bufferStore s.data.len, .dataLen (s.data.len + 1)], ?_, ?_⟩
    · simp [Session.setDataLen, Session.bufferStore]
    · simp [Evenement.DeReception]
  unfold addCharacterToError
  split
  · exact (handleError_recoit s).trans (hstore _)
  · exact hstore s

theorem gdbPacketCheck_recoit (s : Session) (packet : List UInt8) (length : Nat) :
    Recoit s (gdbPacketCheck s packet length).2 := by
  unfold gdbPacketCheck
  simp only
  split
  · exact ⟨rfl, rfl, [.writen [plus]], rfl, by simp [Evenement.DeReception]⟩
  · exact Recoit.note s trivial

theorem action_recoit (s : Session) (j : Jeton) : Recoit s (action s j).2 := by
  obtain ⟨regle, text⟩ := j
  cases regle with
  | none => exact Recoit.note s trivial
  | some regle =>
    cases regle with
    | ack => exact handleError_recoit s
    | retransmission => exact (handleError_recoit s).trans (Recoit.note _ trivial)
    | packet => exact (handleError_recoit s).trans (gdbPacketCheck_recoit _ text text.length)
    | caractere => exact addCharacterToError_recoit s _

/-- No token of the stream changes the packet or its length. -/
theorem yylexLoop_recoit (js : List Jeton) (s : Session) : Recoit s (yylexLoop js s).2 := by
  induction js generalizing s with
  | nil => exact ⟨(handleError_recoit s).packet, (handleError_recoit s).len, (handleError_recoit s).events⟩
  | cons j js ih =>
    have hact := action_recoit s j
    rw [yylexLoop]
    split
    next r s' hs =>
      rw [hs] at hact
      exact ⟨hact.packet, hact.len, hact.events⟩
    next s' hs =>
      rw [hs] at hact
      exact hact.trans (ih s')

theorem action_envoye {s s' : Session} {j : Jeton} {r : Option Int} (h : action s j = (r, s')) :
    s'.envoye = s.envoye := by
  have hm := action_recoit s j
  rw [h] at hm
  exact hm.envoye_eq

/-! ## One token -/

/-- The length of `data->buffer` after `g` bytes of garbage. -/
def attente (g : Nat) : Nat := if g = 0 then 0 else (g - 1) % 1023 + 1

/-- The requests already made for them. -/
def redemandees (g : Nat) : List UInt8 := List.replicate ((g - 1) / 1023) minus

theorem attente_le (g : Nat) : attente g ≤ maxErrorSize - 1 := by
  have := Nat.mod_lt (g - 1) (show 0 < 1023 by omega)
  rw [attente]
  split <;> simp only [maxErrorSize] <;> omega

/-- The character after a full buffer flushes it first. -/
theorem attente_succ (g : Nat) :
    attente (g + 1) = if maxErrorSize - 2 < attente g then 1 else attente g + 1 := by
  cases g with
  | zero => rfl
  | succ n =>
    have hmod := Nat.mod_lt n (show 0 < 1023 by omega)
    simp only [attente, maxErrorSize, Nat.add_one_ne_zero, if_false, Nat.add_sub_cancel]
    split <;> omega

theorem redemandees_succ (g : Nat) : redemandees (g + 1) =
    redemandees g ++ if maxErrorSize - 2 < attente g then [minus] else [] := by
  cases g with
  | zero => rfl
  | succ n =>
    have hmod := Nat.mod_lt n (show 0 < 1023 by omega)
    simp only [redemandees, attente, maxErrorSize, Nat.add_one_ne_zero, if_false, Nat.add_sub_cancel]
    split
    · rw [← List.replicate_succ', show (n + 1) / 1023 = n / 1023 + 1 by omega]
    · rw [List.append_nil, show (n + 1) / 1023 = n / 1023 by omega]

theorem redemandes_eq (g : Nat) : redemandes g = redemandees g ++ if g = 0 then [] else [minus] := by
  unfold redemandes redemandees
  split
  next h => rw [h]; rfl
  next h =>
    rw [← List.replicate_succ', show (g + 1022) / 1023 = (g - 1) / 1023 + 1 by omega]

/-- An event that keeps to `data`: a store inside its array, a length that leaves room for
the NUL. -/
def Evenement.Borne : Evenement → Prop
  | .bufferStore i => i < maxErrorSize
  | .dataLen n => n ≤ maxErrorSize - 1
  | _ => True

theorem written_append (l l' : List Evenement) : written (l ++ l') = written l ++ written l' :=
  List.flatMap_append

/-- The receiver goes from `s` to `s'`: it writes `octets` back and stays inside
`data->buffer`. -/
def Avance (s : Session) (octets : List UInt8) (s' : Session) : Prop :=
  ∃ evs, s'.log = s.log ++ evs ∧ written evs = octets ∧ ∀ e ∈ evs, e.Borne

theorem Avance.trans {s s' s'' : Session} {octets octets' : List UInt8} (h : Avance s octets s')
    (h' : Avance s' octets' s'') : Avance s (octets ++ octets') s'' := by
  obtain ⟨evs, hlog, rfl, hb⟩ := h
  obtain ⟨evs', hlog', rfl, hb'⟩ := h'
  refine ⟨evs ++ evs', ?_, written_append _ _, ?_⟩
  · rw [hlog', hlog, List.append_assoc]
  · intro e he
    rw [List.mem_append] at he
    cases he with
    | inl h => exact hb e h
    | inr h => exact hb' e h

theorem avance_note (s : Session) (bytes : List UInt8) : Avance s bytes (s.note (.writen bytes)) :=
  ⟨[.writen bytes], rfl, List.append_nil bytes, by simp [Evenement.Borne]⟩

theorem avance_echo (s : Session) (bytes : List UInt8) : Avance s [] (s.note (.echo bytes)) :=
  ⟨[.echo bytes], rfl, rfl, by simp [Evenement.Borne]⟩

theorem handleError_avance {s : Session} {g : Nat} (hlen : s.data.len = attente g) :
    Avance s (if g = 0 then [] else [minus]) (handleError s) ∧ (handleError s).data.len = 0 := by
  have hle := attente_le g
  unfold handleError
  by_cases hg : g = 0
  · rw [if_pos hg, if_pos (by rw [hlen, attente, if_pos hg])]
    exact ⟨⟨[], (List.append_nil _).symm, rfl, by simp⟩, by rw [hlen, attente, if_pos hg]⟩
  · rw [if_neg hg, if_neg (by rw [hlen, attente, if_neg hg]; omega)]
    refine ⟨⟨[.bufferStore s.data.len, .writen [minus], .dataLen 0], ?_, rfl, ?_⟩, rfl⟩
    · simp [Session.setDataLen, gdbRequireRetransmission, Session.bufferStore]
    · simp only [maxErrorSize] at hle
      simp only [List.forall_mem_cons, Evenement.Borne, maxErrorSize]
      exact ⟨by omega, trivial, by omega, by simp⟩

theorem addCharacterToError_avance {s : Session} {g : Nat} (hlen : s.data.len = attente g) (c : UInt8) :
    Avance s (if maxErrorSize - 2 < attente g then [minus] else []) (addCharacterToError s c) ∧
      (addCharacterToError s c).data.len = attente (g + 1) := by
  have hstore : ∀ s : Session, s.data.len ≤ maxErrorSize - 2 →
      Avance s [] ((s.bufferStore s.data.len c).setDataLen (s.data.len + 1)) := by
    intro s hs
    refine ⟨[.bufferStore s.data.len, .dataLen (s.data.len + 1)], ?_, rfl, ?_⟩
    · simp [Session.setDataLen, Session.bufferStore]
    · simp only [maxErrorSize] at hs
      simp only [List.forall_mem_cons, Evenement.Borne, maxErrorSize]
      exact ⟨by omega, by omega, by simp⟩
  rw [attente_succ]
  unfold addCharacterToError
  by_cases hfull : maxErrorSize - 2 < attente g
  · obtain ⟨hav, hzero⟩ := handleError_avance hlen
    have hg : g ≠ 0 := by
      rintro rfl
      exact absurd hfull (by decide)
    rw [if_neg hg] at hav
    rw [if_pos hfull, if_pos hfull, if_pos (by rwa [hlen])]
    refine ⟨by simpa using hav.trans (hstore _ (by omega)), ?_⟩
    exact congrArg (· + 1) hzero
  · rw [if_neg hfull, if_neg hfull, if_neg (by rwa [hlen])]
    refine ⟨hstore s (by omega), ?_⟩
    exact congrArg (· + 1) hlen

theorem sommeJuste_packet (p : List UInt8) (a b : UInt8) :
    sommeJuste (dollar :: (p ++ [hash, a, b])) = decide (p.sum.toNat = Hexa.value [a, b]) := by
  have hdrop : (dollar :: (p ++ [hash, a, b])).drop (p.length + 2) = [a, b] := by
    rw [List.drop_succ_cons, List.drop_append, List.drop_of_length_le (by omega)]
    simp
  rw [sommeJuste, length_packetText, show p.length + 4 - 2 = p.length + 2 by omega, hdrop,
    Nat.add_sub_cancel, List.drop_succ_cons, List.drop_zero, List.take_left]

/-- What a call of `gdb_packet_check` from the scanner does. -/
theorem gdbPacketCheck_avance (s : Session) {w : List UInt8} (hw : w ∈ packetPattern.matches') :
    let result := gdbPacketCheck s w w.length
    result.1 = (if sommeJuste w then 1 else 0) ∧
      Avance s [if sommeJuste w then plus else minus] result.2 ∧ result.2.data = s.data ∧
      (sommeJuste w = true → result.2.gdb.answer = w ∧ result.2.gdb.answerLen = w.length) := by
  obtain ⟨p, a, b, hwp, _, ha, hb⟩ := mem_packetPattern.mp hw
  have hs : sommeJuste w = decide (p.sum.toNat = Hexa.value [a, b]) := hwp ▸ sommeJuste_packet p a b
  simp only [gdbPacketCheck_packet s ha hb hwp, hs, decide_eq_true_eq]
  by_cases hsum : p.sum.toNat = Hexa.value [a, b]
  · rw [if_pos hsum, if_pos hsum, if_pos hsum]
    exact ⟨rfl, ⟨[.writen [plus]], rfl, rfl, by simp [Evenement.Borne]⟩, rfl, fun _ => ⟨rfl, rfl⟩⟩
  · rw [if_neg hsum, if_neg hsum, if_neg hsum]
    exact ⟨rfl, avance_note s [minus], rfl, fun h => absurd h hsum⟩

/-! ## One call -/

/-- The packet tokens among `js` are matches of the packet rule. -/
def Filtrees (js : List Jeton) : Prop := ∀ w, (some Regle.packet, w) ∈ js → w ∈ packetPattern.matches'

/-- What `yylex` has done with the tokens `js` when it returns, `g` bytes of garbage
having come before them. -/
structure Lu (s : Session) (g : Nat) (js : List Jeton) (r : Int × Session) : Prop where
  octets : ∃ w, Avance s w r.2 ∧ redemandees g ++ w = reponse s.envoye g (coupeBon js).1
  len : r.2.data.len = 0
  flux : r.2.flux = (coupeBon js).2
  packet : ∀ j, (bons js)[0]? = some j →
    r.1 = packetCode ∧ r.2.gdb.answer = j.2 ∧ r.2.gdb.answerLen = j.2.length
  fin : bons js = [] → r.1 = eof

/-- A token that does not end the call: it turns `g` bytes of garbage into `g'`. -/
theorem Lu.cons {s s' : Session} {g g' : Nat} {j : Jeton} {js : List Jeton} {w p : List UInt8}
    (hact : action s j = (none, s')) (hbon : estBon j = false) (hav : Avance s w s')
    (hw : redemandees g ++ w = p ++ redemandees g')
    (hrep : ∀ rest, reponse s.envoye g (j :: rest) = p ++ reponse s.envoye g' rest)
    (hlu : Lu s' g' js (yylexLoop js s')) : Lu s g (j :: js) (yylexLoop (j :: js) s) := by
  have hcoupe : coupeBon (j :: js) = (j :: (coupeBon js).1, (coupeBon js).2) := by
    rw [coupeBon, hbon]
    rfl
  have hbons : bons (j :: js) = bons js := List.filter_cons_of_neg (by simp [hbon])
  have hloop : yylexLoop (j :: js) s = yylexLoop js s' := by rw [yylexLoop, hact]
  rw [hloop]
  obtain ⟨w', hav', hw'⟩ := hlu.octets
  refine ⟨⟨w ++ w', hav.trans hav', ?_⟩, hlu.len, by rw [hcoupe]; exact hlu.flux,
    by rw [hbons]; exact hlu.packet, by rw [hbons]; exact hlu.fin⟩
  rw [hcoupe, hrep, ← List.append_assoc, hw, List.append_assoc, hw', action_envoye hact]

/-- A good packet ends the call. -/
theorem yylexLoop_bon {js : List Jeton} {s : Session} {g : Nat} {text : List UInt8}
    (hw : text ∈ packetPattern.matches') (hlen : s.data.len = attente g)
    (hj : sommeJuste text = true) :
    Lu s g ((some .packet, text) :: js) (yylexLoop ((some .packet, text) :: js) s) := by
  obtain ⟨hav, hzero⟩ := handleError_avance hlen
  obtain ⟨hres, hchk, hdata, hans⟩ := gdbPacketCheck_avance (handleError s) hw
  have htot := hav.trans hchk
  rw [hj] at hres htot
  have hbon : estBon (some .packet, text) = true := by rw [estBon, hj]; rfl
  have hcoupe : coupeBon ((some .packet, text) :: js) = ([(some .packet, text)], js) := by
    rw [coupeBon, if_pos hbon]
  have hbons : bons ((some .packet, text) :: js) = (some .packet, text) :: bons js :=
    List.filter_cons_of_pos hbon
  have hloop : yylexLoop ((some .packet, text) :: js) s =
      (packetCode, { (gdbPacketCheck (handleError s) text text.length).2 with flux := js }) := by
    rw [yylexLoop, action, hres]
    rfl
  rw [hloop]
  refine ⟨⟨_, htot, ?_⟩, by rw [hdata]; exact hzero, by rw [hcoupe], ?_, ?_⟩
  · rw [hcoupe, reponse, hj, ← List.append_assoc, ← redemandes_eq]
    exact (List.append_nil _).symm
  · intro j hj'
    rw [hbons] at hj'
    obtain rfl := Option.some.inj hj'
    exact ⟨rfl, hans hj⟩
  · intro hnil
    rw [hbons] at hnil
    exact absurd hnil (List.cons_ne_nil _ _)

/-- A bad packet is refused and the call goes on. -/
theorem yylexLoop_mauvais {js : List Jeton} {s : Session} {g : Nat} {text : List UInt8}
    (hw : text ∈ packetPattern.matches') (hlen : s.data.len = attente g)
    (hj : sommeJuste text = false)
    (hlu : ∀ {s' : Session}, s'.data.len = attente 0 → Lu s' 0 js (yylexLoop js s')) :
    Lu s g ((some .packet, text) :: js) (yylexLoop ((some .packet, text) :: js) s) := by
  obtain ⟨hav, hzero⟩ := handleError_avance hlen
  obtain ⟨hres, hchk, hdata, _⟩ := gdbPacketCheck_avance (handleError s) hw
  have htot := hav.trans hchk
  rw [hj] at hres htot
  have hact : action s (some .packet, text) =
      (none, (gdbPacketCheck (handleError s) text text.length).2) := by
    rw [action, hres]
    rfl
  have hlen' : (gdbPacketCheck (handleError s) text text.length).2.data.len = attente 0 := by
    rw [hdata]
    exact hzero
  refine Lu.cons hact (by rw [estBon, hj]; rfl) htot (p := redemandes g ++ [minus]) ?_
    (fun rest => by rw [reponse, hj]; rfl) (hlu hlen')
  rw [redemandes_eq, ← List.append_assoc]
  exact (List.append_nil _).symm

/-- `yylex` consumes the stream up to the next good packet and no further, by
induction on the tokens. -/
theorem yylexLoop_lu {js : List Jeton} (hjs : Filtrees js) {s : Session} {g : Nat}
    (hlen : s.data.len = attente g) : Lu s g js (yylexLoop js s) := by
  induction js generalizing s g with
  | nil =>
    obtain ⟨hav, hzero⟩ := handleError_avance hlen
    exact ⟨⟨_, hav, (redemandes_eq g).symm⟩, hzero, rfl, fun j hj => by simp [bons] at hj, fun _ => rfl⟩
  | cons j js ih =>
    have hjs' : Filtrees js := fun w hw => hjs w (List.mem_cons_of_mem _ hw)
    obtain ⟨hav, hzero⟩ := handleError_avance hlen
    have hflush : redemandees g ++ (if g = 0 then [] else [minus]) = redemandes g ++ redemandees 0 := by
      rw [← redemandes_eq]
      exact (List.append_nil _).symm
    obtain ⟨regle, text⟩ := j
    cases regle with
    | none =>
      exact Lu.cons rfl rfl (avance_echo s text) (p := []) (List.append_nil _) (fun _ => rfl) (ih hjs' hlen)
    | some regle =>
      cases regle with
      | ack => exact Lu.cons rfl rfl hav hflush (fun _ => rfl) (ih hjs' hzero)
      | retransmission =>
        have hsend := hav.trans (avance_note (handleError s) (handleError s).envoye)
        refine Lu.cons rfl rfl hsend (p := redemandes g ++ s.envoye) ?_ (fun _ => rfl) (ih hjs' hzero)
        rw [redemandes_eq, ← List.append_assoc, (handleError_recoit s).envoye_eq]
        exact (List.append_nil _).symm
      | caractere =>
        obtain ⟨hav', hlen'⟩ := addCharacterToError_avance hlen (text.headD 0)
        exact Lu.cons rfl rfl hav' (p := []) (redemandees_succ g).symm (fun _ => rfl) (ih hjs' hlen')
      | packet =>
        have hw := hjs text List.mem_cons_self
        cases hj : sommeJuste text with
        | true => exact yylexLoop_bon hw hlen hj
        | false => exact yylexLoop_mauvais hw hlen hj (ih hjs')

end ElfLinker
