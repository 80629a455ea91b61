import ElfLinker.Commandes
import ElfLinker.Recepteur

/-!
All the commands together: the room their packets need in `gdb->packet`, their form,
and the check of the receiver on such a packet and on a damaged one.
-/

namespace ElfLinker

/-! ## gdb_write_register -/

/-- Two digits for each byte. -/
def chiffres (bytes : List UInt8) : List UInt8 := bytes.flatMap fun b => Hexa.digits 2 b.toNat

theorem chiffres_cons (b : UInt8) (bytes : List UInt8) :
    chiffres (b :: bytes) = Hexa.digits 2 b.toNat ++ chiffres bytes := List.flatMap_cons

@[simp] theorem length_chiffres (bytes : List UInt8) : (chiffres bytes).length = 2 * bytes.length := by
  induction bytes with
  | nil => rfl
  | cons b bytes ih =>
    rw [chiffres_cons, List.length_append, Hexa.length_digits, ih, List.length_cons]
    omega

theorem free_chiffres (bytes : List UInt8) : Free (chiffres bytes) := by
  intro c hc
  rw [chiffres, List.mem_flatMap] at hc
  obtain ⟨b, _, hc⟩ := hc
  exact free_digits 2 b.toNat c hc

/-- `ecrireOctets` stores the digits of the bytes and one NUL. -/
theorem ecrireOctets_packet (bytes : List UInt8) (s : Session) (data : Nat) :
    (ecrireOctets bytes s data).gdb.packet =
      s.gdb.packet.store data (chiffres bytes ++ [0]) := by
  induction bytes generalizing s data with
  | nil => rfl
  | cons b bytes ih =>
    have hover := Memory.store_append_store s.gdb.packet data (Hexa.digits 2 b.toNat)
      (show ([0] : List UInt8).length ≤ (chiffres bytes ++ [0]).length by simp)
    rw [Hexa.length_digits] at hover
    rw [ecrireOctets, ih, chiffres_cons, List.append_assoc]
    exact hover

theorem ecrireOctets_log (bytes : List UInt8) (s : Session) (data : Nat) :
    ∃ evs, (ecrireOctets bytes s data).log = s.log ++ evs ∧
      ∀ e ∈ evs, e.StockeAvant (data + 2 * bytes.length + 1) := by
  induction bytes generalizing s data with
  | nil =>
    refine ⟨[.packetStore data [0]], rfl, ?_⟩
    simp [Evenement.StockeAvant]
  | cons b bytes ih =>
    obtain ⟨evs, hlog, hevs⟩ := ih (s.packetStore data (Hexa.digits 2 b.toNat ++ [0])) (data + 2)
    refine ⟨.packetStore data (Hexa.digits 2 b.toNat ++ [0]) :: evs, ?_, ?_⟩
    · rw [ecrireOctets, hlog]
      exact List.append_assoc s.log [_] evs
    · rw [List.forall_mem_cons]
      constructor
      · simp only [Evenement.StockeAvant, List.length_append, Hexa.length_digits, List.length_cons,
          List.length_nil]
        omega
      · intro e he
        refine (hevs e he).mono ?_
        rw [List.length_cons]
        omega

/-- The order does not depend on the host. -/
theorem ordre_eq (host simulateur : Bool) (value : UInt32) :
    ordre host simulateur value = Endian.wordBytes simulateur value := by
  cases host <;> cases simulateur <;> rfl

/-- The payload of `gdb_write_register`. -/
def chargeRegistre (simulateur : Bool) (num : UInt8) (value : UInt32) : List UInt8 :=
  ascii 'P' :: Hexa.digits 2 num.toNat ++ [ascii '='] ++
    chiffres (Endian.wordBytes simulateur value)

@[simp] theorem length_wordBytes (big : Bool) (x : UInt32) : (Endian.wordBytes big x).length = 4 :=
  (Endian.word big).length_encode x

theorem length_chargeRegistre (simulateur : Bool) (num : UInt8) (value : UInt32) :
    (chargeRegistre simulateur num value).length = 12 := by
  simp only [chargeRegistre, List.length_append, List.length_cons, List.length_nil, Hexa.length_digits,
    length_chiffres, length_wordBytes]

theorem free_chargeRegistre (simulateur : Bool) (num : UInt8) (value : UInt32) :
    Free (chargeRegistre simulateur num value) := by
  have hp : Free [ascii 'P'] := by decide
  have hegal : Free [ascii '='] := by decide
  exact ((hp.append (free_digits 2 num.toNat)).append hegal).append (free_chiffres _)

theorem free_chargeUtile (address : UInt32) (bytes : List UInt8) : Free (chargeUtile address bytes) := by
  have hx : Free [ascii 'X'] := by decide
  have hvirgule : Free [ascii ','] := by decide
  have hcolon : Free [ascii ':'] := by decide
  exact ((hx.append (free_digits 8 address.toNat)).append
    (hvirgule.append (free_digits 8 bytes.length))).append (hcolon.append (free_flatMap_echappe bytes))

/-- What a command adds to the log: one well formed packet for each payload, inside
`packet` under the condition `court`. -/
structure Emis (s fin : Session) (court : Prop) : Prop where
  events : ∃ evs, fin.log = s.log ++ evs ∧
    (∀ p ∈ envois evs, Free p.1 ∧ p.2 = trame p.1) ∧ ((∀ e ∈ evs, e.Tient) ↔ court)

/-- `fin` is `s` after one packet for the payload `p`. -/
def Envoye (s fin : Session) (p : List UInt8) : Prop :=
  ∃ evs, fin.log = s.log ++ evs ∧ envois evs = [(p, trame p)] ∧
    ((∀ e ∈ evs, e.Tient) ↔ p.length + 5 ≤ maxPacketSize)

/-- A command with one short payload. -/
theorem Envoye.emis {s fin : Session} {p : List UInt8} (h : Envoye s fin p) (hfree : Free p)
    (hlen : p.length ≤ 12) : Emis s fin True := by
  obtain ⟨evs, hlog, henv, htient⟩ := h
  refine ⟨evs, hlog, ?_, iff_true_intro (htient.mpr ?_)⟩
  · rw [henv]
    simp only [List.mem_cons, List.not_mem_nil, or_false, forall_eq, and_true]
    exact hfree
  · rw [maxPacketSize]
    omega

/-- The memory that `gdb_write_register` prepares: the NULs of the `sprintf` calls are
overwritten, but for the last. -/
theorem registre_packet (host simulateur : Bool) (s : Session) (num : UInt8) (value : UInt32) :
    (writeUint32 host simulateur
        (s.packetStore 1 (ascii 'P' :: Hexa.digits 2 num.toNat ++ [ascii '='] ++ [0])) (1 + 4) value).gdb.packet =
      s.gdb.packet.store 1 (chargeRegistre simulateur num value ++ [0]) := by
  have hover := Memory.store_append_store s.gdb.packet 1
    (ascii 'P' :: Hexa.digits 2 num.toNat ++ [ascii '='])
    (show ([0] : List UInt8).length ≤ (chiffres (Endian.wordBytes simulateur value) ++ [0]).length by simp)
  have hlen : (ascii 'P' :: Hexa.digits 2 num.toNat ++ [ascii '=']).length = 4 := by
    simp only [List.length_append, List.length_cons, List.length_nil, Hexa.length_digits]
  rw [hlen] at hover
  rw [writeUint32, ecrireOctets_packet, ordre_eq, chargeRegistre, List.append_assoc]
  exact hover

theorem ecrireOctets_reste (bytes : List UInt8) (s : Session) (data : Nat) :
    (ecrireOctets bytes s data).data = s.data ∧ (ecrireOctets bytes s data).flux = s.flux := by
  induction bytes generalizing s data with
  | nil => exact ⟨rfl, rfl⟩
  | cons b bytes ih => exact ih _ _

/-- `gdb_write_register` before it sends. -/
theorem gdbWriteRegister_pret (host simulateur : Bool) (s : Session) (num : UInt8) (value : UInt32) :
    ChargePrete s (chargeRegistre simulateur num value) ((writeUint32 host simulateur (s.packetStore 1
      (ascii 'P' :: Hexa.digits 2 num.toNat ++ [ascii '='] ++ [0])) (1 + 4) value).setLen 12) := by
  obtain ⟨evs, hlog, hevs⟩ := ecrireOctets_log (ordre host simulateur value)
    (s.packetStore 1 (ascii 'P' :: Hexa.digits 2 num.toNat ++ [ascii '='] ++ [0])) (1 + 4)
  obtain ⟨hdata, hflux⟩ := ecrireOctets_reste (ordre host simulateur value)
    (s.packetStore 1 (ascii 'P' :: Hexa.digits 2 num.toNat ++ [ascii '='] ++ [0])) (1 + 4)
  have hlen := length_chargeRegistre simulateur num value
  refine ⟨?_, ⟨_, hlog.trans (List.append_assoc s.log [_] evs), ?_⟩, hdata, hflux⟩
  · refine (congrArg (Memory.load · 1 12) (registre_packet host simulateur s num value)).trans ?_
    rw [← hlen, ← Memory.store_append, Memory.load_store_of_disjoint (Or.inl (Nat.le_refl _)),
      Memory.load_store_self]
  · rw [hlen, List.singleton_append, List.forall_mem_cons]
    constructor
    · simp only [Evenement.StockeAvant, List.length_append, List.length_cons, List.length_nil,
        Hexa.length_digits]
      omega
    · intro e he
      refine (hevs e he).mono ?_
      rw [ordre_eq, length_wordBytes]
      omega

theorem gdbWriteRegister_envoye (host simulateur : Bool) (s : Session) (num : UInt8) (value : UInt32) :
    Envoye s (gdbWriteRegister host simulateur s num value) (chargeRegistre simulateur num value) :=
  (gdbWriteRegister_pret host simulateur s num value).emission

theorem gdbWriteRegister_emis (host simulateur : Bool) (s : Session) (num : UInt8) (value : UInt32) :
    Emis s (gdbWriteRegister host simulateur s num value) True :=
  (gdbWriteRegister_envoye host simulateur s num value).emis (free_chargeRegistre simulateur num value)
    (Nat.le_of_eq (length_chargeRegistre simulateur num value))

/-- `payload` writes `value` to register `num`: `P`, the number on two digits, `=` and the
bytes of the value on two digits each, in the order of the simulator. -/
structure RegistreCode (simulateur : Bool) (num : UInt8) (value : UInt32) (payload : List UInt8) : Prop where
  length : payload.length = 12
  code : ∃ n d, payload = ascii 'P' :: n ++ ascii '=' :: d ∧
    (n.length = 2 ∧ (∀ c ∈ n, Hexa.isDigit c = true) ∧ Hexa.value n = num.toNat) ∧
    (d.length = 8 ∧ (∀ c ∈ d, Hexa.isDigit c = true) ∧
      Endian.beNat (if simulateur then Hexa.bytes d else (Hexa.bytes d).reverse) = value.toNat)

theorem isDigit_chiffres {bytes : List UInt8} : ∀ c ∈ chiffres bytes, Hexa.isDigit c = true := by
  intro c hc
  rw [chiffres, List.mem_flatMap] at hc
  obtain ⟨b, _, hc⟩ := hc
  exact Hexa.isDigit_of_mem_digits hc

theorem registreCode_chargeRegistre (simulateur : Bool) (num : UInt8) (value : UInt32) :
    RegistreCode simulateur num value (chargeRegistre simulateur num value) := by
  refine ⟨length_chargeRegistre simulateur num value, Hexa.digits 2 num.toNat,
    chiffres (Endian.wordBytes simulateur value), ?_,
    ⟨Hexa.length_digits 2 _, fun c hc => Hexa.isDigit_of_mem_digits hc, Hexa.value_digits num.toNat_lt⟩,
    ?_, isDigit_chiffres, ?_⟩
  · rw [chargeRegistre, List.append_assoc]
    rfl
  · rw [length_chiffres, length_wordBytes]
  · rw [chiffres, Hexa.bytes_flatMap_digits]
    cases simulateur with
    | true => exact Endian.beNat_wordBytes value
    | false =>
      rw [if_neg Bool.false_ne_true, Endian.wordBytes_little, List.reverse_reverse]
      exact Endian.beNat_wordBytes value

/-- A payload writes one value to one register. -/
theorem RegistreCode.unique {simulateur : Bool} {num num' : UInt8} {value value' : UInt32} {p : List UInt8}
    (h : RegistreCode simulateur num value p) (h' : RegistreCode simulateur num' value' p) :
    num = num' ∧ value = value' := by
  obtain ⟨n, d, hp, ⟨hn, _, hnum⟩, _, _, hvalue⟩ := h.code
  obtain ⟨n', d', hp', ⟨hn', _, hnum'⟩, _, _, hvalue'⟩ := h'.code
  have hsplit : n ++ ascii '=' :: d = n' ++ ascii '=' :: d' := (List.cons.inj (hp.symm.trans hp')).2
  obtain ⟨rfl, hrest⟩ := List.append_inj hsplit (hn.trans hn'.symm)
  obtain rfl := (List.cons.inj hrest).2
  exact ⟨UInt8.toNat_inj.mp (hnum.symm.trans hnum'), UInt32.toNat_inj.mp (hvalue.symm.trans hvalue')⟩

/-- On every host `gdb_write_register` sends the payload that writes the value in the order
of the simulator, a different one for every register and every value. -/
theorem gdbWriteRegister_registre (simulateur : Bool) :
    (∀ (host : Bool) (s : Session) (num : UInt8) (value : UInt32), ∃ evs,
      (gdbWriteRegister host simulateur s num value).log = s.log ++ evs ∧
      envois evs = [(chargeRegistre simulateur num value, trame (chargeRegistre simulateur num value))]) ∧
    (∀ num value, RegistreCode simulateur num value (chargeRegistre simulateur num value)) ∧
    Function.Injective fun r : UInt8 × UInt32 => chargeRegistre simulateur r.1 r.2 := by
  refine ⟨fun host s num value => ?_, registreCode_chargeRegistre simulateur, ?_⟩
  · obtain ⟨evs, hlog, henv, _⟩ := gdbWriteRegister_envoye host simulateur s num value
    exact ⟨evs, hlog, henv⟩
  · rintro ⟨num, value⟩ ⟨num', value'⟩ heq
    have hcode := registreCode_chargeRegistre simulateur num value
    rw [show chargeRegistre simulateur num value = chargeRegistre simulateur num' value' from heq] at hcode
    obtain ⟨rfl, rfl⟩ := hcode.unique (registreCode_chargeRegistre simulateur num' value')
    rfl

/-! ## All commands -/

inductive Commande where
  | writeRegister (num : UInt8) (value : UInt32)
  | writeMemory (address : UInt32) (buffer : List UInt8)
  | cont
  | step

namespace Commande

/-- The turns that the command may need. -/
def tours : Commande → Nat
  | writeMemory _ buffer => buffer.length
  | _ => 0

def lancer (host simulateur : Bool) (fuel : Nat) (s : Session) : Commande → Option Session
  | writeRegister num value => some (gdbWriteRegister host simulateur s num value)
  | writeMemory address buffer => gdbWriteMemory fuel s address buffer
  | cont => some (gdbCont s)
  | step => some (gdbStep s).2

/-- The transfers that fit one packet: 1000 bytes, an escaped one counting twice. -/
def Court : Commande → Prop
  | writeMemory _ buffer => buffer.length + buffer.countP special ≤ 1000
  | _ => True

end Commande

/-- `gdb_send_data` before it sends. -/
theorem gdbSendData_pret (s : Session) (c : UInt8) :
    ChargePrete s [c] ((s.packetStore 1 ([c] ++ [0])).setLen [c].length) := by
  refine ⟨?_, ⟨[.packetStore 1 ([c] ++ [0])], rfl, by simp [Evenement.StockeAvant]⟩, rfl, rfl⟩
  change (s.gdb.packet.store 1 ([c] ++ [0])).load 1 1 = [c]
  rw [← Memory.store_append, Memory.load_store_of_disjoint (Or.inl (Nat.le_refl 2))]
  exact Memory.load_store_self _ 1 [c]

theorem gdbSendData_emis (s : Session) (c : UInt8) (hc : Free [c]) :
    Emis s (gdbGetAnswer (gdbSendData s [c])).2 True := by
  have henvoye : Envoye s (gdbGetAnswer (gdbSendData s [c])).2 [c] := (gdbSendData_pret s c).emission
  exact henvoye.emis hc (Nat.le_add_left 1 11)

/-- Every command ends, sends frames of payloads without `$` and `#`, and stays inside
`packet` when it is short. -/
theorem lancer_emis (host simulateur : Bool) (s : Session) (commande : Commande) :
    ∃ fin, (∀ fuel, commande.tours < fuel → commande.lancer host simulateur fuel s = some fin) ∧
      Emis s fin commande.Court := by
  cases commande with
  | writeRegister num value => exact ⟨_, fun _ _ => rfl, gdbWriteRegister_emis host simulateur s num value⟩
  | writeMemory address buffer =>
    obtain ⟨fin, ms, hrun, h⟩ := gdbWriteMemory_ecriture buffer s address
    obtain ⟨evs, hlog, henv, htient⟩ := h.events
    refine ⟨fin, hrun, evs, hlog, fun p hp => ?_, by rwa [length_flatMap_echappe] at htient⟩
    rw [henv, List.mem_map] at hp
    obtain ⟨m, _, rfl⟩ := hp
    exact ⟨free_chargeUtile m.adresse m.donnees, rfl⟩
  | cont => exact ⟨_, fun _ _ => rfl, gdbSendData_emis s (ascii 'c') (by decide)⟩
  | step => exact ⟨_, fun _ _ => rfl, gdbSendData_emis s (ascii 's') (by decide)⟩

/-- The stores of a command stay inside `packet` exactly when it is not a transfer of
more than 1000 encoded bytes. -/
theorem lancer_tient_iff (host simulateur : Bool) (s : Session) (commande : Commande) :
    ∃ fin evs, (∀ fuel, commande.tours < fuel → commande.lancer host simulateur fuel s = some fin) ∧
      fin.log = s.log ++ evs ∧ ((∀ e ∈ evs, e.Tient) ↔ commande.Court) := by
  obtain ⟨fin, hrun, evs, hlog, _, htient⟩ := lancer_emis host simulateur s commande
  exact ⟨fin, evs, hrun, hlog, htient⟩

/-- A transfer of 1001 zeros puts the final NUL of its packet one past the array. -/
theorem gdbWriteMemory_deborde : ∃ fin,
    gdbWriteMemory 1002 (connexion (fun _ => 0) (fun _ => 0) [] 0 []) 0x20 (List.replicate 1001 0) =
      some fin ∧ ∃ e ∈ fin.log, ¬ e.Tient := by
  obtain ⟨fin, hrun, evs, hlog, _, htient⟩ := lancer_emis false false
    (connexion (fun _ => 0) (fun _ => 0) [] 0 []) (.writeMemory 0x20 (List.replicate 1001 0))
  have hlen : (List.replicate 1001 (0 : UInt8)).length = 1001 := List.length_replicate
  refine ⟨fin, hrun 1002 (by rw [Commande.tours, hlen]; omega), ?_⟩
  have hlong : ¬ (Commande.writeMemory 0x20 (List.replicate 1001 0)).Court := by
    rw [Commande.Court, hlen]
    omega
  have hex := mt htient.mp hlong
  simp only [not_forall, exists_prop] at hex
  rw [hlog]
  exact hex

/-! ## Framing and checking -/

theorem sum_set_ne {p : List UInt8} {i : Nat} {b : UInt8} (hi : i < p.length) (hb : p[i]? ≠ some b) :
    (p.set i b).sum ≠ p.sum := by
  induction p generalizing i with
  | nil => exact absurd hi (Nat.not_lt_zero i)
  | cons c p ih =>
    cases i with
    | zero =>
      rw [List.set_cons_zero, List.sum_cons, List.sum_cons, ne_eq, UInt8.add_left_inj]
      rintro rfl
      exact hb rfl
    | succ i =>
      rw [List.set_cons_succ, List.sum_cons, List.sum_cons, ne_eq, UInt8.add_right_inj]
      exact ih (Nat.lt_of_succ_lt_succ hi) hb

/-- The digits of a frame, as a token of the packet rule has them. -/
theorem trame_chiffres (p : List UInt8) : ∃ a b, Hexa.digits 2 p.sum.toNat = [a, b] ∧
    Hexa.isDigit a = true ∧ Hexa.isDigit b = true ∧ Hexa.value [a, b] = p.sum.toNat := by
  have hvalue := Hexa.value_digits (show p.sum.toNat < 16 ^ 2 from p.sum.toNat_lt)
  have hdigit : ∀ c ∈ Hexa.digits 2 p.sum.toNat, Hexa.isDigit c = true := fun c hc =>
    Hexa.isDigit_of_mem_digits hc
  obtain ⟨a, b, hab⟩ := List.length_eq_two.mp (Hexa.length_digits 2 p.sum.toNat)
  rw [hab] at hvalue hdigit
  exact ⟨a, b, hab, hdigit a (by simp), hdigit b (by simp), hvalue⟩

/-- A frame is one token of the packet rule, whatever follows it. -/
theorem longestMatch_trame {p : List UInt8} (hp : Free p) (suite : List UInt8) :
    Lexer.LongestMatch regles (trame p ++ suite) .packet (trame p) suite := by
  obtain ⟨a, b, hab, ha, hb, _⟩ := trame_chiffres p
  rw [trame, hab]
  exact longestMatch_packet hp ha hb suite

theorem sommeJuste_trame (p : List UInt8) : sommeJuste (trame p) = true := by
  obtain ⟨a, b, hab, _, _, hvalue⟩ := trame_chiffres p
  rw [trame, hab, sommeJuste_packet, hvalue]
  exact decide_eq_true rfl

/-- What `gdb_send_buffer` transmits is one token of the packet rule, which
`gdb_packet_check` accepts; with one byte of the payload changed it is refused. All
packets of the commands are of this form. -/
theorem trame_verifiee (host simulateur : Bool) :
    (∀ s : Session, Free s.payload →
      written (envoi s.payload) = trame s.payload ∧
      (gdbSendBuffer s).log = s.log ++ envoi s.payload ∧
      (∀ suite, Lexer.LongestMatch regles (trame s.payload ++ suite) .packet (trame s.payload) suite) ∧
      (∀ r : Session, gdbPacketCheck r (trame s.payload) (trame s.payload).length =
        (1, { r with
          gdb := { r.gdb with answer := trame s.payload, answerLen := (trame s.payload).length }
          log := r.log ++ [.writen [plus]] })) ∧
      ∀ (r : Session) (i : Nat) (b : UInt8), i < s.payload.length → s.payload[i]? ≠ some b →
        b ≠ dollar → b ≠ hash →
        gdbPacketCheck r ((trame s.payload).set (i + 1) b) (trame s.payload).length =
          (0, { r with log := r.log ++ [.writen [minus]] })) ∧
      ∀ (s : Session) (commande : Commande), ∃ fin evs,
        (∀ fuel, commande.tours < fuel → commande.lancer host simulateur fuel s = some fin) ∧
        fin.log = s.log ++ evs ∧ ∀ p ∈ envois evs, Free p.1 ∧ p.2 = trame p.1 := by
  refine ⟨fun s hfree => ?_, fun s commande => ?_⟩
  · obtain ⟨a, b, hab, ha, hb, hvalue⟩ := trame_chiffres s.payload
    have htrame : trame s.payload = dollar :: (s.payload ++ [hash, a, b]) := by rw [trame, hab]
    refine ⟨List.append_nil _, gdbSendBuffer_log s, fun suite => ?_, fun r => ?_, fun r i c hi hc _ _ => ?_⟩
    · exact longestMatch_trame hfree suite
    · rw [gdbPacketCheck_packet r ha hb htrame, if_pos hvalue.symm]
    · have hset : (trame s.payload).set (i + 1) c = dollar :: (s.payload.set i c ++ [hash, a, b]) := by
        rw [htrame, List.set_cons_succ, List.set_append_left _ _ hi]
      have hcheck := gdbPacketCheck_packet r ha hb hset
      rw [List.length_set] at hcheck
      rw [hcheck, if_neg]
      · rfl
      · rw [hvalue]
        exact fun h => sum_set_ne hi hc (UInt8.toNat_inj.mp h)
  · obtain ⟨fin, hrun, evs, hlog, hform, _⟩ := lancer_emis host simulateur s commande
    exact ⟨fin, evs, hrun, hlog, hform⟩

/-! ## From the commands to a receiver -/

/-- The scanner cuts a stream of frames back into the frames. -/
theorem jetons_trames {ps : List (List UInt8 × List UInt8)} (h : ∀ p ∈ ps, Free p.1 ∧ p.2 = trame p.1)
    (suite : List UInt8) :
    jetons (ps.flatMap Prod.snd ++ suite) = ps.map (fun p => (some .packet, p.2)) ++ jetons suite := by
  induction ps with
  | nil => rfl
  | cons p ps ih =>
    rw [List.forall_mem_cons] at h
    obtain ⟨⟨hfree, htrame⟩, hps⟩ := h
    have hfirst : jetons (p.2 ++ (ps.flatMap Prod.snd ++ suite)) =
        (some .packet, p.2) :: jetons (ps.flatMap Prod.snd ++ suite) := by
      rw [htrame]
      exact Lexer.tokens_of_longestMatch (longestMatch_trame hfree _)
    rw [List.flatMap_cons, List.append_assoc, hfirst, ih hps]
    rfl

/-- A receiver that scans what a command sends finds its packets, all of them good, and
nothing else. -/
theorem lancer_recu (host simulateur : Bool) (s : Session) (commande : Commande) : ∃ fin evs,
    (∀ fuel, commande.tours < fuel → commande.lancer host simulateur fuel s = some fin) ∧
    fin.log = s.log ++ evs ∧
    jetons ((envois evs).flatMap Prod.snd) = (envois evs).map (fun p => (some .packet, p.2)) ∧
    bons (jetons ((envois evs).flatMap Prod.snd)) = jetons ((envois evs).flatMap Prod.snd) := by
  obtain ⟨fin, hrun, evs, hlog, hform, _⟩ := lancer_emis host simulateur s commande
  have hcut := jetons_trames hform []
  rw [List.append_nil, show jetons [] = [] from Lexer.tokens_nil regles, List.append_nil] at hcut
  refine ⟨fin, evs, hrun, hlog, hcut, ?_⟩
  rw [hcut]
  refine List.filter_eq_self.mpr fun j hj => ?_
  obtain ⟨p, hp, rfl⟩ := List.mem_map.mp hj
  rw [estBon, (hform p hp).2, sommeJuste_trame]
  rfl

end ElfLinker
