import ElfLinker.Lib.Endian
import ElfLinker.Scanner

/-!
The commands of `gdb_protocol.c`: `gdb_write_register`, `gdb_write_memory`, `gdb_cont`
and `gdb_step`, each of which builds payloads in `gdb->buffer`, sends them and waits
for the answer.
-/

namespace ElfLinker

/-! ## Functions of gdb_protocol.c -/

def gdbGetAnswer (s : Session) : Int × Session := gdbGetPacket s

/-- `strcpy` of a string, with its NUL, and its length. -/
def gdbSendData (s : Session) (data : List UInt8) : Session :=
  gdbSendBuffer ((s.packetStore 1 (data ++ [0])).setLen data.length)

/-- The loop of `write_uint32`: two digits and a NUL for each byte, then the NUL behind
the last. -/
def ecrireOctets : List UInt8 → Session → Nat → Session
  | [], s, data => s.packetStore data [0]
  | b :: bytes, s, data =>
    ecrireOctets bytes (s.packetStore data (Hexa.digits 2 b.toNat ++ [0])) (data + 2)

/-- The bytes in memory, first to last when host and simulator agree on the order and
last to first otherwise. -/
def ordre (host simulateur : Bool) (value : UInt32) : List UInt8 :=
  if host == simulateur then Endian.wordBytes host value else (Endian.wordBytes host value).reverse

/-- `for (; (i<4) && (i>=0); i+=step)`: the subscripts into `mem.bytes`. `none`: the loop
made `fuel` turns without an end. -/
def parcours (step : Int) : Nat → Int → Option (List Int)
  | 0, _ => none
  | fuel + 1, i => if i < 4 ∧ 0 ≤ i then (parcours step fuel (i + step)).map (i :: ·) else some []

/-- From either end the loop stops after the four bytes of `mem`, taken in this order. -/
theorem parcours_ordre (host simulateur : Bool) (value : UInt32) {fuel : Nat} (hfuel : 4 < fuel) :
    let agree := host == simulateur
    (parcours (if agree then 1 else -1) fuel (if agree then 0 else 3)).map
        (List.map fun i => (Endian.wordBytes host value).getD i.toNat 0) =
      some (ordre host simulateur value) := by
  obtain ⟨n, rfl⟩ := Nat.exists_eq_add_of_le' hfuel
  cases host <;> cases simulateur <;> rfl

def writeUint32 (host simulateur : Bool) (s : Session) (data : Nat) (value : UInt32) : Session :=
  ecrireOctets (ordre host simulateur value) s data

def gdbWriteRegister (host simulateur : Bool) (s : Session) (num : UInt8) (value : UInt32) : Session :=
  let s := s.packetStore 1 (ascii 'P' :: Hexa.digits 2 num.toNat ++ [ascii '='] ++ [0])
  let s := writeUint32 host simulateur s (1 + 4) value
  let s := s.setLen 12
  (gdbGetAnswer (gdbSendBuffer s)).2

/-- The bytes that `switch` names. -/
def special (c : UInt8) : Bool := c = dollar || c = hash || c = escapeChar

/-- The inner loop of `gdb_write_memory`, on the bytes `size` counts from `src_buffer`
on: the bytes left, `bytes_copied` and `buffer_size`. -/
def copier : List UInt8 → Session → Nat → Nat → Nat → Session × Nat × Nat × List UInt8
  | [], s, _, bytesCopied, bufferSize => (s, bytesCopied, bufferSize, [])
  | c :: src, s, dest, bytesCopied, bufferSize =>
    if bufferSize < maxBufferSize - 1 then
      if special c then
        let s := (s.packetStore dest [escapeChar]).packetStore (dest + 1) [c ^^^ 0x20]
        copier src s (dest + 2) (bytesCopied + 1) (bufferSize + 2)
      else copier src (s.packetStore dest [c]) (dest + 1) (bytesCopied + 1) (bufferSize + 1)
    else (s, bytesCopied, bufferSize, c :: src)

/-- `X%08x,%08x`. -/
def entete (address : UInt32) (bytesCopied : Nat) : List UInt8 :=
  ascii 'X' :: Hexa.digits 8 address.toNat ++ ascii ',' :: Hexa.digits 8 bytesCopied

/-- One turn of the outer loop: `address` and the bytes left after it. -/
def ecrireBloc (s : Session) (address : UInt32) (src : List UInt8) : Session × UInt32 × List UInt8 :=
  let (s, bytesCopied, bufferSize, reste) := copier src s (1 + 19) 0 0
  let s := s.packetStore 1 (entete address bytesCopied ++ [0])
  let s := s.packetStore (1 + 18) [ascii ':']
  let s := s.setLen (19 + bufferSize)
  ((gdbGetAnswer (gdbSendBuffer s)).2, address + UInt32.ofNat bytesCopied, reste)

/-- `src` is `src_buffer[0..size)`. `none`: the loop made `fuel` turns without an end. -/
def gdbWriteMemory : Nat → Session → UInt32 → List UInt8 → Option Session
  | 0, _, _, _ => none
  | fuel + 1, s, address, src =>
    if 0 < src.length then
      let (s, address, src) := ecrireBloc s address src
      gdbWriteMemory fuel s address src
    else some s

def gdbCont (s : Session) : Session := (gdbGetAnswer (gdbSendData s [ascii 'c'])).2

def gdbStep (s : Session) : Int × Session := gdbGetAnswer (gdbSendData s [ascii 's'])

/-! ## The escaping of memory data -/

/-- The bytes that the inner loop stores for one byte of the source. -/
def echappe (c : UInt8) : List UInt8 := if special c then [escapeChar, c ^^^ 0x20] else [c]

/-- What the simulator makes of the data of an `X` packet; `none` when an escape pair
is cut at the end. -/
def desechappe : List UInt8 → Option (List UInt8)
  | [] => some []
  | [c] => if c = escapeChar then none else some [c]
  | c :: d :: rest =>
    if c = escapeChar then (desechappe rest).map ((d ^^^ 0x20) :: ·)
    else (desechappe (d :: rest)).map (c :: ·)

theorem desechappe_cons {c : UInt8} (hc : c ≠ escapeChar) (rest : List UInt8) :
    desechappe (c :: rest) = (desechappe rest).map (c :: ·) := by
  cases rest with
  | nil => simp [desechappe, hc]
  | cons d rest => rw [desechappe, if_neg hc]

theorem special_iff {c : UInt8} : special c = true ↔ c = dollar ∨ c = hash ∨ c = escapeChar := by
  simp [special, or_assoc]

theorem desechappe_echappe (c : UInt8) (rest : List UInt8) :
    desechappe (echappe c ++ rest) = (desechappe rest).map (c :: ·) := by
  unfold echappe
  cases hc : special c with
  | true =>
    rw [if_pos rfl, List.cons_append, List.cons_append, List.nil_append, desechappe, if_pos rfl]
    rcases special_iff.mp hc with rfl | rfl | rfl <;> rfl
  | false =>
    have hne : c ≠ escapeChar := fun h => by simp [special, h] at hc
    rw [if_neg (by simp), List.singleton_append, desechappe_cons hne]

theorem desechappe_flatMap (bytes : List UInt8) : desechappe (bytes.flatMap echappe) = some bytes := by
  induction bytes with
  | nil => rfl
  | cons c bytes ih => rw [List.flatMap_cons, desechappe_echappe, ih, Option.map_some]

theorem free_flatMap_echappe (bytes : List UInt8) : Free (bytes.flatMap echappe) := by
  intro d hd
  rw [List.mem_flatMap] at hd
  obtain ⟨c, _, hd⟩ := hd
  unfold echappe at hd
  cases hc : special c with
  | true =>
    rw [hc, if_pos rfl] at hd
    rcases special_iff.mp hc with rfl | rfl | rfl <;>
      (simp only [List.mem_cons, List.not_mem_nil, or_false] at hd; rcases hd with rfl | rfl <;> decide)
  | false =>
    rw [hc, if_neg (by simp), List.mem_singleton] at hd
    subst hd
    exact ⟨fun h => by simp [special, h] at hc, fun h => by simp [special, h] at hc⟩

theorem length_echappe (c : UInt8) : (echappe c).length = if special c then 2 else 1 := by
  unfold echappe
  split <;> rfl

/-- The length of the encoded data: one byte more for each byte escaped. -/
theorem length_flatMap_echappe (bytes : List UInt8) :
    (bytes.flatMap echappe).length = bytes.length + bytes.countP special := by
  induction bytes with
  | nil => rfl
  | cons c bytes ih =>
    rw [List.flatMap_cons, List.length_append, ih, length_echappe, List.countP_cons, List.length_cons]
    split <;> omega

/-! ## One block -/

/-- The payloads handed to `gdb_send_buffer`, with the packets sent for them. -/
def envois (log : List Evenement) : List (List UInt8 × List UInt8) :=
  log.filterMap fun
    | .sendBuffer payload packet => some (payload, packet)
    | _ => none

theorem envois_append (l l' : List Evenement) : envois (l ++ l') = envois l ++ envois l' :=
  List.filterMap_append

/-- A store into `packet` below the offset `n`. -/
def Evenement.StockeAvant (n : Nat) : Evenement → Prop
  | .packetStore off bytes => off + bytes.length ≤ n
  | _ => False

/-- An event that does not leave the array `packet`. -/
def Evenement.Tient : Evenement → Prop
  | .packetStore off bytes => off + bytes.length ≤ maxPacketSize
  | _ => True

theorem Evenement.StockeAvant.tient {n : Nat} {e : Evenement} (h : e.StockeAvant n)
    (hn : n ≤ maxPacketSize) : e.Tient := by
  cases e with
  | packetStore off bytes => exact Nat.le_trans h hn
  | _ => trivial

theorem Evenement.StockeAvant.mono {m n : Nat} {e : Evenement} (h : e.StockeAvant m) (hmn : m ≤ n) :
    e.StockeAvant n := by
  cases e with
  | packetStore off bytes => exact Nat.le_trans h hmn
  | _ => exact h.elim

theorem Evenement.DeReception.tient {e : Evenement} (h : e.DeReception) : e.Tient := by
  cases e with
  | packetStore off bytes => exact h.elim
  | _ => trivial

theorem envois_stockeAvant {n : Nat} {evs : List Evenement} (h : ∀ e ∈ evs, e.StockeAvant n) :
    envois evs = [] := by
  rw [envois, List.filterMap_eq_nil_iff]
  intro e he
  cases e with
  | packetStore off bytes => rfl
  | _ => exact (h _ he).elim

theorem envois_deReception {evs : List Evenement} (h : ∀ e ∈ evs, e.DeReception) : envois evs = [] := by
  rw [envois, List.filterMap_eq_nil_iff]
  intro e he
  cases e with
  | sendBuffer payload packet => exact (h _ he).elim
  | _ => rfl

/-- The inner loop has stored `pre`, escaped, from `dest` on. -/
structure Copie (src : List UInt8) (s : Session) (dest bytesCopied bufferSize : Nat) (pre : List UInt8)
    (r : Session × Nat × Nat × List UInt8) : Prop where
  split : src = pre ++ r.2.2.2
  packet : r.1.gdb.packet = s.gdb.packet.store dest (pre.flatMap echappe)
  events : ∃ evs, r.1.log = s.log ++ evs ∧
    ∀ e ∈ evs, e.StockeAvant (dest + (pre.flatMap echappe).length)
  copied : r.2.1 = bytesCopied + pre.length
  size : r.2.2.1 = bufferSize + (pre.flatMap echappe).length
  plein : r.2.2.2 = [] ∨ maxBufferSize - 1 ≤ r.2.2.1
  borne : bufferSize ≤ maxBufferSize → r.2.2.1 ≤ maxBufferSize

theorem Copie.cons {c : UInt8} {src pre : List UInt8} {s s' : Session} {dest bytesCopied bufferSize : Nat}
    {r : Session × Nat × Nat × List UInt8} (hsize : bufferSize < maxBufferSize - 1)
    (hpacket : s'.gdb.packet = s.gdb.packet.store dest (echappe c))
    (hevents : ∃ evs, s'.log = s.log ++ evs ∧ ∀ e ∈ evs, e.StockeAvant (dest + (echappe c).length))
    (h : Copie src s' (dest + (echappe c).length) (bytesCopied + 1) (bufferSize + (echappe c).length) pre r) :
    Copie (c :: src) s dest bytesCopied bufferSize (c :: pre) r := by
  have hlen : (List.flatMap echappe (c :: pre)).length =
      (echappe c).length + (pre.flatMap echappe).length := by
    rw [List.flatMap_cons, List.length_append]
  have hone := length_echappe c
  have hcopied := h.copied
  have hsz := h.size
  have hb := h.borne
  obtain ⟨evs, hlog, hevs⟩ := hevents
  obtain ⟨evs', hlog', hevs'⟩ := h.events
  refine ⟨congrArg (c :: ·) h.split, ?_, ⟨evs ++ evs', ?_, ?_⟩, ?_, ?_, h.plein, ?_⟩
  · rw [h.packet, hpacket, Memory.store_append]
    rfl
  · rw [hlog', hlog, List.append_assoc]
  · intro e he
    rw [hlen, ← Nat.add_assoc]
    rw [List.mem_append] at he
    cases he with
    | inl he => exact (hevs e he).mono (Nat.le_add_right _ _)
    | inr he => exact hevs' e he
  · rw [hcopied, List.length_cons]
    omega
  · rw [hsz, hlen]
    omega
  · intro _
    refine hb ?_
    rw [hone]
    split <;> omega

/-- The loop stops at the end of the source and when the block is full. -/
theorem Copie.stop {src : List UInt8} (s : Session) (dest bytesCopied : Nat) {bufferSize : Nat}
    (h : src = [] ∨ maxBufferSize - 1 ≤ bufferSize) :
    Copie src s dest bytesCopied bufferSize [] (s, bytesCopied, bufferSize, src) := by
  refine ⟨rfl, ?_, ⟨[], (List.append_nil _).symm, by simp⟩, rfl, rfl, h, fun h => h⟩
  funext k
  simp [Memory.store]

theorem copier_copie (src : List UInt8) (s : Session) (dest bytesCopied bufferSize : Nat) :
    ∃ pre, Copie src s dest bytesCopied bufferSize pre (copier src s dest bytesCopied bufferSize) ∧
      (src ≠ [] → bufferSize < maxBufferSize - 1 → pre ≠ []) := by
  induction src generalizing s dest bytesCopied bufferSize with
  | nil => exact ⟨[], Copie.stop s dest bytesCopied (Or.inl rfl), fun h => absurd rfl h⟩
  | cons c src ih =>
    unfold copier
    by_cases hsize : bufferSize < maxBufferSize - 1
    · rw [if_pos hsize]
      cases hc : special c with
      | true =>
        have he : echappe c = [escapeChar, c ^^^ 0x20] := by rw [echappe, hc, if_pos rfl]
        obtain ⟨pre, hcopie, _⟩ := ih ((s.packetStore dest [escapeChar]).packetStore (dest + 1) [c ^^^ 0x20])
          (dest + 2) (bytesCopied + 1) (bufferSize + 2)
        refine ⟨c :: pre, Copie.cons hsize ?_ ?_ (by rw [he]; exact hcopie), fun _ _ => by simp⟩
        · rw [he]
          exact Memory.store_append s.gdb.packet dest [escapeChar] [c ^^^ 0x20]
        · refine ⟨[.packetStore dest [escapeChar], .packetStore (dest + 1) [c ^^^ 0x20]],
            List.append_assoc s.log [_] [_], ?_⟩
          simp [he, Evenement.StockeAvant]
      | false =>
        have he : echappe c = [c] := by rw [echappe, hc, if_neg (by simp)]
        obtain ⟨pre, hcopie, _⟩ := ih (s.packetStore dest [c]) (dest + 1) (bytesCopied + 1) (bufferSize + 1)
        refine ⟨c :: pre, Copie.cons hsize ?_ ?_ (by rw [he]; exact hcopie), fun _ _ => by simp⟩
        · rw [he]
          rfl
        · refine ⟨[.packetStore dest [c]], rfl, ?_⟩
          simp [he, Evenement.StockeAvant]
    · rw [if_neg hsize]
      exact ⟨[], Copie.stop s dest bytesCopied (Or.inr (Nat.le_of_not_lt hsize)), fun _ h => absurd h hsize⟩

@[simp] theorem length_entete (address : UInt32) (n : Nat) : (entete address n).length = 18 := by
  simp [entete]

/-- The payload of the packet that writes `bytes` at `address`. -/
def chargeUtile (address : UInt32) (bytes : List UInt8) : List UInt8 :=
  entete address bytes.length ++ ascii ':' :: bytes.flatMap echappe

theorem length_chargeUtile (address : UInt32) (bytes : List UInt8) :
    (chargeUtile address bytes).length = 19 + (bytes.flatMap echappe).length := by
  rw [chargeUtile, List.length_append, length_entete, List.length_cons]
  omega

/-- The header stored in front of the data, the colon over its NUL. -/
theorem load_chargeUtile (m : Memory UInt8) (address : UInt32) (bytes : List UInt8) :
    (((m.store (1 + 19) (bytes.flatMap echappe)).store 1 (entete address bytes.length ++ [0])).store
        (1 + 18) [ascii ':']).load 1 (19 + (bytes.flatMap echappe).length) =
      chargeUtile address bytes := by
  have hcolon : ((m.store (1 + 19) (bytes.flatMap echappe)).store 1
      (entete address bytes.length ++ [0])).store (1 + 18) [ascii ':'] =
        (m.store (1 + 19) (bytes.flatMap echappe)).store 1 (entete address bytes.length ++ [ascii ':']) := by
    rw [← length_entete address bytes.length]
    exact Memory.store_append_store _ 1 (entete address bytes.length) (Nat.le_refl 1)
  have hlen : (entete address bytes.length ++ [ascii ':']).length = 19 := by
    rw [List.length_append, length_entete]
    rfl
  have hself := Memory.load_store_self (m.store (1 + 19) (bytes.flatMap echappe)) 1
    (entete address bytes.length ++ [ascii ':'])
  rw [hlen] at hself
  rw [hcolon, Memory.load_add, hself, Memory.load_store_of_disjoint (Or.inr (by rw [hlen])),
    Memory.load_store_self, List.append_assoc]
  rfl

/-- A call of `gdb_send_buffer` stays inside `packet` when its payload leaves room for
`$`, `#`, the digits and the NUL. -/
theorem tient_envoi {p : List UInt8} :
    (∀ e ∈ envoi p, e.Tient) ↔ p.length + 5 ≤ maxPacketSize := by
  simp only [envoi, List.forall_mem_cons, Evenement.Tient, List.length_append, List.length_cons,
    Hexa.length_digits, List.length_nil, maxPacketSize]
  constructor
  · intro h
    omega
  · intro h
    exact ⟨by omega, by omega, by omega, by omega, trivial, trivial, by simp⟩

theorem gdbGetAnswer_recoit (s : Session) : Recoit s (gdbGetAnswer s).2 := yylexLoop_recoit s.flux s

/-- In `s'` the payload `p` is ready: it was stored below the end of its packet, and nothing
came in meanwhile. -/
structure ChargePrete (s : Session) (p : List UInt8) (s' : Session) : Prop where
  payload : s'.payload = p
  events : ∃ evs, s'.log = s.log ++ evs ∧ ∀ e ∈ evs, e.StockeAvant (p.length + 5)
  data : s'.data = s.data
  flux : s'.flux = s.flux

/-- It is sent, and the command stays inside `packet` when the packet does. -/
theorem ChargePrete.emission {s s' : Session} {p : List UInt8} (h : ChargePrete s p s') :
    ∃ evs, (gdbGetAnswer (gdbSendBuffer s')).2.log = s.log ++ evs ∧ envois evs = [(p, trame p)] ∧
      ((∀ e ∈ evs, e.Tient) ↔ p.length + 5 ≤ maxPacketSize) := by
  obtain ⟨rfl, ⟨evs, hlog, hevs⟩, -, -⟩ := h
  obtain ⟨evs', hlog', hevs'⟩ := (gdbGetAnswer_recoit (gdbSendBuffer s')).events
  refine ⟨evs ++ envoi s'.payload ++ evs', ?_, ?_, ?_⟩
  · rw [hlog', gdbSendBuffer_log, hlog, List.append_assoc, List.append_assoc, List.append_assoc]
  · rw [envois_append, envois_append, envois_stockeAvant hevs, envois_deReception hevs']
    rfl
  · constructor
    · intro htient
      exact tient_envoi.mp fun e he => htient e (List.mem_append_left _ (List.mem_append_right _ he))
    · intro hle e he
      rw [List.mem_append, List.mem_append] at he
      rcases he with (he | he) | he
      · exact (hevs e he).tient hle
      · exact tient_envoi.mpr hle e he
      · exact (hevs' e he).tient

/-- One turn of `gdb_write_memory` sends the block `pre` of the source. -/
structure Bloc (s : Session) (address : UInt32) (src pre : List UInt8)
    (r : Session × UInt32 × List UInt8) : Prop where
  split : src = pre ++ r.2.2
  nonempty : pre ≠ []
  suivante : r.2.1 = address + UInt32.ofNat pre.length
  plein : r.2.2 = [] ∨ maxBufferSize - 1 ≤ (pre.flatMap echappe).length
  borne : (pre.flatMap echappe).length ≤ maxBufferSize
  events : ∃ evs, r.1.log = s.log ++ evs ∧
    envois evs = [(chargeUtile address pre, trame (chargeUtile address pre))] ∧
    ((∀ e ∈ evs, e.Tient) ↔ (pre.flatMap echappe).length ≤ 1000)

/-- The header and the colon are stored before the data, with room for the frame. -/
theorem stockeAvant_entete (address : UInt32) (n : Nat) {evs : List Evenement} {m k : Nat}
    (hevs : ∀ e ∈ evs, e.StockeAvant m) (hk : m ≤ k ∧ 20 ≤ k) :
    ∀ e ∈ evs ++ [.packetStore 1 (entete address n ++ [0]), .packetStore (1 + 18) [ascii ':']],
      e.StockeAvant k := by
  intro e he
  rw [List.mem_append] at he
  cases he with
  | inl he => exact (hevs e he).mono hk.1
  | inr he =>
    simp only [List.mem_cons, List.not_mem_nil, or_false] at he
    rcases he with rfl | rfl
    · simp only [Evenement.StockeAvant, List.length_append, length_entete, List.length_cons, List.length_nil]
      omega
    · simp only [Evenement.StockeAvant, List.length_cons, List.length_nil]
      omega

theorem copier_reste (src : List UInt8) (s : Session) (dest bytesCopied bufferSize : Nat) :
    (copier src s dest bytesCopied bufferSize).1.data = s.data ∧
      (copier src s dest bytesCopied bufferSize).1.flux = s.flux := by
  induction src generalizing s dest bytesCopied bufferSize with
  | nil => exact ⟨rfl, rfl⟩
  | cons c src ih =>
    unfold copier
    split
    · split
      · exact ih _ _ _ _
      · exact ih _ _ _ _
    · exact ⟨rfl, rfl⟩

/-- One turn of `gdb_write_memory` makes the block `pre` ready in `s'`. -/
structure BlocPret (s : Session) (address : UInt32) (src pre reste : List UInt8) (s' : Session) : Prop
    extends ChargePrete s (chargeUtile address pre) s' where
  tour : ecrireBloc s address src =
    ((gdbGetAnswer (gdbSendBuffer s')).2, address + UInt32.ofNat pre.length, reste)
  split : src = pre ++ reste
  plein : reste = [] ∨ maxBufferSize - 1 ≤ (pre.flatMap echappe).length
  borne : (pre.flatMap echappe).length ≤ maxBufferSize

theorem ecrireBloc_pret (s : Session) (address : UInt32) (src : List UInt8) :
    ∃ pre reste s', BlocPret s address src pre reste s' ∧ (src ≠ [] → pre ≠ []) := by
  obtain ⟨pre, h, hpre⟩ := copier_copie src s (1 + 19) 0 0
  obtain ⟨evs, hlog, hevs⟩ := h.events
  obtain ⟨hdata, hflux⟩ := copier_reste src s (1 + 19) 0 0
  have hcopied := h.copied
  have hsize := h.size
  rw [Nat.zero_add] at hcopied hsize
  obtain ⟨s', hs'⟩ : ∃ s', s' = (((copier src s (1 + 19) 0 0).1.packetStore 1
      (entete address pre.length ++ [0])).packetStore (1 + 18) [ascii ':']).setLen
        (19 + (pre.flatMap echappe).length) := ⟨_, rfl⟩
  have hpayload : s'.payload = chargeUtile address pre := by
    have hload := load_chargeUtile s.gdb.packet address pre
    rw [← h.packet] at hload
    rw [hs']
    exact hload
  have hlog' : s'.log = s.log ++ (evs ++ [.packetStore 1 (entete address pre.length ++ [0]),
      .packetStore (1 + 18) [ascii ':']]) := by
    rw [hs', ← List.append_assoc, ← hlog]
    exact List.append_assoc (copier src s (1 + 19) 0 0).1.log [_] [_]
  have hroom : 1 + 19 + (pre.flatMap echappe).length ≤ (chargeUtile address pre).length + 5 ∧
      20 ≤ (chargeUtile address pre).length + 5 := by
    rw [length_chargeUtile]
    omega
  have hpret : ChargePrete s (chargeUtile address pre) s' :=
    ⟨hpayload, ⟨_, hlog', stockeAvant_entete address pre.length hevs hroom⟩, by rw [hs']; exact hdata,
      by rw [hs']; exact hflux⟩
  refine ⟨pre, (copier src s (1 + 19) 0 0).2.2.2, s', ⟨hpret, ?_, h.split, ?_, ?_⟩,
    fun hsrc => hpre hsrc (by decide)⟩
  · rw [hs', ← hcopied, ← hsize]
    rfl
  · rw [← hsize]
    exact h.plein
  · rw [← hsize]
    exact h.borne (by decide)

theorem ecrireBloc_bloc (s : Session) (address : UInt32) {src : List UInt8} (hsrc : src ≠ []) :
    ∃ pre, Bloc s address src pre (ecrireBloc s address src) := by
  obtain ⟨pre, reste, s', h, hpre⟩ := ecrireBloc_pret s address src
  obtain ⟨evs, hlog, henv, htient⟩ := h.emission
  rw [length_chargeUtile] at htient
  rw [h.tour]
  refine ⟨pre, h.split, hpre hsrc, rfl, h.plein, h.borne, evs, hlog, henv, ?_⟩
  rw [htient, maxPacketSize]
  omega

/-! ## A whole transfer -/

/-- Some bytes of memory and the address they go to. -/
structure Morceau where
  adresse : UInt32
  donnees : List UInt8

namespace Morceau

def payload (m : Morceau) : List UInt8 := chargeUtile m.adresse m.donnees

/-- `payload` is an `X` packet that writes `m`: `X`, the address and the number of
bytes on 8 digits, and data that decode to the bytes. -/
def Code (m : Morceau) (payload : List UInt8) : Prop :=
  ∃ a n d, payload = ascii 'X' :: (a ++ ascii ',' :: (n ++ ascii ':' :: d)) ∧
    (a.length = 8 ∧ (∀ c ∈ a, Hexa.isDigit c = true) ∧ Hexa.value a = m.adresse.toNat) ∧
    (n.length = 8 ∧ (∀ c ∈ n, Hexa.isDigit c = true) ∧ Hexa.value n = m.donnees.length) ∧
    1 ≤ m.donnees.length ∧ Free d ∧ desechappe d = some m.donnees

/-- The pieces follow each other from the address `a` on. -/
def Suite : UInt32 → List Morceau → Prop
  | _, [] => True
  | a, m :: ms => m.adresse = a ∧ Suite (a + UInt32.ofNat m.donnees.length) ms

theorem code_payload {m : Morceau} (hpos : 1 ≤ m.donnees.length)
    (hmax : m.donnees.length ≤ maxBufferSize) : m.Code m.payload := by
  have haddr := m.adresse.toNat_lt
  simp only [maxBufferSize, maxPacketSize] at hmax
  refine ⟨Hexa.digits 8 m.adresse.toNat, Hexa.digits 8 m.donnees.length, m.donnees.flatMap echappe, ?_,
    ⟨Hexa.length_digits _ _, fun c hc => Hexa.isDigit_of_mem_digits hc, Hexa.value_digits haddr⟩,
    ⟨Hexa.length_digits _ _, fun c hc => Hexa.isDigit_of_mem_digits hc, Hexa.value_digits (by omega)⟩,
    hpos, free_flatMap_echappe _, desechappe_flatMap _⟩
  simp [payload, chargeUtile, entete]

end Morceau

/-- `gdb_write_memory` goes from `s` to `fin` and sends `src` in the pieces `ms`. -/
structure Ecriture (s : Session) (address : UInt32) (src : List UInt8) (fin : Session)
    (ms : List Morceau) : Prop where
  suite : Morceau.Suite address ms
  octets : ms.flatMap Morceau.donnees = src
  code : ∀ m ∈ ms, m.Code m.payload
  events : ∃ evs, fin.log = s.log ++ evs ∧
    envois evs = ms.map (fun m => (m.payload, trame m.payload)) ∧
    ((∀ e ∈ evs, e.Tient) ↔ (src.flatMap echappe).length ≤ 1000)

theorem length_le_echappe (bytes : List UInt8) : bytes.length ≤ (bytes.flatMap echappe).length := by
  rw [length_flatMap_echappe]
  exact Nat.le_add_right _ _

/-- A turn in front of a transfer: a block that leaves something behind it is too
long for `packet` by itself, so both sides of `tient` are false then. -/
theorem Ecriture.cons {s fin : Session} {address : UInt32} {src pre : List UInt8} {ms : List Morceau}
    {r : Session × UInt32 × List UInt8} (hb : Bloc s address src pre r)
    (h : Ecriture r.1 r.2.1 r.2.2 fin ms) : Ecriture s address src fin (⟨address, pre⟩ :: ms) := by
  have hsplit := hb.split
  have hborne := hb.borne
  have hle := length_le_echappe pre
  obtain ⟨evs, hlog, henv, htient⟩ := hb.events
  obtain ⟨evs', hlog', henv', htient'⟩ := h.events
  refine ⟨⟨rfl, ?_⟩, ?_, ?_, evs ++ evs', ?_, ?_, ?_⟩
  · rw [← hb.suivante]
    exact h.suite
  · rw [List.flatMap_cons, h.octets]
    exact hsplit.symm
  · intro m hm
    rw [List.mem_cons] at hm
    rcases hm with rfl | hm
    · exact Morceau.code_payload (List.length_pos_iff.mpr hb.nonempty) (Nat.le_trans hle hborne)
    · exact h.code m hm
  · rw [hlog', hlog, List.append_assoc]
  · rw [envois_append, henv, henv']
    rfl
  · have hlen : (src.flatMap echappe).length =
        (pre.flatMap echappe).length + (r.2.2.flatMap echappe).length := by
      rw [← List.length_append, ← List.flatMap_append, ← hsplit]
    have hfull : maxBufferSize - 1 = 1017 := rfl
    rw [hlen, List.forall_mem_append, htient, htient']
    rcases hb.plein with hrest | hplein
    · rw [hrest, List.flatMap_nil, List.length_nil]
      omega
    · omega

/-- Enough turns end the transfer: each one takes at least one byte. -/
theorem gdbWriteMemory_ecriture (src : List UInt8) (s : Session) (address : UInt32) :
    ∃ fin ms, (∀ fuel, src.length < fuel → gdbWriteMemory fuel s address src = some fin) ∧
      Ecriture s address src fin ms := by
  induction hn : src.length using Nat.strong_induction_on generalizing src s address with
  | _ n ih =>
    by_cases hsrc : src = []
    · subst hsrc
      refine ⟨s, [], fun fuel hfuel => ?_, trivial, rfl, by simp, [], (List.append_nil _).symm, rfl, by simp⟩
      cases fuel with
      | zero => omega
      | succ fuel => rfl
    · obtain ⟨pre, hb⟩ := ecrireBloc_bloc s address hsrc
      have hpre := List.length_pos_iff.mpr hb.nonempty
      have hlen := congrArg List.length hb.split
      rw [List.length_append] at hlen
      obtain ⟨fin, ms, hrun, hecr⟩ := ih (ecrireBloc s address src).2.2.length (by omega) _ _ _ rfl
      refine ⟨fin, _, fun fuel hfuel => ?_, Ecriture.cons hb hecr⟩
      cases fuel with
      | zero => omega
      | succ fuel =>
        rw [gdbWriteMemory, if_pos (by omega)]
        exact hrun fuel (by omega)

/-- Memory data reach the simulator exactly once: the payloads are `X` packets for
pieces that follow each other and make up the buffer. -/
theorem gdbWriteMemory_morceaux (s : Session) (address : UInt32) (buffer : List UInt8) :
    ∃ fin evs ms, (∀ fuel, buffer.length < fuel → gdbWriteMemory fuel s address buffer = some fin) ∧
      fin.log = s.log ++ evs ∧ List.Forall₂ Morceau.Code ms ((envois evs).map Prod.fst) ∧
      Morceau.Suite address ms ∧ ms.flatMap Morceau.donnees = buffer ∧
      (buffer = [] → envois evs = []) := by
  obtain ⟨fin, ms, hrun, h⟩ := gdbWriteMemory_ecriture buffer s address
  obtain ⟨evs, hlog, henv, _⟩ := h.events
  refine ⟨fin, evs, ms, hrun, hlog, ?_, h.suite, h.octets, fun hnil => ?_⟩
  · rw [henv, List.map_map, List.forall₂_map_right_iff, List.forall₂_same]
    exact h.code
  · rw [henv, List.map_eq_nil_iff]
    cases ms with
    | nil => rfl
    | cons m ms =>
      have hpos : 1 ≤ m.donnees.length := by
        obtain ⟨_, _, _, _, _, _, hpos, _⟩ := h.code m List.mem_cons_self
        exact hpos
      have hlen := congrArg List.length h.octets
      rw [List.flatMap_cons, List.length_append, hnil, List.length_nil] at hlen
      omega

end ElfLinker
