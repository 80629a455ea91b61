import Mathlib.Data.UInt
import ElfLinker.Lib.Hexa
import ElfLinker.Lib.Lexer
import ElfLinker.Lib.Memory

/-!
The packets of `gdb_protocol.c`: the data both sides of the connection share, the
framing of a payload by `gdb_send_buffer`, its check by `gdb_packet_check`, and
the rules of `scanner.l` that a packet has to match.
-/

namespace ElfLinker

def maxPacketSize : Nat := 1024
def maxBufferSize : Nat := maxPacketSize - 6
def maxErrorSize : Nat := 1024

/-! ## Characters -/

/-- The ASCII code of a character literal. -/
def ascii (c : Char) : UInt8 := UInt8.ofNat c.toNat

def dollar : UInt8 := ascii '$'
def hash : UInt8 := ascii '#'
def plus : UInt8 := ascii '+'
def minus : UInt8 := ascii '-'
def newline : UInt8 := ascii '\n'
def escapeChar : UInt8 := 0x7d

/-- Every byte, for the character classes. -/
def octets : List UInt8 := (List.range 256).map UInt8.ofNat

@[simp] theorem mem_octets (c : UInt8) : c ∈ octets :=
  List.mem_map.mpr ⟨c.toNat, List.mem_range.mpr c.toNat_lt, UInt8.ofNat_toNat⟩

/-- `[^..]`. -/
def allBut (cs : List UInt8) : List UInt8 := octets.filter fun c => c ∉ cs

@[simp] theorem mem_allBut {cs : List UInt8} {c : UInt8} : c ∈ allBut cs ↔ c ∉ cs := by
  simp [allBut]

/-- What a payload may hold: any byte but the two that frame it. -/
def Free (payload : List UInt8) : Prop := ∀ c ∈ payload, c ≠ dollar ∧ c ≠ hash

instance (payload : List UInt8) : Decidable (Free payload) :=
  List.decidableBAll (fun c => c ≠ dollar ∧ c ≠ hash) payload

theorem Free.append {p q : List UInt8} (hp : Free p) (hq : Free q) : Free (p ++ q) := by
  intro c hc
  rw [List.mem_append] at hc
  cases hc with
  | inl h => exact hp c h
  | inr h => exact hq c h

theorem free_digits (w n : Nat) : Free (Hexa.digits w n) := by
  intro c hc
  have hd := Hexa.isDigit_of_mem_digits hc
  constructor
  · rintro rfl
    exact absurd hd (by decide)
  · rintro rfl
    exact absurd hd (by decide)

/-! ## The rules of scanner.l -/

/-- The rules in the order of the file: `"+"`, `"-"`, the packet and the dot. -/
inductive Regle where
  | ack
  | retransmission
  | packet
  | caractere
  deriving DecidableEq

/-- `HEX [0-9a-fA-F]`. -/
def hex : RegularExpression UInt8 := Lexer.cls (octets.filter Hexa.isDigit)

/-- `"$"[^$#]*"#"{HEX}{HEX}`. -/
def packetPattern : RegularExpression UInt8 :=
  .char dollar * ((Lexer.cls (allBut [dollar, hash])).star * (.char hash * (hex * hex)))

def regles : List (Lexer.Rule UInt8 Regle) :=
  [⟨.ack, .char plus⟩, ⟨.retransmission, .char minus⟩, ⟨.packet, packetPattern⟩,
    ⟨.caractere, Lexer.cls (allBut [newline])⟩]

/-- A piece of the incoming stream: a match of a rule, or a newline, which no rule
matches. -/
abbrev Jeton := Option Regle × List UInt8

/-- The stream as the scanner cuts it. -/
def jetons (flux : List UInt8) : List Jeton := Lexer.tokens regles flux

theorem mem_hex {w : List UInt8} : w ∈ hex.matches' ↔ ∃ c, Hexa.isDigit c = true ∧ w = [c] := by
  rw [hex, Lexer.mem_matches_cls]
  simp only [List.mem_filter, mem_octets, true_and]

/-- A packet token: `$`, a payload, `#` and two digits. -/
theorem mem_packetPattern {w : List UInt8} : w ∈ packetPattern.matches' ↔
    ∃ p a b, w = dollar :: (p ++ [hash, a, b]) ∧ Free p ∧ Hexa.isDigit a = true ∧
      Hexa.isDigit b = true := by
  have hfree : ∀ p : List UInt8, p ∈ (Lexer.cls (allBut [dollar, hash])).star.matches' ↔ Free p := by
    intro p
    rw [Lexer.mem_matches_star_cls]
    simp only [mem_allBut, List.mem_cons, List.not_mem_nil, or_false, not_or, Free]
  simp only [packetPattern, RegularExpression.matches'_mul, Language.mem_mul,
    RegularExpression.matches'_char, hfree, mem_hex]
  constructor
  · rintro ⟨_, rfl, _, ⟨p, hp, _, ⟨_, rfl, _, ⟨_, ⟨a, ha, rfl⟩, _, ⟨b, hb, rfl⟩, rfl⟩, rfl⟩, rfl⟩, rfl⟩
    exact ⟨p, a, b, rfl, hp, ha, hb⟩
  · rintro ⟨p, a, b, rfl, hp, ha, hb⟩
    exact ⟨_, rfl, _, ⟨p, hp, _, ⟨_, rfl, _, ⟨_, ⟨a, ha, rfl⟩, _, ⟨b, hb, rfl⟩, rfl⟩, rfl⟩, rfl⟩, rfl⟩

/-- The text of a packet that ends in the digits `a` and `b`. -/
theorem length_packetText (p : List UInt8) (a b : UInt8) :
    (dollar :: (p ++ [hash, a, b])).length = p.length + 4 := by
  simp only [List.length_cons, List.length_append, List.length_nil]

/-- Only the packet rule can match a text of more than one character. -/
theorem firstMatch_long {w : List UInt8} (hw : 1 < w.length) :
    (w ∈ packetPattern.matches' → Lexer.firstMatch regles w = some .packet) ∧
      (w ∉ packetPattern.matches' → Lexer.firstMatch regles w = none) := by
  have hone : ∀ c : UInt8, w ≠ [c] := by
    rintro c rfl
    exact absurd hw (by simp)
  have hack : w ∉ (RegularExpression.char plus).matches' := hone plus
  have hret : w ∉ (RegularExpression.char minus).matches' := hone minus
  have hdot : w ∉ (Lexer.cls (allBut [newline])).matches' := by
    rw [Lexer.mem_matches_cls]
    rintro ⟨c, _, hc⟩
    exact hone c hc
  constructor
  · intro hp
    rw [regles, Lexer.firstMatch_cons_of_notMem _ hack, Lexer.firstMatch_cons_of_notMem _ hret,
      Lexer.firstMatch_cons_of_mem _ hp]
  · intro hp
    rw [regles, Lexer.firstMatch_cons_of_notMem _ hack, Lexer.firstMatch_cons_of_notMem _ hret,
      Lexer.firstMatch_cons_of_notMem _ hp, Lexer.firstMatch_cons_of_notMem _ hdot]
    rfl

/-- A packet is one token whatever follows it: a longer match would have its `#`
further on, and the first `#` of the stream inside its payload. -/
theorem longestMatch_packet {p : List UInt8} {a b : UInt8} (hp : Free p) (ha : Hexa.isDigit a = true)
    (hb : Hexa.isDigit b = true) (suite : List UInt8) :
    Lexer.LongestMatch regles (dollar :: (p ++ [hash, a, b]) ++ suite) .packet
      (dollar :: (p ++ [hash, a, b])) suite where
  split := rfl
  nonempty := List.cons_ne_nil _ _
  first := by
    refine (firstMatch_long ?_).1 (mem_packetPattern.mpr ⟨p, a, b, rfl, hp, ha, hb⟩)
    rw [length_packetText]
    omega
  maximal := by
    intro w' rest' hsplit hlen
    rw [length_packetText] at hlen
    refine (firstMatch_long (by omega)).2 fun hm => ?_
    obtain ⟨p', a', b', rfl, hp', _, _⟩ := mem_packetPattern.mp hm
    rw [length_packetText] at hlen
    have hchar : ((p' ++ [hash, a', b']) ++ rest')[p.length]? = some hash := by
      have htail := (List.cons.inj hsplit).2
      change (p ++ [hash, a, b]) ++ suite = (p' ++ [hash, a', b']) ++ rest' at htail
      rw [← htail]
      simp
    rw [List.append_assoc, List.getElem?_append_left (by omega)] at hchar
    exact (hp' hash (List.mem_of_getElem? hchar)).2 rfl

/-! ## The data of a connection -/

/-- `struct gdb_protocol_data`. `packet` is the memory from that field on, and
`buffer` is `packet + 1` throughout, so a store at `gdb->buffer[i]` is one at offset
`i + 1`. `answer` is the text that the pointer designates when `gdb_packet_check` sets it;
a later call of the scanner reuses that memory. -/
structure GdbProtocolData where
  packet : Memory UInt8
  len : Nat
  answer : List UInt8
  answerLen : Nat

/-- `struct parser_data` of `scanner.l`, less its pointer to the data above. -/
structure ParserData where
  buffer : Memory UInt8
  len : Nat

/-- What the functions do that can be seen beside their results: stores into
`gdb->packet` and `data->buffer`, assignments to `data->len`, calls of
`gdb_send_buffer` with the payload they got and the packet they sent, bytes written
to the connection, and bytes that flex copies to the standard output. -/
inductive Evenement where
  | packetStore (off : Nat) (bytes : List UInt8)
  | sendBuffer (payload packet : List UInt8)
  | writen (bytes : List UInt8)
  | bufferStore (i : Nat)
  | dataLen (n : Nat)
  | echo (bytes : List UInt8)
  deriving DecidableEq

/-- Both structures, the tokens of the stream not yet read, and the events. -/
structure Session where
  gdb : GdbProtocolData
  data : ParserData
  flux : List Jeton
  log : List Evenement

namespace Session

def note (s : Session) (e : Evenement) : Session := { s with log := s.log ++ [e] }

def packetStore (s : Session) (off : Nat) (bytes : List UInt8) : Session :=
  { s with
    gdb := { s.gdb with packet := s.gdb.packet.store off bytes }
    log := s.log ++ [.packetStore off bytes] }

def setLen (s : Session) (n : Nat) : Session := { s with gdb := { s.gdb with len := n } }

@[simp] theorem note_log (s : Session) (e : Evenement) : (s.note e).log = s.log ++ [e] := rfl

/-- What `gdb_send_buffer` takes as the payload. -/
def payload (s : Session) : List UInt8 := s.gdb.packet.load 1 s.gdb.len

/-- What `gdb_transmit_packet` writes. -/
def envoye (s : Session) : List UInt8 := s.gdb.packet.load 0 s.gdb.len

end Session

/-- The bytes written to the connection. -/
def written (log : List Evenement) : List UInt8 :=
  log.flatMap fun
    | .writen bytes => bytes
    | _ => []

/-! ## Functions of gdb_protocol.c -/

def gdbSendAck (s : Session) : Session := s.note (.writen [plus])

def gdbRequireRetransmission (s : Session) : Session := s.note (.writen [minus])

def gdbTransmitPacket (s : Session) : Session := s.note (.writen s.envoye)

/-- The sum is taken over `gdb->len` bytes; then `#`, the two digits of the sum with
the NUL of `sprintf`, and the final NUL are stored. -/
def gdbSendBuffer (s : Session) : Session :=
  let n := s.gdb.len
  let payload := s.payload
  let s := s.packetStore 0 [dollar]
  let check := (List.range' 1 n).foldl (fun check i => check + s.gdb.packet i) (0 : UInt8)
  let s := s.packetStore (1 + n) [hash]
  let s := s.packetStore (1 + n + 1) (Hexa.digits 2 check.toNat ++ [0])
  let s := s.packetStore (1 + n + 3) [0]
  let s := s.setLen (1 + n + 3)
  gdbTransmitPacket (s.note (.sendBuffer payload s.envoye))

/-- `packet` is the text of a token that the packet rule matched, `length` at least 4:
`sscanf` finds two digits there. -/
def gdbPacketCheck (s : Session) (packet : List UInt8) (length : Nat) : Int × Session :=
  let check := (List.range' 1 (length - 4)).foldl (fun check i => check + packet.getD i 0) (0 : UInt8)
  let given := Hexa.scan (packet.drop (length - 3 + 1))
  if check.toNat = given then
    let s := gdbSendAck s
    (1, { s with gdb := { s.gdb with answer := packet, answerLen := length } })
  else
    (0, gdbRequireRetransmission s)

/-- The state after `gdb_init_data` and `init_gdb_scanner`: what `malloc` and the stack
hold is arbitrary. -/
def connexion (packet buffer : Memory UInt8) (answer : List UInt8) (answerLen : Nat)
    (flux : List UInt8) : Session where
  gdb := ⟨packet, 0, answer, answerLen⟩
  data := ⟨buffer, 0⟩
  flux := jetons flux
  log := []

/-! ## Framing -/

/-- The frame of a payload, as the remote protocol of GDB defines it. -/
def trame (payload : List UInt8) : List UInt8 :=
  dollar :: (payload ++ hash :: Hexa.digits 2 payload.sum.toNat)

theorem sum_loop (f : Nat → UInt8) (is : List Nat) (a : UInt8) :
    is.foldl (fun check i => check + f i) a = a + (is.map f).sum := by
  induction is generalizing a with
  | nil => exact (UInt8.add_zero a).symm
  | cons i is ih => rw [List.foldl_cons, ih, List.map_cons, List.sum_cons, UInt8.add_assoc]

theorem load_store_dollar (m : Memory UInt8) (n : Nat) :
    (m.store 0 [dollar]).load 1 n = m.load 1 n :=
  Memory.load_store_of_disjoint (Or.inr (Nat.le_refl 1))

/-- The frame in memory: `$` before the payload, then `#` and the digits, of which
the two NUL stores behind touch nothing. -/
theorem load_trame (m : Memory UInt8) (n : Nat) {digits : List UInt8} (hd : digits.length = 2) :
    ((((m.store 0 [dollar]).store (1 + n) [hash]).store (1 + n + 1) (digits ++ [0])).store
        (1 + n + 3) [0]).load 0 (1 + n + 3) =
      dollar :: (m.load 1 n ++ hash :: digits) := by
  have hnul : ∀ m' : Memory UInt8, (m'.store (1 + n + 3) [0]).load 0 (1 + n + 3) = m'.load 0 (1 + n + 3) :=
    fun m' => Memory.load_store_of_disjoint (Or.inl (by omega))
  have htail : ((m.store 0 [dollar]).store (1 + n) [hash]).store (1 + n + 1) (digits ++ [0]) =
      ((m.store 0 [dollar]).store (1 + n) (hash :: digits)).store (1 + n + 3) [0] := by
    have hlen : (hash :: digits).length = 3 := by rw [List.length_cons, hd]
    have hone := Memory.store_append (m.store 0 [dollar]) (1 + n) [hash] (digits ++ [0])
    have hthree := Memory.store_append (m.store 0 [dollar]) (1 + n) (hash :: digits) [0]
    rw [hlen] at hthree
    exact hone.trans hthree.symm
  have hself : ((m.store 0 [dollar]).store (1 + n) (hash :: digits)).load (1 + n) 3 = hash :: digits := by
    have h := Memory.load_store_self (m.store 0 [dollar]) (1 + n) (hash :: digits)
    rwa [List.length_cons, hd] at h
  have hhead : (m.store 0 [dollar]).load 0 (1 + n) = dollar :: m.load 1 n := by
    rw [Memory.load_add, load_store_dollar]
    exact congrArg (· ++ m.load 1 n) (Memory.load_store_self m 0 [dollar])
  rw [hnul, htail, hnul, Memory.load_add, Nat.zero_add, hself,
    Memory.load_store_of_disjoint (Or.inl (by omega)), hhead, List.cons_append]

/-- The loop of `gdb_send_buffer` adds the bytes of the payload. -/
theorem sum_payload (s : Session) :
    (List.range' 1 s.gdb.len).foldl
      (fun check i => check + (s.packetStore 0 [dollar]).gdb.packet i) (0 : UInt8) = s.payload.sum := by
  rw [sum_loop, UInt8.zero_add]
  exact congrArg List.sum (load_store_dollar s.gdb.packet s.gdb.len)

/-- What `gdb_send_buffer` leaves in `packet` is the frame of the payload it found there. -/
theorem gdbSendBuffer_envoye (s : Session) : (gdbSendBuffer s).envoye = trame s.payload := by
  have h := load_trame s.gdb.packet s.gdb.len (Hexa.length_digits 2 s.payload.sum.toNat)
  rw [← sum_payload] at h
  rw [trame, ← sum_payload]
  exact h

/-- The stores and the write of one call, in order. -/
def envoi (payload : List UInt8) : List Evenement :=
  [.packetStore 0 [dollar], .packetStore (1 + payload.length) [hash],
    .packetStore (1 + payload.length + 1) (Hexa.digits 2 payload.sum.toNat ++ [0]),
    .packetStore (1 + payload.length + 3) [0], .sendBuffer payload (trame payload),
    .writen (trame payload)]

theorem gdbSendBuffer_log (s : Session) : (gdbSendBuffer s).log = s.log ++ envoi s.payload := by
  have hlen : s.payload.length = s.gdb.len := Memory.length_load _ _ _
  have henv := gdbSendBuffer_envoye s
  rw [envoi, hlen, ← henv, ← sum_payload]
  unfold gdbSendBuffer gdbTransmitPacket
  simp only [Session.note_log, Session.packetStore, Session.setLen, List.append_assoc, List.cons_append,
    List.nil_append]
  rfl

/-! ## Checking -/

/-- `gdb_packet_check` on a token of the packet rule compares the sum of its payload
with the number that its two digits stand for. -/
theorem gdbPacketCheck_packet (s : Session) {p : List UInt8} {a b : UInt8}
    (ha : Hexa.isDigit a = true) (hb : Hexa.isDigit b = true) {text : List UInt8}
    (ht : text = dollar :: (p ++ [hash, a, b])) : gdbPacketCheck s text text.length =
      if p.sum.toNat = Hexa.value [a, b] then
        (1, { s with
          gdb := { s.gdb with answer := text, answerLen := text.length }
          log := s.log ++ [.writen [plus]] })
      else (0, s.note (.writen [minus])) := by
  have hlen : text.length = p.length + 4 := by rw [ht, length_packetText]
  have hload : (List.range' 1 p.length).map (fun i => text.getD i 0) = p := by
    have h := Memory.load_store_self (fun _ => (0 : UInt8)) 1 p
    refine Eq.trans (List.map_congr_left fun i hi => ?_) h
    rw [List.mem_range'_1] at hi
    obtain ⟨k, rfl⟩ := Nat.exists_eq_add_of_le' hi.1
    rw [ht, Memory.store, if_pos (by omega), List.getD_cons_succ, Nat.add_sub_cancel,
      List.getD_eq_getElem?_getD, List.getD_eq_getElem?_getD, List.getElem?_append_left (by omega)]
  have hsum : (List.range' 1 (text.length - 4)).foldl (fun check i => check + text.getD i 0) (0 : UInt8) =
      p.sum := by
    rw [sum_loop, UInt8.zero_add, hlen, Nat.add_sub_cancel, hload]
  have hgiven : Hexa.scan (text.drop (text.length - 3 + 1)) = Hexa.value [a, b] := by
    have hdrop : text.drop (text.length - 3 + 1) = [a, b] := by
      rw [hlen, show p.length + 4 - 3 + 1 = p.length + 2 by omega, ht, List.drop_succ_cons,
        List.drop_append, List.drop_of_length_le (by omega)]
      simp
    rw [hdrop, Hexa.scan, List.takeWhile_cons_of_pos ha, List.takeWhile_cons_of_pos hb]
    rfl
  unfold gdbPacketCheck
  rw [hsum, hgiven]
  rfl

end ElfLinker
