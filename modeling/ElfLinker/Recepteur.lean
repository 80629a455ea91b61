import ElfLinker.Scanner

/-!
Runs of the receiver: calls of `gdb_send_buffer` and `gdb_get_packet` in any order on
one incoming stream. The run does what an abstract receiver does, which knows the
tokens of the stream, the last packet sent and nothing else.
-/

namespace ElfLinker

inductive Appel where
  | sendBuffer (payload : List UInt8)
  | getPacket
  deriving DecidableEq

/-- A payload stored at `gdb->buffer` and handed to `gdb_send_buffer`. -/
def envoyer (s : Session) (payload : List UInt8) : Session :=
  gdbSendBuffer ((s.packetStore 1 payload).setLen payload.length)

/-- The calls in order, with what each `gdb_get_packet` returned and left. -/
def executer : List Appel → Session → List (Int × Session) × Session
  | [], s => ([], s)
  | .sendBuffer payload :: appels, s => executer appels (envoyer s payload)
  | .getPacket :: appels, s =>
    let r := gdbGetPacket s
    let fin := executer appels r.2
    (r :: fin.1, fin.2)

/-- The bytes an abstract receiver writes: frames for what it sends, and for each call
the answer to the stretch of the stream up to the next good packet. -/
def attendus (envoye : List UInt8) : List Appel → List Jeton → List UInt8
  | [], _ => []
  | .sendBuffer payload :: appels, js => trame payload ++ attendus (trame payload) appels js
  | .getPacket :: appels, js =>
    reponse envoye 0 (coupeBon js).1 ++ attendus envoye appels (coupeBon js).2

/-! ## Sending -/

theorem envoyer_payload (s : Session) (p : List UInt8) :
    ((s.packetStore 1 p).setLen p.length).payload = p := Memory.load_store_self s.gdb.packet 1 p

theorem envoyer_envoye (s : Session) (p : List UInt8) : (envoyer s p).envoye = trame p := by
  rw [envoyer, gdbSendBuffer_envoye, envoyer_payload]

theorem envoyer_log (s : Session) (p : List UInt8) :
    (envoyer s p).log = s.log ++ (.packetStore 1 p :: envoi p) := by
  rw [envoyer, gdbSendBuffer_log, envoyer_payload]
  exact List.append_assoc s.log [.packetStore 1 p] (envoi p)

theorem written_envoi (p : List UInt8) : written (envoi p) = trame p := List.append_nil (trame p)

theorem borne_envoi (p : List UInt8) : ∀ e ∈ envoi p, e.Borne := by
  simp [envoi, Evenement.Borne]

/-! ## Runs -/

theorem coupeBon_append (js : List Jeton) : (coupeBon js).1 ++ (coupeBon js).2 = js := by
  induction js with
  | nil => rfl
  | cons j js ih =>
    unfold coupeBon
    split
    · rfl
    · exact congrArg (j :: ·) ih

theorem Filtrees.coupeBon {js : List Jeton} (h : Filtrees js) : Filtrees (coupeBon js).2 := by
  intro w hw
  refine h w ?_
  rw [← coupeBon_append js]
  exact List.mem_append_right _ hw

/-- flex hands a token to the packet rule only when the rule matches it. -/
theorem filtrees_jetons (flux : List UInt8) : Filtrees (jetons flux) := by
  intro w hw
  obtain ⟨r, hr, hact, hm⟩ := Lexer.exists_rule_of_firstMatch (Lexer.firstMatch_of_mem_tokens hw)
  simp only [regles, List.mem_cons, List.not_mem_nil, or_false] at hr
  rcases hr with rfl | rfl | rfl | rfl
  · cases hact
  · cases hact
  · exact hm
  · cases hact

/-- What the `k`-th call of `gdb_get_packet` returns when the stream holds the good
packets `js`. -/
structure Rendu (js : List Jeton) (k : Nat) (r : Int × Session) : Prop where
  len : r.2.data.len = 0
  reste : bons r.2.flux = js.drop (k + 1)
  packet : ∀ j, js[k]? = some j →
    r.1 = packetCode ∧ r.2.gdb.answer = j.2 ∧ r.2.gdb.answerLen = j.2.length
  fin : js.length ≤ k → r.1 = eof

theorem executer_rendus (appels : List Appel) {s : Session} (hlen : s.data.len = 0)
    (hf : Filtrees s.flux) : (executer appels s).1.length = appels.count .getPacket ∧
      ∀ k r, (executer appels s).1[k]? = some r → Rendu (bons s.flux) k r := by
  induction appels generalizing s with
  | nil => exact ⟨rfl, fun k r hr => by simp [executer] at hr⟩
  | cons appel appels ih =>
    cases appel with
    | sendBuffer payload =>
      obtain ⟨hcount, hret⟩ := ih (s := envoyer s payload) hlen hf
      refine ⟨?_, hret⟩
      rw [List.count_cons_of_ne (by simp)]
      exact hcount
    | getPacket =>
      have hlu : Lu s 0 s.flux (gdbGetPacket s) := yylexLoop_lu hf hlen
      obtain ⟨hhead, hrest⟩ := bons_coupeBon s.flux
      rw [← hlu.flux] at hrest
      obtain ⟨hcount, hret⟩ := ih hlu.len (by rw [hlu.flux]; exact hf.coupeBon)
      refine ⟨?_, fun k r hr => ?_⟩
      · simp only [executer, List.length_cons, hcount, List.count_cons_self]
      · cases k with
        | zero =>
          obtain rfl := Option.some.inj hr
          refine ⟨hlu.len, hrest, hlu.packet, fun h => hlu.fin ?_⟩
          exact List.length_eq_zero_iff.mp (Nat.le_zero.mp h)
        | succ k =>
          have h := hret k r hr
          rw [hrest] at h
          refine ⟨h.len, ?_, fun j hj => h.packet j ?_, fun hk => h.fin ?_⟩
          · rw [h.reste, List.drop_drop, Nat.add_comm]
          · rw [List.getElem?_drop, Nat.add_comm]
            exact hj
          · rw [List.length_drop]
            omega

theorem executer_log (appels : List Appel) {s : Session} (hlen : s.data.len = 0)
    (hf : Filtrees s.flux) : ∃ evs, (executer appels s).2.log = s.log ++ evs ∧
      written evs = attendus s.envoye appels s.flux ∧ ∀ e ∈ evs, e.Borne := by
  induction appels generalizing s with
  | nil => exact ⟨[], (List.append_nil _).symm, rfl, by simp⟩
  | cons appel appels ih =>
    cases appel with
    | sendBuffer payload =>
      obtain ⟨evs, hlog, hw, hb⟩ := ih (s := envoyer s payload) hlen hf
      refine ⟨.packetStore 1 payload :: envoi payload ++ evs, ?_, ?_, ?_⟩
      · rw [executer, hlog, envoyer_log, List.append_assoc]
      · rw [envoyer_envoye] at hw
        rw [attendus, written_append, hw]
        exact congrArg (· ++ attendus (trame payload) appels s.flux) (written_envoi payload)
      · intro e he
        rw [List.mem_append, List.mem_cons] at he
        rcases he with (rfl | he) | he
        · trivial
        · exact borne_envoi payload e he
        · exact hb e he
    | getPacket =>
      have hlu : Lu s 0 s.flux (gdbGetPacket s) := yylexLoop_lu hf hlen
      obtain ⟨_, ⟨evs, hlog, rfl, hb⟩, hrep⟩ := hlu.octets
      obtain ⟨evs', hlog', hw', hb'⟩ := ih hlu.len (by rw [hlu.flux]; exact hf.coupeBon)
      refine ⟨evs ++ evs', ?_, ?_, ?_⟩
      · rw [executer, hlog', hlog, List.append_assoc]
      · rw [attendus, ← hrep, written_append, hw', hlu.flux,
          (yylexLoop_recoit s.flux s).envoye_eq.symm]
        rfl
      · intro e he
        rw [List.mem_append] at he
        cases he with
        | inl h => exact hb e h
        | inr h => exact hb' e h

/-- On every stream and for every sequence of calls: the stores into `data->buffer` and
the values of `data->len` are in bounds, the calls return the good packets of the stream
in order and then the end of the stream, the bytes written are those of the abstract
receiver, and the scanner leaves the stored packet alone. -/
theorem executer_recepteur (packet buffer : Memory UInt8) (answer : List UInt8) (answerLen : Nat)
    (flux : List UInt8) (appels : List Appel) :
    (∀ e ∈ (executer appels (connexion packet buffer answer answerLen flux)).2.log, e.Borne) ∧
      (executer appels (connexion packet buffer answer answerLen flux)).1.length =
        appels.count .getPacket ∧
      (∀ k r, (executer appels (connexion packet buffer answer answerLen flux)).1[k]? = some r →
        Rendu (bons (jetons flux)) k r) ∧
      written (executer appels (connexion packet buffer answer answerLen flux)).2.log =
        attendus [] appels (jetons flux) ∧
      ∀ s, (gdbGetPacket s).2.gdb.packet = s.gdb.packet ∧ (gdbGetPacket s).2.gdb.len = s.gdb.len := by
  have hf := filtrees_jetons flux
  obtain ⟨evs, hlog, hw, hb⟩ :=
    executer_log appels (s := connexion packet buffer answer answerLen flux) rfl hf
  obtain ⟨hcount, hret⟩ :=
    executer_rendus appels (s := connexion packet buffer answer answerLen flux) rfl hf
  have hevs : (executer appels (connexion packet buffer answer answerLen flux)).2.log = evs := hlog
  exact ⟨by rwa [hevs], hcount, hret, by rw [hevs]; exact hw, fun s =>
    ⟨(yylexLoop_recoit s.flux s).packet, (yylexLoop_recoit s.flux s).len⟩⟩

end ElfLinker
