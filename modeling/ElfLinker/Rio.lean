import ElfLinker.Simulateur

/-!
The writes of `csapp.c` to the connection. `rio_writen` calls `write` until the kernel
has taken every byte, and `Rio_writen` ends the program when that fails. Whatever the
kernel answers, the bytes that got out are the first of those that were to go, and a
packet that did not get out whole orders nothing.
-/

namespace ElfLinker

/-! ## rio_writen -/

def eintr : Nat := 4

/-- What the kernel answers to a call of `write`: how much it took, or -1 and `errno`. -/
inductive Reponse where
  | pris (n : Nat)
  | echec (errno : Nat)
  deriving DecidableEq

/-- What a call of `rio_writen` meets: `errno` as it is, and the answers to come. -/
structure Noyau where
  errno : Nat
  reponses : List Reponse

/-- The call returned `n`, it returned -1, or the kernel has not answered yet. -/
inductive Issue where
  | rendu
  | echec
  | attente
  deriving DecidableEq

/-- The bytes that the kernel took, and how the call ended. -/
structure Transfert where
  fil : List UInt8
  issue : Issue
  deriving DecidableEq

/-- The loop of `rio_writen`, with the bytes from `bufp` on left to write. -/
def boucleWriten : List Reponse → Nat → List UInt8 → Transfert
  | [], _, bufp => ⟨[], if bufp = [] then .rendu else .attente⟩
  | reponse :: reponses, errno, bufp =>
    if bufp = [] then ⟨[], .rendu⟩
    else
      match reponse with
      | .pris n =>
        let nwritten := min n bufp.length
        if nwritten = 0 then
          -- no failure for the kernel, so `errno` is that of an earlier call
          if errno = eintr then boucleWriten reponses errno bufp else ⟨[], .echec⟩
        else
          let t := boucleWriten reponses errno (bufp.drop nwritten)
          { t with fil := bufp.take nwritten ++ t.fil }
      | .echec errno => if errno = eintr then boucleWriten reponses errno bufp else ⟨[], .echec⟩

def rioWriten (noyau : Noyau) (usrbuf : List UInt8) : Transfert :=
  boucleWriten noyau.reponses noyau.errno usrbuf

/-- Calls of `Rio_writen` one after the other: `unix_error` ends the program at the
first that fails. -/
def rioWritens : List Noyau → List (List UInt8) → Transfert
  | _, [] => ⟨[], .rendu⟩
  | [], _ :: _ => ⟨[], .attente⟩
  | noyau :: noyaux, usrbuf :: ws =>
    let t := rioWriten noyau usrbuf
    if t.issue = .rendu then
      let t' := rioWritens noyaux ws
      { t' with fil := t.fil ++ t'.fil }
    else t

/-- `reste` is what did not get out of the bytes from `bufp` on. -/
structure NonEcrit (bufp : List UInt8) (t : Transfert) (reste : List UInt8) : Prop where
  split : bufp = t.fil ++ reste
  rendu : t.issue = .rendu ↔ reste = []

theorem boucleWriten_nonEcrit (reponses : List Reponse) (errno : Nat) (bufp : List UInt8) :
    ∃ reste, NonEcrit bufp (boucleWriten reponses errno bufp) reste := by
  induction reponses generalizing errno bufp with
  | nil =>
    refine ⟨bufp, rfl, ?_⟩
    unfold boucleWriten
    by_cases hb : bufp = []
    · exact iff_of_true (if_pos hb) hb
    · refine iff_of_false ?_ hb
      rw [if_neg hb]
      decide
  | cons reponse reponses ih =>
    unfold boucleWriten
    by_cases hb : bufp = []
    · rw [if_pos hb]
      exact ⟨[], by rw [hb]; rfl, iff_of_true rfl rfl⟩
    · rw [if_neg hb]
      have hstop : NonEcrit bufp ⟨[], .echec⟩ bufp := ⟨rfl, iff_of_false (by decide) hb⟩
      cases reponse with
      | echec errno =>
        dsimp only
        split
        · exact ih errno bufp
        · exact ⟨bufp, hstop⟩
      | pris n =>
        dsimp only
        split
        · split
          · exact ih errno bufp
          · exact ⟨bufp, hstop⟩
        · obtain ⟨reste, hsplit, hrendu⟩ := ih errno (bufp.drop (min n bufp.length))
          refine ⟨reste, ?_, hrendu⟩
          rw [List.append_assoc, ← hsplit, List.take_append_drop]

theorem rioWritens_nonEcrit (noyaux : List Noyau) (ws : List (List UInt8)) :
    ∃ reste, ws.flatten = (rioWritens noyaux ws).fil ++ reste ∧
      ((rioWritens noyaux ws).issue = .rendu → reste = []) := by
  induction ws generalizing noyaux with
  | nil => exact ⟨[], by cases noyaux <;> rfl, fun _ => rfl⟩
  | cons w ws ih =>
    cases noyaux with
    | nil => exact ⟨(w :: ws).flatten, rfl, fun h => absurd h (by rw [rioWritens]; decide)⟩
    | cons noyau noyaux =>
      obtain ⟨r, hw, hr⟩ := boucleWriten_nonEcrit noyau.reponses noyau.errno w
      rw [rioWritens, List.flatten_cons]
      dsimp only
      split
      next hrendu =>
        obtain ⟨reste, hsplit, hreste⟩ := ih noyaux
        refine ⟨reste, ?_, hreste⟩
        rw [hsplit, List.append_assoc, ← List.append_assoc, ← List.append_assoc]
        refine congrArg (· ++ _ ++ reste) (hw.trans ?_)
        rw [hr.mp hrendu, List.append_nil]
        rfl
      next hrendu =>
        refine ⟨r ++ ws.flatten, ?_, fun h => absurd h hrendu⟩
        rw [← List.append_assoc]
        exact congrArg (· ++ ws.flatten) hw

/-- An answer that is no failure: some bytes taken, or a signal. -/
def Reponse.Avance : Reponse → Prop
  | .pris n => 0 < n
  | .echec errno => errno = eintr

/-- A stream cut short ends in a word, or between two. -/
theorem prefix_flatten {ws : List (List UInt8)} {u : List UInt8} (h : u <+: ws.flatten) : ∃ k v,
    u = (ws.take k).flatten ++ v ∧ (v = [] ∨ ∃ w ∈ ws, v <+: w ∧ v.length < w.length) := by
  induction ws generalizing u with
  | nil => exact ⟨0, [], List.prefix_nil.mp h, Or.inl rfl⟩
  | cons w ws ih =>
    rw [List.flatten_cons] at h
    rcases List.prefix_or_prefix_of_prefix h (List.prefix_append w ws.flatten) with hin | ⟨u', rfl⟩
    · rcases Nat.lt_or_ge u.length w.length with hlt | hge
      · exact ⟨0, u, rfl, Or.inr ⟨w, List.mem_cons_self, hin, hlt⟩⟩
      · refine ⟨1, [], ?_, Or.inl rfl⟩
        rw [hin.eq_of_length_le hge, List.append_nil, List.take_succ_cons, List.take_zero, List.flatten_singleton]
    · obtain ⟨k, v, rfl, hv⟩ := ih ((List.prefix_append_right_inj w).mp h)
      refine ⟨k + 1, v, ?_, ?_⟩
      · rw [List.take_succ_cons, List.flatten_cons, List.append_assoc]
      · exact hv.imp id fun ⟨w', hw', hpre⟩ => ⟨w', List.mem_cons_of_mem w hw', hpre⟩

/-- The first payloads are those of the first commands: none has more than one. -/
theorem take_charges (simulateur : Bool) (commandes : List Commande) (n : Nat) : ∃ m,
    (commandes.flatMap (charges simulateur)).take n = (commandes.take m).flatMap (charges simulateur) := by
  induction commandes generalizing n with
  | nil => exact ⟨0, List.take_nil⟩
  | cons commande commandes ih =>
    cases n with
    | zero => exact ⟨0, rfl⟩
    | succ n =>
      have hle : (charges simulateur commande).length ≤ 1 := by
        cases commande with
        | writeMemory address buffer =>
          rw [charges]
          split
          · exact Nat.zero_le 1
          · exact Nat.le_refl 1
        | _ => exact Nat.le_refl 1
      obtain ⟨m, hm⟩ := ih (n + 1 - (charges simulateur commande).length)
      refine ⟨m + 1, ?_⟩
      rw [List.flatMap_cons, List.take_append, List.take_of_length_le (by omega), hm, List.take_succ_cons,
        List.flatMap_cons]

/-! ## A run whose connection fails -/

/-- The writes of a run, in order. -/
def ecrits (log : List Evenement) : List (List UInt8) :=
  log.filterMap fun
    | .writen bytes => some bytes
    | _ => none

theorem flatten_ecrits (log : List Evenement) : (ecrits log).flatten = written log := by
  induction log with
  | nil => rfl
  | cons e log ih =>
    cases e with
    | writen bytes => exact congrArg (bytes ++ ·) ih
    | _ => exact ih

section

variable {σ : Type} {m : Simulateur σ} {simulateur : Bool} {commandes : List Commande}
  {blocs : List (List (List UInt8))}

/-- The start of a word orders nothing. -/
theorem Simulateur.Conforme.recoit_debut (hm : m.Conforme simulateur) {w v : List UInt8} (hw : Mot w)
    (hv : v <+: w) (hlen : v.length < w.length) (c : σ) : m.recoit c v = c := by
  have hcourt : ∀ d : UInt8, w = [d] → m.recoit c v = c := by
    rintro d rfl
    have hnil : v = [] := List.length_eq_zero_iff.mp (Nat.lt_one_iff.mp hlen)
    rw [hnil, hm.rien]
  rcases hw with h | h | ⟨p, hp, rfl⟩
  · exact hcourt _ h
  · exact hcourt _ h
  · exact hm.debut c p v hp hv hlen

theorem arrives_refl {ps : List (List UInt8)} (h : List.Forall₂ BlocDe ps blocs) :
    List.Forall₂ Arrive blocs blocs := by
  induction h with
  | nil => exact .nil
  | cons _ _ ih => exact .cons (arrive_refl _) ih

/-- The words of a run that are all out leave what the commands ask for. -/
theorem Simulateur.Conforme.recoit_blocs (hm : m.Conforme simulateur)
    (hcommandes : ∀ commande ∈ commandes, commande.Court ∧ commande.EstEcriture)
    (hmots : ∀ w ∈ blocs.flatten, Mot w)
    (hblocs : List.Forall₂ BlocDe (commandes.flatMap (charges simulateur)) blocs) (c : σ) :
    m.recoit c blocs.flatten.flatten = commandes.foldl m.demande c := by
  rw [hm.flatten hmots,
    Delivery.foldl_delivered (hm.delivers_all hblocs (arrives_refl hblocs)) (hm.recoit_recoit hcommandes),
    hm.foldl_charges hcommandes]

/-- Wherever the words stop, they leave what the first commands ask for. -/
theorem Simulateur.Conforme.recoit_prefixe (hm : m.Conforme simulateur)
    (hcommandes : ∀ commande ∈ commandes, commande.Court ∧ commande.EstEcriture)
    (hblocs : List.Forall₂ BlocDe (commandes.flatMap (charges simulateur)) blocs) {ws : List (List UInt8)}
    (hws : ws <+: blocs.flatten) :
    ∃ n, ∀ c, ws.foldl m.recoit c = (commandes.take n).foldl m.demande c := by
  obtain ⟨k, hk⟩ := Delivery.foldl_prefix (hm.delivers_all hblocs (arrives_refl hblocs))
    (hm.recoit_recoit hcommandes) hws
  obtain ⟨n, hn⟩ := take_charges simulateur commandes k
  refine ⟨n, fun c => ?_⟩
  rw [hk, ← List.map_take, hn]
  exact hm.foldl_charges (fun commande hmem => hcommandes commande (List.mem_of_mem_take hmem)) c

end

/-- Wherever the connection fails, in the middle of a packet or between two, the program
has written the start of what it would have written, and a simulator is left as the first
commands leave it, each done in full. -/
theorem ecritures_panne (host simulateur : Bool) (packet buffer : Memory UInt8) (answer : List UInt8)
    (answerLen : Nat) (flux : List UInt8) {commandes : List Commande}
    (hcommandes : ∀ commande ∈ commandes, commande.Court ∧ commande.EstEcriture) {σ : Type} {m : Simulateur σ}
    (hm : m.Conforme simulateur) : ∃ fin,
      (∀ fuel, (∀ commande ∈ commandes, commande.tours < fuel) → lancerTout host simulateur fuel
        (connexion packet buffer answer answerLen flux) commandes = some fin) ∧
      ∀ noyaux, (rioWritens noyaux (ecrits fin.log)).fil <+: written fin.log ∧
        ∃ n, ((rioWritens noyaux (ecrits fin.log)).issue = .rendu → commandes.length ≤ n) ∧
          ∀ c, m.recoit c (rioWritens noyaux (ecrits fin.log)).fil = (commandes.take n).foldl m.demande c := by
  obtain ⟨fin, blocs, hrun, hw, hmots, hblocs⟩ := lancerTout_blocs host simulateur packet buffer answer answerLen
    flux fun commande hmem => (hcommandes commande hmem).1
  refine ⟨fin, hrun, fun noyaux => ?_⟩
  obtain ⟨reste, hsplit, hrendu⟩ := rioWritens_nonEcrit noyaux (ecrits fin.log)
  rw [flatten_ecrits] at hsplit
  generalize rioWritens noyaux (ecrits fin.log) = t at hsplit hrendu ⊢
  have hpre : t.fil <+: written fin.log := ⟨reste, hsplit.symm⟩
  refine ⟨hpre, ?_⟩
  rw [hw] at hsplit hpre
  by_cases hfini : t.issue = .rendu
  · -- all the words are out
    rw [hrendu hfini, List.append_nil] at hsplit
    refine ⟨commandes.length, fun _ => Nat.le_refl _, fun c => ?_⟩
    rw [← hsplit, List.take_length]
    exact hm.recoit_blocs hcommandes hmots hblocs c
  · obtain ⟨k, v, hfil, hv⟩ := prefix_flatten hpre
    obtain ⟨n, hn⟩ := hm.recoit_prefixe hcommandes hblocs (List.take_prefix k blocs.flatten)
    refine ⟨n, fun h => absurd h hfini, fun c => ?_⟩
    rw [hfil, hm.mots (fun w hmem => hmots w (List.mem_of_mem_take hmem)), hn]
    rcases hv with rfl | ⟨w, hmem, hvw, hlen⟩
    · exact hm.rien _
    · exact hm.recoit_debut (hmots w hmem) hvw hlen _

theorem ecritures_panne_sampleRun : ∃ fin,
    (∀ fuel, (∀ commande ∈ sampleRun false, commande.tours < fuel) → lancerTout false true fuel
      (connexion (fun _ => 0) (fun _ => 0) [] 0 [minus]) (sampleRun false) = some fin) ∧
    ∀ noyaux, (rioWritens noyaux (ecrits fin.log)).fil <+: written fin.log ∧
      ∃ n, ((rioWritens noyaux (ecrits fin.log)).issue = .rendu → (sampleRun false).length ≤ n) ∧
        ∀ c, (simulateurExemple true).recoit c (rioWritens noyaux (ecrits fin.log)).fil =
          ((sampleRun false).take n).foldl (simulateurExemple true).demande c :=
  ecritures_panne false true _ _ _ _ _ sampleRun_ecritures (simulateurExemple_conforme true)

/-! ## A run that a slow kernel does not stop -/

end ElfLinker
