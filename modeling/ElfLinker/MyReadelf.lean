import ElfLinker.Tableaux
import ElfLinker.Affichage
import ElfLinker.Rechargement

/-!
The whole of `my_readelf`: the options, the files they name, what is printed and what is
written. A run with `-R` changes the files that `-R` names and no other, prints what the
same run without `-R` prints, and leaves a file that the program lists as linked.
-/

namespace ElfLinker

open HexDump Columns

/-! ## getopt -/

abbrev Argument := List UInt8

/-- An option as `getopt` returns it; `inconnue` is `?`, with what `getopt` prints of it
after the name of the program. -/
inductive Opt where
  | h
  | S
  | x (optarg : Argument)
  | s
  | r
  | R (optarg : Argument)
  | inconnue (message : List UInt8)
  deriving DecidableEq

/-- `"hSx:srR:"`: an option, or one that waits for its argument. -/
def optstring (c : UInt8) : Option (Opt ⊕ (Argument → Opt)) :=
  [('h', .inl .h), ('S', .inl .S), ('x', .inr .x), ('s', .inl .s), ('r', .inl .r), ('R', .inr .R)].lookup
    (Char.ofNat c.toNat)

/-- `"%s: invalid option -- '%c'\n"`, and the same for an option without its argument. -/
def messageGetopt (debut : String) (c : UInt8) : List UInt8 := texte debut ++ texte " -- '" ++ [c] ++ texte "'\n"

/-- An option that waits for its argument. -/
abbrev Attente := UInt8 × (Argument → Opt)

/-- The letters of one argument. The rest of the letters is the argument of an option that
takes one; without a rest it is the next argument. -/
def lettres : List UInt8 → List Opt × Option Attente
  | [] => ([], none)
  | c :: cs =>
    match optstring c with
    | none => (.inconnue (messageGetopt "invalid option" c) :: (lettres cs).1, (lettres cs).2)
    | some (.inl opt) => (opt :: (lettres cs).1, (lettres cs).2)
    | some (.inr opt) => if cs = [] then ([], some (c, opt)) else ([opt cs], none)

/-- The options and, after them, the operands, which `getopt` moves to the end of `argv`. -/
def getopt : Option Attente → List Argument → List Opt × List Argument
  | none, [] => ([], [])
  | some (c, _), [] => ([.inconnue (messageGetopt "option requires an argument" c)], [])
  | some (_, opt), arg :: args => (opt arg :: (getopt none args).1, (getopt none args).2)
  | none, arg :: args =>
    if arg = cstr ['-', '-'] then ([], args)
    else if arg.head? = some Columns.minus ∧ 1 < arg.length then
      ((lettres arg.tail).1 ++ (getopt (lettres arg.tail).2 args).1, (getopt (lettres arg.tail).2 args).2)
    else ((getopt none args).1, arg :: (getopt none args).2)

/-! ## The options of main -/

/-- `isspace` and `isdigit`. -/
def estBlanc (c : UInt8) : Bool := c = 0x20 || (9 ≤ c && c ≤ 13)
def estChiffre (c : UInt8) : Bool := 0x30 ≤ c && c ≤ 0x39

/-- The sign at the start of a number, and the rest. -/
def signe : Argument → Bool × Argument
  | [] => (false, [])
  | c :: cs => if c = Columns.minus then (true, cs) else if c = 0x2b then (false, cs) else (false, c :: cs)

/-- `strtol` in base 10 with a `long` of 64 bits: the value, and what `endptr` points to. -/
def strtol (nptr : Argument) : Int × Argument :=
  let (negatif, suite) := signe (nptr.dropWhile estBlanc)
  let chiffres := suite.takeWhile estChiffre
  if chiffres = [] then (0, nptr)
  else
    let n : Int := if negatif then -value 10 chiffres else value 10 chiffres
    (max (-2 ^ 63) (min n (2 ^ 63 - 1)), suite.dropWhile estChiffre)

/-- The variables of `main` that the options set. `sectionName` goes with
`affiche_section_par_str`, `fichierDest`, the file that it is open on, with `applique_rel`. -/
structure Options where
  afficherHeader : Bool
  afficherShtable : Bool
  xOpt : Bool
  sectionIndex : Int
  sectionName : Option Argument
  afficherSymboles : Bool
  afficherReltab : Bool
  fichierDest : Option Nat
  deriving DecidableEq

def optionsInitiales : Options := ⟨false, false, false, -1, none, false, false, none⟩

/-- `-x`: a number that is not all of the argument makes a name of it. -/
def Options.choisir (o : Options) (optarg : Argument) : Options :=
  let (n, endptr) := strtol optarg
  let o := { o with xOpt := true, sectionIndex := n.bmod (2 ^ 32) }
  if endptr ≠ [] ∨ optarg = [] then { o with sectionName := some optarg } else o

/-! ## Files -/

/-- The name of the program, what the paths name, and what may be opened. -/
structure Systeme where
  programme : List UInt8
  noeud : Argument → Nat
  lisible : Nat → Bool
  inscriptible : Nat → Bool

/-- The files by their nodes; `none` where there is no file. -/
abbrev Disque := Nat → Option (List UInt8)

def Systeme.fopenLecture (sys : Systeme) (d : Disque) (nom : Argument) : Option (List UInt8) :=
  if sys.lisible (sys.noeud nom) then d (sys.noeud nom) else none

/-- `"wb"`: the file is created, or emptied. -/
def Systeme.fopenEcriture (sys : Systeme) (d : Disque) (nom : Argument) : Option Disque :=
  if sys.inscriptible (sys.noeud nom) then some (Function.update d (sys.noeud nom) (some [])) else none

/-- `main` returns, with what went to the standard output and to the standard error, or the
run ends in a failed `assert` or in `exit(1)`. -/
inductive Terminaison where
  | retour (code : Nat) (sortie erreurs : List UInt8)
  | echec

def help : List UInt8 :=
  texte "Usage: ./program <options> <fichier_elf>\n" ++
    texte "\nOptions:\n" ++
    texte "  -h        Affiche l'en-tête du fichier ELF\n" ++
    texte "  -S        Affiche la table des sections du fichier ELF\n" ++
    texte "  -x <i>    Affiche le contenu de la section spécifiée par l'index i\n" ++
    texte "  -s        Affiche la table de symbole du fichier ELF\n" ++
    texte "  -r        Affiche la table de relocation du fichier ELF\n" ++
    texte "  -R <dest> Copie dans dest fichier_elf en suupprimant les sections contenant des tables de réimplantations\n"

/-- The options that open no file. -/
def Options.noter (o : Options) : Opt → Options
  | .h => { o with afficherHeader := true }
  | .S => { o with afficherShtable := true }
  | .x optarg => o.choisir optarg
  | .s => { o with afficherSymboles := true }
  | .r => { o with afficherReltab := true }
  | _ => o

/-- The loop on `getopt`: it goes through the options, or ends the run. -/
def lireOptions (sys : Systeme) : List Opt → Options → Disque → (Terminaison ⊕ Options) × Disque
  | [], o, d => (.inr o, d)
  | .R optarg :: opts, o, d =>
    match sys.fopenEcriture d optarg with
    | none =>
      (.inl (.retour 1 [] (texte "Erreur durant l'ouverture du fichier " ++ optarg ++ texte " en écriture\n")), d)
    | some d => lireOptions sys opts { o with fichierDest := some (sys.noeud optarg) } d
  | .inconnue message :: _, _, d => (.inl (.retour 0 help (sys.programme ++ texte ": " ++ message)), d)
  | opt :: opts, o, d => lireOptions sys opts (o.noter opt) d

/-! ## main -/

/-- What `-x` prints. -/
def afficheSection (h : Heap) (f : List UInt8) (e : Elf32) (o : Options) : Option (List UInt8) :=
  let sectionIndex := (o.sectionName.map (getSectionIndex h e)).getD o.sectionIndex
  if sectionIndex < 0 ∨ (e.shnum : Int) ≤ sectionIndex then
    some (texte "readelf: Warning: Section " ++ o.sectionName.getD (signed sectionIndex) ++
      texte " was not dumped because it does not exist!.\n")
  else
    let sectionType := (shdrAt h e.shtable sectionIndex.toNat).shType
    if sectionType = 0 ∨ sectionType = shtNobits then some (texte "Section '' has no data to dump.\n")
    else afficheContenuSection h f e.shtable e.shStrtab sectionIndex.toNat

/-- What `read_strtab` prints of a table that ends past the end of the file. -/
def erreurStrtab (h : Heap) (f : List UInt8) (e : Elf32) (sectionName : List UInt8) : List UInt8 :=
  let s := if sectionName = dotShstrtab then shdrAt h e.shtable e.elfhdr.eShstrndx.toNat
    else shdrAtInt h e.shtable (getSectionIndex h e sectionName)
  if (contenu f s).length ≠ s.shSize.toNat then texte "Erreur (read_strtab) durant la lecture de strtab\n" else []

/-- `main` from `read_header` to `affiche_reltab`: the text, what goes to the standard error,
and `elfdata` unless the file is not ELF32. -/
def consulter (h : Heap) (apres : Apres) (host : Bool) (f : List UInt8) (o : Options) :
    Option (List UInt8 × List UInt8 × Option Elf32) := do
  let elfhdr ← readHeader host f
  if ident elfhdr eiClass ≠ elfclass32 then return (texte "Erreur, Pas ELF32 !\n", [], none)
  let header ← if o.afficherHeader then afficheHeader elfhdr else some []
  let shtable ← readShtable h host f elfhdr
  let e : Elf32 := ⟨elfhdr, shtable, [], ⟨[], 0⟩, [], [], 0⟩
  let e ← readStrtab h f e dotShstrtab
  let e ← readStrtab h f e dotStrtab
  let erreurs := erreurStrtab h f e dotShstrtab ++ erreurStrtab h f e dotStrtab
  let sections := if o.afficherShtable then afficheShtable h e.elfhdr e.shtable e.shStrtab else []
  let contenu ← if o.xOpt then afficheSection h f e o else some []
  let (symtable, symtabIndex) ← readSymtable h host f e.elfhdr e.shtable
  let e := { e with symtable := symtable, symtabIndex := symtabIndex }
  let symboles := if o.afficherSymboles then afficheSymtable h apres e else []
  let e ← readReltab h host f e
  let relocations := if o.afficherReltab then afficheReltab h apres e else []
  return (header ++ sections ++ contenu ++ symboles ++ relocations, erreurs, some e)

/-- What the default case of the switch prints. -/
def erreurRelocation (x : Relocation) : List UInt8 :=
  if x.supported then []
  else texte "Unsupported relocation type: 0x" ++ number 16 (elf32RType x.rel.rInfo).toNat ++ texte "\n"

/-- The end of `main`, where `-R` links; a run that returns has gone through every entry.
`perdu` is what is left of the destination when a failed `assert` ends the run before it is
closed. -/
def editer (h : Heap) (perdu : List UInt8 → List UInt8) (host : Bool) (fuel : Nat) (f : List UInt8) (e : Elf32)
    (o : Options) (sortie erreurs : List UInt8) (d : Disque) : Option (Terminaison × Disque) :=
  match o.fichierDest with
  | none => some (.retour 0 sortie erreurs, d)
  | some n =>
    (mainR h host f 0x20 0x2800 fuel e).map fun
      | .ok w =>
        (.retour 0 sortie (erreurs ++ (relocations h e).flatMap erreurRelocation), Function.update d n (some w.dest))
      | .error w => (.echec, Function.update d n (some (perdu w.dest)))

/-- `main` after the options. -/
def traiter (h : Heap) (apres : Apres) (perdu : List UInt8 → List UInt8) (host : Bool) (sys : Systeme)
    (fuel : Nat) (operandes : List Argument) (o : Options) (d : Disque) : Option (Terminaison × Disque) :=
  match operandes with
  | [] => some (.retour 1 help (texte "Erreur : Le fichier fourni n'est pas un fichier ELF\n"), d)
  | fichier :: _ =>
    match sys.fopenLecture d fichier with
    | none =>
      some (.retour 1 [] (texte "Erreur : Impossible d'ouvrir le fichier " ++ fichier ++ texte " en lecture\n"), d)
    | some f =>
      match consulter h apres host f o with
      | none => some (.echec, d)
      | some (sortie, erreurs, none) => some (.retour 1 sortie erreurs, d)
      | some (sortie, erreurs, some e) => editer h perdu host fuel f e o sortie erreurs d

/-- `argv` without the name of the program. -/
def main (h : Heap) (apres : Apres) (perdu : List UInt8 → List UInt8) (host : Bool) (sys : Systeme)
    (fuel : Nat) (argv : List Argument) (d : Disque) : Option (Terminaison × Disque) :=
  if argv.length < 2 then some (.retour 1 help [], d)
  else
    match lireOptions sys (getopt none argv).1 optionsInitiales d with
    | (.inl fin, d) => some (fin, d)
    | (.inr o, d) => traiter h apres perdu host sys fuel (getopt none argv).2 o d

/-! ## The files of a run -/

section

variable {sys : Systeme} {opts : List Opt} {o o' : Options} {d d' : Disque} {n : Nat}

theorem noter_fichierDest (o : Options) (opt : Opt) : (o.noter opt).fichierDest = o.fichierDest := by
  cases opt with
  | x optarg =>
    rw [Options.noter, Options.choisir]
    dsimp only
    split <;> rfl
  | _ => rfl

theorem fopenEcriture_eq {nom : Argument} (hnom : sys.inscriptible (sys.noeud nom) = true) :
    sys.fopenEcriture d nom = some (Function.update d (sys.noeud nom) (some [])) := if_pos hnom

theorem fopenEcriture_some {nom : Argument} {d₁ : Disque} (hopen : sys.fopenEcriture d nom = some d₁) :
    d₁ = Function.update d (sys.noeud nom) (some []) := by
  rw [Systeme.fopenEcriture] at hopen
  split at hopen
  · exact (Option.some.inj hopen).symm
  · cases hopen

/-- The options change no file but those of `-R`. -/
theorem lireOptions_autres (hn : ∀ optarg, Opt.R optarg ∈ opts → sys.noeud optarg ≠ n) :
    (lireOptions sys opts o d).2 n = d n := by
  induction opts generalizing o d with
  | nil => rfl
  | cons opt opts ih =>
    have hrest : ∀ optarg, Opt.R optarg ∈ opts → sys.noeud optarg ≠ n :=
      fun optarg hmem => hn optarg (List.mem_cons_of_mem _ hmem)
    cases opt with
    | R optarg =>
      have hne : n ≠ sys.noeud optarg := (hn optarg List.mem_cons_self).symm
      rw [lireOptions]
      split
      · rfl
      next d₁ hopen => rw [ih hrest, fopenEcriture_some hopen, Function.update_of_ne hne]
    | inconnue => rfl
    | _ => exact ih hrest

/-- The destination is a file of `-R`. -/
theorem lireOptions_dest (hlues : lireOptions sys opts o d = (.inr o', d')) (hdest : o'.fichierDest = some n) :
    o.fichierDest = some n ∨ ∃ optarg, Opt.R optarg ∈ opts ∧ sys.noeud optarg = n := by
  induction opts generalizing o d with
  | nil =>
    cases hlues
    exact Or.inl hdest
  | cons opt opts ih =>
    have hcons : (∃ optarg, Opt.R optarg ∈ opts ∧ sys.noeud optarg = n) →
        ∃ optarg, Opt.R optarg ∈ opt :: opts ∧ sys.noeud optarg = n :=
      fun ⟨optarg, hmem, hnode⟩ => ⟨optarg, List.mem_cons_of_mem _ hmem, hnode⟩
    cases opt with
    | R optarg =>
      rw [lireOptions] at hlues
      split at hlues
      · cases hlues
      · rcases ih hlues with hsame | hother
        · exact Or.inr ⟨optarg, List.mem_cons_self, Option.some.inj hsame⟩
        · exact Or.inr (hcons hother)
    | inconnue => cases hlues
    | _ =>
      change lireOptions sys opts (o.noter _) d = _ at hlues
      have hone := ih hlues
      rw [noter_fichierDest] at hone
      exact hone.imp id hcons

/-- A file that `-R` has emptied stays empty while the options are read. -/
theorem lireOptions_vide (hlues : lireOptions sys opts o d = (.inr o', d'))
    (hn : d n = some [] ∨ ∃ optarg, Opt.R optarg ∈ opts ∧ sys.noeud optarg = n) : d' n = some [] := by
  induction opts generalizing o d with
  | nil =>
    cases hlues
    exact hn.resolve_right fun ⟨_, hmem, _⟩ => absurd hmem List.not_mem_nil
  | cons opt opts ih =>
    cases opt with
    | R optarg =>
      rw [lireOptions] at hlues
      split at hlues
      · cases hlues
      next d₁ hopen =>
        rw [fopenEcriture_some hopen] at hlues
        refine ih hlues ?_
        by_cases hnode : n = sys.noeud optarg
        · exact Or.inl (by rw [hnode, Function.update_self])
        · rw [Function.update_of_ne hnode]
          refine hn.imp id fun ⟨optarg', hmem, hnode'⟩ => ⟨optarg', ?_, hnode'⟩
          rcases List.mem_cons.mp hmem with heq | hmem
          · cases heq
            exact absurd hnode'.symm hnode
          · exact hmem
    | inconnue => cases hlues
    | _ =>
      change lireOptions sys opts (o.noter _) d = _ at hlues
      refine ih hlues (hn.imp id fun ⟨optarg', hmem, hnode'⟩ => ⟨optarg', ?_, hnode'⟩)
      simpa using hmem

/-- Known options and files that open: the options are all read. -/
theorem lireOptions_lues (hconnues : ∀ message, Opt.inconnue message ∉ opts)
    (hinscriptibles : ∀ nom, Opt.R nom ∈ opts → sys.inscriptible (sys.noeud nom) = true) :
    ∃ o' d', lireOptions sys opts o d = (.inr o', d') := by
  induction opts generalizing o d with
  | nil => exact ⟨o, d, rfl⟩
  | cons opt opts ih =>
    have hsuite : ∀ message, Opt.inconnue message ∉ opts :=
      fun message hmem => hconnues message (List.mem_cons_of_mem _ hmem)
    have hrest : ∀ nom, Opt.R nom ∈ opts → sys.inscriptible (sys.noeud nom) = true :=
      fun nom hmem => hinscriptibles nom (List.mem_cons_of_mem _ hmem)
    cases opt with
    | R optarg =>
      rw [lireOptions, fopenEcriture_eq (hinscriptibles optarg List.mem_cons_self)]
      exact ih hsuite hrest
    | inconnue message => exact absurd List.mem_cons_self (hconnues message)
    | _ => exact ih hsuite hrest

end

section

variable {h : Heap} {apres : Apres} {perdu : List UInt8 → List UInt8} {host : Bool} {sys : Systeme}
  {fuel : Nat} {argv operandes : List Argument} {o : Options} {d d' : Disque} {fin : Terminaison} {n : Nat}

/-- After the options only the destination changes. -/
theorem traiter_autres (hrun : traiter h apres perdu host sys fuel operandes o d = some (fin, d'))
    (hn : o.fichierDest ≠ some n) : d' n = d n := by
  unfold traiter at hrun
  split at hrun
  · cases hrun
    rfl
  split at hrun
  · cases hrun
    rfl
  split at hrun
  · cases hrun
    rfl
  · cases hrun
    rfl
  · unfold editer at hrun
    split at hrun
    · cases hrun
      rfl
    next m hdest =>
      have hne : n ≠ m := fun hc => hn (hc ▸ hdest)
      obtain ⟨issue, _, hissue⟩ := Option.map_eq_some_iff.mp hrun
      cases issue with
      | ok w =>
        cases hissue
        exact Function.update_of_ne hne _ _
      | error w =>
        cases hissue
        exact Function.update_of_ne hne _ _

/-- How a run goes on after the options, or ends with them. -/
theorem main_cases (hlong : 2 ≤ argv.length) : main h apres perdu host sys fuel argv d =
    match lireOptions sys (getopt none argv).1 optionsInitiales d with
    | (.inl fin, d) => some (fin, d)
    | (.inr o, d) => traiter h apres perdu host sys fuel (getopt none argv).2 o d :=
  if_neg (Nat.not_lt.mpr hlong)

end

/-! ## A run on a file that loads -/

section

variable {h : Heap} {apres : Apres} {perdu : List UInt8 → List UInt8} {host : Bool} {sys : Systeme}
  {fuel : Nat} {f : List UInt8} {e : Elf32} {o : Options}

/-- The tables that the options ask for, without `-h` and `-x`. -/
def listage (h : Heap) (apres : Apres) (e : Elf32) (o : Options) : List UInt8 :=
  (if o.afficherShtable then afficheShtable h e.elfhdr e.shtable e.shStrtab else []) ++
    (if o.afficherSymboles then afficheSymtable h apres e else []) ++
    (if o.afficherReltab then afficheReltab h apres e else [])

/-- The messages of the two calls of `read_strtab`. -/
def erreursStrtab (h : Heap) (f : List UInt8) (e : Elf32) : List UInt8 :=
  erreurStrtab h f e dotShstrtab ++ erreurStrtab h f e dotStrtab

theorem readReltab_chargee (hc : Chargee h host f e) :
    readReltab h host f { e with reltab := ⟨[], 0⟩ } = some e := by
  have hall : (List.range e.shnum).all (complete h f { e with reltab := ⟨[], 0⟩ }) = true :=
    List.all_eq_true.mpr fun i hi => hc.tables i (List.mem_range.mp hi)
  rw [readReltab_eq]
  refine (if_pos hall).trans (congrArg some ?_)
  change { e with reltab := ⟨entrees h host f e, (entrees h host f e).length⟩ } = e
  rw [← hc.reltab]

theorem consulter_chargee (hc : Chargee h host f e) (hheader : o.afficherHeader = false) (hx : o.xOpt = false) :
    consulter h apres host f o = some (listage h apres e o, erreursStrtab h f e, some e) := by
  have hne : dotStrtab ≠ dotShstrtab := by decide
  have hnoms : Patch.readAt f (shdrAt h e.shtable e.elfhdr.eShstrndx.toNat).shOffset.toNat
      (shdrAt h e.shtable e.elfhdr.eShstrndx.toNat).shSize.toNat = e.shStrtab := hc.shStrtab.symm
  have hindex : getSectionIndex h ⟨e.elfhdr, e.shtable, [], ⟨[], 0⟩, e.shStrtab, [], 0⟩ dotStrtab =
      getSectionIndex h e dotStrtab := rfl
  have hchaines : Patch.readAt f (shdrAtInt h e.shtable (getSectionIndex h e dotStrtab)).shOffset.toNat
      (shdrAtInt h e.shtable (getSectionIndex h e dotStrtab)).shSize.toNat = e.symStrtab := hc.symStrtab.symm
  have hclasse : ident e.elfhdr eiClass = elfclass32 := (ident_eiClass e.elfhdr).trans hc.classe
  have hreltab := readReltab_chargee hc
  simp only [consulter, readStrtab, if_true, if_neg hne, Option.bind_eq_bind, Option.bind_some,
    hc.header, ne_eq, hclasse, not_true_eq_false, if_false, hheader, hx, Bool.false_eq_true, hc.shtable, hnoms,
    hc.symtable, Option.pure_def, hindex, hchaines]
  change (readReltab h host f { e with reltab := ⟨[], 0⟩ }).bind _ = _
  rw [hreltab, Option.bind_some, List.nil_append, List.append_nil]
  rfl

/-- Such a run goes on to the end of `main`. -/
theorem main_chargee (hc : Chargee h host f e) {argv suite : List Argument} {opts : List Opt} {fichier : Argument}
    {d d₁ : Disque} (hlong : 2 ≤ argv.length) (hargv : getopt none argv = (opts, fichier :: suite))
    (hlues : lireOptions sys opts optionsInitiales d = (.inr o, d₁)) (hopen : sys.fopenLecture d₁ fichier = some f)
    (hheader : o.afficherHeader = false) (hx : o.xOpt = false) :
    main h apres perdu host sys fuel argv d =
      editer h perdu host fuel f e o (listage h apres e o) (erreursStrtab h f e) d₁ := by
  rw [main_cases hlong, hargv, hlues]
  simp only [traiter, hopen, consulter_chargee hc hheader hx]

end

/-! ## What a run changes -/

/-- Whatever the command line and however the run ends, it changes no file but those that
its options `-R` name. -/
theorem main_cadre (h : Heap) (apres : Apres) (perdu : List UInt8 → List UInt8) (host : Bool)
    (sys : Systeme) {fuel : Nat} {argv : List Argument} {d d' : Disque} {fin : Terminaison} {n : Nat}
    (hrun : main h apres perdu host sys fuel argv d = some (fin, d'))
    (hn : ∀ optarg, Opt.R optarg ∈ (getopt none argv).1 → sys.noeud optarg ≠ n) : d' n = d n := by
  rcases Nat.lt_or_ge argv.length 2 with hcourt | hlong
  · rw [main, if_pos hcourt] at hrun
    cases hrun
    rfl
  have hautres : (lireOptions sys (getopt none argv).1 optionsInitiales d).2 n = d n := lireOptions_autres hn
  rw [main_cases hlong] at hrun
  cases hlues : lireOptions sys (getopt none argv).1 optionsInitiales d with
  | mk issue d₁ =>
    rw [hlues] at hrun hautres
    cases issue with
    | inl fin =>
      cases hrun
      exact hautres
    | inr o =>
      refine (traiter_autres hrun fun hdest => ?_).trans hautres
      rcases lireOptions_dest hlues hdest with hinit | ⟨optarg, hmem, hnode⟩
      · cases hinit
      · exact hn optarg hmem hnode

/-! The file `a` is the small object file, and there is no file `b` yet. -/

def systemeExemple : Systeme where
  programme := cstr ['m', 'y', '_', 'r', 'e', 'a', 'd', 'e', 'l', 'f']
  noeud nom := if nom = cstr ['b'] then 1 else 0
  lisible _ := true
  inscriptible _ := true

def disqueExemple : Disque := fun n => if n = 0 then some (exempleImage 0x102) else none

/-- The sections listed, and the file linked into `b`. -/
theorem main_exemple : ∃ w', main tasNul apresNul id false systemeExemple 8
    [cstr ['-', 'S', 'R', 'b'], cstr ['a']] disqueExemple =
      some (.retour 0 (afficheShtable tasNul (exemple 0x102).elfhdr (exemple 0x102).shtable exempleShstrtab) [],
        Function.update disqueExemple 1 (some w')) := by
  have hload : mainLecture tasNul false (exempleImage 0x102) = some (exemple 0x102) := by
    decide +kernel
  obtain ⟨w', hrun, _, _, _, _⟩ := mainR_fin tasNul false 0x20 0x2800 (by decide +kernel) hload
    exemple_relogeable (by decide +kernel)
  have hargv : getopt none [cstr ['-', 'S', 'R', 'b'], cstr ['a']] =
      ([.S, .R (cstr ['b'])], [cstr ['a']]) := by decide
  have herreurs : erreursStrtab tasNul (exempleImage 0x102) (exemple 0x102) = [] ∧
      (relocations tasNul (exemple 0x102)).flatMap erreurRelocation = [] := by decide +kernel
  let o : Options := { optionsInitiales with afficherShtable := true, fichierDest := some 1 }
  have hlues : lireOptions systemeExemple [.S, .R (cstr ['b'])] optionsInitiales disqueExemple =
      (.inr o, Function.update disqueExemple 1 (some [])) := rfl
  refine ⟨w'.dest, ?_⟩
  rw [main_chargee (mainLecture_eq_some_iff.mp hload) (by decide) hargv hlues rfl rfl rfl]
  simp only [editer, o, hrun 8 (by decide), Option.map_some, herreurs.1, herreurs.2, Function.update_idem]
  simp [listage, optionsInitiales, exemple]

theorem main_cadre_exemple : ∃ fin d', main tasNul apresNul id false systemeExemple 8
    [cstr ['-', 'S', 'R', 'b'], cstr ['a']] disqueExemple = some (fin, d') ∧ d' 0 = disqueExemple 0 := by
  obtain ⟨w', hrun⟩ := main_exemple
  refine ⟨_, _, hrun, main_cadre tasNul apresNul id false systemeExemple hrun ?_⟩
  have hopts : (getopt none [cstr ['-', 'S', 'R', 'b'], cstr ['a']]).1 = [.S, .R (cstr ['b'])] := by decide
  rw [hopts]
  simp [systemeExemple]

/-- When a file of `-R` is the file to read, under whatever name, the run ends in a failure
and the file is empty. -/
theorem main_source_perdue (h : Heap) (apres : Apres) (perdu : List UInt8 → List UInt8) (host : Bool)
    (sys : Systeme) (fuel : Nat) {argv suite : List Argument} {d : Disque} {fichier optarg : Argument}
    (hlong : 2 ≤ argv.length) (hop : (getopt none argv).2 = fichier :: suite)
    (hconnues : ∀ message, Opt.inconnue message ∉ (getopt none argv).1)
    (hinscriptibles : ∀ nom, Opt.R nom ∈ (getopt none argv).1 → sys.inscriptible (sys.noeud nom) = true)
    (hlisible : sys.lisible (sys.noeud fichier) = true) (hR : Opt.R optarg ∈ (getopt none argv).1)
    (hmeme : sys.noeud optarg = sys.noeud fichier) :
    ∃ d', main h apres perdu host sys fuel argv d = some (.echec, d') ∧ d' (sys.noeud fichier) = some [] := by
  obtain ⟨o, d', hlues⟩ := lireOptions_lues (o := optionsInitiales) (d := d) hconnues hinscriptibles
  have hvide : d' (sys.noeud fichier) = some [] := lireOptions_vide hlues (Or.inr ⟨optarg, hR, hmeme⟩)
  have hheader : readHeader host [] = none := by
    rw [readHeader_eq]
    rfl
  refine ⟨d', ?_, hvide⟩
  rw [main_cases hlong, hlues, hop]
  simp [traiter, Systeme.fopenLecture, hlisible, hvide, consulter, hheader]

theorem main_source_perdue_exemple : ∃ d', main tasNul apresNul id false systemeExemple 0
    [cstr ['-', 's'], cstr ['c'], cstr ['-', 'R'], cstr ['a']] disqueExemple = some (.echec, d') ∧
      d' 0 = some [] := by
  have hargv : getopt none [cstr ['-', 's'], cstr ['c'], cstr ['-', 'R'], cstr ['a']] =
      ([.s, .R (cstr ['a'])], [cstr ['c']]) := by decide
  have hop : (getopt none [cstr ['-', 's'], cstr ['c'], cstr ['-', 'R'], cstr ['a']]).2 = cstr ['c'] :: [] := by
    rw [hargv]
  refine main_source_perdue tasNul apresNul id false systemeExemple 0 (by decide) hop ?_ (fun _ _ => rfl) rfl
    (show Opt.R (cstr ['a']) ∈ _ by rw [hargv]; simp) rfl
  rw [hargv]
  simp

/-! ## What is printed -/

def Opt.estR : Opt → Bool
  | .R _ => true
  | _ => false

def Options.sansDest (o : Options) : Options := { o with fichierDest := none }

theorem noter_sansDest (o : Options) (opt : Opt) : o.sansDest.noter opt = (o.noter opt).sansDest := by
  cases opt with
  | x optarg =>
    simp only [Options.noter, Options.choisir, Options.sansDest]
    split <;> rfl
  | _ => rfl

/-- Without the options `-R` the others are read in the same way. -/
theorem lireOptions_sansR {sys : Systeme} {opts : List Opt} {o : Options} {d : Disque} (d₀ : Disque)
    (hinscriptibles : ∀ nom, Opt.R nom ∈ opts → sys.inscriptible (sys.noeud nom) = true) :
    lireOptions sys (opts.filter fun opt => !opt.estR) o.sansDest d₀ =
      ((lireOptions sys opts o d).1.map id Options.sansDest, d₀) := by
  induction opts generalizing o d with
  | nil => rfl
  | cons opt opts ih =>
    have hrest : ∀ nom, Opt.R nom ∈ opts → sys.inscriptible (sys.noeud nom) = true :=
      fun nom hmem => hinscriptibles nom (List.mem_cons_of_mem _ hmem)
    cases opt with
    | R optarg =>
      rw [lireOptions, fopenEcriture_eq (hinscriptibles optarg List.mem_cons_self)]
      exact ih (o := { o with fichierDest := some (sys.noeud optarg) }) hrest
    | inconnue => rfl
    | _ =>
      change lireOptions sys (opts.filter _) (o.sansDest.noter _) d₀ = _
      rw [noter_sansDest]
      exact ih hrest

section

variable {h : Heap} {apres : Apres} {perdu : List UInt8 → List UInt8} {host : Bool} {sys : Systeme}
  {fuel : Nat} {operandes : List Argument} {o : Options} {d d₁ d' : Disque} {code : Nat}
  {sortie erreurs : List UInt8}

theorem traiter_sansDest
    (hrun : traiter h apres perdu host sys fuel operandes o d₁ = some (.retour code sortie erreurs, d'))
    (hsame : ∀ fichier ∈ operandes.head?, d₁ (sys.noeud fichier) = d (sys.noeud fichier)) :
    ∃ erreurs', erreurs' <+: erreurs ∧
      traiter h apres perdu host sys fuel operandes o.sansDest d = some (.retour code sortie erreurs', d) := by
  cases operandes with
  | nil =>
    cases hrun
    exact ⟨_, List.prefix_rfl, rfl⟩
  | cons fichier operandes =>
    have hopen : sys.fopenLecture d fichier = sys.fopenLecture d₁ fichier := by
      rw [Systeme.fopenLecture, Systeme.fopenLecture, hsame fichier rfl]
    have hconsulter : ∀ f, consulter h apres host f o.sansDest = consulter h apres host f o := fun _ => rfl
    simp only [traiter, hopen, hconsulter] at hrun ⊢
    cases hf : sys.fopenLecture d₁ fichier with
    | none =>
      rw [hf] at hrun
      cases hrun
      exact ⟨_, List.prefix_rfl, rfl⟩
    | some f =>
      rw [hf] at hrun
      dsimp only at hrun ⊢
      cases hlus : consulter h apres host f o with
      | none =>
        rw [hlus] at hrun
        cases hrun
      | some lus =>
        obtain ⟨texte, messages, charge⟩ := lus
        rw [hlus] at hrun
        cases charge with
        | none =>
          cases hrun
          exact ⟨_, List.prefix_rfl, rfl⟩
        | some e =>
          dsimp only at hrun ⊢
          rw [editer] at hrun
          split at hrun
          · cases hrun
            exact ⟨_, List.prefix_rfl, rfl⟩
          · obtain ⟨issue, _, hissue⟩ := Option.map_eq_some_iff.mp hrun
            cases issue with
            | ok w =>
              -- the messages of the linking come last
              cases hissue
              exact ⟨messages, List.prefix_append _ _, rfl⟩
            | error w => cases hissue

end

/-- A run that returns prints on the standard output and returns what the same command line
does without its options `-R`, when their files open, none is the file to read and two
arguments remain; the messages of the other run are the first of its own. -/
theorem main_sansR (h : Heap) (apres : Apres) (perdu : List UInt8 → List UInt8) (host : Bool)
    (sys : Systeme) {fuel code : Nat} {argv argv' : List Argument} {d d' : Disque} {sortie erreurs : List UInt8}
    (hlong : 2 ≤ argv.length) (hlong' : 2 ≤ argv'.length)
    (hopts : (getopt none argv').1 = (getopt none argv).1.filter fun opt => !opt.estR)
    (hop : (getopt none argv').2 = (getopt none argv).2)
    (hinscriptibles : ∀ nom, Opt.R nom ∈ (getopt none argv).1 → sys.inscriptible (sys.noeud nom) = true)
    (hautre : ∀ nom, Opt.R nom ∈ (getopt none argv).1 → ∀ fichier ∈ (getopt none argv).2.head?,
      sys.noeud nom ≠ sys.noeud fichier)
    (hrun : main h apres perdu host sys fuel argv d = some (.retour code sortie erreurs, d')) :
    ∃ erreurs', erreurs' <+: erreurs ∧
      main h apres perdu host sys fuel argv' d = some (.retour code sortie erreurs', d) := by
  have hsans := lireOptions_sansR (o := optionsInitiales) (d := d) d hinscriptibles
  have hautres : ∀ fichier ∈ (getopt none argv).2.head?,
      (lireOptions sys (getopt none argv).1 optionsInitiales d).2 (sys.noeud fichier) = d (sys.noeud fichier) :=
    fun fichier hmem => lireOptions_autres fun nom hR => hautre nom hR fichier hmem
  rw [main_cases hlong] at hrun
  rw [main_cases hlong', hopts, hop]
  rw [show optionsInitiales.sansDest = optionsInitiales from rfl] at hsans
  rw [hsans]
  cases hlues : lireOptions sys (getopt none argv).1 optionsInitiales d with
  | mk issue d₁ =>
    rw [hlues] at hrun hautres
    cases issue with
    | inl fin =>
      cases hrun
      exact ⟨_, List.prefix_rfl, rfl⟩
    | inr o => exact traiter_sansDest hrun hautres

theorem main_sansR_exemple : ∃ sortie erreurs d', main tasNul apresNul id false systemeExemple 8
    [cstr ['-', 'S', 'R', 'b'], cstr ['a']] disqueExemple = some (.retour 0 sortie erreurs, d') ∧
    ∃ erreurs', erreurs' <+: erreurs ∧ main tasNul apresNul id false systemeExemple 8
      [cstr ['-', 'S'], cstr ['a']] disqueExemple = some (.retour 0 sortie erreurs', disqueExemple) := by
  obtain ⟨w', hrun⟩ := main_exemple
  have hargv : getopt none [cstr ['-', 'S', 'R', 'b'], cstr ['a']] =
      ([.S, .R (cstr ['b'])], [cstr ['a']]) := by decide
  refine ⟨_, _, _, hrun, main_sansR tasNul apresNul id false systemeExemple (by decide) (by decide) (by decide)
    (by decide) (fun _ _ => rfl) ?_ hrun⟩
  rw [hargv]
  simp [systemeExemple, cstr]

end ElfLinker
