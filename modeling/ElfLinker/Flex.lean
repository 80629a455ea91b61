import ElfLinker.Automate
import ElfLinker.Lib.Cells
import ElfLinker.Lib.Machine

/-!
The engine of `scanner.c`: the loop `yy_match` on the buffer, the way back to the
last accepting state, the end of the buffer, which looks like a NUL, and
`yy_get_next_buffer`, which reads whatever the connection has by then. Every
subscript is checked, and a byte that is not set is not read.
-/

namespace ElfLinker

/-! ## Reading the connection -/

/-- What a call of `read` meets: a signal, or bytes that have arrived. -/
inductive Arrivee where
  | interruption
  | octets (lus : List UInt8) (reste : lus ≠ [])

/-- The bytes still to come. -/
def fluxDe : List Arrivee → List UInt8
  | [] => []
  | .interruption :: as => fluxDe as
  | .octets lus _ :: as => lus ++ fluxDe as

/-- `YY_INPUT`: `read` until no signal interrupts it. It returns at most `max` of the
bytes that have arrived, and none when the other side has closed the connection. -/
def yyInput (max : Nat) : List Arrivee → List UInt8 × List Arrivee
  | [] => ([], [])
  | .interruption :: as => yyInput max as
  | .octets lus _ :: as =>
    if h : lus.drop max = [] then (lus, as) else (lus.take max, .octets (lus.drop max) h :: as)

/-! ## The state of the scanner -/

inductive YyBufferStatus where
  | new
  | normal
  | eofPending
  deriving DecidableEq

/-- `struct yyguts_t` and `struct yy_buffer_state` of its only buffer. Pointers into
`yy_ch_buf` are offsets, and `bufNChars` is the `yy_n_chars` of the buffer. -/
structure Yyguts where
  yyChBuf : Cells UInt8
  yyBufSize : Nat
  bufNChars : Nat
  yyBufferStatus : YyBufferStatus
  yyNChars : Nat
  yytext : Nat
  yyleng : Nat
  yyCBufP : Nat
  yyHoldChar : UInt8
  yyLastAcceptingState : Nat
  yyLastAcceptingCpos : Nat
  arrivees : List Arrivee

/-- The labels of `yylex` at which the engine takes a step. -/
inductive Etiquette where
  | debut
  | yyMatch (yyCurrentState yyCp yyBp : Nat)
  | yyFindAction (yyCurrentState yyCp yyBp : Nat)
  | doAction (yyAct yyCp : Nat)

/-- What the engine hands to the actions of the rules: `yy_act` and the text, or the
end of the stream. -/
inductive Sortie where
  | action (yyAct : Nat) (text : List UInt8)
  | fin

/-- The results of `yy_get_next_buffer`. -/
inductive EobAct where
  | continueScan
  | endOfFile
  | lastMatch

def yyBufSizeInitial : Nat := 16384
def yyReadBufSize : Nat := 8192

namespace Yyguts

def setLastAccepting (g : Yyguts) (etat yyCp : Nat) : Yyguts :=
  { g with yyLastAcceptingState := etat, yyLastAcceptingCpos := yyCp }

/-- `if (yy_accept[yy_current_state]) ..`, which opens every transition. -/
def retient (g : Yyguts) (yyCurrentState yyCp : Nat) : Option Yyguts := do
  let acc ← yyAccept[yyCurrentState]?
  return (if acc ≠ 0 then g.setLastAccepting yyCurrentState yyCp else g)

/-- One turn of the loop `yy_match`. -/
def yyMatch (g : Yyguts) (yyCurrentState yyCp yyBp : Nat) : Option (Etiquette × Yyguts) := do
  let c ← g.yyChBuf.read yyCp
  let yyC ← yyEc[c.toNat]?
  let g ← g.retient yyCurrentState yyCp
  let suivant ← yyTransition yyDef.length yyCurrentState yyC
  let base ← yyBase[suivant]?
  if base ≠ 14 then
    return (.yyMatch suivant (yyCp + 1) yyBp, g)
  else
    return (.yyFindAction suivant (yyCp + 1) yyBp, g)

/-- `YY_DO_BEFORE_ACTION`: the byte after the text gives way to a NUL. -/
def yyDoBeforeAction (g : Yyguts) (yyCp yyBp : Nat) : Option Yyguts := do
  let hold ← g.yyChBuf.read yyCp
  let buf ← g.yyChBuf.write yyCp 0
  return { g with
    yytext := yyBp
    yyleng := yyCp - yyBp
    yyHoldChar := hold
    yyChBuf := buf
    yyCBufP := yyCp }

def yyFindAction (g : Yyguts) (yyCurrentState yyCp yyBp : Nat) : Option (Etiquette × Yyguts) := do
  let act ← yyAccept[yyCurrentState]?
  if act = 0 then
    let act ← yyAccept[g.yyLastAcceptingState]?
    let yyCp := g.yyLastAcceptingCpos
    let g ← g.yyDoBeforeAction yyCp yyBp
    return (.doAction act yyCp, g)
  else
    let g ← g.yyDoBeforeAction yyCp yyBp
    return (.doAction act yyCp, g)

/-- `(*yy_cp ? yy_ec[YY_SC_TO_UI(*yy_cp)] : 1)`. -/
def classePrecedente (c : UInt8) : Option Nat := if c ≠ 0 then yyEc[c.toNat]? else some 1

/-- One turn of the loop of `yy_get_previous_state`. -/
def avance (s : Nat × Yyguts) (yyCp : Nat) : Option (Nat × Yyguts) := do
  let c ← s.2.yyChBuf.read yyCp
  let yyC ← classePrecedente c
  let g ← s.2.retient s.1 yyCp
  let suivant ← yyTransition yyDef.length s.1 yyC
  return (suivant, g)

/-- The state that the text before `yy_c_buf_p` leads to. -/
def yyGetPreviousState (g : Yyguts) : Option (Nat × Yyguts) :=
  (List.range' g.yytext (g.yyCBufP - g.yytext)).foldlM avance (1, g)

/-- The transition on a NUL of the input, 0 when it jams. -/
def yyTryNulTrans (g : Yyguts) (yyCurrentState : Nat) : Option (Nat × Yyguts) := do
  let g ← g.retient yyCurrentState g.yyCBufP
  let suivant ← yyTransition yyDef.length yyCurrentState 1
  return (if suivant = yyJam then 0 else suivant, g)

/-- `yyrestart`, of which `yy_flush_buffer` and `yy_load_buffer_state` are left. -/
def yyrestart (g : Yyguts) : Option Yyguts := do
  let buf ← g.yyChBuf.write 0 0
  let buf ← buf.write 1 0
  let hold ← buf.read 0
  return { g with
    bufNChars := 0
    yyChBuf := buf
    yyBufferStatus := .new
    yyNChars := 0
    yytext := 0
    yyCBufP := 0
    yyHoldChar := hold }

/-- The buffer doubled until there is room for one more byte than `numberToMove`. The size
is an `int`; the branch for one that the doubling takes out of it is left out, as are
allocations that fail. -/
def agrandit (numberToMove : Nat) : Nat → Yyguts → Option Yyguts
  | 0, _ => none
  | tours + 1, g =>
    if g.yyBufSize ≤ numberToMove + 1 then
      agrandit numberToMove tours { g with
        yyBufSize := g.yyBufSize * 2
        yyChBuf := g.yyChBuf.extend g.yyBufSize }
    else
      some g

/-- The branch of `yy_get_next_buffer` that reads. -/
def remplit (g : Yyguts) (numberToMove : Nat) : Option Yyguts := do
  let g ← agrandit numberToMove (numberToMove + 2) g
  let numToRead := min (g.yyBufSize - numberToMove - 1) yyReadBufSize
  let (lus, arrivees) := yyInput numToRead g.arrivees
  let buf ← g.yyChBuf.store numberToMove lus
  return { g with
    yyChBuf := buf
    yyNChars := lus.length
    bufNChars := lus.length
    arrivees := arrivees }

/-- The branches of `yy_get_next_buffer` that set the number of bytes read. -/
def lit (g : Yyguts) (numberToMove : Nat) : Option Yyguts :=
  if g.yyBufferStatus = .eofPending then some { g with yyNChars := 0, bufNChars := 0 }
  else g.remplit numberToMove

/-- What `yy_get_next_buffer` makes of the number of bytes read. -/
def verdict (g : Yyguts) (numberToMove : Nat) : Option (EobAct × Yyguts) :=
  if g.yyNChars = 0 then
    if numberToMove = 0 then do
      let g ← g.yyrestart
      return (.endOfFile, g)
    else
      some (.lastMatch, { g with yyBufferStatus := .eofPending })
  else
    some (.continueScan, g)

/-- The end of `yy_get_next_buffer`: the array extended if what was read does not fit, and the two NUL. -/
def termine (g : Yyguts) (numberToMove : Nat) : Option Yyguts := do
  let g := if g.yyBufSize < g.yyNChars + numberToMove then
      let newSize := g.yyNChars + numberToMove + g.yyNChars / 2
      { g with
        yyChBuf := g.yyChBuf.extend (newSize - g.yyChBuf.length)
        yyBufSize := newSize - 2 }
    else g
  let n := g.yyNChars + numberToMove
  let buf ← g.yyChBuf.write n 0
  let buf ← buf.write (n + 1) 0
  return { g with yyNChars := n, yyChBuf := buf, yytext := 0 }

def suite (g : Yyguts) (numberToMove : Nat) : Option (EobAct × Yyguts) := do
  let (ret, g) ← g.verdict numberToMove
  let g ← g.termine numberToMove
  return (ret, g)

/-- `yy_get_next_buffer`: the text matched so far goes to the front of the buffer,
what is read comes after it, and two NUL after that. -/
def yyGetNextBuffer (g : Yyguts) : Option (EobAct × Yyguts) := do
  if g.yyNChars + 1 < g.yyCBufP then
    none
  else
    let numberToMove := g.yyCBufP - g.yytext - 1
    let buf ← g.yyChBuf.move g.yytext numberToMove
    let g ← lit { g with yyChBuf := buf } numberToMove
    g.suite numberToMove

/-- `YY_END_OF_BUFFER` on a NUL of the input. -/
def nulReel (g : Yyguts) (yyAmountOfMatchedText : Nat) : Option (Etiquette × Yyguts) := do
  let g := { g with yyCBufP := g.yytext + yyAmountOfMatchedText }
  let (etat, g) ← g.yyGetPreviousState
  let (suivant, g) ← g.yyTryNulTrans etat
  if suivant ≠ 0 then
    let g := { g with yyCBufP := g.yyCBufP + 1 }
    return (.yyMatch suivant g.yyCBufP g.yytext, g)
  else
    return (.yyFindAction etat g.yyCBufP g.yytext, g)

/-- `YY_END_OF_BUFFER` at the end of the buffer; `yywrap` returns 1. -/
def tamponVide (g : Yyguts) (yyAmountOfMatchedText : Nat) :
    Option ((Etiquette × Yyguts) ⊕ (Sortie × Yyguts)) := do
  let (ret, g) ← g.yyGetNextBuffer
  match ret with
  | .endOfFile => return .inr (.fin, { g with yyCBufP := g.yytext })
  | .continueScan =>
    let g := { g with yyCBufP := g.yytext + yyAmountOfMatchedText }
    let (etat, g) ← g.yyGetPreviousState
    return .inl (.yyMatch etat g.yyCBufP g.yytext, g)
  | .lastMatch =>
    let g := { g with yyCBufP := g.yyNChars }
    let (etat, g) ← g.yyGetPreviousState
    return .inl (.yyFindAction etat g.yyCBufP g.yytext, g)

/-- The action `YY_END_OF_BUFFER`: a NUL of the input has a byte of the buffer after it
at most, the end of the buffer has none. -/
def yyEndOfBuffer (g : Yyguts) (yyCp : Nat) : Option ((Etiquette × Yyguts) ⊕ (Sortie × Yyguts)) := do
  let yyAmountOfMatchedText := yyCp - g.yytext - 1
  let buf ← g.yyChBuf.write yyCp g.yyHoldChar
  let g := { g with yyChBuf := buf }
  let g := if g.yyBufferStatus = .new then
      { g with yyNChars := g.bufNChars, yyBufferStatus := .normal }
    else g
  if g.yyCBufP ≤ g.yyNChars then (g.nulReel yyAmountOfMatchedText).map .inl
  else g.tamponVide yyAmountOfMatchedText

end Yyguts

/-- One step of the engine. -/
def pasYylex : Etiquette × Yyguts → Option ((Etiquette × Yyguts) ⊕ (Sortie × Yyguts))
  | (.debut, g) => do
    let buf ← g.yyChBuf.write g.yyCBufP g.yyHoldChar
    return .inl (.yyMatch 1 g.yyCBufP g.yyCBufP, { g with yyChBuf := buf })
  | (.yyMatch etat yyCp yyBp, g) => (g.yyMatch etat yyCp yyBp).map .inl
  | (.yyFindAction etat yyCp yyBp, g) => (g.yyFindAction etat yyCp yyBp).map .inl
  | (.doAction 0 yyCp, g) => do
    let buf ← g.yyChBuf.write yyCp g.yyHoldChar
    return .inl (.yyFindAction g.yyLastAcceptingState g.yyLastAcceptingCpos g.yytext,
      { g with yyChBuf := buf })
  | (.doAction 6 yyCp, g) => g.yyEndOfBuffer yyCp
  | (.doAction yyAct _, g) => do
    let text ← g.yyChBuf.load g.yytext g.yyleng
    return .inr (.action yyAct text, g)

/-- The scanner that `init_gdb_scanner` leaves, once `yylex` has made its buffer: two
NUL and cells that `malloc` has not set. -/
def yylexInit (etat pos : Nat) (arrivees : List Arrivee) : Yyguts where
  yyChBuf := [some 0, some 0] ++ List.replicate yyBufSizeInitial none
  yyBufSize := yyBufSizeInitial
  bufNChars := 0
  yyBufferStatus := .new
  yyNChars := 0
  yytext := 0
  yyleng := 0
  yyCBufP := 0
  yyHoldChar := 0
  yyLastAcceptingState := etat
  yyLastAcceptingCpos := pos
  arrivees := arrivees

end ElfLinker
