import ElfLinker.Lib.Patch

/-!
The data model of `my_elf.h`: the ELF32 records, the structure `Elf32` that the
program keeps in memory, the heap around its arrays, and the state a run goes
through. Counters and indices that the code keeps in an `int` and that are never
negative are natural numbers.
-/

namespace ElfLinker

/-! ## Records of elf.h -/

structure Elf32Ehdr where
  eIdent : Vector UInt8 16
  eType : UInt16
  eMachine : UInt16
  eVersion : UInt32
  eEntry : UInt32
  ePhoff : UInt32
  eShoff : UInt32
  eFlags : UInt32
  eEhsize : UInt16
  ePhentsize : UInt16
  ePhnum : UInt16
  eShentsize : UInt16
  eShnum : UInt16
  eShstrndx : UInt16
  deriving DecidableEq

structure Elf32Shdr where
  shName : UInt32
  shType : UInt32
  shFlags : UInt32
  shAddr : UInt32
  shOffset : UInt32
  shSize : UInt32
  shLink : UInt32
  shInfo : UInt32
  shAddralign : UInt32
  shEntsize : UInt32
  deriving DecidableEq

structure Elf32Sym where
  stName : UInt32
  stValue : UInt32
  stSize : UInt32
  stInfo : UInt8
  stOther : UInt8
  stShndx : UInt16
  deriving DecidableEq

structure Elf32Rel where
  rOffset : UInt32
  rInfo : UInt32
  deriving DecidableEq

/-- The addend is an `Elf32_Sword`, held here as its bit pattern. -/
structure Elf32Rela where
  rOffset : UInt32
  rInfo : UInt32
  rAddend : UInt32
  deriving DecidableEq

def eiClass : Nat := 4
def elfclass32 : UInt8 := 1

def shtSymtab : UInt32 := 2
def shtStrtab : UInt32 := 3
def shtRela : UInt32 := 4
def shtRel : UInt32 := 9
def shtGroup : UInt32 := 17
def shtSymtabShndx : UInt32 := 18

def shnUndef : UInt16 := 0
def shnLoreserve : UInt16 := 0xff00
def shnAbs : UInt16 := 0xfff1
def shnCommon : UInt16 := 0xfff2

def rArmAbs32 : UInt32 := 2
def rArmAbs16 : UInt32 := 5
def rArmAbs8 : UInt32 := 8
def rArmCall : UInt32 := 28
def rArmJump24 : UInt32 := 29

/-- `ELF32_R_SYM` and `ELF32_R_TYPE`. -/
def elf32RSym (info : UInt32) : UInt32 := info >>> 8
def elf32RType (info : UInt32) : UInt32 := info &&& 0xff

/-- A C string literal, without its terminating NUL. -/
def cstr (cs : List Char) : List UInt8 := cs.map fun c => UInt8.ofNat c.toNat

def dotText : List UInt8 := cstr ['.', 't', 'e', 'x', 't']
def dotData : List UInt8 := cstr ['.', 'd', 'a', 't', 'a']
def dotStrtab : List UInt8 := cstr ['.', 's', 't', 'r', 't', 'a', 'b']
def dotShstrtab : List UInt8 := cstr ['.', 's', 'h', 's', 't', 'r', 't', 'a', 'b']

/-! ## Structures of my_elf.h -/

/-- `relnum` is the count the code loops up to; `rel` and `rela` are the records
that fit the memory allocated for them. -/
structure Elf32RelEntry where
  rel : List Elf32Rel
  rela : List Elf32Rela
  shndx : Nat
  relType : UInt8
  relnum : Nat
  deriving DecidableEq

structure Elf32Reltab where
  entries : List Elf32RelEntry
  entrynum : Nat
  deriving DecidableEq

structure Elf32 where
  elfhdr : Elf32Ehdr
  shtable : List Elf32Shdr
  symtable : List Elf32Sym
  reltab : Elf32Reltab
  shStrtab : List UInt8
  symStrtab : List UInt8
  symtabIndex : Nat
  deriving DecidableEq

namespace Elf32

def shnum (e : Elf32) : Nat := e.elfhdr.eShnum.toNat

/-- The array `shtable` holds exactly `e_shnum` entries. -/
def TableFull (e : Elf32) : Prop := e.shtable.length = e.shnum

instance (e : Elf32) : Decidable e.TableFull := inferInstanceAs (Decidable (_ = _))

end Elf32

/-! ## Memory around the arrays

A subscript outside an array reads whatever the heap holds there. The model takes
that content as a parameter, so a theorem for every `Heap` holds whatever is next
to the arrays. -/

structure Heap where
  shtable : Int → Elf32Shdr
  symtable : Nat → Elf32Sym
  entries : Nat → Elf32RelEntry
  rel : Nat → Elf32Rel
  strtab : Nat → UInt8
  bytes : Nat → UInt8

def shdrAt (h : Heap) (t : List Elf32Shdr) (i : Nat) : Elf32Shdr := t.getD i (h.shtable i)

/-- `shtable[i]` for an index that may be negative. -/
def shdrAtInt (h : Heap) (t : List Elf32Shdr) (i : Int) : Elf32Shdr :=
  if 0 ≤ i then shdrAt h t i.toNat else h.shtable i

def symAt (h : Heap) (t : List Elf32Sym) (i : Nat) : Elf32Sym := t.getD i (h.symtable i)

def entryAt (h : Heap) (t : List Elf32RelEntry) (i : Nat) : Elf32RelEntry := t.getD i (h.entries i)

def relAt (h : Heap) (t : List Elf32Rel) (i : Nat) : Elf32Rel := t.getD i (h.rel i)

def charAt (h : Heap) (t : List UInt8) (i : Nat) : UInt8 := t.getD i (h.strtab i)

theorem shdrAt_eq {h : Heap} {t : List Elf32Shdr} {i : Nat} {s : Elf32Shdr}
    (hs : t[i]? = some s) : shdrAt h t i = s := by
  simp [shdrAt, List.getD_eq_getElem?_getD, hs]

theorem shdrAt_of_lt (h : Heap) {t : List Elf32Shdr} {i : Nat} (hi : i < t.length) :
    t[i]? = some (shdrAt h t i) := by
  simp [shdrAt, List.getD_eq_getElem?_getD, hi]

theorem symAt_eq {h : Heap} {t : List Elf32Sym} {i : Nat} {s : Elf32Sym}
    (hs : t[i]? = some s) : symAt h t i = s := by
  simp [symAt, List.getD_eq_getElem?_getD, hs]

theorem symAt_of_lt (h : Heap) {t : List Elf32Sym} {i : Nat} (hi : i < t.length) :
    t[i]? = some (symAt h t i) := by
  simp [symAt, List.getD_eq_getElem?_getD, hi]

/-! ## The parts of the file that hold elfdata -/

def enteteWindow : Set Nat := Patch.window 0 52

def shtWindow (e : Elf32) : Set Nat := Patch.window e.elfhdr.eShoff.toNat (40 * e.shnum)

def symtabWindow (h : Heap) (e : Elf32) : Set Nat :=
  let s := shdrAt h e.shtable e.symtabIndex
  Patch.window s.shOffset.toNat s.shSize.toNat

/-! ## The state of a run -/

/-- What a run does that a caller can see beside its result: a subscript into
`elfdata->shtable`, the read of the word that relocation `j` of table `i`
changes, the write of that word, and every other write to the destination. -/
inductive Access where
  | shtable (i : Int)
  | addend (i j off : Nat)
  | patch (i j off : Nat) (bytes : List UInt8)
  | write (off : Nat) (bytes : List UInt8)
  deriving DecidableEq

/-- `elfdata`, the destination file and what the run did so far. -/
structure World where
  elf : Elf32
  dest : List UInt8
  log : List Access

/-- `.ok`: the function returned. `.error`: an `assert` stopped the program, with
what it had done until then. -/
abbrev Outcome := Except World World

def Outcome.world : Outcome → World
  | .ok w => w
  | .error w => w

namespace World

/-- Change `elfdata`, making the subscripts `subs` into its section table. -/
def step (w : World) (elf : Elf32) (subs : List Int) : World :=
  { w with elf := elf, log := w.log ++ subs.map Access.shtable }

/-- `fseek` to `off`, then `fwrite` of `bytes`. -/
def fwrite (w : World) (off : Nat) (bytes : List UInt8) : World :=
  { w with dest := Patch.writeAt w.dest off bytes, log := w.log ++ [.write off bytes] }

@[simp] theorem step_elf (w : World) (e : Elf32) (subs : List Int) : (w.step e subs).elf = e := rfl
@[simp] theorem step_dest (w : World) (e : Elf32) (subs : List Int) :
    (w.step e subs).dest = w.dest := rfl
@[simp] theorem step_log (w : World) (e : Elf32) (subs : List Int) :
    (w.step e subs).log = w.log ++ subs.map Access.shtable := rfl
@[simp] theorem fwrite_elf (w : World) (off : Nat) (bytes : List UInt8) :
    (w.fwrite off bytes).elf = w.elf := rfl
@[simp] theorem fwrite_dest (w : World) (off : Nat) (bytes : List UInt8) :
    (w.fwrite off bytes).dest = Patch.writeAt w.dest off bytes := rfl
@[simp] theorem fwrite_log (w : World) (off : Nat) (bytes : List UInt8) :
    (w.fwrite off bytes).log = w.log ++ [.write off bytes] := rfl

end World

end ElfLinker
