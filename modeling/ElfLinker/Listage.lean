import ElfLinker.MyReadelf

/-!
Two runs of `my_readelf`, one that links and one that lists what it linked. The tables
that the second run prints, read again, are those of the source without its relocation
sections, each symbol with the address of its section added.
-/

namespace ElfLinker

open HexDump Columns

/-! ## What a run lists -/

section

variable {h : Heap} {apres : Apres} {host : Bool} {f : List UInt8} {e : Elf32}

end

/-! ## What is listed of a linked file -/

section

variable {h : Heap} {apres : Apres} {host : Bool} {f : List UInt8} {e e' : Elf32} {addrText addrData : UInt32}
  {dest : List UInt8}

end

/-! ## The two runs -/

end ElfLinker
