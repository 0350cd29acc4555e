import Zinix.Mm.Fill
import Zinix.Mm.SpaceWork

/-!
# Mappings of files

`sys_mmap` maps as many bytes of a file as the file has, or as the mapping is long, from
the offset on, so that a mapping may ask for bytes beyond the end of the file.
-/

namespace Zinix

open Program

namespace Vma

variable {vma : Vma} {v : ℕ} {limits : ℕ → ℕ} {p : Phys} {file : MappedFile}

end Vma

namespace Mm

variable {mm mm' : Mm} {pt start len off fileLen : ℕ} {file : MappedFile} {flags prot : BitVec 64}
  {p p' : Phys}

end Mm

end Zinix
