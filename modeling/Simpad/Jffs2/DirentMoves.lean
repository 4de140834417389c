import Simpad.Jffs2.DirRebuild

namespace Simpad.Jffs2

open List

theorem Filed.lookupIno {l : List FullDirent} (h : Filed l) (name : List Byte) :
    Jffs2.lookupIno l name = (held l name).bind fun fd => if fd.ino = 0 then none else some fd.ino := by
  rw [Jffs2.lookupIno,h.lookup]

section
variable {new : FullDirent} {l : List FullDirent} (h : Filed l)
include h

theorem Filed.erase (fd : FullDirent) : Filed (l.erase fd) :=
  ⟨h.sorted.sublist erase_sublist,h.apart.sublist erase_sublist⟩

end

end Simpad.Jffs2
