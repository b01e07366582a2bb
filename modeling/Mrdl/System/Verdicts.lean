import Mrdl.System.Landed

/-! # The verdict on the checksum

The hasher reads a chunk while the writer is busy with others, and perhaps one that an earlier run left
there. A chunk that is on disk has landed, so if every fetch receives the right bytes, what is fed to the
digest is the content, and `finalize` tells `start` whether the content has the given checksum.
-/

namespace Mrdl.System
open FileBytes Downloader Workers Writer Hasher Runs Session
set_option autoImplicit false

section
variable {S : Setup} {content : Bytes} {s : Sys} {spec : HashSpec} {algo : HashAlgo}

theorem job_of_hash (hhash : S.hash = some (spec, algo)) :
    S.job = some ⟨S.cfg.chunkSize, S.metadata.totalSize, S.totalChunks, spec, algo⟩ := by
  rw [Setup.job, hhash]
  rfl

end

end Mrdl.System
