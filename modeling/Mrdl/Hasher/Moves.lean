import Mrdl.Hasher.Core

/-! # What a step of the hasher's thread can do

Every step with the place it needs, what the thread saw there, and what it leaves.
-/

namespace Mrdl.Hasher
set_option autoImplicit false

namespace StreamingHasher

/-- The thread goes on at the head of one of its loops. -/
def Goes (n limit : ℕ) (stopThread : Bool) : Prop := n < limit ∧ stopThread = false

inductive HasherMove (job : HashJob) (stopThread : Bool) (isOnDisk : ℕ → Bool) (file : Bytes)
    (h : StreamingHasher) : HasherAct → StreamingHasher → Prop
  | enters (here : h.pc = .looking) (goes : Goes h.currentChunk job.totalChunks stopThread)
      (onDisk : isOnDisk h.currentChunk = true) :
      HasherMove job stopThread isOnDisk file h .look { h with pc := .hashing 0 }
  | waits (here : h.pc = .looking) (goes : Goes h.currentChunk job.totalChunks stopThread)
      (absent : isOnDisk h.currentChunk = false) : HasherMove job stopThread isOnDisk file h .look h
  | closes (here : h.pc = .looking) (ends : ¬ Goes h.currentChunk job.totalChunks stopThread) :
      HasherMove job stopThread isOnDisk file h .look { h with pc := .closing }
  | asks (k : ℕ) (here : h.pc = .hashing k) (goes : Goes k (job.chunkLength h.currentChunk) stopThread) :
      HasherMove job stopThread isOnDisk file h .checkStop { h with pc := .reading k }
  | leaves (k : ℕ) (here : h.pc = .hashing k)
      (ends : ¬ Goes k (job.chunkLength h.currentChunk) stopThread) :
      HasherMove job stopThread isOnDisk file h .checkStop h.nextChunk
  | readsNothing (n k : ℕ) (here : h.pc = .reading k) (asked : 0 < n)
      (nothing : (file.drop (h.currentChunk * job.chunkSize + k)).take
        (min n (min readChunk (job.chunkLength h.currentChunk - k))) = []) :
      HasherMove job stopThread isOnDisk file h (.read n) h.nextChunk
  | reads (n k : ℕ) (data : Bytes) (here : h.pc = .reading k) (asked : 0 < n)
      (data_eq : data = (file.drop (h.currentChunk * job.chunkSize + k)).take
        (min n (min readChunk (job.chunkLength h.currentChunk - k)))) (found : data ≠ []) :
      HasherMove job stopThread isOnDisk file h (.read n)
        { h with pc := .hashing (k + data.length), updates := h.updates ++ [data] }
  | verifies (here : h.pc = .closing) (complete : h.currentChunk = job.totalChunks)
      (running : stopThread = false) :
      HasherMove job stopThread isOnDisk file h .conclude (h.verifyHash job)
  | givesUp (here : h.pc = .closing) (cut : ¬ (h.currentChunk = job.totalChunks ∧ stopThread = false)) :
      HasherMove job stopThread isOnDisk file h .conclude { h with pc := .dead }
  | dies (awake : h.pc ≠ .dead) : HasherMove job stopThread isOnDisk file h .die { h with pc := .dead }

theorem step_moves {job : HashJob} {stopThread : Bool} {isOnDisk : ℕ → Bool} {file : Bytes}
    {h h' : StreamingHasher} {a : HasherAct} (hs : h.step job stopThread isOnDisk file a = some h') :
    HasherMove job stopThread isOnDisk file h a h' := by
  cases a with
  | look =>
    simp only [StreamingHasher.step] at hs
    split at hs
    · rename_i hpc
      split at hs
      · rename_i hgo
        split at hs <;> cases hs
        · rename_i hdisk
          exact .enters hpc hgo hdisk
        · rename_i habsent
          exact .waits hpc hgo (Bool.eq_false_iff.mpr habsent)
      · rename_i hend
        cases hs
        exact .closes hpc hend
    · cases hs
  | checkStop =>
    simp only [StreamingHasher.step] at hs
    split at hs
    · rename_i k hpc
      split at hs <;> cases hs
      · rename_i hgo
        exact .asks k hpc hgo
      · rename_i hend
        exact .leaves k hpc hend
    · cases hs
  | read n =>
    simp only [StreamingHasher.step] at hs
    split at hs
    · rename_i k hpc
      split at hs
      · rename_i hn
        split at hs <;> cases hs
        · rename_i hnil
          exact .readsNothing n k hpc hn hnil
        · rename_i hfound
          exact .reads n k _ hpc hn rfl hfound
      · cases hs
    · cases hs
  | conclude =>
    simp only [StreamingHasher.step] at hs
    split at hs
    · rename_i hpc
      split at hs <;> cases hs
      · rename_i hend
        exact .verifies hpc hend.1 hend.2
      · rename_i hcut
        exact .givesUp hpc hcut
    · cases hs
  | die =>
    simp only [StreamingHasher.step] at hs
    split at hs <;> cases hs
    rename_i hpc
    exact .dies hpc

end StreamingHasher

end Mrdl.Hasher
