import Mrdl.Hasher.Extent

/-! # Hashing a file that is there

`hash_chunk`, `verify_file` and `_hash_all_chunks` as functions of the file and of the `os.read`s of the
thread. As for the thread, the pieces stand for the digest they are fed to. `_hash_all_chunks` is given
here for a run in which every chunk is on disk and the stop event is never set; `hashAllChunks_exec`
replays it on the thread of `StreamingHasher`.
-/

namespace Mrdl.Hasher
open Runs Session Tiling
set_option autoImplicit false

/-- A call of the progress reporter. -/
inductive ProgressCall
  | setOverlay (text : String) (success : Bool) (color : Option String)
  | updateHashed (chunkIndex : ℕ)
  deriving DecidableEq, Repr

/-- What was fed to the digest, how many `os.read`s that took, and the reports. -/
structure Hashing where
  pieces : List Bytes := []
  reads : ℕ := 0
  calls : List ProgressCall := []

/-- The loop of `hash_chunk`, without a stop event. `sizes` is how much the `k`-th `os.read` of the thread
returns, which is at least one byte and at most what was asked for while there is any. -/
def hashChunk (sizes : ℕ → ℕ) (file : Bytes) (start length : ℕ) : ℕ → ℕ → Hashing → Option Hashing
  | 0, _, _ => none
  | fuel + 1, bytesRead, s =>
      if bytesRead < length then
        let readSize := min readChunk (length - bytesRead)
        let data := (file.drop (start + bytesRead)).take (min (max 1 (sizes s.reads)) readSize)
        if data = [] then some { s with reads := s.reads + 1 }
        else hashChunk sizes file start length fuel (bytesRead + data.length)
          { s with pieces := s.pieces ++ [data], reads := s.reads + 1 }
      else some s

/-- `progress.update_hashed`, if there is a reporter. -/
def Hashing.report (progress : Bool) (i : ℕ) (s : Hashing) : Hashing :=
  if progress then { s with calls := s.calls ++ [.updateHashed i] } else s

/-- A loop over chunks: hash one, report it. -/
def hashLoop (progress : Bool) (hashOne : ℕ → Hashing → Option Hashing) :
    List ℕ → Hashing → Option Hashing
  | [], s => some s
  | i :: rest, s =>
      (hashOne i s).bind fun s' => hashLoop progress hashOne rest (s'.report progress i)

/-- The comparison of the digest with the expected checksum. -/
def isValid (spec : HashSpec) (digest : String) : Bool :=
  match spec.expected with
  | none => true
  | some expected => digest.toLower == expected.toLower

structure FileVerdict where
  isValid : Bool
  digest : String
  calls : List ProgressCall
  deriving DecidableEq, Repr

/-- `verify_file`. `hashlib.file_digest` hashes the whole file, and its progress is made up. -/
def verifyFile (algo : HashAlgo) (spec : HashSpec) (hasFileDigest progress : Bool) (sizes : ℕ → ℕ)
    (file : Bytes) (chunkSize : ℕ) : Option FileVerdict :=
  let totalSize := file.length
  let totalChunks := (totalSize + chunkSize - 1) / chunkSize
  let begun : Hashing :=
    { calls := if progress then [.setOverlay " VERIFYING " true (some "blue")] else [] }
  let hashed : Option (algo.State × List ProgressCall) :=
    if hasFileDigest then
      some (algo.update algo.new file,
        begun.calls ++ if progress then (List.range totalChunks).map .updateHashed else [])
    else
      (hashLoop progress (fun i =>
        let start := i * chunkSize
        let length := min chunkSize (totalSize - start)
        hashChunk sizes file start length (length + 1) 0) (List.range totalChunks) begun).map fun s =>
          (algo.feed s.pieces, s.calls)
  hashed.map fun (hashObj, calls) =>
    let digest := algo.hexdigest hashObj
    let valid := isValid spec digest
    { isValid := valid
      digest := digest
      calls := calls ++
        if progress then
          [if valid then .setOverlay " CHECKSUM OK " true (some "blue")
            else .setOverlay " CHECKSUM INVALID " false (some "red")]
        else [] }

/-- `_hash_single_chunk`; `served` says that `read_chunk` has the bytes. -/
def hashSingleChunk (job : HashJob) (served : Bool) (sizes : ℕ → ℕ) (file : Bytes) (i : ℕ) (s : Hashing) :
    Option Hashing :=
  let start := i * job.chunkSize
  let length := job.chunkLength i
  if served then some { s with pieces := s.pieces ++ [(file.drop start).take length] }
  else hashChunk sizes file start length (length + 1) 0 s

/-- `_hash_all_chunks`: the hasher that is left, and the reports. -/
def hashAllChunks (job : HashJob) (progress : Bool) (served : ℕ → Bool) (sizes : ℕ → ℕ) (file : Bytes) :
    Option (StreamingHasher × List ProgressCall) :=
  (hashLoop progress (fun i => hashSingleChunk job (served i) sizes file i) (List.range job.totalChunks)
    {}).map fun s =>
      (StreamingHasher.verifyHash job { currentChunk := job.totalChunks, updates := s.pieces }, s.calls)

/-! ## What the loops feed -/

/-- A piece read from the front, and the rest up to the limit. -/
theorem take_eq_piece {α : Type*} {xs piece : List α} {k m : ℕ} (hpiece : piece = xs.take k) (hk : k ≤ m) :
    xs.take m = piece ++ (xs.drop piece.length).take (m - piece.length) := by
  have hlen : piece.length = min k xs.length := by rw [hpiece, List.length_take]
  have hown : piece = xs.take piece.length := by
    rw [hlen, ← List.take_take, List.take_length, hpiece]
  conv_rhs => rw [hown, List.length_take, min_eq_left (hlen ▸ min_le_right ..)]
  rw [← List.take_add]
  congr 1
  omega

section
variable {sizes : ℕ → ℕ} {file : Bytes} {start length fuel bytesRead : ℕ} {s : Hashing}

/-- The loop of reads ends, and feeds the rest of the chunk as far as the file has it. -/
theorem hashChunk_spec (hread : bytesRead ≤ length) (hfuel : length < bytesRead + fuel) :
    ∃ s', hashChunk sizes file start length fuel bytesRead s = some s' ∧ s'.calls = s.calls ∧
      s'.pieces.flatten =
        s.pieces.flatten ++ (file.drop (start + bytesRead)).take (length - bytesRead) := by
  induction fuel generalizing bytesRead s with
  | zero => omega
  | succ fuel ih =>
    rw [hashChunk]
    by_cases hlt : bytesRead < length
    · rw [if_pos hlt]
      obtain ⟨data, hdata⟩ : ∃ data, data = (file.drop (start + bytesRead)).take
        (min (max 1 (sizes s.reads)) (min readChunk (length - bytesRead))) := ⟨_, rfl⟩
      simp only [← hdata]
      have hread : 0 < readChunk := by decide
      have hk : min (max 1 (sizes s.reads)) (min readChunk (length - bytesRead)) ≤ length - bytesRead := by
        omega
      have hrest := take_eq_piece hdata hk
      by_cases hnil : data = []
      · rw [if_pos hnil]
        refine ⟨_, rfl, rfl, ?_⟩
        have hend : file.drop (start + bytesRead) = [] := by
          rw [hnil, eq_comm, List.take_eq_nil_iff] at hdata
          exact hdata.resolve_left (by omega)
        rw [hend, List.take_nil, List.append_nil]
      · rw [if_neg hnil]
        have hpos := List.length_pos_iff.mpr hnil
        have hlen := congrArg List.length hdata
        rw [List.length_take] at hlen
        obtain ⟨s', hs', hcalls, hfed⟩ := @ih (bytesRead + data.length)
          { s with pieces := s.pieces ++ [data], reads := s.reads + 1 } (by omega) (by omega)
        refine ⟨s', hs', hcalls, ?_⟩
        rw [hfed, hrest, List.drop_drop, List.flatten_append, List.flatten_singleton, List.append_assoc,
          Nat.add_assoc, Nat.sub_sub]
    · rw [if_neg hlt]
      refine ⟨s, rfl, rfl, ?_⟩
      rw [Nat.sub_eq_zero_of_le (not_lt.mp hlt), List.take_zero, List.append_nil]

theorem hashChunk_whole (start length : ℕ) :
    ∃ s', hashChunk sizes file start length (length + 1) 0 s = some s' ∧ s'.calls = s.calls ∧
      s'.pieces.flatten = s.pieces.flatten ++ (file.drop start).take length := by
  have h := @hashChunk_spec sizes file start length (length + 1) 0 s (Nat.zero_le _) (by omega)
  simpa only [Nat.add_zero, Nat.sub_zero] using h

/-- A loop over chunks feeds what each of them feeds, and reports each once, in order. -/
theorem hashLoop_spec (progress : Bool) {hashOne : ℕ → Hashing → Option Hashing} (content : ℕ → Bytes)
    {chunks : List ℕ}
    (hone : ∀ i ∈ chunks, ∀ s, ∃ s', hashOne i s = some s' ∧ s'.calls = s.calls ∧
      s'.pieces.flatten = s.pieces.flatten ++ content i) :
    ∃ s', hashLoop progress hashOne chunks s = some s' ∧
      s'.calls = s.calls ++ (if progress then chunks.map .updateHashed else []) ∧
      s'.pieces.flatten = s.pieces.flatten ++ (chunks.map content).flatten := by
  induction chunks generalizing s with
  | nil => exact ⟨s, rfl, by simp, by simp⟩
  | cons i rest ih =>
    obtain ⟨t, ht, hcalls, hfed⟩ := hone i (List.mem_cons_self ..) s
    obtain ⟨s', hs', hcalls', hfed'⟩ := ih (s := t.report progress i)
      fun j hj => hone j (List.mem_cons_of_mem _ hj)
    refine ⟨s', by rw [hashLoop, ht, Option.bind_some, hs'], ?_, ?_⟩
    · rw [hcalls', Hashing.report]
      cases progress with
      | true => simp [hcalls]
      | false => simp [hcalls]
    · have hreport : (t.report progress i).pieces = t.pieces := by
        cases progress <;> rfl
      rw [hfed', hreport, hfed, List.map_cons, List.flatten_cons, List.append_assoc]

end

/-! ## The loops on the thread -/

section
variable {job : HashJob} {sizes : ℕ → ℕ} {file : Bytes} {s s' : Hashing} {i : ℕ}

/-- The thread when every chunk is on disk and nothing stops it. -/
def passThread (job : HashJob) (file : Bytes) (h : StreamingHasher) (a : HasherAct) :
    Option StreamingHasher :=
  h.step job false (fun _ => true) file a

theorem hashChunk_exec {fuel bytesRead : ℕ}
    (hrun : hashChunk sizes file (i * job.chunkSize) (job.chunkLength i) fuel bytesRead s = some s') :
    ∃ as, exec (passThread job file)
        { pc := .hashing bytesRead, currentChunk := i, updates := s.pieces } as =
      some { currentChunk := i + 1, updates := s'.pieces } := by
  induction fuel generalizing bytesRead s with
  | zero => cases hrun
  | succ fuel ih =>
    rw [hashChunk] at hrun
    split at hrun
    · rename_i hlt
      have hask : passThread job file
          { pc := .hashing bytesRead, currentChunk := i, updates := s.pieces } .checkStop =
            some { pc := .reading bytesRead, currentChunk := i, updates := s.pieces } :=
        if_pos ⟨hlt, rfl⟩
      simp only at hrun
      have hn : 0 < max 1 (sizes s.reads) := by omega
      have hread : passThread job file
          { pc := .reading bytesRead, currentChunk := i, updates := s.pieces }
          (.read (max 1 (sizes s.reads))) = _ := if_pos hn
      split at hrun
      · rename_i hnil
        cases hrun
        exact ⟨[.checkStop, .read (max 1 (sizes s.reads))],
          exec_cons.mpr ⟨_, hask, exec_cons.mpr ⟨_, hread.trans (if_pos hnil), rfl⟩⟩⟩
      · rename_i hdata
        obtain ⟨as, has⟩ := ih hrun
        exact ⟨.checkStop :: .read (max 1 (sizes s.reads)) :: as,
          exec_cons.mpr ⟨_, hask, exec_cons.mpr ⟨_, hread.trans (if_neg hdata), has⟩⟩⟩
    · rename_i hlt
      cases hrun
      exact ⟨[.checkStop], exec_cons.mpr ⟨_, if_neg fun h => hlt h.1, rfl⟩⟩

theorem hashLoop_exec {progress : Bool} {n : ℕ} (hn : i + n = job.totalChunks)
    (hrun : hashLoop progress (fun i => hashSingleChunk job false sizes file i) (List.range' i n) s =
      some s') :
    ∃ as, exec (passThread job file) { currentChunk := i, updates := s.pieces } as =
      some { currentChunk := job.totalChunks, updates := s'.pieces } := by
  induction n generalizing i s with
  | zero =>
    cases hrun
    exact ⟨[], by rw [exec_nil, ← hn, Nat.add_zero]⟩
  | succ n ih =>
    rw [List.range'_succ, hashLoop, Option.bind_eq_some_iff] at hrun
    obtain ⟨t, ht, hrest⟩ := hrun
    have henter : passThread job file { currentChunk := i, updates := s.pieces } .look =
        some { pc := .hashing 0, currentChunk := i, updates := s.pieces } :=
      (if_pos ⟨by simp only; omega, rfl⟩).trans (if_pos rfl)
    have hreport : (t.report progress i).pieces = t.pieces := by
      cases progress <;> rfl
    obtain ⟨as, has⟩ := hashChunk_exec ht
    obtain ⟨bs, hbs⟩ := ih (by omega) hrest
    rw [hreport] at hbs
    exact ⟨.look :: as ++ bs, exec_append.mpr ⟨_, exec_cons.mpr ⟨_, henter, has⟩, hbs⟩⟩

/-- What `_hash_all_chunks` computes without `read_chunk`, the thread computes. -/
theorem hashAllChunks_exec {progress : Bool} {h : StreamingHasher} {calls : List ProgressCall}
    (hrun : hashAllChunks job progress (fun _ => false) sizes file = some (h, calls)) :
    ∃ as, exec (passThread job file) {} as = some h := by
  obtain ⟨s, hs, heq⟩ := Option.map_eq_some_iff.mp hrun
  cases heq
  rw [List.range_eq_range'] at hs
  obtain ⟨as, has⟩ := hashLoop_exec (Nat.zero_add _) hs
  have hclose : passThread job file { currentChunk := job.totalChunks, updates := s.pieces } .look =
      some { pc := .closing, currentChunk := job.totalChunks, updates := s.pieces } :=
    if_neg fun h => lt_irrefl _ h.1
  have hverify : passThread job file
      { pc := .closing, currentChunk := job.totalChunks, updates := s.pieces } .conclude =
        some (StreamingHasher.verifyHash job { currentChunk := job.totalChunks, updates := s.pieces }) :=
    if_pos ⟨rfl, rfl⟩
  exact ⟨as ++ [.look, .conclude],
    exec_append.mpr ⟨_, has, exec_cons.mpr ⟨_, hclose, exec_cons.mpr ⟨_, hverify, rfl⟩⟩⟩⟩

end

/-! ## One digest -/

/-- The digest depends on the bytes alone, when an update with nothing changes nothing. -/
theorem HashAlgo.feed_eq {algo : HashAlgo} (hstreams : algo.Streams)
    (hnil : algo.update algo.new [] = algo.new) (pieces : List Bytes) :
    algo.feed pieces = algo.update algo.new pieces.flatten := by
  cases pieces with
  | nil => exact hnil.symm
  | cons piece pieces => exact feed_flatten hstreams

/-- The indices reported to `update_hashed`. -/
def hashedIndices (calls : List ProgressCall) : List ℕ :=
  calls.filterMap fun
    | .updateHashed i => some i
    | .setOverlay .. => none

theorem hashedIndices_map (chunks : List ℕ) : hashedIndices (chunks.map .updateHashed) = chunks := by
  simp [hashedIndices, List.filterMap_map]

section
variable {algo : HashAlgo} {spec : HashSpec} {file : Bytes} {chunkSize : ℕ} {sizes : ℕ → ℕ}

theorem hashedIndices_append (calls calls' : List ProgressCall) :
    hashedIndices (calls ++ calls') = hashedIndices calls ++ hashedIndices calls' :=
  List.filterMap_append ..

/-- `verify_file`, with and without `file_digest`. -/
theorem verifyFile_spec (spec : HashSpec) (file : Bytes) (sizes : ℕ → ℕ) (hstreams : algo.Streams)
    (hnil : algo.update algo.new [] = algo.new) (hchunk : 0 < chunkSize) (hasFileDigest : Bool) :
    ∃ v, verifyFile algo spec hasFileDigest true sizes file chunkSize = some v ∧
      v.digest = algo.hexdigest (algo.update algo.new file) ∧ v.isValid = isValid spec v.digest ∧
      hashedIndices v.calls = List.range ((file.length + chunkSize - 1) / chunkSize) := by
  have hlast : ∀ valid : Bool, hashedIndices
      [if valid then .setOverlay " CHECKSUM OK " true (some "blue")
        else .setOverlay " CHECKSUM INVALID " false (some "red")] = [] := by decide
  cases hasFileDigest with
  | true =>
    refine ⟨_, rfl, rfl, rfl, ?_⟩
    simp only [if_true]
    rw [hashedIndices_append, hashedIndices_append, hlast, hashedIndices_map, List.append_nil]
    rfl
  | false =>
    have hone : ∀ i ∈ List.range (count file.length chunkSize), ∀ s, ∃ s',
        hashChunk sizes file (i * chunkSize) (min chunkSize (file.length - i * chunkSize))
          (min chunkSize (file.length - i * chunkSize) + 1) 0 s = some s' ∧ s'.calls = s.calls ∧
        s'.pieces.flatten = s.pieces.flatten ++
          (file.drop (i * chunkSize)).take (blockLength file.length chunkSize i) :=
      fun i _ _ => hashChunk_whole (i * chunkSize) (blockLength file.length chunkSize i)
    obtain ⟨s, hs, hcalls, hfed⟩ := hashLoop_spec true
      (s := { calls := [.setOverlay " VERIFYING " true (some "blue")] }) _ hone
    have hwhole : s.pieces.flatten = file := by
      rw [hfed, flatten_blocks hchunk]
      rfl
    refine ⟨_, congrArg (Option.map _) (congrArg (Option.map _) hs), ?_, rfl, ?_⟩
    · simp only [HashAlgo.feed_eq hstreams hnil, hwhole]
    · simp only [hcalls, if_true]
      rw [hashedIndices_append, hashedIndices_append, hlast, hashedIndices_map, List.append_nil]
      rfl

/-- The chunks of the hasher are the file, also where a size of zero counts as unknown. -/
theorem flatten_chunks {job : HashJob} (hchunk : 0 < job.chunkSize) (hsize : job.totalSize = file.length)
    (hcount : job.totalChunks = computeTotalChunks job.totalSize job.chunkSize) :
    ((List.range job.totalChunks).map fun i =>
      (file.drop (i * job.chunkSize)).take (job.chunkLength i)).flatten = file := by
  by_cases hnil : file = []
  · simp [hnil]
  have hpos : 0 < job.totalSize := by
    have := List.length_pos_iff.mpr hnil
    omega
  have hnat : job.totalSize.toNat = file.length := by omega
  have hn : job.totalChunks = count file.length job.chunkSize := by
    rw [hcount, computeTotalChunks_eq_count hpos hchunk, hnat]
  refine Eq.trans ?_ (flatten_blocks hchunk file)
  rw [hn]
  congr 1
  refine List.map_congr_left fun i hi => ?_
  have hstart := (lt_count_iff hchunk).mp (List.mem_range.mp hi)
  rw [HashJob.chunkLength_eq_blockLength hpos (hnat ▸ hstart), hnat]

/-- `_hash_all_chunks`. -/
theorem hashAllChunks_spec {cfg : DownloadConfig} {metadata : FileMetadata} (spec : HashSpec)
    (served : ℕ → Bool) (sizes : ℕ → ℕ) (hstreams : algo.Streams) (hnil : algo.update algo.new [] = algo.new)
    (hchunk : 0 < cfg.chunkSize) (hsize : metadata.totalSize = file.length) :
    ∃ h calls, hashAllChunks (initHasher cfg metadata spec algo) true served sizes file = some (h, calls) ∧
      h.computedHash = some (algo.hexdigest (algo.update algo.new file)) ∧
      h.verified = some (isValid spec (algo.hexdigest (algo.update algo.new file))) ∧
      hashedIndices calls = List.range (computeTotalChunks metadata.totalSize cfg.chunkSize) := by
  obtain ⟨job, hjob⟩ : ∃ job, job = initHasher cfg metadata spec algo := ⟨_, rfl⟩
  have hone : ∀ i ∈ List.range job.totalChunks, ∀ s, ∃ s',
      hashSingleChunk job (served i) sizes file i s = some s' ∧ s'.calls = s.calls ∧
      s'.pieces.flatten =
        s.pieces.flatten ++ (file.drop (i * job.chunkSize)).take (job.chunkLength i) := by
    intro i _ s
    unfold hashSingleChunk
    cases served i with
    | true => exact ⟨_, rfl, rfl, by simp⟩
    | false => exact hashChunk_whole _ _
  obtain ⟨s, hs, hcalls, hfed⟩ := hashLoop_spec true (s := {}) _ hone
  subst hjob
  have hwhole : s.pieces.flatten = file := hfed.trans (flatten_chunks hchunk hsize rfl)
  have hdigest : algo.feed s.pieces = algo.update algo.new file := by
    rw [HashAlgo.feed_eq hstreams hnil, hwhole]
  refine ⟨_, _, congrArg (Option.map _) hs, ?_, ?_, ?_⟩
  · simp only [StreamingHasher.verifyHash, initHasher, hdigest]
  · simp only [StreamingHasher.verifyHash, initHasher, hdigest, isValid]
    cases spec.expected <;> rfl
  · rw [hcalls]
    exact hashedIndices_map _

/-- All hashing paths give one digest: both branches of `verify_file`, and the hasher of a download,
however the reads fall and whichever chunks `read_chunk` serves. Each reports the chunks of its own
tiling once, in order. -/
theorem one_digest (algo : HashAlgo) (hstreams : algo.Streams)
    (hnil : algo.update algo.new [] = algo.new) (spec : HashSpec) (file : Bytes) (c₁ : ℕ) (h₁ : 0 < c₁)
    (cfg : DownloadConfig) (h₂ : 0 < cfg.chunkSize) (metadata : FileMetadata)
    (hsize : metadata.totalSize = file.length) (sizes sizes' : ℕ → ℕ) (served : ℕ → Bool) :
    ∃ v w h calls, verifyFile algo spec false true sizes file c₁ = some v ∧
      verifyFile algo spec true true sizes file c₁ = some w ∧
      hashAllChunks (initHasher cfg metadata spec algo) true served sizes' file = some (h, calls) ∧
      v.digest = algo.hexdigest (algo.update algo.new file) ∧ w.digest = v.digest ∧
      h.computedHash = some v.digest ∧ w.isValid = v.isValid ∧ h.verified = some v.isValid ∧
      hashedIndices v.calls = List.range ((file.length + c₁ - 1) / c₁) ∧
      hashedIndices w.calls = List.range ((file.length + c₁ - 1) / c₁) ∧
      hashedIndices calls = List.range (computeTotalChunks metadata.totalSize cfg.chunkSize) ∧
      (file = [] → hashedIndices v.calls = [] ∧ hashedIndices w.calls = []) := by
  obtain ⟨v, hv, hvdigest, hvvalid, hvcalls⟩ :=
    verifyFile_spec spec file sizes hstreams hnil h₁ false
  obtain ⟨w, hw, hwdigest, hwvalid, hwcalls⟩ :=
    verifyFile_spec spec file sizes hstreams hnil h₁ true
  obtain ⟨h, calls, hrun, hdigest, hvalid, hcalls⟩ :=
    hashAllChunks_spec spec served sizes' hstreams hnil h₂ hsize
  have hsame : w.digest = v.digest := hwdigest.trans hvdigest.symm
  refine ⟨v, w, h, calls, hv, hw, hrun, hvdigest, hsame, hvdigest ▸ hdigest, ?_, ?_, hvcalls, hwcalls,
    hcalls, fun hempty => ?_⟩
  · rw [hwvalid, hvvalid, hsame]
  · rw [hvalid, hvvalid, hvdigest]
  · have hzero : (file.length + c₁ - 1) / c₁ = 0 := by
      rw [hempty, List.length_nil, Nat.zero_add, Nat.div_eq_of_lt (by omega)]
    rw [hvcalls, hwcalls, hzero]
    exact ⟨rfl, rfl⟩

end

/-- A digest that is the text itself. -/
def textDigest : HashAlgo where
  State := Bytes
  new := []
  update := fun fed piece => fed ++ piece
  hexdigest := fun fed => String.ofList <| fed.map fun b => Char.ofNat b.toNat

/-- Three bytes in chunks of two and of one, read a byte at a time, and the middle one served. -/
theorem one_digest_three :
    ∃ v w h calls, verifyFile textDigest ⟨"text", some "ABC"⟩ false true (fun _ => 1) [97, 98, 99] 2 = some v ∧
      verifyFile textDigest ⟨"text", some "ABC"⟩ true true (fun _ => 1) [97, 98, 99] 2 = some w ∧
      hashAllChunks (initHasher { urls := ["m"], chunkSize := 1 } ⟨3, true, none, none⟩
        ⟨"text", some "ABC"⟩ textDigest) true (fun i => i == 1) (fun _ => 1) [97, 98, 99] =
          some (h, calls) ∧
      w.isValid = v.isValid ∧ h.verified = some v.isValid ∧ hashedIndices calls = [0, 1, 2] := by
  obtain ⟨v, w, h, calls, hv, hw, hh, -, -, -, hsame, hverdict, -, -, hcalls, -⟩ :=
    one_digest textDigest (fun _ _ _ => List.append_assoc ..) rfl ⟨"text", some "ABC"⟩ [97, 98, 99] 2
      (by decide) { urls := ["m"], chunkSize := 1 } (by decide) ⟨3, true, none, none⟩ rfl (fun _ => 1)
      (fun _ => 1) (fun i => i == 1)
  exact ⟨v, w, h, calls, hv, hw, hh, hsame, hverdict, hcalls⟩

end Mrdl.Hasher
