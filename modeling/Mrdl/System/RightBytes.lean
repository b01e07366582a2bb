import Mrdl.System.Exclusive

/-! # The bytes of a chunk

Where every fetch that returns received the bytes of its range, what it hands to the writer puts the
content's bytes at every offset of its chunk, and no other fetch puts anything there afterwards. This
holds of everything that was ever put in the queue, whatever of it the writer has carried out.
-/

namespace Mrdl.System
open FileBytes Downloader Workers Writer Hasher Runs
set_option autoImplicit false

/-- What the mirror sent. -/
def received (att : Fetcher.Attempt) : Bytes :=
  match att.reply with
  | .answer r => r.pieces.flatten
  | .noAnswer _ => []

/-- A fetch that will return received the bytes of its range. -/
def ReceivesRight (S : Setup) (content : Bytes) (T : Traffic) : SysAct → Prop
  | .begin w att =>
      match T.pool.pcOf w with
      | some (.fetching item _) =>
          match Fetcher.fetch S.cfg (T.tasks w).fetcher item.chunkIdx.toNat att with
          | some ⟨_, .returned n, _⟩ =>
              (received att).take n = (content.drop (item.chunkIdx.toNat * S.cfg.chunkSize)).take n
          | _ => True
      | _ => True
  | _ => True

instance (S : Setup) (content : Bytes) (T : Traffic) (a : SysAct) : Decidable (ReceivesRight S content T a) := by
  unfold ReceivesRight
  split
  · split
    · split <;> infer_instance
    · infer_instance
  · infer_instance

/-- Carried out in order, the commands put the content's bytes in chunk `i`. -/
def Agrees (S : Setup) (content : Bytes) (cmds : List Command) (i : ℕ) : Prop :=
  ∀ b < S.size, b / S.cfg.chunkSize = i → lastWritten (writesOf cmds) b = content[b]?

/-- A write of the file's bytes was given up on. -/
def Spoiled (S : Setup) (T : Traffic) : Prop := ∃ cmd ∈ T.dropped, ∃ b < S.size, cmd.Covers b

structure Right (S : Setup) (content : Bytes) (ev : Events) (T : Traffic) : Prop where
  calls : ∀ w c n, (T.tasks w).call = some c → c.outcome = .returned n →
    Agrees S content (T.log ++ c.todo) c.chunkIdx ∨
      (ev.stopThread = true ∧ c.putting = false ∧ Spoiled S T)
  recorded : ∀ i n, (i, n) ∈ T.recorded → i ∈ T.pool.completed ∧ (Agrees S content T.log i ∨ Spoiled S T)
  marks : ∀ before after i, T.log = before ++ .mark i :: after → Agrees S content before i
  orphans : ∀ i, .mark i ∈ T.orphans → Agrees S content T.log i

section
variable {S : Setup} {content : Bytes} {ev ev' : Events} {T T' : Traffic}

/-! ## Sequences of commands -/

theorem lastWritten_skip {before mid after : List Command} {b : ℕ} (h : ∀ cmd ∈ mid, ¬ cmd.Covers b) :
    lastWritten (writesOf (before ++ mid ++ after)) b = lastWritten (writesOf (before ++ after)) b := by
  rw [writesOf_append, lastWritten_append, lastWritten_append_of_not_covers h, writesOf_append,
    lastWritten_append]

theorem agrees_skip {before mid after : List Command} {i : ℕ} (h : ∀ cmd ∈ mid, ¬ Touches S i cmd) :
    Agrees S content (before ++ mid ++ after) i ↔ Agrees S content (before ++ after) i := by
  have hskip : ∀ b, b / S.cfg.chunkSize = i → ∀ cmd ∈ mid, ¬ cmd.Covers b :=
    fun b hb cmd hcmd hcov => h cmd hcmd ⟨b, hb, hcov⟩
  constructor
  · intro hall b hb hi
    rw [← lastWritten_skip (hskip b hi)]
    exact hall b hb hi
  · intro hall b hb hi
    rw [lastWritten_skip (hskip b hi)]
    exact hall b hb hi

theorem agrees_skip_last {before mid : List Command} {i : ℕ} (h : ∀ cmd ∈ mid, ¬ Touches S i cmd) :
    Agrees S content (before ++ mid) i ↔ Agrees S content before i := by
  rw [← List.append_nil (before ++ mid), agrees_skip h, List.append_nil]

theorem mark_untouched (i j : ℕ) : ∀ cmd ∈ [Command.mark j], ¬ Touches S i cmd := by
  intro cmd hcmd htouch
  rw [List.mem_singleton.mp hcmd] at htouch
  obtain ⟨b, -, hcov⟩ := htouch
  exact hcov

theorem received_eq {att : Fetcher.Attempt} {r : Fetcher.Response} (h : att.reply = .answer r) :
    received att = r.pieces.flatten := by
  rw [received, h]

/-- The commands of a fetch that received the right bytes put them in its chunk. -/
theorem fetch_agrees {f : Fetcher.ChunkFetcher} {i n : ℕ} {att : Fetcher.Attempt} {res : Fetcher.FetchResult}
    (hsize : 0 < S.metadata.totalSize) (hchunk : 0 < S.cfg.chunkSize)
    (hbuf : f.buffer.length = S.cfg.flushThreshold) (hm : f.metadata = S.metadata)
    (h : Fetcher.fetch S.cfg f i att = some res) (hn : res.outcome = .returned n)
    (hcontent : content.length = S.size)
    (hright : (received att).take n = (content.drop (i * S.cfg.chunkSize)).take n) (log : List Command) :
    Agrees S content (log ++ Fetcher.commands res.effects) i := by
  intro b hb hi
  obtain ⟨r, ws, d, rfl, hd⟩ := Fetcher.fetch_delivered hbuf h hn
  have hclip := hd.clipped
  have hcmd := hd.handed
  have hexp : Fetcher.expectation S.cfg f.metadata (i * S.cfg.chunkSize) att.reply =
      some (Fetcher.rangeEnd S.cfg S.metadata.totalSize (i * S.cfg.chunkSize) -
        (i * S.cfg.chunkSize : ℕ) + 1) := by
    rw [hm]
    exact Fetcher.expectation_known hsize
  have hlen := hd.expected _ hexp
  -- what was taken of the body is the range of the content
  have hdata : d = (content.drop (i * S.cfg.chunkSize)).take d.length := by
    rw [← hright, received_eq hd.answered]
    rw [hexp, Fetcher.clip, ← hlen, Int.toNat_natCast] at hclip
    exact hclip
  have hlow : i * S.cfg.chunkSize ≤ b := by
    rw [← hi]
    exact Nat.div_mul_le_self b _
  have hhigh : b < i * S.cfg.chunkSize + S.cfg.chunkSize := by
    rw [← hi]
    exact Nat.lt_div_mul_add hchunk
  have hin : b - i * S.cfg.chunkSize < d.length := by
    unfold Fetcher.rangeEnd at hlen
    unfold Setup.size at hb
    push_cast at hlen
    omega
  have hbyte : lastWritten (writesOf (Fetcher.commands res.effects)) b = content[b]? := by
    have hmeta := hd.metadata_eq
    rw [hm, Fetcher.metadataAfter_known hsize] at hmeta
    rw [hmeta, if_neg (by omega), List.nil_append] at hcmd
    rw [hcmd, writesOf_append, writesOf_asCommands, writesOf_mark, writesOf_nil, List.append_nil,
      hd.tiles.lastWritten, if_pos hlow, hdata, List.getElem?_take_of_lt hin, List.getElem?_drop,
      Nat.add_sub_cancel' hlow]
  rw [writesOf_append, lastWritten_append, hbyte, List.getElem?_eq_getElem (by omega), Option.some_or]

/-! ## The steps -/

theorem not_completed_of_hands {item : QueueItem} {t : ℚ} {w i : ℕ} (hp : Conserved S.chunks ev T.pool)
    (hpc : T.pool.pcOf w = some (.fetching item t)) (hidx : item.chunkIdx = (i : ℤ)) :
    i ∉ T.pool.completed := by
  intro hmem
  have hzero := (hp.in_hands hpc hidx).2.1
  rw [WorkerPool.done, if_pos hmem] at hzero
  cases hzero

theorem Gone.not_completed {i : ℕ} (h : Gone T i) : i ∉ T.pool.completed := by
  intro hmem
  unfold Gone at h
  rw [WorkerPool.done, if_pos hmem] at h
  omega

/-- What was handed over of the other chunks stays right when a command of chunk `i` is put. -/
theorem Right.logged {i : ℕ} {cmd : Command} (h : Right S content ev T) (hown : Owned S i cmd)
    (hfree : i ∉ T.pool.completed) (hmark : ∀ j, cmd = .mark j → Agrees S content T.log j)
    (halone : ∀ j, .mark j ∈ T.orphans → ¬ Touches S j cmd) :
    (∀ j n, (j, n) ∈ T.recorded →
      j ∈ T.pool.completed ∧ (Agrees S content (T.log ++ [cmd]) j ∨ Spoiled S T)) ∧
      (∀ before after j, T.log ++ [cmd] = before ++ .mark j :: after → Agrees S content before j) ∧
      ∀ j, .mark j ∈ T.orphans → Agrees S content (T.log ++ [cmd]) j := by
  refine ⟨fun j n hjn => ?_, fun before after j hsplit => ?_, fun j hj => ?_⟩
  · obtain ⟨hmem, hright⟩ := h.recorded j n hjn
    refine ⟨hmem, hright.imp (fun hagree => (agrees_skip_last fun x hx htouch => ?_).mpr hagree) id⟩
    rw [List.mem_singleton.mp hx] at htouch
    exact hfree (hown.chunk_eq htouch ▸ hmem)
  · rcases append_single_split hsplit with ⟨-, rfl, hcmd⟩ | ⟨rest, -, hlog⟩
    · exact hmark j hcmd.symm
    · exact h.marks before rest j hlog
  · refine (agrees_skip_last fun x hx => ?_).mpr (h.orphans j hj)
    rw [List.mem_singleton.mp hx]
    exact halone j hj

theorem Right.pooled {a : PoolAct} (h : Right S content ev T)
    (hpool : poolStep ev T.pool a = some (ev', T'.pool))
    (hcalls : ∀ v c, (T'.tasks v).call = some c → (T.tasks v).call = some c)
    (hrec : ∀ i n, (i, n) ∈ T'.recorded → (i, n) ∈ T.recorded ∨
      (i ∈ T'.pool.completed ∧ (Agrees S content T.log i ∨ Spoiled S T)))
    (horphans : ∀ i, .mark i ∈ T'.orphans → Agrees S content T.log i)
    (hlog : T'.log = T.log) (hdropped : T'.dropped = T.dropped) : Right S content ev T' := by
  have hspoiled : Spoiled S T' = Spoiled S T := by
    unfold Spoiled
    rw [hdropped]
  refine ⟨fun v c n hc => ?_, fun i n hin => ?_, ?_, fun i hi => ?_⟩
  · rw [hlog, hspoiled]
    exact h.calls v c n (hcalls v c hc)
  · rw [hlog, hspoiled]
    rcases hrec i n hin with hold | hnew
    · obtain ⟨hmem, hright⟩ := h.recorded i n hold
      exact ⟨poolStep_completed_mono hpool hmem, hright⟩
    · exact hnew
  · rw [hlog]
    exact h.marks
  · rw [hlog]
    exact horphans i hi

theorem Right.goOn {w : ℕ} {c d : Call} (h : Right S content ev T) (hidx : d.chunkIdx = c.chunkIdx)
    (hspoiled : Spoiled S T → Spoiled S T')
    (hd : ∀ n, d.outcome = .returned n → Agrees S content (T.log ++ d.todo) c.chunkIdx ∨
      (ev.stopThread = true ∧ d.putting = false ∧ Spoiled S T'))
    (htasks : T'.tasks = (T.setCall w (some d)).tasks) (hpool : T'.pool = T.pool)
    (hrec : T'.recorded = T.recorded) (horphans : T'.orphans = T.orphans) (hlog : T'.log = T.log) :
    Right S content ev T' := by
  refine ⟨fun v e n he hn => ?_, fun i n hin => ?_, ?_, ?_⟩
  · rw [htasks] at he
    rw [hlog]
    rcases setCall_some he with ⟨rfl, hsome⟩ | ⟨-, he⟩
    · cases hsome
      rw [hidx]
      exact hd n hn
    · exact (h.calls v e n he hn).imp id fun ⟨hstop, hput, hs⟩ => ⟨hstop, hput, hspoiled hs⟩
  · rw [hrec] at hin
    rw [hpool, hlog]
    exact (h.recorded i n hin).imp id fun hright => hright.imp id hspoiled
  · rw [hlog]
    exact h.marks
  · rw [hlog, horphans]
    exact h.orphans

theorem Right.put {w i : ℕ} {cmd : Command} {rest : List Command} {outcome : Fetcher.Outcome}
    (h : Right S content ev T) (hx : Exclusive S T) (hst : Staffed S T) (hp : Conserved S.chunks ev T.pool)
    (call : (T.tasks w).call = some ⟨i, cmd :: rest, true, outcome⟩) :
    Right S content ev { T.setCall w (some ⟨i, rest, false, outcome⟩) with log := T.log ++ [cmd] } := by
  obtain ⟨item, t, hpc, hidx⟩ := hst.busy w _ call
  have hown : Owned S i cmd := hx.todo w _ call cmd (List.mem_cons_self ..)
  have hno : .mark i ∉ T.log ++ T.orphans := hx.unmarked hst call (List.cons_ne_nil _ _)
  have hright : ∀ n, outcome = .returned n → Agrees S content (T.log ++ (cmd :: rest)) i := by
    intro n hn
    rcases h.calls w _ n call hn with hagree | ⟨-, hput, -⟩
    · exact hagree
    · cases hput
  have hmark : ∀ j, cmd = .mark j → Agrees S content T.log j := by
    intro j hj
    subst hj
    have hji : j = i := hown
    subst hji
    obtain ⟨hnil, n, hn⟩ := hx.last w _ call [] rest j rfl
    have hagree := hright n hn
    rw [hnil] at hagree
    exact (agrees_skip_last (mark_untouched _ _)).mp hagree
  have halone : ∀ j, .mark j ∈ T.orphans → ¬ Touches S j cmd := by
    intro j hj htouch
    rw [hown.chunk_eq htouch] at hj
    exact hno (List.mem_append_right _ hj)
  obtain ⟨hrec, hmarks, horphans⟩ :=
    h.logged hown (not_completed_of_hands hp hpc hidx) hmark halone
  refine ⟨fun v c n hc hn => ?_, hrec, hmarks, horphans⟩
  rcases setCall_some hc with ⟨rfl, hsome⟩ | ⟨hv, hc⟩
  · cases hsome
    left
    have hagree := hright n hn
    rwa [← List.singleton_append, ← List.append_assoc] at hagree
  · -- the other fetches are of other chunks
    refine (h.calls v c n hc hn).imp (fun hagree => (agrees_skip fun x hx htouch => ?_).mpr hagree) id
    rw [List.mem_singleton.mp hx] at htouch
    obtain ⟨item', t', hpc', hidx'⟩ := hst.busy v c hc
    rw [hown.chunk_eq htouch] at hidx'
    exact hv (hp.one_worker hpc' hpc hidx' hidx)

theorem Right.dropped {w i : ℕ} {cmd : Command} {rest : List Command} {outcome : Fetcher.Outcome}
    (h : Right S content ev T) (call : (T.tasks w).call = some ⟨i, cmd :: rest, false, outcome⟩)
    (stopped : ev.stopThread = true) :
    Right S content ev
      { T.setCall w (some ⟨i, rest, false, outcome⟩) with dropped := T.dropped ++ [cmd] } := by
  have hspoiled : Spoiled S T → Spoiled S { T with dropped := T.dropped ++ [cmd] } := by
    rintro ⟨x, hx, hb⟩
    exact ⟨x, List.mem_append_left _ hx, hb⟩
  refine h.goOn (c := ⟨i, cmd :: rest, false, outcome⟩) (d := ⟨i, rest, false, outcome⟩) rfl
    hspoiled (fun n hn => ?_) rfl rfl rfl rfl rfl
  by_cases hcov : ∃ b < S.size, cmd.Covers b
  · exact Or.inr ⟨stopped, rfl, cmd, List.mem_append_right _ (List.mem_singleton.mpr rfl), hcov⟩
  · rcases h.calls w _ n call hn with hagree | ⟨-, -, x, hx, hb⟩
    · left
      intro b hb hi
      rw [← hagree b hb hi, ← List.singleton_append, ← List.append_assoc]
      refine (lastWritten_skip fun x hx hxb => hcov ⟨b, hb, ?_⟩).symm
      rwa [List.mem_singleton.mp hx] at hxb
    · exact Or.inr ⟨stopped, rfl, x, List.mem_append_left _ hx, hb⟩

theorem Right.step {a : SysAct} (hsize : 0 < S.metadata.totalSize) (hchunk : 0 < S.cfg.chunkSize)
    (hcontent : content.length = S.size) (h : Right S content ev T) (hx : Exclusive S T) (hst : Staffed S T)
    (hp : Conserved S.chunks ev T.pool) (hreceived : ReceivesRight S content T a)
    (hs : Traffic.Step S ev T a T') : Right S content ev T' := by
  have hcleared : ∀ w v c, ((T.setCall w none).tasks v).call = some c → (T.tasks v).call = some c := by
    intro w v c hc
    rcases setCall_some hc with ⟨-, hnone⟩ | ⟨-, hc⟩
    · cases hnone
    · exact hc
  cases hs with
  | pool a ev' p hpool quiet =>
    exact h.pooled hpool (fun _ _ => id) (fun _ _ => Or.inl) h.orphans rfl rfl
  | returned w i n putting ev' p hpool call =>
    refine h.pooled hpool (hcleared w) (fun j m hjm => ?_) h.orphans rfl rfl
    rcases List.mem_append.mp hjm with hold | hnew
    · exact Or.inl hold
    · cases List.mem_singleton.mp hnew
      right
      obtain ⟨item, t, hpc, hidx⟩ := hst.busy w _ call
      refine ⟨?_, ?_⟩
      · simp only [poolStep, hpc, Option.some.injEq, Prod.mk.injEq] at hpool
        obtain ⟨-, rfl⟩ := hpool
        rw [hidx, Int.toNat_natCast]
        exact mem_record.mpr (Or.inr rfl)
      · have hright := h.calls w _ n call rfl
        rw [List.append_nil] at hright
        exact hright.imp id fun hs => hs.2.2
  | failed w a c ev' p hpool settles only call outcome todo kind =>
    exact h.pooled hpool (hcleared w) (fun _ _ => Or.inl) h.orphans rfl rfl
  | cancelled w ev' p hpool =>
    refine h.pooled hpool (hcleared w) (fun _ _ => Or.inl) (fun i hi => ?_) rfl rfl
    rcases List.mem_append.mp hi with hold | hnew
    · exact h.orphans i hold
    · -- the mark in its put is the last command of a fetch that returns
      unfold Task.inFlight at hnew
      split at hnew
      · rename_i j cmd rest outcome call
        have hcmd := List.mem_singleton.mp hnew
        subst hcmd
        obtain ⟨hnil, n, hout⟩ := hx.last w _ call [] rest i rfl
        have hown : i = j := hx.todo w _ call (.mark i) (List.mem_cons_self ..)
        rw [hnil] at call
        rcases h.calls w _ n call hout with hagree | ⟨-, hput, -⟩
        · rw [hown] at hagree ⊢
          exact (agrees_skip_last (mark_untouched _ _)).mp hagree
        · cases hput
      · cases hnew
  | begin w item t att res hands free hfetch =>
    refine ⟨fun v c n hc hn => ?_, h.recorded, h.marks, h.orphans⟩
    rcases began_some hc with ⟨rfl, rfl⟩ | ⟨-, hc⟩
    · obtain ⟨hmem, hidx⟩ := chunkIdx_of_hands hp hands
      left
      refine fetch_agrees hsize hchunk (hst.buffers v) (hst.metadata hsize v) hfetch hn hcontent ?_ T.log
      have hres : res = ⟨res.effects, .returned n, res.fetcher⟩ := by
        rw [← hn]
      simp only [ReceivesRight, hands, hfetch] at hreceived
      rw [hres] at hreceived
      exact hreceived
    · exact h.calls v c n hc hn
  | drop w i cmd rest outcome call stopped => exact h.dropped call stopped
  | reach w i cmd rest outcome call running =>
    refine h.goOn (c := ⟨i, cmd :: rest, false, outcome⟩) (d := ⟨i, cmd :: rest, true, outcome⟩) rfl id
      (fun n hn => ?_) rfl rfl rfl rfl rfl
    rcases h.calls w _ n call hn with hagree | ⟨hstop, -⟩
    · exact Or.inl hagree
    · rw [running] at hstop
      cases hstop
  | put w i cmd rest outcome call => exact h.put hx hst hp call
  | refuse w i cmd rest outcome call =>
    refine h.goOn (c := ⟨i, cmd :: rest, true, outcome⟩) (d := ⟨i, cmd :: rest, false, outcome⟩) rfl id
      (fun n hn => ?_) rfl rfl rfl rfl rfl
    rcases h.calls w _ n call hn with hagree | ⟨-, hput, -⟩
    · exact Or.inl hagree
    · cases hput
  | orphanPut k before after cmd orphans =>
    have hcmd : cmd ∈ T.orphans := by
      rw [orphans]
      exact List.mem_append_right _ (List.mem_cons_self ..)
    obtain ⟨i, -, hown, hgone⟩ := hx.orphans cmd hcmd
    obtain ⟨hrec, hmarks, horphans⟩ := h.logged hown hgone.not_completed
      (fun j hj => h.orphans j (hj ▸ hcmd)) fun j hj => hx.alone j (List.mem_append_right _ hj) cmd hcmd
    refine ⟨fun v c n hc hn => ?_, hrec, hmarks, fun j hj => horphans j ?_⟩
    · refine (h.calls v c n hc hn).imp (fun hagree => (agrees_skip fun x hx' => ?_).mpr hagree) id
      rw [List.mem_singleton.mp hx']
      exact hx.no_orphan hst hp hc cmd hcmd
    · exact orphans_subset orphans _ hj
  | orphanGone k before after cmd orphans =>
    exact ⟨h.calls, h.recorded, h.marks, fun i hi => h.orphans i (orphans_subset orphans _ hi)⟩

end

end Mrdl.System
