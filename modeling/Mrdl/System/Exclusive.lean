import Mrdl.System.Fetches

/-! # After its mark a chunk is left alone

Every command belongs to the chunk of its fetch and stays inside it. A fetch hands over its mark last,
and a chunk whose mark was handed over is not fetched again. So no write of a chunk is put in the queue
after its mark, whichever way the steps of the workers interleave.
-/

namespace Mrdl.System
open FileBytes Downloader Workers Writer Hasher Runs
set_option autoImplicit false

/-- The command is one of chunk `i`: a write inside the chunk and inside the file, or its mark. -/
def Owned (S : Setup) (i : ℕ) : Command → Prop
  | .write offset data =>
      i * S.cfg.chunkSize ≤ offset ∧ offset + data.length ≤ i * S.cfg.chunkSize + S.cfg.chunkSize ∧
        ((offset + data.length : ℕ) : ℤ) ≤ S.metadata.totalSize
  | .mark j => j = i
  | .truncate _ => False

/-- The command puts a byte of chunk `i`. -/
def Touches (S : Setup) (i : ℕ) (cmd : Command) : Prop := ∃ b, b / S.cfg.chunkSize = i ∧ cmd.Covers b

theorem Owned.chunk_eq {S : Setup} {i j : ℕ} {cmd : Command} (h : Owned S i cmd) (ht : Touches S j cmd) :
    j = i := by
  obtain ⟨b, rfl, hcov⟩ := ht
  cases cmd with
  | write offset data =>
    obtain ⟨hlow, hhigh, -⟩ := h
    obtain ⟨h1, h2⟩ := hcov
    refine Nat.div_eq_of_lt_le ?_ ?_
    · omega
    · rw [Nat.succ_mul]
      omega
  | mark k => exact absurd hcov id
  | truncate n => exact absurd hcov id

/-- The chunk is nowhere in the pool any more. -/
def Gone (T : Traffic) (i : ℕ) : Prop := countOf i T.pool.tokens + T.pool.done i = 0

structure Exclusive (S : Setup) (T : Traffic) : Prop where
  todo : ∀ w c, (T.tasks w).call = some c → ∀ cmd ∈ c.todo, Owned S c.chunkIdx cmd
  last : ∀ w c, (T.tasks w).call = some c → ∀ before after j, c.todo = before ++ .mark j :: after →
    after = [] ∧ ∃ n, c.outcome = .returned n
  log : ∀ cmd ∈ T.log, ∃ i ∈ S.chunks, Owned S i cmd
  orphans : ∀ cmd ∈ T.orphans, ∃ i ∈ S.chunks, Owned S i cmd ∧ Gone T i
  unqueued : ∀ i : ℕ, .mark i ∈ T.log ++ T.orphans → ∀ item ∈ T.pool.queue, item.chunkIdx ≠ (i : ℤ)
  fetched : ∀ i : ℕ, .mark i ∈ T.log ++ T.orphans → ∀ w item t, T.pool.pcOf w = some (.fetching item t) →
    item.chunkIdx = (i : ℤ) →
      ∃ c n, (T.tasks w).call = some c ∧ c.todo = [] ∧ c.outcome = .returned n
  alone : ∀ i, .mark i ∈ T.log ++ T.orphans → ∀ cmd ∈ T.orphans, ¬ Touches S i cmd
  order : ∀ before after i, T.log = before ++ .mark i :: after → ∀ cmd ∈ after, ¬ Touches S i cmd

theorem append_single_split {l before after : List Command} {cmd x : Command}
    (h : l ++ [cmd] = before ++ x :: after) :
    (after = [] ∧ before = l ∧ x = cmd) ∨ ∃ rest, after = rest ++ [cmd] ∧ l = before ++ x :: rest := by
  rcases List.eq_nil_or_concat after with rfl | ⟨rest, y, rfl⟩
  · obtain ⟨h1, h2⟩ := List.append_inj' h rfl
    cases h2
    exact Or.inl ⟨rfl, h1.symm, rfl⟩
  · rw [List.concat_eq_append] at h ⊢
    rw [← List.cons_append, ← List.append_assoc] at h
    obtain ⟨h1, h2⟩ := List.append_inj' h rfl
    cases h2
    exact Or.inr ⟨rest, rfl, h1⟩

section
variable {S : Setup} {ev : Events} {T T' : Traffic}

/-- The commands of a fetch of a file of known size: the chunk's writes, and at the end its mark when
it returns. -/
theorem fetch_commands {f : Fetcher.ChunkFetcher} {i : ℕ} {att : Fetcher.Attempt}
    {res : Fetcher.FetchResult} (hsize : 0 < S.metadata.totalSize) (hi : i < S.totalChunks)
    (hbuf : f.buffer.length = S.cfg.flushThreshold) (hm : f.metadata = S.metadata)
    (h : Fetcher.fetch S.cfg f i att = some res) :
    ∃ ws d, Tiles (i * S.cfg.chunkSize) ws d ∧ (∀ w ∈ ws, Owned S i (.write w.1 w.2)) ∧
      (((∀ n, res.outcome ≠ .returned n) ∧ Fetcher.commands res.effects = asCommands ws) ∨
        (res.outcome = .returned d.length ∧
          Fetcher.commands res.effects = asCommands ws ++ [.mark i])) := by
  have hfit : Fetcher.Fits (Fetcher.expectation S.cfg f.metadata (i * S.cfg.chunkSize) att.reply) [] :=
    fits_nothing att.reply hi fun _ => hm
  obtain ⟨ws, d, hd⟩ := Fetcher.fetch_handed hbuf hfit h
  refine ⟨ws, d, hd.tiles, fun w hw => ?_, ?_⟩
  · have hwithin := hd.tiles.within w hw
    have hext := hd.fits
    rw [hm, Fetcher.expectation_known hsize] at hext
    have hlen := hext _ rfl
    unfold Fetcher.rangeEnd at hlen
    push_cast at hlen
    refine ⟨hwithin.1, ?_, ?_⟩
    · omega
    · push_cast
      omega
  · rcases hd.ended with hraised | ⟨r, -, -, -, hout, -, hcmd⟩
    · exact Or.inl hraised
    · have hmeta := hd.metadata_eq
      rw [hm, Fetcher.metadataAfter_known hsize] at hmeta
      rw [hmeta, if_neg (by omega), List.nil_append] at hcmd
      exact Or.inr ⟨hout, hcmd⟩

theorem mem_asCommands {ws : List (Write UInt8)} {cmd : Command} (h : cmd ∈ asCommands ws) :
    ∃ w ∈ ws, cmd = .write w.1 w.2 := by
  obtain ⟨w, hw, rfl⟩ := List.mem_map.mp h
  exact ⟨w, hw, rfl⟩

theorem fetch_owned {f : Fetcher.ChunkFetcher} {i : ℕ} {att : Fetcher.Attempt}
    {res : Fetcher.FetchResult} (hsize : 0 < S.metadata.totalSize) (hi : i < S.totalChunks)
    (hbuf : f.buffer.length = S.cfg.flushThreshold) (hm : f.metadata = S.metadata)
    (h : Fetcher.fetch S.cfg f i att = some res) :
    (∀ cmd ∈ Fetcher.commands res.effects, Owned S i cmd) ∧
      ∀ before after j, Fetcher.commands res.effects = before ++ .mark j :: after →
        after = [] ∧ ∃ n, res.outcome = .returned n := by
  obtain ⟨ws, d, -, hown, hend⟩ := fetch_commands hsize hi hbuf hm h
  have hwrites : ∀ cmd ∈ asCommands ws, Owned S i cmd := by
    intro cmd hcmd
    obtain ⟨w, hw, rfl⟩ := mem_asCommands hcmd
    exact hown w hw
  have hnomark : ∀ before after j, asCommands ws ≠ before ++ .mark j :: after := by
    intro before after j heq
    have hmem : .mark j ∈ asCommands ws := by
      rw [heq]
      exact List.mem_append_right _ (List.mem_cons_self ..)
    obtain ⟨w, -, hw⟩ := mem_asCommands hmem
    cases hw
  rcases hend with ⟨-, hcmds⟩ | ⟨hout, hcmds⟩
  · rw [hcmds]
    exact ⟨hwrites, fun before after j heq => absurd heq (hnomark before after j)⟩
  · rw [hcmds]
    refine ⟨fun cmd hcmd => ?_, fun before after j heq => ?_⟩
    · rcases List.mem_append.mp hcmd with hw | hmark
      · exact hwrites cmd hw
      · rw [List.mem_singleton.mp hmark]
        exact rfl
    · rcases append_single_split heq with ⟨hnil, -, -⟩ | ⟨rest, -, hws⟩
      · exact ⟨hnil, d.length, hout⟩
      · exact absurd hws (hnomark before rest j)

/-! ## One fetch of a chunk -/

/-- A worker with a command left holds a chunk whose mark was not handed over. -/
theorem Exclusive.unmarked {w : ℕ} {c : Call} (h : Exclusive S T) (hst : Staffed S T)
    (call : (T.tasks w).call = some c) (htodo : c.todo ≠ []) : .mark c.chunkIdx ∉ T.log ++ T.orphans := by
  intro hmark
  obtain ⟨item, t, hpc, hidx⟩ := hst.busy w c call
  obtain ⟨c', n, hcall, hnil, -⟩ := h.fetched c.chunkIdx hmark w item t hpc hidx
  rw [call] at hcall
  cases hcall
  exact htodo hnil

/-- A chunk that is fetched has no put left behind. -/
theorem Exclusive.no_orphan {w : ℕ} {c : Call} (h : Exclusive S T) (hst : Staffed S T)
    (hp : Conserved S.chunks ev T.pool) (call : (T.tasks w).call = some c) :
    ∀ cmd ∈ T.orphans, ¬ Touches S c.chunkIdx cmd := by
  intro cmd hcmd htouch
  obtain ⟨j, -, hown, hgone⟩ := h.orphans cmd hcmd
  obtain ⟨item, t, hpc, hidx⟩ := hst.busy w c call
  have hone := (hp.in_hands hpc hidx).1
  rw [hown.chunk_eq htouch] at hone
  unfold Gone at hgone
  omega

theorem Staffed.chunk_mem {w : ℕ} {c : Call} (hst : Staffed S T) (hp : Conserved S.chunks ev T.pool)
    (call : (T.tasks w).call = some c) : c.chunkIdx ∈ S.chunks := by
  obtain ⟨item, t, hpc, hidx⟩ := hst.busy w c call
  have hmem := (chunkIdx_of_hands hp hpc).1
  rwa [hidx, Int.toNat_natCast] at hmem

/-! ## The steps -/

theorem Exclusive.pooled {a : PoolAct} {ev' : Events} (h : Exclusive S T)
    (hp : Conserved S.chunks ev T.pool) (hpool : poolStep ev T.pool a = some (ev', T'.pool))
    (hrest : ∀ v, a.settles v = false → T'.tasks v = T.tasks v)
    (hsettled : ∀ v, a.settles v = true → (T'.tasks v).call = none)
    (hfail : ∀ v typeName message, a = .fetchFailed v typeName message false →
      ∀ c n, (T.tasks v).call = some c → c.outcome ≠ .returned n)
    (hlog : T'.log = T.log) (horphans : T'.orphans = T.orphans) : Exclusive S T' := by
  have hhand := poolStep_handling hpool
  have hsame : ∀ v c, (T'.tasks v).call = some c → T'.tasks v = T.tasks v := by
    intro v c hc
    cases hset : a.settles v with
    | false => exact hrest v hset
    | true =>
      rw [hsettled v hset] at hc
      cases hc
  refine ⟨fun v c hc => ?_, fun v c hc => ?_, ?_, ?_, ?_, ?_, ?_, ?_⟩
  · rw [hsame v c hc] at hc
    exact h.todo v c hc
  · rw [hsame v c hc] at hc
    exact h.last v c hc
  · rw [hlog]
    exact h.log
  · rw [horphans]
    intro cmd hcmd
    obtain ⟨i, hi, hown, hgone⟩ := h.orphans cmd hcmd
    have hplaces := ((poolStep_change hp.ledger hpool).places hp i).1
    refine ⟨i, hi, hown, ?_⟩
    unfold Gone at hgone ⊢
    omega
  · rw [hlog, horphans]
    intro i hmark item hitem
    rcases hhand.queue item hitem with hold | hs | ⟨v, typeName, message, ha, item₀, t, hpc, hidx⟩
    · exact h.unqueued i hmark item hold
    · rw [hs]
      unfold stopSentinel
      omega
    · intro hi
      obtain ⟨c, n, hcall, -, hout⟩ := h.fetched i hmark v item₀ t hpc (hidx.symm.trans hi)
      exact hfail v typeName message ha c n hcall hout
  · rw [hlog, horphans]
    intro i hmark v item t hpc hidx
    rcases hhand.takes v item t hpc with hold | ⟨-, hqueue⟩
    · have hset : a.settles v = false := by
        cases hset : a.settles v with
        | false => rfl
        | true => exact absurd hpc (hhand.settled v hset item t)
      rw [hrest v hset]
      exact h.fetched i hmark v item t hold hidx
    · exact absurd hidx (h.unqueued i hmark item hqueue)
  · rw [hlog, horphans]
    exact h.alone
  · rw [hlog]
    exact h.order

theorem Exclusive.goOn {w : ℕ} {c d : Call} (h : Exclusive S T) (call : (T.tasks w).call = some c)
    (hne : c.todo ≠ []) (hidx : d.chunkIdx = c.chunkIdx) (hout : d.outcome = c.outcome)
    (htodo : d.todo <:+ c.todo) : Exclusive S (T.setCall w (some d)) := by
  refine ⟨fun v e he => ?_, fun v e he => ?_, h.log, h.orphans, h.unqueued, fun i hmark v item t hpc hi => ?_,
    h.alone, h.order⟩
  · rcases setCall_some he with ⟨rfl, hsome⟩ | ⟨-, he⟩
    · cases hsome
      rw [hidx]
      exact fun cmd hcmd => h.todo v c call cmd (htodo.subset hcmd)
    · exact h.todo v e he
  · rcases setCall_some he with ⟨rfl, hsome⟩ | ⟨-, he⟩
    · cases hsome
      intro before after j hsplit
      obtain ⟨gone, hgone⟩ := htodo
      rw [hout]
      refine h.last v c call (gone ++ before) after j ?_
      rw [← hgone, hsplit, List.append_assoc]
    · exact h.last v e he
  · by_cases hv : v = w
    · subst hv
      obtain ⟨c', n, hcall, hnil, -⟩ := h.fetched i hmark v item t hpc hi
      rw [call] at hcall
      cases hcall
      exact absurd hnil hne
    · rw [setCall_call_other T hv]
      exact h.fetched i hmark v item t hpc hi

/-- A command of an unmarked chunk is put in the queue; if it is the mark, nothing of the chunk is left. -/
theorem Exclusive.logged {i : ℕ} {cmd : Command} (h : Exclusive S T) (hi : i ∈ S.chunks)
    (hown : Owned S i cmd) (hno : .mark i ∉ T.log ++ T.orphans)
    (hqueue : cmd = .mark i → ∀ item ∈ T.pool.queue, item.chunkIdx ≠ (i : ℤ))
    (hfetch : cmd = .mark i → ∀ w item t, T.pool.pcOf w = some (.fetching item t) →
      item.chunkIdx = (i : ℤ) → ∃ c n, (T.tasks w).call = some c ∧ c.todo = [] ∧ c.outcome = .returned n)
    (halone : ∀ x ∈ T.orphans, ¬ Touches S i x) : Exclusive S { T with log := T.log ++ [cmd] } := by
  have hmarks : ∀ j, .mark j ∈ T.log ++ [cmd] ++ T.orphans →
      .mark j ∈ T.log ++ T.orphans ∨ (j = i ∧ cmd = .mark i) := by
    intro j hj
    simp only [List.mem_append, List.mem_singleton] at hj ⊢
    rcases hj with (hj | hj) | hj
    · exact Or.inl (Or.inl hj)
    · subst hj
      cases hown
      exact Or.inr ⟨rfl, rfl⟩
    · exact Or.inl (Or.inr hj)
  refine ⟨h.todo, h.last, fun x hx => ?_, h.orphans, fun j hj => ?_, fun j hj => ?_, fun j hj => ?_,
    fun before after j hsplit x hx => ?_⟩
  · rcases List.mem_append.mp hx with hold | hnew
    · exact h.log x hold
    · rw [List.mem_singleton.mp hnew]
      exact ⟨i, hi, hown⟩
  · rcases hmarks j hj with hold | ⟨rfl, hcmd⟩
    · exact h.unqueued j hold
    · exact hqueue hcmd
  · rcases hmarks j hj with hold | ⟨rfl, hcmd⟩
    · exact h.fetched j hold
    · exact hfetch hcmd
  · rcases hmarks j hj with hold | ⟨rfl, -⟩
    · exact h.alone j hold
    · exact halone
  · rcases append_single_split hsplit with ⟨rfl, -, -⟩ | ⟨rest, rfl, hlog⟩
    · cases hx
    · rcases List.mem_append.mp hx with hold | hnew
      · exact h.order before rest j hlog x hold
      · rw [List.mem_singleton.mp hnew]
        intro htouch
        have hji := hown.chunk_eq htouch
        subst hji
        refine hno (List.mem_append_left _ ?_)
        rw [hlog]
        exact List.mem_append_right _ (List.mem_cons_self ..)

/-- The put of a cancelled fetch goes on in its thread. -/
theorem Exclusive.orphaned {i : ℕ} {cmd : Command} (h : Exclusive S T) (hi : i ∈ S.chunks)
    (hown : Owned S i cmd) (hgone : Gone T i) (hno : .mark i ∉ T.log ++ T.orphans)
    (halone : ∀ x ∈ T.orphans, ¬ Touches S i x) :
    Exclusive S { T with orphans := T.orphans ++ [cmd] } := by
  have hmarks : ∀ j, .mark j ∈ T.log ++ (T.orphans ++ [cmd]) →
      .mark j ∈ T.log ++ T.orphans ∨ (j = i ∧ cmd = .mark i) := by
    intro j hj
    rw [← List.append_assoc] at hj
    rcases List.mem_append.mp hj with hold | hnew
    · exact Or.inl hold
    · have hcmd := List.mem_singleton.mp hnew
      subst hcmd
      cases hown
      exact Or.inr ⟨rfl, rfl⟩
  have hempty : ∀ item ∈ T.pool.tokens, item.chunkIdx ≠ (i : ℤ) := by
    intro item hitem heq
    have hpos := countOf_pos hitem heq
    unfold Gone at hgone
    omega
  refine ⟨h.todo, h.last, h.log, fun x hx => ?_, fun j hj => ?_, fun j hj => ?_, fun j hj x hx => ?_,
    h.order⟩
  · rcases List.mem_append.mp hx with hold | hnew
    · exact h.orphans x hold
    · rw [List.mem_singleton.mp hnew]
      exact ⟨i, hi, hown, hgone⟩
  · rcases hmarks j hj with hold | ⟨rfl, -⟩
    · exact h.unqueued j hold
    · exact fun item hitem => hempty item (List.mem_append_left _ hitem)
  · rcases hmarks j hj with hold | ⟨rfl, -⟩
    · exact h.fetched j hold
    · intro w item t hpc hidx
      exact absurd hidx (hempty item (List.mem_append_right _ (mem_hands_of_pcOf hpc)))
  · rcases hmarks j hj with hold | ⟨rfl, hcmd⟩
    · rcases List.mem_append.mp hx with hx | hx
      · exact h.alone j hold x hx
      · rw [List.mem_singleton.mp hx]
        intro htouch
        have hji := hown.chunk_eq htouch
        subst hji
        exact hno hold
    · rcases List.mem_append.mp hx with hx | hx
      · exact halone x hx
      · rw [List.mem_singleton.mp hx, hcmd]
        rintro ⟨b, -, hcov⟩
        exact hcov

theorem Exclusive.fewerOrphans {orphans : List Command} (h : Exclusive S T)
    (hsub : ∀ x ∈ orphans, x ∈ T.orphans) : Exclusive S { T with orphans := orphans } := by
  have hmarks : ∀ j, .mark j ∈ T.log ++ orphans → .mark j ∈ T.log ++ T.orphans :=
    fun j hj => (List.mem_append.mp hj).elim (List.mem_append_left _)
      fun hj => List.mem_append_right _ (hsub _ hj)
  exact ⟨h.todo, h.last, h.log, fun x hx => h.orphans x (hsub x hx),
    fun j hj => h.unqueued j (hmarks j hj), fun j hj => h.fetched j (hmarks j hj),
    fun j hj x hx => h.alone j (hmarks j hj) x (hsub x hx), h.order⟩

theorem Exclusive.landed {cmd : Command} (h : Exclusive S T) (hcmd : cmd ∈ T.orphans) :
    Exclusive S { T with log := T.log ++ [cmd] } := by
  have hmarks : ∀ j, .mark j ∈ T.log ++ [cmd] ++ T.orphans → .mark j ∈ T.log ++ T.orphans := by
    intro j hj
    rw [List.append_assoc] at hj
    rcases List.mem_append.mp hj with hold | hj
    · exact List.mem_append_left _ hold
    · refine List.mem_append_right _ ?_
      rcases List.mem_append.mp hj with hnew | hrest
      · rw [List.mem_singleton.mp hnew]
        exact hcmd
      · exact hrest
  refine ⟨h.todo, h.last, fun x hx => ?_, h.orphans, fun j hj => h.unqueued j (hmarks j hj),
    fun j hj => h.fetched j (hmarks j hj), fun j hj => h.alone j (hmarks j hj),
    fun l r j hsplit x hx => ?_⟩
  · rcases List.mem_append.mp hx with hold | hnew
    · exact h.log x hold
    · rw [List.mem_singleton.mp hnew]
      obtain ⟨i, hi, hown, -⟩ := h.orphans cmd hcmd
      exact ⟨i, hi, hown⟩
  · rcases append_single_split hsplit with ⟨rfl, -, -⟩ | ⟨rest, rfl, hlog⟩
    · cases hx
    · rcases List.mem_append.mp hx with hold | hnew
      · exact h.order l rest j hlog x hold
      · rw [List.mem_singleton.mp hnew]
        refine h.alone j (List.mem_append_left _ ?_) cmd hcmd
        rw [hlog]
        exact List.mem_append_right _ (List.mem_cons_self ..)

theorem orphans_subset {before after : List Command} {cmd : Command}
    (orphans : T.orphans = before ++ cmd :: after) : ∀ x ∈ before ++ after, x ∈ T.orphans := by
  intro x hx
  rw [orphans]
  exact ((List.sublist_cons_self cmd after).append_left before).subset hx

theorem Exclusive.step {a : SysAct} (hsize : 0 < S.metadata.totalSize) (h : Exclusive S T)
    (hst : Staffed S T) (hp : Conserved S.chunks ev T.pool) (hs : Traffic.Step S ev T a T') :
    Exclusive S T' := by
  cases hs with
  | pool a ev' p hpool quiet =>
    refine h.pooled hp hpool (fun _ _ => rfl) (fun v hv => ?_) (fun v typeName message ha => ?_) rfl rfl
    · rw [quiet v] at hv
      cases hv
    · subst ha
      exact absurd (quiet v) (by simp [PoolAct.settles])
  | returned w i n putting ev' p hpool call =>
    refine h.pooled hp hpool (fun v hv => ?_) (fun v hv => ?_) (fun v typeName message ha => by cases ha)
      rfl rfl
    · exact setCall_call_other T (fun hvw => of_decide_eq_false hv hvw.symm) none
    · cases of_decide_eq_true hv
      exact setCall_call_self T w none
  | failed w a c ev' p hpool settles only call outcome todo kind =>
    refine h.pooled hp hpool (fun v hv => ?_) (fun v hv => ?_) (fun v typeName message ha c' n hc' => ?_)
      rfl rfl
    · refine setCall_call_other T (fun hvw => ?_) none
      rw [hvw, settles] at hv
      cases hv
    · have hvw : v = w := by
        by_contra hne
        rw [only v hne] at hv
        cases hv
      rw [hvw]
      exact setCall_call_self T w none
    · subst ha
      cases of_decide_eq_true settles
      rw [call] at hc'
      cases hc'
      exact outcome n
  | cancelled w ev' p hpool =>
    have hover : Exclusive S { T.setCall w none with pool := p } := by
      refine h.pooled hp hpool (fun v hv => ?_) (fun v hv => ?_) (fun v typeName message ha => by cases ha)
        rfl rfl
      · exact setCall_call_other T (fun hvw => of_decide_eq_false hv hvw.symm) none
      · cases of_decide_eq_true hv
        exact setCall_call_self T w none
    unfold Task.inFlight
    split
    · rename_i i cmd rest outcome call
      obtain ⟨item, t, hpc, hidx⟩ := hst.busy w _ call
      exact hover.orphaned (hst.chunk_mem hp call) (h.todo w _ call cmd (List.mem_cons_self ..))
        (cancelled_gone hp hpool hpc hidx) (h.unmarked hst call (List.cons_ne_nil _ _))
        (h.no_orphan hst hp call)
    · rw [List.append_nil]
      exact hover
  | begin w item t att res hands free hfetch =>
    obtain ⟨hmem, hidx⟩ := chunkIdx_of_hands hp hands
    obtain ⟨hown, hlast⟩ := fetch_owned hsize (mem_chunks.mp hmem).1 (hst.buffers w)
      (hst.metadata hsize w) hfetch
    refine ⟨fun v c hc => ?_, fun v c hc => ?_, h.log, h.orphans, h.unqueued,
      fun i hmark v x u hpc hi => ?_, h.alone, h.order⟩
    · rcases began_some hc with ⟨rfl, rfl⟩ | ⟨-, hc⟩
      · exact hown
      · exact h.todo v c hc
    · rcases began_some hc with ⟨rfl, rfl⟩ | ⟨-, hc⟩
      · exact hlast
      · exact h.last v c hc
    · obtain ⟨c, n, hcall, hdone⟩ := h.fetched i hmark v x u hpc hi
      have hv : v ≠ w := by
        rintro rfl
        rw [free] at hcall
        cases hcall
      simp only [Function.update_of_ne hv]
      exact ⟨c, n, hcall, hdone⟩
  | drop w i cmd rest outcome call stopped =>
    have hgo := h.goOn (d := ⟨i, rest, false, outcome⟩) call (List.cons_ne_nil _ _) rfl rfl
      (List.suffix_cons cmd rest)
    exact ⟨hgo.todo, hgo.last, hgo.log, hgo.orphans, hgo.unqueued, hgo.fetched, hgo.alone, hgo.order⟩
  | reach w i cmd rest outcome call running =>
    exact h.goOn call (List.cons_ne_nil _ _) rfl rfl (List.suffix_refl _)
  | put w i cmd rest outcome call =>
    have hgo := h.goOn (d := ⟨i, rest, false, outcome⟩) call (List.cons_ne_nil _ _) rfl rfl
      (List.suffix_cons cmd rest)
    obtain ⟨item, t, hpc, hidx⟩ := hst.busy w _ call
    refine hgo.logged (hst.chunk_mem hp call) (h.todo w _ call cmd (List.mem_cons_self ..))
      (h.unmarked hst call (List.cons_ne_nil _ _)) (fun _ => (hp.in_hands hpc hidx).2.2)
      (fun hmark v x u hv hx => ?_) (h.no_orphan hst hp call)
    -- the worker of the mark is the only one that has the chunk, and its fetch has no command left
    have hvw := hp.one_worker hv hpc hx hidx
    subst hvw
    change cmd = .mark i at hmark
    rw [hmark] at call
    obtain ⟨hnil, n, hout⟩ := h.last v _ call [] rest i rfl
    exact ⟨_, n, setCall_call_self T v _, hnil, hout⟩
  | refuse w i cmd rest outcome call =>
    exact h.goOn call (List.cons_ne_nil _ _) rfl rfl (List.suffix_refl _)
  | orphanPut k before after cmd orphans =>
    have hcmd : cmd ∈ T.orphans := by
      rw [orphans]
      exact List.mem_append_right _ (List.mem_cons_self ..)
    exact (h.landed hcmd).fewerOrphans (orphans_subset orphans)
  | orphanGone k before after cmd orphans => exact h.fewerOrphans (orphans_subset orphans)

theorem Exclusive.init (S : Setup) : Exclusive S (Sys.init S).traffic := by
  refine ⟨fun w c hc => (by cases hc), fun w c hc => (by cases hc), fun cmd h => (by cases h),
    fun cmd h => (by cases h), fun i h => (by cases h), fun i h => (by cases h), fun i h => (by cases h),
    fun before after i h => ?_⟩
  exact absurd h.symm (List.append_ne_nil_of_right_ne_nil _ (List.cons_ne_nil _ _))

end

/-! ## A chunk on disk -/

section
variable {S : Setup} {s s' : Sys}

/-- The command may still be carried out: it waits for the writer, a fetch has still to hand it over,
or it was left in its put. -/
def Sys.Waiting (s : Sys) (cmd : Command) : Prop :=
  cmd ∈ s.writer.pending ∨ cmd ∈ s.orphans ∨ ∃ w c, (s.tasks w).call = some c ∧ cmd ∈ c.todo

/-- No command that may still be carried out puts a byte of a chunk that is on disk. -/
theorem Exclusive.on_disk {i : ℕ} {cmd : Command} (h : Exclusive S s.traffic) (hs : Sound S s)
    (hdisk : s.writer.isOnDisk i = true) (hcmd : s.Waiting cmd) : ¬ Touches S i cmd := by
  intro htouch
  have hlog : ∀ x ∈ s.writer.pending, x ∈ s.traffic.log := fun x hx => List.mem_append_right _ hx
  rcases (hs.performed.marks i).mp (of_decide_eq_true hdisk) with hres | hmark
  · -- a chunk resumed from is never fetched
    have hown : ∃ j ∈ S.chunks, Owned S j cmd := by
      rcases hcmd with hpending | horphan | ⟨w, c, hcall, htodo⟩
      · exact h.log cmd (hlog cmd hpending)
      · obtain ⟨j, hj, hown, -⟩ := h.orphans cmd horphan
        exact ⟨j, hj, hown⟩
      · exact ⟨c.chunkIdx, hs.staffed.chunk_mem hs.conserved hcall, h.todo w c hcall cmd htodo⟩
    obtain ⟨j, hj, hown⟩ := hown
    rw [← hown.chunk_eq htouch] at hj
    exact (mem_chunks.mp hj).2 hres
  · obtain ⟨before, after, hsplit⟩ := List.append_of_mem hmark
    have hin : .mark i ∈ s.traffic.log ++ s.traffic.orphans :=
      List.mem_append_left _ (List.mem_append_left _ hmark)
    rcases hcmd with hpending | horphan | ⟨w, c, hcall, htodo⟩
    · refine h.order before (after ++ s.writer.pending) i ?_ cmd (List.mem_append_right _ hpending) htouch
      change s.writer.executed ++ s.writer.pending = _
      rw [hsplit, List.append_assoc, List.cons_append]
    · exact h.alone i hin cmd horphan htouch
    · have hidx := (h.todo w c hcall cmd htodo).chunk_eq htouch
      rw [hidx] at hin
      exact h.unmarked hs.staffed hcall (List.ne_nil_of_mem htodo) hin

theorem Exclusive.sysStep {a : SysAct} (hsize : 0 < S.metadata.totalSize) (h : Exclusive S s.traffic)
    (hs : Sound S s) (hstep : sysStep S s a = some s') : Exclusive S s'.traffic := by
  rcases sysStep_traffic hstep with heq | hT
  · rw [heq]
    exact h
  · exact h.step hsize hs.staffed hs.conserved hT

end

end Mrdl.System
