import OneBrain.Engine.Effects

/-!
# Capacity

What is reserved never exceeds the context, what is cached never exceeds what is
reserved, and what a client is told it received never exceeds what it asked for.

The first two are read off the loop's invariant. The last one spans the attempts of a
job, so it is proved along the steps of the job.
-/

namespace OneBrain.Engine

open List OneBrain.Lib

variable {env : Env} {cfg : Cfg} {drafting : Bool} {j : JobId} {allow : Allow}

/-! ### The session -/

/-- The session's capacity is respected, and so are the token budgets. -/
structure WithinCapacity (env : Env) (cfg : Cfg) (s : Loop) : Prop where
  /-- Reserved budgets and retained histories fit the context. -/
  pool : usedBudget s.active + (s.host.retained.map fun r => r.history.length).sum ≤ cfg.nCtx
  cache : ∀ g ∈ s.active, g.kvLen ≤ g.budget
  /-- It still does with the tokens of a plain batch. -/
  plain : ∀ b decodes batch prefill, buildDecodes cfg s.active 0 [] [] = .ok (b, decodes) →
    buildPrefill cfg s.active 0 b = .ok (batch, prefill) →
      ∀ g ∈ s.active, g.kvLen + (batchCells batch g.seq).length ≤ g.budget
  /-- It still does with a pending token and its drafts in flight, and the token budget covers them. -/
  spec : ∀ g pending h step, specTarget cfg s = some (g, pending) →
    buildSpecStep env cfg s.host g pending.tok = (h, .ok step) →
      g.kvLen + 1 + step.drafts.length ≤ g.budget ∧ 1 + step.drafts.length ≤ g.remaining
  /-- `remaining` is what the job may still generate: it never went below zero. -/
  remaining : ∀ g ∈ s.active,
    g.priorGenerated.length + g.attemptTokens.length + g.remaining = g.job.maxTokens
  /-- The next token to confirm is covered by it. -/
  pending : ∀ g ∈ s.active, g.pending ≠ none → 0 < g.remaining

/-- A steppable, prefilled generation and everything its token budget allows fit the cache budget. -/
theorem GenOk.fits {h : Host} {g : ActiveGen} {ahead : List Token} (hg : GenOk cfg h g ahead)
    (hterm : g.terminalAfterDrain = none) (hp : g.prefilled = true) {n : ℕ} (hn : n ≤ g.remaining) :
    g.kvLen + n ≤ g.budget := by
  have h1 := hg.stream_budget
  have h2 := (hg.kvLen_prefilled hterm hp).1
  omega

theorem GenOk.chunk_fits {h : Host} {g : ActiveGen} {ahead : List Token} (hg : GenOk cfg h g ahead)
    (hterm : g.terminalAfterDrain = none) (hp : g.prefilled = false) (n : ℕ) :
    g.kvLen + (prefillChunk g n).length ≤ g.budget := by
  have h1 := hg.stream_budget
  have h2 := (hg.mirror (by simp [hterm])).1
  have h3 := hg.prefill_le
  rw [length_stream] at h1
  simp only [(hg.unprefilled hp).1, length_nil] at h1 h2
  simp only [prefillChunk, length_take, length_drop]
  omega

theorem PlainBatch.fits {s : Loop} {batch : List BatchTok} {decodes : List (ℕ × ℕ)}
    {prefill : Option (ℕ × ℕ × Option ℕ)} (hb : PlainBatch cfg s.active batch decodes prefill)
    (hs : LoopOk cfg s) {g : ActiveGen} (hg : g ∈ s.active) :
    g.kvLen + (batchToks batch g.seq).length ≤ g.budget := by
  have hgen := hs.mid.gens g hg (hs.live g hg)
  obtain ⟨hpending, hnone, hchunk⟩ := hb.toks (nodup_seqs hs.mid hs.live) hg
  cases hd : decodeTok g with
  | some b =>
    obtain ⟨hstep, hpre, p, hp, -⟩ := decodeTok_eq_some hd
    rw [hpending b hd]
    exact hgen.fits (ActiveGen.steppable_iff.mp hstep).2 hpre
      (hgen.pending_pos (by simp [hp]))
  | none =>
    by_cases hchunked : ∃ k n t, prefill = some (k, n, t) ∧ s.active[k]? = some g
    · obtain ⟨k, n, t, hp, hk⟩ := hchunked
      obtain ⟨m, -, hstep, hpre, htoks⟩ := hchunk k n t hp hk
      rw [htoks]
      exact hgen.chunk_fits (ActiveGen.steppable_iff.mp hstep).2 hpre m
    · rw [hnone hd fun k n t hp hk => hchunked ⟨k, n, t, hp, hk⟩]
      exact hgen.kvLen_le_budget

theorem LoopOk.withinCapacity {s : Loop} (hs : LoopOk cfg s) : WithinCapacity env cfg s where
  pool := by
    have hpool := hs.mid.slots.pool
    rwa [retainActive_live hs.live] at hpool
  cache g hg := (hs.mid.gens g hg (hs.live g hg)).kvLen_le_budget
  plain b decodes batch prefill hd hp g hg := by
    have hlen : (batchCells batch g.seq).length = (batchToks batch g.seq).length := by
      simp [batchCells, batchToks]
    rw [hlen]
    exact (plainBatch_of_build hd hp).fits hs hg
  spec g pending h step ht hb := by
    obtain ⟨hactive, hel, -⟩ := specTarget_eq ht
    have hgen := hs.mid.gens g (by simp [hactive]) (hs.live g (by simp [hactive]))
    obtain ⟨hstep, hpre, hrem⟩ := specEligible_steps hel
    obtain ⟨-, -, hdrafts, -⟩ := buildSpecStep_ok hb
    have hle : 1 + step.drafts.length ≤ g.remaining := by omega
    refine ⟨?_, hle⟩
    rw [Nat.add_assoc]
    exact hgen.fits (ActiveGen.steppable_iff.mp hstep).2 hpre hle
  remaining g hg := (hs.mid.gens g hg (hs.live g hg)).remaining_eq
  pending g hg := (hs.mid.gens g hg (hs.live g hg)).pending_pos

/-! ### Jobs -/

/-- A place holds the job, with no more tokens than it may generate. -/
def Place.Within (job : GenerateJob) : Place → Prop
  | .mailed sup => sup.job = job ∧ ∀ state ∈ sup.resume, CarriedOk job state
  | .queued p => p.job = job ∧ PreparedOk p
  | .active _ g _ _ => g.job = job
  | .interrupted gen => gen.job = job ∧ CarriedOk job gen.state
  | .ended => True

/-- A job, and every count its client is told, is within its budget. -/
structure JobWithin (job : GenerateJob) (v : JobView) : Prop where
  place : v.place.Within job
  told : ∀ stats, .done stats ∈ v.chan ++ v.parked → stats.completionTokens ≤ job.maxTokens

namespace JobWithin

variable {job : GenerateJob} {v : JobView}

/-- A new event that is no finish, or one with a count within the budget. -/
theorem add (hv : JobWithin job v) {ev : TokenEvent}
    (hev : ∀ stats, ev = .done stats → stats.completionTokens ≤ job.maxTokens) {chan parked : List TokenEvent}
    (hsub : ∀ e ∈ chan ++ parked, e ∈ v.chan ++ v.parked ∨ e = ev) :
    ∀ stats, .done stats ∈ chan ++ parked → stats.completionTokens ≤ job.maxTokens := by
  intro stats hmem
  rcases hsub _ hmem with hold | heq
  · exact hv.told stats hold
  · exact hev stats heq.symm

theorem endsWith (hv : JobWithin job v) {ev : TokenEvent} (hev : EndsWith env v.place ev) :
    ∀ stats, ev = .done stats → stats.completionTokens ≤ job.maxTokens := by
  have hplace := hv.place
  generalize v.place = p at hplace hev
  cases hev with
  | settled sup cfg p kind hp =>
    rintro stats heq
    cases heq
    obtain ⟨rfl, hresume⟩ := hplace
    obtain ⟨hok, hjob⟩ := prepareState_ok hresume hp
    have := hok.remaining_eq
    rw [hjob] at this
    simp only [preparedStats]
    omega
  | refused | sampler | gaveUp => intro stats heq; cases heq

theorem gen {f f' : Focus} (hs : GenStep env cfg drafting f f') (hid : f.g.job.id = j) (hlive : f.g.done = false)
    (hok : ∃ h, GenOk cfg h f.g f.ahead) (hv : JobWithin job (f.h.view j (.active cfg f.g f.ahead f.hit))) :
    JobWithin job (f'.h.view j (f'.place cfg)) := by
  obtain ⟨h, hok⟩ := hok
  have hjob : f.g.job = job := hv.place
  have hend : ∀ ev, GenEnd env cfg f ev → ∀ stats, ev = .done stats → stats.completionTokens ≤ job.maxTokens := by
    rintro ev hev stats rfl
    cases hev
    have := hok.remaining_eq
    rw [hjob] at this
    simp only [doneStats]
    omega
  refine ⟨?_, ?_⟩
  · simp only [Host.view, Focus.place]
    split
    · trivial
    · exact hs.frame.job.trans hjob
  · cases hs.effect hid hlive with
    | quiet _ _ _ hview | held _ _ _ _ hview | gone _ hview => rw [hview]; exact hv.told
    | sent piece _ _ _ hview =>
      rw [hview]
      refine @add job _ hv (.token piece) (by simp) _ _ ?_
      simp only [Host.view, mem_append, mem_singleton]
      tauto
    | endSent ev hev _ _ hview | endParked ev hev _ _ _ hview =>
      rw [hview]
      refine hv.add (hend ev hev) ?_
      simp only [Host.view, mem_append, mem_singleton]
      tauto
    | reaped _ _ hview =>
      rw [hview]
      intro stats hmem
      exact hv.told stats (mem_append_left _ (by simpa [Host.view] using hmem))

theorem step {v' : JobView} (hv : JobWithin job v) (hs : JobStep env j allow v v') : JobWithin job v' := by
  cases hs with
  | wait => exact ⟨hv.place, hv.told⟩
  | prepared _ sup cfg p hplace hp =>
    have hwithin := hv.place
    rw [hplace] at hwithin
    obtain ⟨rfl, hresume⟩ := hwithin
    obtain ⟨hok, hjob⟩ := prepareState_ok hresume hp
    exact ⟨⟨hjob, hok⟩, hv.told⟩
  | endSent _ _ hev | endParked _ _ _ _ hev =>
    refine ⟨trivial, hv.add (hv.endsWith hev) ?_⟩
    simp only [mem_append, mem_singleton]
    tauto
  | endLost | gone => exact ⟨trivial, hv.told⟩
  | admitted _ cfg p seq reused uid hplace =>
    have hwithin := hv.place
    rw [hplace] at hwithin
    exact ⟨hwithin.1, hv.told⟩
  | decoded _ cfg g toks hplace =>
    have hwithin := hv.place
    rw [hplace] at hwithin
    exact ⟨hwithin, hv.told⟩
  | gen cfg drafting f f' hid hlive hok hstep => exact gen hstep hid hlive hok hv
  | interrupted _ cfg g message hplace hdist hok =>
    have hwithin := hv.place
    rw [hplace] at hwithin
    obtain ⟨h, hok⟩ := hok
    have hjob : g.job = job := hwithin
    exact ⟨⟨hjob, hjob ▸ interruptGen_carried hok message⟩, hv.told⟩
  | reissued _ gen hplace =>
    have hwithin := hv.place
    rw [hplace] at hwithin
    refine ⟨⟨hwithin.1, ?_⟩, hv.told⟩
    rintro state hstate
    cases hstate
    exact hwithin.2
  | retrySent _ _ _ _ hparked | retryGone _ _ _ _ hparked =>
    refine ⟨hv.place, fun stats hmem => hv.told stats ?_⟩
    simp only [hparked, mem_append, mem_cons] at hmem ⊢
    tauto
  | dropped =>
    exact ⟨hv.place, fun stats hmem => hv.told stats (mem_append_left _ (by simpa using hmem))⟩

end JobWithin

/-- **Capacity.** In every state of every run the session's budgets and histories fit its
context, every cache fits its budget together with what is in flight for it, token budgets
never run below zero, and no client is told that it received more tokens than it asked for. -/
theorem capacity_respected (env : Env) (labels : List Label) :
    (∀ cfg pc, (run env Sys.init labels).phase = .serving cfg pc →
      WithinCapacity env cfg (run env Sys.init labels).loop) ∧
    ∀ (j : JobId) (r : Request) (stats : DoneStats), (requests labels)[j]? = some r →
      (.done stats ∈ (run env Sys.init labels).loop.host.chans j ∨
        ⟨j, .done stats⟩ ∈ (run env Sys.init labels).loop.host.outbox) →
      stats.completionTokens ≤ r.maxTokens := by
  refine ⟨fun cfg pc hp => ?_, fun j r stats hr hmem => ?_⟩
  · exact ((Reachable.sysOk ⟨labels, rfl⟩).loop cfg pc hp).withinCapacity
  · obtain ⟨p, hsteps⟩ := run_job (@runAllowed_all env labels) hr
    have hfresh : JobWithin (r.toJob j) (freshJob j r) :=
      ⟨⟨rfl, by simp⟩, by simp [freshJob]⟩
    have hv := JobSteps.induct (P := JobWithin (r.toJob j)) (fun _ _ hv hs => hv.step hs) hsteps hfresh
    refine hv.told stats ?_
    rcases hmem with hchan | hout
    · exact mem_append_left _ hchan
    · refine mem_append_right _ (mem_map.mpr ⟨_, mem_filter.mpr ⟨hout, ?_⟩, rfl⟩)
      simp

/-! ### Where the jobs are -/

/-- The jobs that are not over, with the requests they carry. -/
def Sys.jobs (s : Sys) : List GenerateJob :=
  s.mail.map (fun sup => sup.job) ++ (retainActive s.loop.active).map (fun g => g.job) ++
    s.loop.queue.map (fun p => p.job) ++ s.loop.host.interrupted.map (fun gen => gen.job)

theorem Sys.map_fst_places (cfg : Cfg) (s : Sys) :
    (s.places cfg).map Prod.fst = ↑(s.jobs.map (fun job => job.id) ++ s.loop.host.finished) := by
  simp only [held, Multiset.map_add, Station.map_fst_places, Station.ids, Station.inactive, Loop.station,
    jobs, mail, map_append, map_map, ← Multiset.coe_add, ← Multiset.map_coe, Multiset.map_map, Function.comp_def,
    Multiset.add_assoc, Multiset.map_id']

theorem Sys.mem_places_of_mem_jobs {s : Sys} {job : GenerateJob} (hjob : job ∈ s.jobs) (cfg : Cfg) :
    ∃ p, (job.id, p) ∈ s.places cfg ∧ ∀ job', p.Within job' → job = job' := by
  simp only [jobs, mem_append, mem_map] at hjob
  rcases hjob with ((⟨sup, hmem, rfl⟩ | ⟨g, hmem, rfl⟩) | ⟨p, hmem, rfl⟩) | ⟨gen, hmem, rfl⟩
  · refine ⟨.mailed sup, Multiset.mem_add.mpr (.inl ?_), fun _ h => h.1⟩
    exact Multiset.mem_map_of_mem (fun sup => (sup.job.id, Place.mailed sup)) (Multiset.mem_coe.mpr hmem)
  · exact ⟨.active cfg g [] false, by simp [held, Station.places, Loop.station, hmem, ActiveGen.place, noAhead], fun _ h => h⟩
  · exact ⟨.queued p, by simp [held, Station.places, Station.inactive, Loop.station, hmem], fun _ h => h.1⟩
  · exact ⟨.interrupted gen, by simp [held, Station.places, Station.inactive, Loop.station, hmem], fun _ h => h.1⟩

/-- **No job is lost, doubled or changed**: in every state of every run the jobs that are over and those that
are not are the submitted ones, each once, and one that is not over carries its own request. -/
theorem jobs_conserved (env : Env) (labels : List Label) :
    ((run env Sys.init labels).jobs.map (fun job => job.id) ++ (run env Sys.init labels).loop.host.finished).Perm
      (range (requests labels).length) ∧
    ∀ job ∈ (run env Sys.init labels).jobs, ∃ r, (requests labels)[job.id]? = some r ∧ job = r.toJob job.id := by
  obtain ⟨cfg, hj⟩ := run_jobsHeld labels (@runAllowed_all env labels)
  refine ⟨?_, fun job hjob => ?_⟩
  · have honce := hj.once
    rw [Sys.map_fst_places, hj.next] at honce
    exact Multiset.coe_eq_coe.mp honce
  · obtain ⟨p, hp, hheld⟩ := Sys.mem_places_of_mem_jobs hjob cfg
    obtain ⟨r, hr, hsteps⟩ := hj.chain _ p hp
    have hfresh : JobWithin (r.toJob job.id) (freshJob job.id r) := ⟨⟨rfl, by simp⟩, by simp [freshJob]⟩
    exact ⟨r, hr, hheld _ (JobSteps.induct (P := JobWithin (r.toJob job.id)) (fun _ _ hv hs => hv.step hs) hsteps hfresh).place⟩

end OneBrain.Engine
