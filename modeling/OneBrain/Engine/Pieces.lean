import OneBrain.Engine.Loads
import OneBrain.Engine.Scan
import OneBrain.Engine.Terminals

/-!
# What a client has been sent

The pieces a client was sent, followed by those held for it, are the pieces of the tokens
its job has confirmed, in order and without a gap, except that the last one may be
withheld because it completes a stop string. This survives full channels, speculative
rounds and the hand-over to another attempt, and it is proved along the steps of the job.

On a solo model the piece of a sampled token is sent before the token is confirmed, so
the statement counts that token too; on a distributed model there is no such token.
-/

namespace OneBrain.Engine

open List OneBrain.Lib

variable {env : Env} {cfg : Cfg} {drafting : Bool} {j : JobId} {allow : Allow}

/-! ### Rendering -/

theorem renderTokens_append {ts us : List Token} {ps qs : List Text} (ht : renderTokens env ts = .ok ps)
    (hu : renderTokens env us = .ok qs) : renderTokens env (ts ++ us) = .ok (ps ++ qs) := by
  induction ts generalizing ps with
  | nil =>
    obtain rfl : [] = ps := Except.ok.inj ht
    exact hu
  | cons t ts ih =>
    simp only [renderTokens, cons_append] at ht ⊢
    split at ht
    · cases ht
    · split at ht
      · cases ht
      · rename_i rest hrest
        obtain rfl := Except.ok.inj ht
        rw [ih hrest]
        rfl

theorem renderTokens_single {t : Token} {p : Text} (h : env.tokenToPiece t = .ok p) :
    renderTokens env [t] = .ok [p] := by
  simp [renderTokens, h]

theorem renderTokens_drop {ts : List Token} {ps qs : List Text} (h : renderTokens env ts = .ok ps) (n : ℕ)
    (hd : renderTokens env (ts.drop n) = .ok qs) : qs = ps.drop n := by
  induction ts generalizing ps n with
  | nil =>
    obtain rfl : [] = ps := Except.ok.inj h
    rw [drop_nil] at hd
    obtain rfl : [] = qs := Except.ok.inj hd
    simp
  | cons t ts ih =>
    cases n with
    | zero => exact (Except.ok.inj (h.symm.trans hd)).symm
    | succ n =>
      simp only [renderTokens] at h
      split at h
      · cases h
      · split at h
        · cases h
        · rename_i rest hrest
          obtain rfl := Except.ok.inj h
          exact ih hrest n hd

/-! ### Pieces -/

/-- The piece of an event. -/
def TokenEvent.piece : TokenEvent → Option Text
  | .token piece => some piece
  | _ => none

/-- The pieces sent. -/
def sentPieces (chan : List TokenEvent) : List Text := chan.filterMap TokenEvent.piece

theorem sentPieces_token (chan : List TokenEvent) (piece : Text) :
    sentPieces (chan ++ [.token piece]) = sentPieces chan ++ [piece] := by
  simp [sentPieces, TokenEvent.piece]

theorem sentPieces_terminal (chan : List TokenEvent) {ev : TokenEvent} (hev : ev.isTerminal = true) :
    sentPieces (chan ++ [ev]) = sentPieces chan := by
  cases ev with
  | token => cases hev
  | done | error => simp [sentPieces, TokenEvent.piece]

/-- A solo model's sampled token, whose piece went through the scan already. -/
def ActiveGen.sampled (g : ActiveGen) : List Token :=
  match g.pending with
  | some (.sent tok _) => [tok]
  | _ => []

/-- A piece is sent, or held. -/
structure Delivers (h : Host) (g : ActiveGen) (piece : Text) (h' : Host) (g' : ActiveGen) : Prop where
  /-- The piece is sent, or it is the last one held. -/
  order : sentPieces (h'.chans g.job.id) ++ g'.held = sentPieces (h.chans g.job.id) ++ g.held ++ [piece]
  count : g.piecesSent = (sentPieces (h.chans g.job.id)).length →
    g'.piecesSent = (sentPieces (h'.chans g.job.id)).length
  same : g' = { g with held := g'.held, piecesSent := g'.piecesSent, stalledSince := g'.stalledSince }

theorem Delivers.fields {h h' : Host} {g g' : ActiveGen} {piece : Text} (hd : Delivers h g piece h' g') :
    g'.job = g.job ∧ g'.confirmed = g.confirmed ∧ g'.promptTokens = g.promptTokens ∧ g'.kvLen = g.kvLen ∧
      g'.scan = g.scan ∧ g'.pending = g.pending ∧ g'.terminalAfterDrain = g.terminalAfterDrain := by
  rw [hd.same]
  exact ⟨rfl, rfl, rfl, rfl, rfl, rfl, rfl⟩

theorem deliverPiece_delivers (h : Host) (g : ActiveGen) (piece : Text) (hopen : env.closed g.job.id h.clock = false) :
    Delivers h g piece (deliverPiece env h g piece).1 (deliverPiece env h g piece).2 := by
  unfold deliverPiece
  split
  · exact ⟨by simp, id, rfl⟩
  · rename_i hnil
    have hnil : g.held = [] := by simpa using hnil
    rcases trySend_cases env h g.job.id (.token piece) with ⟨hc, -⟩ | ⟨-, -, hs⟩ | ⟨-, -, hs⟩
    · rw [hopen] at hc
      cases hc
    · rw [hs]
      exact ⟨by simp [Host.tick], id, rfl⟩
    · rw [hs]
      have hchan : (h.accept g.job.id (.token piece)).chans g.job.id = h.chans g.job.id ++ [.token piece] := by
        simp [Host.accept]
      refine ⟨?_, fun hcount => ?_, rfl⟩
      · simp [hchan, sentPieces_token, hnil, ActiveGen.noteSent]
      · simp [hchan, sentPieces_token, ActiveGen.noteSent, hcount]

/-! ### A generation -/

/-- A stop match is decided: it is not applied yet, it waits for its token's decode, or a
terminal that is no other finish waits behind the backlog. -/
def StopDecided (g : ActiveGen) (hit : Bool) : Prop :=
  hit = true ∨ (∃ tok, g.pending = some (.sent tok false)) ∨
    ∃ t, g.terminalAfterDrain = some t ∧ ∀ kind, t = .finish kind → kind = .stop

/-- What was sent and is held, against the texts of the generated tokens. -/
inductive InOrder (sent : List Text) (g : ActiveGen) (hit : Bool) (texts : List Text) : Prop
  | all (heq : sent ++ g.held = texts) (hhit : hit = false) (hpending : ∀ tok, g.pending ≠ some (.sent tok false))
  /-- Everything but the last piece, which completes a stop string. -/
  | withheld (last : Text) (heq : sent ++ g.held ++ [last] = texts)
      (hstop : Contains g.job.stop texts.flatten) (hdecided : StopDecided g hit)

/-- **The pieces of an active generation.** -/
structure GenPieces (env : Env) (cfg : Cfg) (chan : List TokenEvent) (decoded : List Cell) (g : ActiveGen)
    (ahead : List Token) (hit : Bool) (texts : List Text) : Prop where
  /-- The texts are those of the generated tokens. -/
  render : renderTokens env (g.confirmed ++ g.sampled) = .ok texts
  count : g.piecesSent = (sentPieces chan).length
  order : InOrder (sentPieces chan) g hit texts
  /-- The piece of an unsent token is its text. -/
  unsent : ∀ tok piece, g.pending = some (.unsent tok piece) → env.tokenToPiece tok = .ok piece
  dist : cfg.distributed = true → g.sampled = []
  scan : ScanOk g.job.stop g.scan texts.flatten
  /-- Every confirmed token was decoded, at its position. -/
  cells : ∀ k t, g.confirmed[k]? = some t → (t, g.promptTokens.length + k) ∈ decoded
  /-- So was every token the cache is ahead. -/
  ahead : ∀ k t, ahead[k]? = some t → (t, g.kvLen + k) ∈ decoded

namespace GenPieces

variable {chan : List TokenEvent} {decoded : List Cell} {g g' : ActiveGen} {ahead : List Token} {hit : Bool} {texts : List Text}

/-- While a generation goes on, everything was sent or is held. -/
theorem all (hp : GenPieces env cfg chan decoded g ahead hit texts) (hhit : hit = false)
    (hterm : g.terminalAfterDrain = none) (hpending : ∀ tok, g.pending ≠ some (.sent tok false)) :
    sentPieces chan ++ g.held = texts := by
  cases hp.order with
  | all heq => exact heq
  | withheld last heq hstop hdecided =>
    rcases hdecided with h | ⟨tok, h⟩ | ⟨t, h, -⟩
    · rw [hhit] at h
      cases h
    · exact absurd h (hpending tok)
    · rw [hterm] at h
      cases h

theorem keep (hp : GenPieces env cfg chan decoded g ahead hit texts) {ahead' : List Token} {hit' : Bool}
    (hg : g'.job = g.job ∧ g'.promptTokens = g.promptTokens ∧ g'.priorGenerated = g.priorGenerated ∧
      g'.attemptTokens = g.attemptTokens ∧ g'.pending = g.pending ∧ g'.held = g.held ∧
      g'.piecesSent = g.piecesSent ∧ g'.scan = g.scan)
    (hahead : ∀ k t, ahead'[k]? = some t → (t, g'.kvLen + k) ∈ decoded)
    (hall : hit = false → hit' = false) (hdecided : StopDecided g hit → StopDecided g' hit') :
    GenPieces env cfg chan decoded g' ahead' hit' texts := by
  obtain ⟨hjob, hprompt, hprior, hattempt, hpending, hheld, hsent, hscan⟩ := hg
  have hconf : g'.confirmed = g.confirmed := by simp [ActiveGen.confirmed, hprior, hattempt]
  have hsampled : g'.sampled = g.sampled := by simp [ActiveGen.sampled, hpending]
  refine ⟨?_, ?_, ?_, ?_, ?_, ?_, ?_, ?_⟩
  · rw [hconf, hsampled]
    exact hp.render
  · rw [hsent]
    exact hp.count
  · cases hp.order with
    | all heq hhit hpend =>
      refine .all ?_ (hall hhit) ?_
      · rw [hheld]
        exact heq
      · rw [hpending]
        exact hpend
    | withheld last heq hstop hdec =>
      refine .withheld last ?_ ?_ (hdecided hdec)
      · rw [hheld]
        exact heq
      · rw [hjob]
        exact hstop
  · rw [hpending]
    exact hp.unsent
  · rw [hsampled]
    exact hp.dist
  · rw [hjob, hscan]
    exact hp.scan
  · rw [hconf, hprompt]
    exact hp.cells
  · exact hahead

variable {h : Host} {tok : Token} {rest : List Token} {piece : Text} {scan : StopScan}

theorem kvLen_confirmed (hg : GenOk cfg h g ahead) (hterm : g.terminalAfterDrain = none)
    (hpre : g.prefilled = true) : g.kvLen = g.promptTokens.length + g.confirmed.length := by
  rw [(hg.kvLen_prefilled hterm hpre).1, length_stream, hg.prefix_eq]
  simp only [ActiveGen.confirmed, length_append]
  omega

theorem decoded_confirm (hp : GenPieces env cfg chan decoded g (tok :: rest) hit texts)
    (hlen : g.kvLen = g.promptTokens.length + g.confirmed.length) :
    (∀ k t, (g.confirmed ++ [tok])[k]? = some t → (t, g.promptTokens.length + k) ∈ decoded) ∧
      ∀ k t, rest[k]? = some t → (t, g.kvLen + 1 + k) ∈ decoded := by
  refine ⟨fun k t hk => ?_, fun k t hk => ?_⟩
  · rcases Nat.lt_or_ge k g.confirmed.length with hlt | hge
    · rw [List.getElem?_append_left hlt] at hk
      exact hp.cells k t hk
    · rw [List.getElem?_append_right hge, List.getElem?_singleton] at hk
      split at hk
      · cases hk
        have h0 := hp.ahead 0 tok rfl
        rw [hlen] at h0
        have heq : k = g.confirmed.length := by omega
        rw [heq]
        exact h0
      · cases hk
  · have := hp.ahead (k + 1) t hk
    rwa [Nat.add_assoc, Nat.add_comm 1 k]

theorem confirm_confirmed (g : ActiveGen) (tok : Token) : (g.confirm tok).confirmed = g.confirmed ++ [tok] := by
  simp [ActiveGen.confirmed, ActiveGen.confirm]

theorem confirm {admitted : Bool}
    (hp : GenPieces env cfg chan decoded g (tok :: rest) false texts) (hpending : g.pending = some (.sent tok admitted))
    (hterm : g.terminalAfterDrain = none) (hlen : g.kvLen = g.promptTokens.length + g.confirmed.length) :
    GenPieces env cfg chan decoded (g.confirm tok) rest (!admitted) texts := by
  obtain ⟨hdec, hahead⟩ := hp.decoded_confirm hlen
  have hsampled : g.sampled = [tok] := by simp [ActiveGen.sampled, hpending]
  refine ⟨?_, hp.count, ?_, ?_, ?_, hp.scan, ?_, hahead⟩
  · have hrender := hp.render
    rw [hsampled] at hrender
    rw [confirm_confirmed]
    simpa [ActiveGen.sampled, ActiveGen.confirm] using hrender
  · cases hp.order with
    | all heq hhit hpend =>
      cases admitted with
      | true => exact .all heq rfl (by simp [ActiveGen.confirm])
      | false => exact absurd hpending (hpend tok)
    | withheld last heq hstop hdecided =>
      refine .withheld last heq hstop (.inl ?_)
      rcases hdecided with h | ⟨t, h⟩ | ⟨t, h, -⟩
      · cases h
      · rw [hpending] at h
        cases h
        rfl
      · rw [hterm] at h
        cases h
  · intro t p h
    simp [ActiveGen.confirm] at h
  · intro _
    simp [ActiveGen.sampled, ActiveGen.confirm]
  · rw [confirm_confirmed]
    exact hdec

theorem flatten_snoc (texts : List Text) (piece : Text) : (texts ++ [piece]).flatten = texts.flatten ++ piece := by
  simp

theorem source (hp : GenPieces env cfg chan decoded g ahead hit texts) (hsource : FeedSource env cfg g tok piece) :
    env.tokenToPiece tok = .ok piece ∧ g.sampled = [] ∧ ∀ t, g.pending ≠ some (.sent t false) := by
  rcases hsource with hpend | ⟨hpend, hdraft⟩
  · exact ⟨hp.unsent tok piece hpend, by simp [ActiveGen.sampled, hpend], by simp [hpend]⟩
  · exact ⟨hdraft.piece, by simp [ActiveGen.sampled, hpend], by simp [hpend]⟩

theorem feed (hp : GenPieces env cfg (h.chans g.job.id) (h.decoded g.job.id) g (tok :: rest) false texts)
    (hopen : env.closed g.job.id h.clock = false) (hsource : FeedSource env cfg g tok piece)
    (hscan : g.scan.admitPiece piece = (scan, true)) (hterm : g.terminalAfterDrain = none)
    (hlen : g.kvLen = g.promptTokens.length + g.confirmed.length) :
    GenPieces env cfg ((deliverPiece env h { g.confirm tok with scan := scan } piece).1.chans g.job.id)
      (h.decoded g.job.id) (deliverPiece env h { g.confirm tok with scan := scan } piece).2 rest false (texts ++ [piece]) := by
  obtain ⟨hpiece, hsampled, hpending⟩ := hp.source hsource
  obtain ⟨hdec, hahead⟩ := hp.decoded_confirm hlen
  have hall := hp.all rfl hterm hpending
  have hd := @deliverPiece_delivers env h { g.confirm tok with scan := scan } piece hopen
  generalize deliverPiece env h { g.confirm tok with scan := scan } piece = r at hd
  obtain ⟨h', g₂⟩ := r
  simp only at hd ⊢
  obtain ⟨hjob, hconf, hprompt, hkv, hscan₂, hpend, -⟩ := hd.fields
  have hconf : g₂.confirmed = g.confirmed ++ [tok] := hconf.trans (confirm_confirmed g tok)
  have hpend : g₂.pending = none := hpend
  have hsampled₂ : g₂.sampled = [] := by simp [ActiveGen.sampled, hpend]
  have horder := hd.order.trans (congrArg (· ++ [piece]) hall)
  refine ⟨?_, hd.count hp.count, .all horder rfl (by simp [hpend]), by simp [hpend], fun _ => hsampled₂, ?_, ?_, ?_⟩
  · have hrender := hp.render
    rw [hsampled, append_nil] at hrender
    rw [hconf, hsampled₂, append_nil]
    exact renderTokens_append hrender (renderTokens_single hpiece)
  · rw [hjob, hscan₂, flatten_snoc]
    exact (hp.scan.admits hscan).1
  · rw [hconf, hprompt]
    exact hdec
  · rw [hkv]
    exact hahead

theorem reject
    (hp : GenPieces env cfg chan decoded g (tok :: rest) false texts) (hsource : FeedSource env cfg g tok piece)
    (hscan : g.scan.admitPiece piece = (scan, false)) (hterm : g.terminalAfterDrain = none)
    (hlen : g.kvLen = g.promptTokens.length + g.confirmed.length) :
    GenPieces env cfg chan decoded { g.confirm tok with scan := scan } rest true (texts ++ [piece]) := by
  obtain ⟨hpiece, hsampled, hpending⟩ := hp.source hsource
  obtain ⟨hdec, hahead⟩ := hp.decoded_confirm hlen
  have hall := hp.all rfl hterm hpending
  obtain ⟨hscan', hstop⟩ := hp.scan.reject hscan
  rw [← flatten_snoc] at hscan' hstop
  have hconf : ActiveGen.confirmed { g.confirm tok with scan := scan } = g.confirmed ++ [tok] := confirm_confirmed g tok
  refine ⟨?_, hp.count, .withheld piece ?_ hstop (.inl rfl), ?_, fun _ => rfl, hscan', ?_, hahead⟩
  · have hrender := hp.render
    rw [hsampled, append_nil] at hrender
    rw [hconf]
    have hnil : ActiveGen.sampled { g.confirm tok with scan := scan } = [] := rfl
    rw [hnil, append_nil]
    exact renderTokens_append hrender (renderTokens_single hpiece)
  · rw [← hall]
    rfl
  · intro t p h
    simp [ActiveGen.confirm] at h
  · rw [hconf]
    exact hdec

theorem stage_unsent (hp : GenPieces env cfg chan decoded g [] false texts)
    (hpending : g.pending = none) (hterm : g.terminalAfterDrain = none) (hpiece : env.tokenToPiece tok = .ok piece) :
    GenPieces env cfg chan decoded { g with pending := some (.unsent tok piece) } [] false texts := by
  have hsampled : g.sampled = [] := by simp [ActiveGen.sampled, hpending]
  have hrender := hp.render
  rw [hsampled] at hrender
  refine ⟨hrender, hp.count, .all (hp.all rfl hterm (by simp [hpending])) rfl (by simp), ?_, fun _ => rfl, hp.scan,
    hp.cells, by simp⟩
  rintro t p ht
  cases ht
  exact hpiece

theorem stage_withheld (hp : GenPieces env cfg chan decoded g [] false texts)
    (hpending : g.pending = none) (hterm : g.terminalAfterDrain = none) (hpiece : env.tokenToPiece tok = .ok piece)
    (hdist : cfg.distributed = false) (hscan : g.scan.admitPiece piece = (scan, false)) :
    GenPieces env cfg chan decoded { g with scan := scan, pending := some (.sent tok false) } [] false (texts ++ [piece]) := by
  have hsampled : g.sampled = [] := by simp [ActiveGen.sampled, hpending]
  have hall := hp.all rfl hterm (by simp [hpending])
  have hrender := hp.render
  rw [hsampled, append_nil] at hrender
  obtain ⟨hscan', hstop⟩ := hp.scan.reject hscan
  rw [← flatten_snoc] at hscan' hstop
  refine ⟨renderTokens_append hrender (renderTokens_single hpiece), hp.count,
    .withheld piece (by rw [← hall]) hstop (.inr (.inl ⟨tok, rfl⟩)), by simp, by simp [hdist], hscan', hp.cells,
    by simp⟩

variable (hp : GenPieces env cfg (h.chans g.job.id) (h.decoded g.job.id) g [] false texts)
include hp

theorem stage_sent (hopen : env.closed g.job.id h.clock = false) (hpending : g.pending = none)
    (hterm : g.terminalAfterDrain = none) (hpiece : env.tokenToPiece tok = .ok piece)
    (hdist : cfg.distributed = false) (hscan : g.scan.admitPiece piece = (scan, true)) :
    GenPieces env cfg ((deliverPiece env h { g with scan := scan } piece).1.chans g.job.id) (h.decoded g.job.id)
      { (deliverPiece env h { g with scan := scan } piece).2 with pending := some (.sent tok true) } [] false
      (texts ++ [piece]) := by
  have hsampled : g.sampled = [] := by simp [ActiveGen.sampled, hpending]
  have hall := hp.all rfl hterm (by simp [hpending])
  have hrender := hp.render
  rw [hsampled, append_nil] at hrender
  have hd := @deliverPiece_delivers env h { g with scan := scan } piece hopen
  generalize deliverPiece env h { g with scan := scan } piece = r at hd
  obtain ⟨h', g₂⟩ := r
  simp only at hd ⊢
  obtain ⟨hjob, hconf, hprompt, -, hscan₂, -⟩ : g₂.job = g.job ∧ g₂.confirmed = g.confirmed ∧
      g₂.promptTokens = g.promptTokens ∧ g₂.kvLen = g.kvLen ∧ g₂.scan = scan ∧ _ := hd.fields
  have horder := hd.order.trans (congrArg (· ++ [piece]) hall)
  refine ⟨?_, hd.count hp.count, .all horder rfl (by simp), by simp, by simp [hdist], ?_, ?_, by simp⟩
  · have hnew : ActiveGen.confirmed { g₂ with pending := some (.sent tok true) } = g.confirmed := hconf
    rw [hnew]
    exact renderTokens_append hrender (renderTokens_single hpiece)
  · rw [flatten_snoc]
    have := (hp.scan.admits hscan).1
    rwa [← hjob, ← hscan₂] at this
  · have hdec := hp.cells
    rw [← hconf, ← hprompt] at hdec
    exact hdec

theorem stage (hopen : env.closed g.job.id h.clock = false) (hpending : g.pending = none)
    (hterm : g.terminalAfterDrain = none) (hpiece : env.tokenToPiece tok = .ok piece) :
    ∃ texts', GenPieces env cfg ((stagePending env cfg.distributed h g tok piece).1.chans g.job.id)
      (h.decoded g.job.id) (stagePending env cfg.distributed h g tok piece).2 [] false texts' := by
  unfold stagePending
  cases hdist : cfg.distributed with
  | true => exact ⟨texts, hp.stage_unsent hpending hterm hpiece⟩
  | false =>
    simp only [Bool.false_eq_true, if_false]
    cases hscan : g.scan.admitPiece piece with
    | mk scan admitted =>
      cases admitted with
      | true => exact ⟨_, hp.stage_sent hopen hpending hterm hpiece hdist hscan⟩
      | false => exact ⟨_, hp.stage_withheld hpending hterm hpiece hdist hscan⟩

omit hp

theorem heldSent {rest : List Text} (hp : GenPieces env cfg chan decoded g ahead hit texts)
    (hheld : g.held = piece :: rest) :
    GenPieces env cfg (chan ++ [.token piece]) decoded { g.noteSent with held := rest } ahead hit texts := by
  refine ⟨hp.render, ?_, ?_, hp.unsent, hp.dist, hp.scan, hp.cells, hp.ahead⟩
  · simp [sentPieces_token, ActiveGen.noteSent, hp.count]
  · rw [sentPieces_token]
    cases hp.order with
    | all heq hhit hpend => exact .all (by simpa [hheld] using heq) hhit hpend
    | withheld last heq hstop hdecided => exact .withheld last (by simpa [hheld] using heq) hstop hdecided

/-- **Every move** keeps what was sent and is held in order. -/
theorem step {f f' : Focus} (hs : GenStep env cfg drafting f f') (hopen : env.closed f.g.job.id f.h.clock = false)
    (hlive' : f'.g.done = false) (hok : ∃ h, GenOk cfg h f.g f.ahead)
    (hp : GenPieces env cfg (f.h.chans f.g.job.id) (f.h.decoded f.g.job.id) f.g f.ahead f.hit texts) :
    ∃ texts', GenPieces env cfg (f'.h.chans f.g.job.id) (f'.h.decoded f.g.job.id) f'.g f'.ahead f'.hit texts' := by
  obtain ⟨h₀, hok⟩ := hok
  rw [hs.frame.host.decoded]
  cases hs with
  | tick | draft => exact ⟨texts, hp⟩
  | note => exact ⟨texts, hp.keep ⟨rfl, rfl, rfl, rfl, rfl, rfl, rfl, rfl⟩ hp.ahead id id⟩
  | heldSent piece rest hdone hheld =>
    refine ⟨texts, ?_⟩
    have hchan : (f.h.accept f.g.job.id (.token piece)).chans f.g.job.id = f.h.chans f.g.job.id ++ [.token piece] := by
      simp [Host.accept]
    simp only [hchan]
    exact hp.heldSent hheld
  | heldDropped _ _ _ hclosed | cancel _ _ _ hclosed =>
    rw [hopen] at hclosed
    cases hclosed
  | finish | fail | reap => simp [Focus.of, cancelSeq_eq, *] at hlive'
  | deferError message hheld hahead hterm =>
    refine ⟨texts, hp.keep ⟨rfl, rfl, rfl, rfl, rfl, rfl, rfl, rfl⟩ hp.ahead id ?_⟩
    rintro (h | h | ⟨t, h, -⟩)
    · exact .inl h
    · exact .inr (.inl h)
    · rw [hterm] at h
      cases h
  | trimFailed =>
    refine ⟨texts, hp.keep ⟨rfl, rfl, rfl, rfl, rfl, rfl, rfl, rfl⟩ (by simp) (fun _ => rfl) fun _ => ?_⟩
    exact .inr (.inr ⟨_, rfl, by simp⟩)
  | deferFinish kind hheld hahead hterm hpending hhit =>
    refine ⟨texts, hp.keep ⟨rfl, rfl, rfl, rfl, rfl, rfl, rfl, rfl⟩ hp.ahead (fun _ => rfl) ?_⟩
    rintro (h | ⟨tok, h⟩ | ⟨t, h, -⟩)
    · refine .inr (.inr ⟨_, rfl, ?_⟩)
      rintro k hk
      cases hk
      exact hhit h
    · rw [hpending] at h
      cases h
    · rw [hterm] at h
      cases h
  | confirm tok admitted rest hahead hpending hterm hhit =>
    have hpre : f.g.prefilled = true := by
      by_contra hne
      rw [(hok.unprefilled (by simpa using hne)).2] at hpending
      cases hpending
    rw [hahead, hhit] at hp
    exact ⟨texts, hp.confirm hpending hterm (kvLen_confirmed hok hterm hpre)⟩
  | feed tok piece rest scan hdone hahead hsource hprefilled hscan hterm hhit =>
    rw [hahead, hhit] at hp
    exact ⟨_, hp.feed hopen hsource hscan hterm (kvLen_confirmed hok hterm hprefilled)⟩
  | reject tok piece rest scan hahead hsource hprefilled hscan hterm hhit =>
    rw [hahead, hhit] at hp
    exact ⟨_, hp.reject hsource hscan hterm (kvLen_confirmed hok hterm hprefilled)⟩
  | stage tok piece hdone hahead hpending hterm hhit heog hpiece =>
    rw [hahead, hhit] at hp
    exact hp.stage hopen hpending hterm hpiece
  | prefill =>
    exact ⟨texts, hp.keep ⟨rfl, rfl, rfl, rfl, rfl, rfl, rfl, rfl⟩ (by simp) id id⟩
  | rollback =>
    refine ⟨texts, hp.keep ⟨rfl, rfl, rfl, rfl, rfl, rfl, rfl, rfl⟩ (fun k t hk => hp.ahead k t ?_) id id⟩
    rw [List.getElem?_take] at hk
    split at hk
    · exact hk
    · cases hk

end GenPieces

/-! ### A job -/

/-- The pieces of a job between two attempts. -/
structure HandedOver (env : Env) (chan : List TokenEvent) (decoded : List Cell) (job : GenerateJob)
    (state : ResumeState) (texts : List Text) : Prop where
  /-- The texts are those of the confirmed tokens. -/
  render : renderTokens env state.generatedTokens = .ok texts
  count : state.piecesSent = (sentPieces chan).length
  sent : sentPieces chan <+: texts
  scan : ScanOk job.stop state.scan texts.flatten
  /-- Every confirmed token was decoded, at its position. -/
  cells : ∀ k t, state.generatedTokens[k]? = some t → (t, state.promptTokens.length + k) ∈ decoded

/-- The pieces of a job that waits for a slot. -/
structure QueuedPieces (env : Env) (chan : List TokenEvent) (decoded : List Cell) (p : PreparedGen)
    (texts : List Text) : Prop where
  /-- The texts are those of the confirmed tokens. -/
  render : renderTokens env p.priorGenerated = .ok texts
  count : p.priorPieces = (sentPieces chan).length
  /-- What was sent and is still to be sent. -/
  order : sentPieces chan ++ p.unsent = texts
  scan : ScanOk p.job.stop p.scan texts.flatten
  /-- Every confirmed token was decoded, at its position. -/
  cells : ∀ k t, p.priorGenerated[k]? = some t → (t, p.promptTokens.length + k) ∈ decoded

/-- The pieces of a job, wherever it is. -/
def Place.Pieces (env : Env) (chan : List TokenEvent) (decoded : List Cell) : Place → Prop
  | .mailed sup =>
    match sup.resume with
    | none => sentPieces chan = []
    | some state => ∃ texts, HandedOver env chan decoded sup.job state texts
  | .queued p => ∃ texts, QueuedPieces env chan decoded p texts
  | .active cfg g ahead hit => ∃ texts, GenPieces env cfg chan decoded g ahead hit texts
  | .interrupted gen => ∃ texts, HandedOver env chan decoded gen.job gen.state texts
  | .ended => True

namespace Place.Pieces

variable {chan : List TokenEvent} {decoded : List Cell}

theorem prepared {sup : SupervisedGenerate} {p : PreparedGen} (hv : (Place.mailed sup).Pieces env chan decoded)
    (hp : prepareState env cfg sup.job sup.resume = .ok p) : ∃ texts, QueuedPieces env chan decoded p texts := by
  obtain ⟨job, resume⟩ := sup
  cases resume with
  | none =>
    have hsent : sentPieces chan = [] := hv
    obtain ⟨text, toks, -, -, -, -, rfl⟩ := prepareState_fresh hp
    exact ⟨[], rfl, by rw [hsent]; rfl, by rw [hsent]; rfl, .new job.stop, by simp⟩
  | some state =>
    obtain ⟨texts, hh⟩ : ∃ texts, HandedOver env chan decoded job state texts := hv
    obtain ⟨unsent, hunsent, rfl⟩ := prepareState_resumed hp
    refine ⟨texts, hh.render, hh.count, ?_, hh.scan, hh.cells⟩
    rw [renderTokens_drop hh.render _ hunsent, hh.count]
    obtain ⟨rest, hrest⟩ := hh.sent
    rw [← hrest, drop_left]

theorem admitted {p : PreparedGen} (hv : (Place.queued p).Pieces env chan decoded) (cfg : Cfg) (seq : SeqId) (reused uid : ℕ) :
    (Place.active cfg (admitGen p seq reused uid) [] false).Pieces env chan decoded := by
  obtain ⟨texts, hq⟩ := hv
  have hconf : (admitGen p seq reused uid).confirmed = p.priorGenerated := by
    simp [ActiveGen.confirmed, admitGen]
  refine ⟨texts, ?_, hq.count, .all hq.order rfl ?_, ?_, fun _ => rfl, hq.scan, ?_, by simp⟩
  · rw [hconf]
    have hnil : (admitGen p seq reused uid).sampled = [] := rfl
    rw [hnil, append_nil]
    exact hq.render
  · intro tok h
    cases h
  · intro tok piece h
    cases h
  · rw [hconf]
    exact hq.cells

theorem decode {g : ActiveGen} {toks : List Token} (hv : (Place.active cfg g [] false).Pieces env chan decoded) :
    ∃ texts, GenPieces env cfg chan (decoded ++ toks.zipIdx g.kvLen) g toks false texts := by
  obtain ⟨texts, hg⟩ := hv
  refine ⟨texts, hg.render, hg.count, hg.order, hg.unsent, hg.dist, hg.scan,
    fun k t hk => mem_append_left _ (hg.cells k t hk), fun k t hk => mem_append_right _ ?_⟩
  exact mk_add_mem_zipIdx_iff_getElem?.mpr hk

theorem interrupted {g : ActiveGen} (hv : (Place.active cfg g [] false).Pieces env chan decoded)
    (hdist : cfg.distributed = true) (message : String) :
    (Place.interrupted (interruptGen g message)).Pieces env chan decoded := by
  obtain ⟨texts, hg⟩ := hv
  have hrender := hg.render
  rw [hg.dist hdist, append_nil] at hrender
  refine ⟨texts, hrender, hg.count, ?_, hg.scan, hg.cells⟩
  cases hg.order with
  | all heq => exact ⟨_, heq⟩
  | withheld last heq => exact ⟨g.held ++ [last], by rw [← heq, append_assoc]⟩

/-- **Every step of a job** whose client stays keeps its pieces in order. -/
theorem step {v v' : JobView} (hopen : env.closed j v.clock = false) (hs : JobStep env j allow v v')
    (hrun : v.place ≠ .ended → NoTerminal v.chan v.parked) (hv : v.place.Pieces env v.chan v.decoded) :
    v'.place.Pieces env v'.chan v'.decoded := by
  cases hs with
  | wait => exact hv
  | prepared _ sup cfg p hplace hp =>
    rw [hplace] at hv
    exact hv.prepared hp
  | endSent | endParked | endLost | gone => trivial
  | admitted _ cfg p seq reused uid hplace =>
    rw [hplace] at hv
    exact hv.admitted cfg seq reused uid
  | decoded _ cfg g toks hplace =>
    rw [hplace] at hv
    exact hv.decode
  | gen cfg drafting f f' hid hlive hok hstep =>
    subst hid
    obtain ⟨texts, hg⟩ := hv
    simp only [Host.view, Focus.place]
    split
    · trivial
    · rename_i hdone
      exact hg.step hstep hopen (by simpa using hdone) hok
  | interrupted _ cfg g message hplace hdist =>
    rw [hplace] at hv
    exact hv.interrupted hdist message
  | reissued _ gen hplace =>
    rw [hplace] at hv
    exact hv
  | retrySent _ pre post ev hparked | retryGone _ pre post ev hparked =>
    -- only a job that is over has something parked
    by_cases hplace : v.place = .ended
    · rw [hplace]
      trivial
    · simp [(hrun hplace).2] at hparked
  | dropped => exact hv

end Place.Pieces

/-! ### The end of a job -/

/-- The parked events of a job are terminal, and every terminal event sent or parked for it is as `F` says of
the record of its end, of what was sent and of what was decoded. -/
structure Reported (F : JobRecord → List Text → List Cell → TokenEvent → Prop) (v : JobView) : Prop where
  parked : ∀ ev ∈ v.parked, ev.isTerminal = true
  ends : ∀ ev ∈ v.chan ++ v.parked, ev.isTerminal = true →
    ∃ e, v.ending = some e ∧ F e (sentPieces v.chan) v.decoded ev

namespace Reported

variable {F : JobRecord → List Text → List Cell → TokenEvent → Prop} {v v' : JobView} {ev : TokenEvent} {e : JobRecord}

theorem of_running (h : NoTerminal v.chan v.parked) : Reported F v := by
  refine ⟨by simp [h.2], fun ev hmem hev => ?_⟩
  rw [h.2, append_nil] at hmem
  rw [h.1 ev hmem] at hev
  cases hev

/-- A job that had no terminal event ends with one. -/
theorem ended (h : NoTerminal v.chan v.parked) (hev : ev.isTerminal = true) (hend : v'.ending = some e)
    (hdec : v'.decoded = v.decoded) (hF : F e (sentPieces v.chan) v.decoded ev)
    (hview : v'.chan = v.chan ++ [ev] ∧ v'.parked = v.parked ∨ v'.chan = v.chan ∧ v'.parked = v.parked ++ [ev]) :
    Reported F v' ∧ sentPieces v'.chan = sentPieces v.chan := by
  have hsent : sentPieces v'.chan = sentPieces v.chan := by
    rcases hview with ⟨h, -⟩ | ⟨h, -⟩ <;> rw [h]
    exact sentPieces_terminal _ hev
  have hmem : ∀ o ∈ v'.chan ++ v'.parked, o ∈ v.chan ∨ o = ev := by
    intro o ho
    rcases hview with ⟨h1, h2⟩ | ⟨h1, h2⟩ <;>
      simpa [h1, h2, h.2] using ho
  refine ⟨⟨fun o ho => ?_, fun o ho hterm => ⟨e, hend, ?_⟩⟩, hsent⟩
  · rcases hview with ⟨-, h2⟩ | ⟨-, h2⟩
    · simp [h2, h.2] at ho
    · obtain rfl : o = ev := by simpa [h2, h.2] using ho
      exact hev
  · rcases hmem o ho with ho | rfl
    · rw [h.1 o ho] at hterm
      cases hterm
    · rwa [hsent, hdec]

/-- **Every step of a job** whose client stays reports what `F` allows, if the ends it can come to are such;
and it sends pieces only of a job that stays active. -/
theorem step (hopen : env.closed j v.clock = false) (hs : JobStep env j allow v v')
    (hrun : v.place ≠ .ended → NoTerminal v.chan v.parked) (hv : Reported F v)
    (hends : ∀ ev e, EndsWith env v.place ev → v.place.ending = some e → F e (sentPieces v.chan) v.decoded ev)
    (hgen : ∀ cfg f ev, v = f.h.view f.g.job.id (.active cfg f.g f.ahead f.hit) → (∃ h, GenOk cfg h f.g f.ahead) →
      f.g.held = [] → GenEnd env cfg f ev → F f.g.ending (sentPieces v.chan) v.decoded ev) :
    Reported F v' ∧
      (sentPieces v'.chan = sentPieces v.chan ∨ ∃ cfg g ahead hit, v'.place = .active cfg g ahead hit) := by
  cases hs with
  | wait => exact ⟨⟨hv.parked, hv.ends⟩, .inl rfl⟩
  | prepared _ _ _ _ hplace | endLost _ _ _ hplace | admitted _ _ _ _ _ _ hplace | decoded _ _ _ _ hplace
  | interrupted _ _ _ _ hplace | reissued _ _ hplace =>
    exact ⟨of_running (hrun (by simp [hplace])), .inl rfl⟩
  | endSent _ ev hev =>
    obtain ⟨e, he⟩ := hev.ending
    exact And.imp_right .inl (ended (hrun hev.place_ne) hev.isTerminal he rfl (hends ev e hev he) (.inl ⟨rfl, rfl⟩))
  | endParked _ p ev hplace hev =>
    have he : v.place.ending = some p.ending := by rw [hplace]; rfl
    exact And.imp_right .inl (ended (hrun hev.place_ne) hev.isTerminal he rfl (hends ev _ hev he) (.inr ⟨rfl, rfl⟩))
  | gone _ hclosed | retryGone _ _ _ _ _ hclosed =>
    rw [hopen] at hclosed
    cases hclosed
  | gen cfg drafting f f' hid hlive hok hstep =>
    subst hid
    have hnone := hrun (by simp [Host.view])
    have hstay : f'.g.done = false → Reported F (f'.h.view f.g.job.id (f'.place cfg)) ∧
        (sentPieces (f'.h.view f.g.job.id (f'.place cfg)).chan = sentPieces (f.h.chans f.g.job.id) ∨
          ∃ c g ahead hit, f'.place cfg = .active c g ahead hit) := fun hdone => by
      have hplace : f'.place cfg = .active cfg f'.g f'.ahead f'.hit := by simp [Focus.place, hdone]
      exact ⟨of_running ((hstep.terminal rfl hlive hnone).resolve_right (by simp [hplace])).1, .inr ⟨_, _, _, _, hplace⟩⟩
    cases hstep.effect rfl hlive with
    | quiet hdone | held _ hdone | sent _ hdone => exact hstay hdone
    | gone hclosed =>
      rw [show env.closed f.g.job.id f.h.clock = false from hopen] at hclosed
      cases hclosed
    | endSent ev hev _ hheld hview =>
      rw [hview]
      exact And.imp_right .inl (ended hnone hev.isTerminal rfl rfl (hgen cfg f ev rfl hok hheld hev) (.inl ⟨rfl, rfl⟩))
    | endParked ev hev _ hheld _ hview =>
      rw [hview]
      exact And.imp_right .inl (ended hnone hev.isTerminal rfl rfl (hgen cfg f ev rfl hok hheld hev) (.inr ⟨rfl, rfl⟩))
    | reaped _ _ hview =>
      rw [hview]
      exact ⟨of_running ⟨hnone.1, rfl⟩, .inl rfl⟩
  | retrySent _ pre post ev hparked =>
    have hsent := sentPieces_terminal v.chan (hv.parked ev (by simp [hparked]))
    refine ⟨⟨fun o ho => hv.parked o ?_, fun o ho hterm => ?_⟩, .inl hsent⟩
    · simp only [hparked, mem_append, mem_cons] at ho ⊢
      tauto
    · rw [hsent]
      refine hv.ends o ?_ hterm
      simp only [hparked, mem_append, mem_cons] at ho ⊢
      tauto
  | dropped => exact ⟨⟨by simp, fun o ho => hv.ends o (mem_append_left _ (by simpa using ho))⟩, .inl rfl⟩

end Reported

/-- The model an active generation runs on is as `Q` says. -/
def Place.On (Q : Cfg → Prop) : Place → Prop
  | .active cfg _ _ _ => Q cfg
  | _ => True

theorem Place.On.step {v v' : JobView} (hs : JobStep env j allow v v') (hv : v.place.On allow.model) :
    v'.place.On allow.model := by
  cases hs with
  | wait | retrySent | retryGone | dropped => exact hv
  | prepared | endSent | endParked | endLost | gone | interrupted | reissued => trivial
  | admitted _ _ _ _ _ _ _ hmodel => exact hmodel
  | decoded _ _ _ _ hplace =>
    rw [hplace] at hv
    exact hv
  | gen cfg drafting f f' =>
    simp only [Host.view, Focus.place]
    split
    · trivial
    · exact hv

theorem unsent_of_settled {p : PreparedGen} {kind : FinishKind} (h : settledFinish p = some kind) : p.unsent = [] := by
  unfold settledFinish at h
  split at h
  · assumption
  · cases h

/-- A prepared job has confirmed what it carried. -/
theorem prepared_confirmed {sup : SupervisedGenerate} {p : PreparedGen}
    (hp : prepareState env cfg sup.job sup.resume = .ok p) : p.priorGenerated = sup.ending.confirmed := by
  obtain ⟨job, resume⟩ := sup
  cases resume with
  | none =>
    obtain ⟨_, _, -, -, -, -, rfl⟩ := prepareState_fresh hp
    rfl
  | some state =>
    obtain ⟨_, -, rfl⟩ := prepareState_resumed hp
    rfl

/-- A job's pieces are in order, and it has no terminal event unless it is over. -/
structure JobPieces (env : Env) (v : JobView) : Prop where
  pieces : v.place.Pieces env v.chan v.decoded
  running : v.place ≠ .ended → NoTerminal v.chan v.parked

theorem JobPieces.fresh (j : JobId) (r : Request) : JobPieces env (freshJob j r) :=
  ⟨rfl, fun _ => ⟨by simp [freshJob], rfl⟩⟩

theorem JobPieces.step {v v' : JobView} (hv : JobPieces env v) (hopen : env.closed j v.clock = false)
    (hs : JobStep env j allow v v') : JobPieces env v' :=
  ⟨hv.pieces.step hopen hs hv.running, hs.noTerminal hv.running⟩

/-- A model split across nodes. -/
def splitCfg : Cfg := { slowCfg with nSeqMax := 2, distributed := true, nSeqMax_pos := Nat.zero_lt_two }

/-- A request of ten tokens. -/
def longRequest : Request :=
  { model := "m", prompt := .raw ['p'], maxTokens := 10, temperature := 0, stop := [] }

end OneBrain.Engine
