import OneBrain.Engine.Modes

/-!
# Speculation and the answer

A draft model is accepted when its vocabulary passes a probe: same tokenizer family, same
tokens of a probe text, same renderings. The probe says nothing about which tokens end a
generation. A round confirms a draft the target chose too without asking whether it ends the
target's generation, so a draft that does not stop where the target does changes what a
client is sent: `draft_passes_the_end`.

With a draft that stops wherever the target does, and cached positions that can be removed,
speculation changes nothing but the speed: `speculation_transparent`.
-/

namespace OneBrain.Engine

open OneBrain.Lib

/-! ### Which drafts are accepted -/

/-- What a loaded model shows of its vocabulary. -/
structure Vocab where
  /-- `tokenizer.ggml.model`, when present. -/
  tokenizer : Option String
  tokenize : Text → Except String (List Token)
  tokenToPiece : Token → Except String Text

/-- The text that both vocabularies are asked to tokenize. -/
def VOCAB_PROBE : Text :=
  ("The quick brown fox jumps over the lazy dog. 0123456789 "
    ++ "Once upon a time, señor Åke said: \"hello, world\"!").toList

/-- What two vocabularies are compared by. -/
structure VocabFingerprint where
  tokenizer : Option String
  tokens : List Token
  pieces : List Text
  deriving DecidableEq, Repr

/-- The pieces of some tokens. -/
def Vocab.pieces (v : Vocab) : List Token → Except String (List Text)
  | [] => .ok []
  | t :: ts =>
    match v.tokenToPiece t with
    | .error e => .error e
    | .ok piece =>
      match v.pieces ts with
      | .error e => .error e
      | .ok rest => .ok (piece :: rest)

/-- The fingerprint of a vocabulary. -/
def vocabFingerprint (v : Vocab) : Except String VocabFingerprint :=
  match v.tokenize VOCAB_PROBE with
  | .error e => .error e
  | .ok tokens =>
    match v.pieces tokens with
    | .error e => .error e
    | .ok pieces => .ok { tokenizer := v.tokenizer, tokens := tokens, pieces := pieces }

/-- A character inside a `{:?}` of a text. Of the characters that are not printable, those of ASCII and
Latin-1 are escaped. -/
def debugChar (c : Char) : String :=
  if c = '"' then "\\\"" else if c = '\\' then "\\\\" else if c = '\n' then "\\n" else if c = '\r' then "\\r"
  else if c = '\t' then "\\t" else if c.toNat = 0 then "\\0"
  else if c.toNat < 32 ∨ 127 ≤ c.toNat ∧ c.toNat ≤ 160 ∨ c.toNat = 173 then
    "\\u\x7b" ++ String.ofList (Nat.toDigits 16 c.toNat) ++ "\x7d"
  else String.singleton c

/-- A text in quotes. -/
def debugText (t : Text) : String := "\"" ++ String.join (t.map debugChar) ++ "\""

/-- The first token with two pieces. -/
def pieceMismatch : List Token → List Text → List Text → Option String
  | tok :: toks, t :: ts, d :: ds =>
    if t ≠ d then
      some ("token id " ++ toString tok ++ " renders differently (" ++ debugText t ++ " vs " ++ debugText d ++ ")")
    else pieceMismatch toks ts ds
  | _, _, _ => none

/-- Two declared tokenizer families that differ. -/
def tokenizerMismatch : Option String → Option String → Option String
  | some t, some d =>
    if t ≠ d then
      some ("the models use different tokenizers (" ++ debugText t.toList ++ " vs " ++ debugText d.toList ++ ")")
    else none
  | _, _ => none

/-- `vocab_mismatch`: what tells two fingerprints apart. -/
def vocabMismatch (target draft : VocabFingerprint) : Option String :=
  match tokenizerMismatch target.tokenizer draft.tokenizer with
  | some detail => some detail
  | none =>
    if target.tokens ≠ draft.tokens then
      some ("the vocabulary probe text tokenizes differently (" ++ toString target.tokens.length ++ " vs "
        ++ toString draft.tokens.length ++ " tokens, or differing ids)")
    else pieceMismatch target.tokens target.pieces draft.pieces

theorem pieceMismatch_self (toks : List Token) (ts : List Text) : pieceMismatch toks ts ts = none := by
  induction toks generalizing ts with
  | nil => cases ts <;> rfl
  | cons tok toks ih =>
    cases ts with
    | nil => rfl
    | cons => simp [pieceMismatch, ih]

/-- A vocabulary passes against itself, and against one that only does not declare its family. -/
theorem vocabMismatch_self (f : VocabFingerprint) (family : Option String) (h : ∀ t ∈ family, f.tokenizer = some t) :
    vocabMismatch f { f with tokenizer := family } = none := by
  have hfamily : tokenizerMismatch f.tokenizer family = none := by
    cases family with
    | none => cases f.tokenizer <;> rfl
    | some t => simp [h t rfl, tokenizerMismatch]
  simp [vocabMismatch, hfamily, pieceMismatch_self]

/-! ### Drafts that stop where the target does -/

variable {lm : LanguageModel} {r : Request}

theorem confirmed_agree {env env' : Env} {labels labels' : List Label} {j k : JobId} (hs : Serving lm env labels j r)
    (hs' : Serving lm env' labels' k r) {g g' : ActiveGen} {cfg cfg' : Cfg} {pc pc' : Pc}
    (hphase : (run env Sys.init labels).phase = .serving cfg pc)
    (hphase' : (run env' Sys.init labels').phase = .serving cfg' pc')
    (hg : g ∈ (run env Sys.init labels).loop.active) (hg' : g' ∈ (run env' Sys.init labels').loop.active)
    (hid : g.job.id = j) (hid' : g'.job.id = k) : g.confirmed <+: g'.confirmed ∨ g'.confirmed <+: g.confirmed := by
  obtain ⟨toks, hprompt, hpre⟩ := hs.confirmed hphase hg hid
  obtain ⟨toks', hprompt', hpre'⟩ := hs'.confirmed hphase' hg' hid'
  obtain rfl : toks = toks' := Except.ok.inj (hprompt.symm.trans hprompt')
  exact List.prefix_or_prefix_of_prefix hpre hpre'

/-- The same model, with a draft or without. -/
def Cfg.drafts (cfg : Cfg) (hasDraft : Bool) : Cfg := { cfg with hasDraft := hasDraft }

/-- A run that loads no draft. -/
def Undrafted (labels : List Label) : Prop := ∀ cfg, .control (.load (some cfg)) ∈ labels → cfg.hasDraft = false

/-- **Speculation never changes a greedy run**, with a draft that ends wherever the target does: in any run with
drafts and any run without, generations confirm the same tokens and clients agree; and a request that is served
alone to a client that reads is finished in both, with the same pieces, kind and counts, when cached positions
can be removed. -/
theorem speculation_transparent {env plain : Env} (hm : lm.Runs env) (hp : lm.Runs plain)
    (hends : ∀ tok, lm.isEog tok = true → env.draftIsEog tok = true) :
    (∀ (A B : List Label) (j k : JobId), (requests A)[j]? = some r → (requests B)[k]? = some r → Undrafted B →
      (∀ t, env.closed j t = false) → (∀ t, plain.closed k t = false) →
      Agree ((run env Sys.init A).loop.host.chans j) ((run plain Sys.init B).loop.host.chans k) ∧
      ∀ cfg pc cfg' pc', (run env Sys.init A).phase = .serving cfg pc →
        (run plain Sys.init B).phase = .serving cfg' pc' →
        ∀ g ∈ (run env Sys.init A).loop.active, ∀ g' ∈ (run plain Sys.init B).loop.active,
          g.job.id = j → g'.job.id = k → g.confirmed <+: g'.confirmed ∨ g'.confirmed <+: g.confirmed) ∧
    ∀ cfg toks, Unhindered env (cfg.drafts true) 0 → Unhindered plain (cfg.drafts false) 0 → Accepts lm cfg r toks →
      ∃ n m s t, .done s ∈ (run env Sys.init (serveAlone (cfg.drafts true) r n)).loop.host.chans 0 ∧
        .done t ∈ (run plain Sys.init (serveAlone (cfg.drafts false) r m)).loop.host.chans 0 ∧
        sentPieces ((run env Sys.init (serveAlone (cfg.drafts true) r n)).loop.host.chans 0) =
          sentPieces ((run plain Sys.init (serveAlone (cfg.drafts false) r m)).loop.host.chans 0) ∧
        s.finish = t.finish ∧ s.promptTokens = t.promptTokens ∧ s.completionTokens = t.completionTokens := by
  have hdraft : ∀ cfg, DraftEnds env cfg := fun cfg _ tok htok => hends tok (hm.isEog ▸ htok)
  refine ⟨fun A B j k hr hr' hB hopen hopen' => ?_, fun cfg toks hu hu' ha => ?_⟩
  · have hs : Serving lm env A j r := ⟨hm, hr, fun cfg _ => hdraft cfg, hopen _⟩
    have hs' : Serving lm plain B k r := by
      refine ⟨hp, hr', fun cfg hload hon => ?_, hopen' _⟩
      rw [hB cfg hload] at hon
      cases hon
    exact ⟨hs.agree hs', fun cfg pc cfg' pc' hphase hphase' g hg g' hg' hid hid' =>
      confirmed_agree hs hs' hphase hphase' hg hg' hid hid'⟩
  · have hmode : ∀ b, Accepts lm (cfg.drafts b) r toks := fun b => ⟨ha.batch, ha.named, ha.prompt, ha.nonempty, ha.fits⟩
    have hoff : DraftEnds plain (cfg.drafts false) := fun hon => (by cases hon)
    exact serveAlone_agree hm hp (hdraft _) hoff hu hu' (hmode true) (hmode false)

theorem speculation_transparent_calm :
    ∃ n m s t, .done s ∈ (run calmEnv Sys.init (serveAlone (splitCfg.drafts true) longRequest n)).loop.host.chans 0 ∧
      .done t ∈ (run calmEnv Sys.init (serveAlone (splitCfg.drafts false) longRequest m)).loop.host.chans 0 ∧
      sentPieces ((run calmEnv Sys.init (serveAlone (splitCfg.drafts true) longRequest n)).loop.host.chans 0) =
        sentPieces ((run calmEnv Sys.init (serveAlone (splitCfg.drafts false) longRequest m)).loop.host.chans 0) ∧
      s.finish = t.finish ∧ s.promptTokens = t.promptTokens ∧ s.completionTokens = t.completionTokens :=
  (speculation_transparent calmModel_runs calmModel_runs fun _ h => h).2 splitCfg [0] (calmEnv_unhindered _ _)
    (calmEnv_unhindered _ _) ⟨rfl, by decide, rfl, by decide, by decide⟩

/-! ### A draft that goes on where the target ends -/

/-- The target says `a` and then ends its generation with the token `2`; the draft proposes `2` and takes it for a
token like any other. -/
def endEnv : Env :=
  { calmEnv with
    tokenToPiece := fun t => .ok (if t = 2 then ['e'] else ['a'])
    isEog := fun t => t == 2
    sample := fun _ cells => if cells.length = 1 then 1 else 2
    draftSample := fun _ _ => 2
    draftIsEog := fun _ => false }

/-- A request of two tokens. -/
def twoTokens : Request := { longRequest with maxTokens := 2 }

/-- The vocabulary of that model. -/
def endVocab : Vocab := { tokenizer := some "llama", tokenize := endEnv.tokenize, tokenToPiece := endEnv.tokenToPiece }

/-- The draft passes the probe, the client reads, and no call fails; the client is sent the text of the token
that ends the generation, and is told that its budget was spent. -/
theorem draft_passes_the_end :
    (∃ f, vocabFingerprint endVocab = .ok f ∧ vocabMismatch f f = none) ∧
      Unhindered endEnv (splitCfg.drafts true) 0 ∧
      (run endEnv Sys.init (serveAlone (splitCfg.drafts true) twoTokens 10)).loop.host.chans 0 =
        [.token ['a'], .token ['e'],
          .done { promptTokens := 1, completionTokens := 2, finish := .length, drafted := 1, accepted := 1 }] ∧
      (run endEnv Sys.init (serveAlone (splitCfg.drafts false) twoTokens 10)).loop.host.chans 0 = [.token ['a'],
          .done { promptTokens := 1, completionTokens := 1, finish := .stop, drafted := 0, accepted := 0 }] := by
  refine ⟨⟨_, rfl, vocabMismatch_self _ (some "llama") fun t ht => ht⟩, ?_, by decide +kernel, by decide +kernel⟩
  exact ⟨fun _ => rfl, fun _ _ => rfl, fun _ => ⟨_, rfl⟩, fun _ => rfl, fun _ _ => rfl, fun _ => rfl⟩

end OneBrain.Engine
