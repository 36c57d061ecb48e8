import OneBrain.Engine.JobSys

/-!
# The models of a run

A run serves only models it was told to load: what holds of every model named in a load message
holds of every model served (`run_loads`), and a statement about runs may ask it of their
labels (`runAllowed_of_loads`).
-/

namespace OneBrain.Engine

open List OneBrain.Lib

variable {env : Env} {cfg : Cfg}

/-- The models a system serves, has been told to serve or will be told to serve. -/
structure Loads (P : Cfg → Prop) (s : Sys) : Prop where
  phase : ∀ cfg pc, s.phase = .serving cfg pc → P cfg
  ctrl : ∀ cfg, s.loop.ctrl = some (.load (some cfg)) → P cfg
  rx : ∀ cfg, .ctrl (.load (some cfg)) ∈ s.rx → P cfg

namespace Loads

variable {P : Cfg → Prop} {s : Sys}

theorem works (hs : Loads P s) {l : Loop} {pc : Pc} (hP : P cfg) (hctrl : l.ctrl = s.loop.ctrl) :
    Loads P { s with loop := l, phase := .serving cfg pc } :=
  ⟨fun _ _ h => (by cases h; exact hP), fun c h => hs.ctrl c (hctrl ▸ h), hs.rx⟩

theorem receives (hs : Loads P s) (hP : P cfg) (pc : Pc) : Loads P (receive env cfg s pc) := by
  unfold receive
  split
  · exact hs.works hP rfl
  · rename_i rest hrx
    exact ⟨fun _ _ h => (by cases h), hs.ctrl, fun c h => hs.rx c (hrx ▸ mem_cons_of_mem _ h)⟩
  · rename_i msg rest hne hrx
    refine ⟨fun _ _ h => (by cases h; exact hP), fun c h => ?_, fun c h => hs.rx c (hrx ▸ mem_cons_of_mem _ h)⟩
    cases msg with
    | ctrl c' =>
      refine hs.rx c (hrx ▸ ?_)
      obtain rfl : c' = .load (some c) := Option.some.inj h
      exact mem_cons_self
    | models | embed | generate | shutdown => exact hs.ctrl c h

theorem applies (hs : Loads P s) {c : Ctrl} (hc : ∀ cfg, c = .load (some cfg) → P cfg) : Loads P (applyCtrl s c) := by
  cases c with
  | load cfg =>
    cases cfg with
    | none => exact ⟨fun _ _ h => (by cases h), hs.ctrl, hs.rx⟩
    | some cfg => exact ⟨fun _ _ h => (by cases h; exact hc cfg rfl), fun _ h => (by cases h), hs.rx⟩
  | unload | serveShard => exact ⟨fun _ _ h => (by cases h), hs.ctrl, hs.rx⟩

end Loads

/-! Only a received message sets the pending replacement of the model. -/

theorem admission_ctrl (l : List PreparedGen) (s : Loop) : (admission env cfg l s).ctrl = s.ctrl := by
  induction l generalizing s with
  | nil => rfl
  | cons p l ih =>
    unfold admission
    split
    · split
      · rfl
      · exact ih _
      · exact ih _
    · rfl

/-- What a step of the loop does not touch. -/
def Loop.waiting (s : Loop) : Option Ctrl × List PreparedGen := (s.ctrl, s.queue)

theorem failPush_waiting (s : Loop) (i : ℕ) (e : String) : (failPush env s i e).waiting = s.waiting := by
  unfold failPush
  split
  · rfl
  · rfl

theorem plainDecoded_waiting (s : Loop) (batch : List BatchTok) (decodes : List (ℕ × ℕ))
    (prefill : Option (ℕ × ℕ × Option ℕ)) : (plainDecoded env cfg s batch decodes prefill).waiting = s.waiting := by
  unfold plainDecoded
  dsimp only
  split
  · rfl
  · split
    · rfl
    · rfl

theorem stepBlock_waiting (s : Loop) : (stepBlock env cfg s).1.waiting = s.waiting := by
  unfold stepBlock
  split
  · rfl
  · split
    · unfold specStep
      split
      · rfl
      · split
        · rfl
        · rfl
    · unfold plainStep
      split
      · exact failPush_waiting _ _ _
      · split
        · exact failPush_waiting _ _ _
        · split
          · rfl
          · split
            · rfl
            · exact plainDecoded_waiting _ _ _ _

namespace Loads

variable {P : Cfg → Prop} {s : Sys}

theorem tick (hs : Loads P s) : Loads P (tickStep env s) := by
  unfold tickStep
  split
  · unfold idleStep
    split
    · exact hs
    · rename_i msg rest hrx
      have hrest : ∀ c, .ctrl (.load (some c)) ∈ rest → P c := fun c h => hs.rx c (hrx ▸ mem_cons_of_mem _ h)
      split
      · dsimp only
        split
        · exact ⟨hs.phase, hs.ctrl, hrest⟩
        · exact ⟨hs.phase, hs.ctrl, hs.rx⟩
      · exact ⟨fun _ _ h => (by cases h), hs.ctrl, hrest⟩
      · rename_i c
        refine Loads.applies (s := { s with rx := rest }) ⟨hs.phase, hs.ctrl, hrest⟩ ?_
        rintro cfg rfl
        exact hs.rx cfg (hrx ▸ mem_cons_self)
      · exact ⟨hs.phase, hs.ctrl, hrest⟩
  · exact hs
  · rename_i cfg hphase
    exact hs.works (hs.phase _ _ hphase) rfl
  · rename_i cfg hphase
    have hP := hs.phase _ _ hphase
    unfold pumpStep
    split
    · exact hs.works hP rfl
    · split
      · split
        · exact hs
        · exact hs.works hP rfl
      · exact hs.receives hP _
  · rename_i cfg hphase
    have hP := hs.phase _ _ hphase
    have hctrl : (settleBlock env cfg s.loop).ctrl = s.loop.ctrl := admission_ctrl _ _
    unfold barrier
    split
    · rename_i c hc
      split
      · have hfree : Loads P { s with
            loop := { settleBlock env cfg s.loop with
              host := { (settleBlock env cfg s.loop).host with outbox := [] }, ctrl := none } } :=
          ⟨hs.phase, fun _ h => (by cases h), hs.rx⟩
        apply hfree.applies
        rintro cfg' rfl
        exact hs.ctrl cfg' (hctrl ▸ hc)
      · exact hs.works hP hctrl
    · exact hs.works hP hctrl
  · rename_i cfg hphase
    exact hs.works (hs.phase _ _ hphase) (congrArg Prod.fst (stepBlock_waiting s.loop))
  · rename_i cfg hphase
    have hP := hs.phase _ _ hphase
    split
    · exact hs.works hP rfl
    · exact hs.receives hP _

theorem queued (hs : Loads P s) {t : Sys} {m : HostMsg} (hphase : t.phase = s.phase) (hctrl : t.loop.ctrl = s.loop.ctrl)
    (hrx : t.rx = s.rx ++ [m]) (hm : ∀ cfg, m = .ctrl (.load (some cfg)) → P cfg) : Loads P t := by
  refine ⟨fun c pc h => hs.phase c pc (hphase ▸ h), fun c h => hs.ctrl c (hctrl ▸ h), fun c h => ?_⟩
  rw [hrx] at h
  rcases mem_append.mp h with h | h
  · exact hs.rx c h
  · exact hm c (mem_singleton.mp h).symm

theorem step (hs : Loads P s) {l : Label} (hl : ∀ cfg, l = .control (.load (some cfg)) → P cfg) :
    Loads P (sysStep env s l) := by
  cases l with
  | submit | query | embed | shutdown => exact hs.queued rfl rfl rfl fun _ h => (by cases h)
  | control => exact hs.queued rfl rfl rfl fun cfg h => hl cfg (by cases h; rfl)
  | supervise =>
    simp only [sysStep, superviseStep]
    split
    · exact hs
    · split
      · exact hs.queued rfl rfl rfl fun _ h => (by cases h)
      · split
        · exact ⟨hs.phase, hs.ctrl, hs.rx⟩
        · exact ⟨hs.phase, hs.ctrl, hs.rx⟩
  | tick => exact hs.tick

end Loads

/-- **A model that is served was loaded.** -/
theorem run_loads {P : Cfg → Prop} {labels : List Label} (hl : ∀ cfg, .control (.load (some cfg)) ∈ labels → P cfg) :
    Loads P (run env Sys.init labels) := by
  induction labels using List.reverseRecOn with
  | nil => exact ⟨fun _ _ h => (by cases h), fun _ h => (by cases h), fun _ h => (by cases h)⟩
  | append_singleton labels l ih =>
    rw [run_snoc]
    refine (ih fun cfg h => hl cfg (by simp [h])).step ?_
    rintro cfg rfl
    exact hl cfg (by simp)

theorem runAllowed_of_loads {P : Cfg → Prop} {labels : List Label}
    (hl : ∀ cfg, .control (.load (some cfg)) ∈ labels → P cfg) :
    RunAllowed env (fun _ => ⟨True, fun _ => True, P⟩) labels := by
  intro pre l post heq
  refine ⟨fun _ _ _ _ => trivial, fun _ _ _ _ _ => trivial, fun _ _ _ => trivial, fun _ cfg pc hphase _ => ?_⟩
  have hloads : Loads P (run env Sys.init pre) :=
    run_loads fun cfg h => hl cfg (by rw [heq]; exact mem_append_left _ h)
  exact hloads.phase cfg pc hphase

end OneBrain.Engine
