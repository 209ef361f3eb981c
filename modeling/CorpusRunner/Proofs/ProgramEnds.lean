import CorpusRunner.Proofs.ProgramRefines
import CorpusRunner.Proofs.Termination

/-!
# A call comes to its end

`run-corpus.mjs` is called in an output directory that earlier runs may have left in any state.
If it has a slot to run a test, then the supervisor and its workers cannot go on forever, and when
nothing is left to do the supervisor has written its report: over all selected tests, or with the
line on the console that it gave up (`call_ends`).
-/

namespace CorpusRunner

/-! ## Before the loop -/

/-- The supervisor removes the files of `--fresh`, or recovers what the last run left. -/
def Pc.starting : Pc → Prop
  | .rmProgress => True
  | .rmInflight => True
  | .harvest _ k => k = .startup
  | _ => False

/-- A supervisor with a slot has not entered the loop. -/
def Starting (s : Sys) : Prop :=
  ∃ p, s.sup = some p ∧ 1 ≤ p.cfg.concurrency ∧ p.pc.starting

/-- How far the recovery is from its end. -/
def Pc.startStage : Pc → ℕ
  | .rmProgress => 9
  | .rmInflight => 8
  | pc => pc.stage false

def Sys.startMeasure (s : Sys) : ℕ ×ₗ ℕ :=
  match s.sup with
  | some p => toLex (p.pc.startStage, p.pc.inner)
  | none => toLex (0, 0)

/-- The recovery goes on to its end, where the loop is entered. -/
theorem Starting.step {s s' : Sys} {e : Event} (h : Starting s) (hok : inLoop s e)
    (hs : s.step e = some s') :
    (∃ cfg, LoopInv cfg s') ∨ Starting s' ∧ s'.startMeasure < s.startMeasure := by
  obtain ⟨p, hp, hc, hpc⟩ := h
  obtain ⟨d, sup, orphans, fallen, clock⟩ := s
  cases sysStep_of_step hs with
  | @sup cfg at_ now pc p' d' hsup =>
    obtain rfl := Option.some.inj hp
    -- a step of the recovery that is not its last one
    have next : ∀ {pc' : Pc} {d' : Disk}, pc'.starting →
        (pc'.startStage < pc.startStage ∨
          pc'.startStage = pc.startStage ∧ pc'.inner < pc.inner) →
        Starting (Sys.mk d' (some ⟨cfg, at_, pc'⟩) orphans fallen clock) ∧
          (Sys.mk d' (some ⟨cfg, at_, pc'⟩) orphans fallen clock).startMeasure <
            (Sys.mk d (some ⟨cfg, at_, pc⟩) orphans fallen clock).startMeasure :=
      fun hpc' hlt => ⟨⟨_, rfl, hc, hpc'⟩, Prod.Lex.toLex_lt_toLex.mpr hlt⟩
    cases hsup with
    | rmProgress => exact .inr (next trivial (.inl (by decide)))
    | rmInflight => exact .inr (next rfl (.inl (by decide)))
    | readInflight reason b k => exact .inr (next hpc (.inl (by simp [Pc.startStage, Pc.stage])))
    | readLedger reason b k => exact .inr (next hpc (.inl (by simp [Pc.startStage, Pc.stage])))
    | reap reason b k e es targets =>
      exact .inr (next hpc (.inr ⟨rfl, by simp [Pc.inner]⟩))
    | reaped reason b k => exact .inr (next hpc (.inl (by simp [Pc.startStage, Pc.stage])))
    | mark reason b k e targets => exact .inr (next hpc (.inr ⟨rfl, by simp [Pc.inner]⟩))
    | marked reason b k => exact .inr (next hpc (.inl (by simp [Pc.startStage, Pc.stage])))
    | clearStartup =>
      refine .inl ⟨cfg, ?_⟩
      rintro p ⟨⟩
      exact ⟨rfl, rfl, .inl hc⟩
    | clearCycle => cases hpc
    | _ => exact hpc.elim
  | stallAwait | stallExited | worker | workerExits | workerThrows | workerDies =>
    obtain rfl := Option.some.inj hp
    exact hpc.elim
  | _ => exact hok.elim

/-- A supervisor with a slot comes to its end from its start. -/
theorem terminates_starting {s : Sys} (h : Starting s) : Terminates Sys.step inLoop s := by
  apply terminates_of_phase wellFounded_lt Sys.startMeasure ?_ h
  intro s e s' hI hok hs
  rcases hI.step hok hs with ⟨cfg, hloop⟩ | hnext
  · exact .inl (terminates_loop hloop)
  · exact .inr hnext

namespace Program

/-! ## A call -/

/-- The events of one call: the steps of its supervisor and of the supervisor's worker. -/
def inCall (_ : Sys) : Event → Prop
  | .sup _ => True
  | .stall => True
  | .worker _ => True
  | .workerExits => True
  | .workerDies _ => True
  | _ => False

theorem StandsFor.inLoop {h : Host} {s : Sys} {t : CorpusRunner.Sys} {e : Event}
    {e' : CorpusRunner.Event} (he : StandsFor h e e') (hok : inCall s e) :
    CorpusRunner.inLoop t e' := by
  cases he with
  | sup | stall | worker | workerExits | workerDies => trivial
  | _ => exact hok.elim

/-- One while the supervisor is about to look at the ledger, which the lists do not do. -/
def Sys.looks (s : Sys) : ℕ :=
  match s.sup with
  | some ⟨_, _, _, .guard⟩ => 1
  | _ => 0

/-- A call ends if the lists' does. -/
theorem terminates_of_lists {h : Host} {minutes : Int → JsString} {dir : AbsPath} {s : Sys}
    {t : CorpusRunner.Sys} (ht : SysMatches h dir s t)
    (hend : Terminates CorpusRunner.Sys.step CorpusRunner.inLoop t) :
    Terminates (Sys.step h minutes) inCall s := by
  refine terminates_of_simulation Sys.looks ?_ ht hend
  intro s e s' t ht hok hs
  by_cases hshared : Shared s e
  · obtain ⟨e', he⟩ := exists_standsFor hs
    have hstep := step_rel minutes ht he hshared
    rw [hs] at hstep
    obtain ⟨t', ht', hm⟩ := rel_some_left hstep
    exact .inl ⟨t', ⟨e', he.inLoop hok, ht'⟩, hm⟩
  · have hm := unshared_step ht hshared hs
    refine .inr ⟨hm, ?_⟩
    cases e with
    | sup now =>
      obtain ⟨p, hp, hguard⟩ : ∃ p, s.sup = some p ∧ p.pc = .guard := by
        simpa [Shared] using hshared
      obtain ⟨settings, all, startedAt, pc⟩ := p
      obtain rfl : pc = .guard := hguard
      simp only [Sys.step, hp, Supervisor.step, Option.some.injEq] at hs
      subst hs
      simp [Sys.looks, hp]
    | start => exact hok.elim
    | _ => exact absurd trivial hshared

/-- As long as its supervisor runs, a call can go on. -/
theorem call_enabled {h : Host} {minutes : Int → JsString} {s : Sys} (hsup : s.sup ≠ none) :
    ∃ s', Steps (Sys.step h minutes) inCall s s' := by
  obtain ⟨⟨settings, all, startedAt, pc⟩, hp⟩ := Option.ne_none_iff_exists'.mp hsup
  by_cases hawait : ∃ n before w, pc = .await n before w
  · obtain ⟨n, before, w, rfl⟩ := hawait
    refine steps_of_isSome (e := .stall) ?_ trivial
    simp [Sys.step, hp]
  · refine steps_of_isSome (e := .sup 0) ?_ trivial
    have hstep : (Supervisor.step h minutes ⟨settings, all, startedAt, pc⟩ s.disk 0).isSome := by
      cases pc with
      | await n before w => exact absurd ⟨n, before, w, rfl⟩ hawait
      | harvest hv k =>
        simp only [Supervisor.step]
        split
        · rfl
        · cases k <;> rfl
      | top => simp only [Supervisor.step]; split <;> rfl
      | returned n before result => cases result <;> rfl
      | broke => simp only [Supervisor.step]; split <;> rfl
      | _ => rfl
    obtain ⟨⟨p', d', lines⟩, hstep⟩ := Option.isSome_iff_exists.mp hstep
    simp [Sys.step, hp, hstep]

/-! ## What a call leaves -/

/-- The report is about the ledger as it stands and, unless the supervisor has given up, about
an entry of every selected test. -/
structure Reported (h : Host) (inv : Invocation) (d : Disk) (console : List JsString) : Prop where
  results : ∃ all startedAt now m, inv.settings.all h = some all ∧
    summaryOf (all.filterMap d.ledger.get?) startedAt now = some m ∧
    d.results = some (resultsText m (all.filterMap d.ledger.get?))
  covers : abortLine inv.settings ∈ console ∨
    ∃ all, inv.settings.all h = some all ∧ ∀ t ∈ all, d.ledger.has t = true

/-- A supervisor of this call; behind the loop it knows why it has left it. -/
structure Works (h : Host) (inv : Invocation) (d : Disk) (console : List JsString)
    (p : Supervisor) : Prop where
  settings : p.settings = inv.settings
  all : inv.settings.all h = some p.all
  left : p.pc = .broke false → ∀ t ∈ p.all, d.ledger.has t = true
  gaveUp : p.pc = .broke true → abortLine inv.settings ∈ console

/-- The call is under way, or has left its report. -/
def Outcome (h : Host) (inv : Invocation) (d : Disk) (console : List JsString) :
    Option Supervisor → Prop
  | some p => Works h inv d console p
  | none => Reported h inv d console

/-- The loop is left. -/
def Pc.left : Pc → Bool
  | .broke _ => true
  | _ => false

theorem Works.going {h : Host} {inv : Invocation} {d d' : Disk} {console console' : List JsString}
    {p p' : Supervisor} (hp : Works h inv d console p) (hsettings : p'.settings = p.settings)
    (hall : p'.all = p.all) (hpc : p'.pc.left = false) : Works h inv d' console' p' where
  settings := hsettings.trans hp.settings
  all := by rw [hall, hp.all]
  left := by
    intro hbroke
    rw [hbroke] at hpc
    cases hpc
  gaveUp := by
    intro hbroke
    rw [hbroke] at hpc
    cases hpc

theorem Works.step {h : Host} {minutes : Int → JsString} {inv : Invocation} {d d' : Disk}
    {console lines : List JsString} {p : Supervisor} {p' : Option Supervisor} {now : Int}
    (hp : Works h inv d console p) (hs : p.step h minutes d now = some (p', d', lines)) :
    Outcome h inv d' (console ++ lines) p' := by
  obtain ⟨settings, all, startedAt, pc⟩ := p
  obtain rfl : settings = inv.settings := hp.settings
  have going : ∀ {d' : Disk} {lines : List JsString} {t : Int} {pc' : Pc},
      pc'.left = false →
      Outcome h inv d' (console ++ lines) (some ⟨inv.settings, all, t, pc'⟩) :=
    fun hpc => hp.going rfl rfl hpc
  cases pc with
  | await => cases hs
  | harvest hv k =>
    simp only [Supervisor.step] at hs
    split at hs
    · cases hs
      exact going rfl
    · cases k with
      | startup =>
        cases hs
        exact going rfl
      | cycle n before after result =>
        simp only [tally] at hs
        split at hs
        · split at hs
          · cases hs
            refine ⟨rfl, hp.all, by simp, fun _ => ?_⟩
            simp
          · cases hs
            exact going rfl
        · cases hs
          exact going rfl
  | top n =>
    simp only [Supervisor.step] at hs
    split at hs
    · rename_i hnone
      cases hs
      refine ⟨rfl, hp.all, fun _ => ?_, by simp⟩
      simpa [List.filter_eq_nil_iff] using hnone
    · cases hs
      exact going rfl
  | returned n before result =>
    cases result <;> (cases hs; exact going rfl)
  | broke aborted =>
    obtain ⟨m, hm, hwrite⟩ := exists_writeOutputs minutes all startedAt now d
    simp only [Supervisor.step, hwrite] at hs
    cases hs
    refine ⟨⟨all, startedAt, now, m, hp.all, hm, rfl⟩, ?_⟩
    cases aborted with
    | true => exact .inl (List.mem_append_left _ (hp.gaveUp rfl))
    | false => exact .inr ⟨all, hp.all, hp.left rfl⟩
  | _ =>
    cases hs
    exact going rfl

theorem Outcome.step {h : Host} {minutes : Int → JsString} {inv : Invocation} {s s' : Sys}
    {e : Event} (hO : Outcome h inv s.disk s.console s.sup) (hok : inCall s e)
    (hs : s.step h minutes e = some s') : Outcome h inv s'.disk s'.console s'.sup := by
  obtain ⟨dir, disk, sup, orphans, console⟩ := s
  cases sup with
  | none =>
    cases e with
    | sup | stall | worker | workerExits | workerDies => cases hs
    | _ => exact hok.elim
  | some p =>
    have hp : Works h inv disk console p := hO
    cases e with
    | sup now =>
      simp only [Sys.step] at hs
      split at hs
      · rename_i p' d' lines hstep
        cases hs
        exact hp.step hstep
      · cases hs
    | stall =>
      simp only [Sys.step] at hs
      split at hs
      · rename_i heq
        cases heq
        cases hs
        exact hp.going rfl rfl rfl
      · rename_i heq
        cases heq
        cases hs
        exact hp.going rfl rfl rfl
      · cases hs
    | worker we =>
      simp only [Sys.step] at hs
      split at hs
      · rename_i heq
        cases heq
        split at hs
        · cases hs
          exact hp.going rfl rfl rfl
        · cases hs
      · cases hs
    | workerExits =>
      simp only [Sys.step] at hs
      split at hs
      · rename_i heq
        cases heq
        split at hs
        · cases hs
          exact hp.going rfl rfl rfl
        · split at hs
          · cases hs
            exact hp.going rfl rfl rfl
          · cases hs
      · cases hs
    | workerDies what =>
      simp only [Sys.step] at hs
      split at hs
      · rename_i heq
        cases heq
        cases hs
        exact hp.going rfl rfl rfl
      · cases hs
    | _ => exact hok.elim

/-- A call for a run starts with the removal of the files or with the recovery. -/
theorem start_spec {h : Host} {minutes : Int → JsString} {s s₁ : Sys} {inv : Invocation}
    (hs : s.step h minutes (.start inv) = some s₁) (hhelp : inv.help = false)
    (hlist : inv.listOnly = false) :
    inv.settings.outDir = s.dir ∧ ∃ all pc, inv.settings.all h = some all ∧
      s₁.sup = some ⟨inv.settings, all, 0, pc⟩ ∧ (pc = .rmProgress ∨ pc = startupHarvest) := by
  simp only [Sys.step, Sys.start, hhelp, hlist, Bool.false_eq_true, if_false] at hs
  split at hs
  · rename_i hfree
    split at hs
    · cases hs
    · rename_i all hall
      split at hs
      · cases hs
        exact ⟨hfree.2, all, _, hall, rfl, .inl rfl⟩
      · cases hs
        exact ⟨hfree.2, all, _, hall, rfl, .inr rfl⟩
  · cases hs

theorem PcMatches.starting {h : Host} {pc : Pc} {pc' : CorpusRunner.Pc}
    (hm : PcMatches h pc pc') (hpc : pc = .rmProgress ∨ pc = startupHarvest) : pc'.starting := by
  rcases hpc with rfl | rfl
  · cases hm
    trivial
  · cases hm
    rfl

/-- **A call comes to its end.** Whatever whole appends and writes earlier runs left in the
directory, a call that is one for a run and has a slot leaves no infinite run of its supervisor
and its workers, if its numbers and those of the calls before it are safe integers. Where no step
is left, the supervisor has ended, `corpus-results.json` has the entries of the selected tests
that the ledger then holds, and either the ledger holds all of them or the console has the line
that no progress was made. -/
theorem call_ends {h : Host} {minutes : Int → JsString} {dir : AbsPath} {s₁ : Sys}
    {es : List Event} {inv : Invocation}
    (hrun : Run (Sys.step h minutes) (fun _ e => e.Safe) (Sys.fresh dir) (es ++ [.start inv]) s₁)
    (hhelp : inv.help = false) (hlist : inv.listOnly = false)
    (hslot : 1 ≤ inv.settings.concurrency) :
    Terminates (Sys.step h minutes) inCall s₁ ∧
    ∀ es' s', Run (Sys.step h minutes) inCall s₁ es' s' →
      (∀ s'', ¬ Steps (Sys.step h minutes) inCall s' s'') →
      s'.sup = none ∧ Reported h inv s'.disk s'.console := by
  obtain ⟨s, hearlier, hcall⟩ := hrun.append_inv
  obtain ⟨s₁', -, hs, hlast⟩ := hcall.cons_inv
  obtain rfl := hlast.nil_inv
  obtain ⟨-, t, -, ht, -⟩ := hearlier.simulate (simulates h minutes dir _) (sysMatches_fresh h dir)
  obtain ⟨hdir, all, pc, hall, hsup, hpc⟩ := start_spec hs hhelp hlist
  constructor
  · obtain ⟨e', he⟩ := exists_standsFor hs
    have hstep := step_rel minutes ht he ⟨hdir, hhelp, hlist⟩
    rw [hs] at hstep
    obtain ⟨t₁, -, ht₁⟩ := rel_some_left hstep
    refine terminates_of_lists ht₁ (terminates_starting ?_)
    have hrel := ht₁.sup
    rw [hsup] at hrel
    obtain ⟨q, hq, hset, -, hmatches⟩ := rel_some_left hrel
    exact ⟨q, hq, hset.concurrency ▸ hslot, hmatches.starting hpc⟩
  · intro es' s' hrun' hstuck
    have hO : Outcome h inv s₁.disk s₁.console s₁.sup := by
      rw [hsup]
      refine ⟨rfl, hall, ?_, ?_⟩
      all_goals rintro rfl; rcases hpc with hpc | hpc <;> cases hpc
    have hO' := hrun'.invariant (I := fun s => Outcome h inv s.disk s.console s.sup) hO
      fun _ _ _ hI hok hs => hI.step hok hs
    have hended : s'.sup = none := by
      by_contra hsup
      obtain ⟨s'', hs''⟩ := call_enabled hsup
      exact hstuck s'' hs''
    rw [hended] at hO'
    exact ⟨hended, hO'⟩

/-- The call of the two tests, in a directory that a crashed run has left. -/
theorem call_ends_afterCrash :
    ∃ s₁, execute (Sys.step twoTestHost (fun _ => [])) unrestricted
        (Sys.fresh plainCall.settings.outDir) (firstRecord ++ [.start plainCall]) = some s₁ ∧
      Terminates (Sys.step twoTestHost (fun _ => [])) inCall s₁ := by
  have hrun : (execute (Sys.step twoTestHost (fun _ => [])) unrestricted
      (Sys.fresh plainCall.settings.outDir) (firstRecord ++ [.start plainCall])).isSome = true := by
    decide +kernel
  have hsafe : ∀ e ∈ firstRecord ++ [.start plainCall], e.Safe := by
    intro e he
    rcases List.mem_append.mp he with he | he
    · exact safe_firstRecord e he
    · obtain rfl := List.mem_singleton.mp he
      exact safe_plainCall
  obtain ⟨s₁, hs₁⟩ := Option.isSome_iff_exists.mp hrun
  exact ⟨s₁, hs₁, (call_ends ((run_of_execute hs₁).of_events hsafe) (by decide) (by decide)
    (by decide)).1⟩

end Program

end CorpusRunner
