import CorpusRunner.Proofs.WorkerInvariant

/-!
# The invariant of the supervised system

One supervisor after the other, each ending on its own or with everything else in a container
crash; a worker may die at any step. At most one worker then matters for the registry: the
current one, or the one that died last and has not been harvested.
-/

namespace CorpusRunner

/-- No supervisor is ended without its worker, and no run starts with `--fresh`. -/
def supervised (_ : Sys) : Event → Prop
  | .start _ fresh => fresh = false
  | .interrupt => False
  | _ => True

instance (s : Sys) (e : Event) : Decidable (supervised s e) := by
  induction e using Event.casesOn <;> dsimp only [supervised] <;> infer_instance

/-- What is left to mark is listed, has no line, and occurs once. -/
structure TargetsOk (d : Disk) (targets : List Entry) : Prop where
  mem : ∀ e ∈ targets, e ∈ d.inflight
  unrecorded : ∀ e ∈ targets, e.test ∉ recorded d.progress
  nodup : (listed targets).Nodup

def HarvestPhase.Ok (d : Disk) : HarvestPhase → Prop
  | .readInflight => True
  | .readLedger inflight => inflight = d.inflight
  | .reap _ targets => TargetsOk d targets
  | .append targets => TargetsOk d targets
  | .clear => True

def Pc.Ok (cfg : Config) (d : Disk) (fallen : List Worker) : Pc → Prop
  | .rmProgress => False
  | .rmInflight => False
  | .harvest h _ => h.phase.Ok d
  | .top _ => fallen = []
  | .launch _ _ => fallen = []
  | .await _ _ w => fallen = [] ∧ w.cfg = cfg ∧ w.Inv d
  | .exited _ _ .zero => fallen = []
  | .exited _ _ (.abnormal _) => True
  | .returned _ _ .done => fallen = []
  | .returned _ _ _ => True
  | .clean => fallen = []
  | .broke _ => fallen = []

/-- Whose map `inflight.json` shows. -/
inductive RegistryOf (inflight : List Entry) : List Worker → Prop
  | nobody : inflight = [] → RegistryOf inflight []
  | one (w : Worker) : inflight = registry w.shown → RegistryOf inflight [w]

structure Sys.Inv (s : Sys) : Prop where
  orphans : s.orphans = []
  nodup : (recorded s.disk.progress).Nodup
  registry : RegistryOf s.disk.inflight (s.current ++ s.fallen)
  pc : ∀ p, s.sup = some p → p.pc.Ok p.cfg s.disk s.fallen

theorem RegistryOf.listed_nodup {l : List Entry} {ws : List Worker} (h : RegistryOf l ws) :
    (listed l).Nodup := by
  cases h with
  | nobody h => simp [h]
  | one w h => rw [h, listed_registry]; exact w.shown.keys_nodup

theorem RegistryOf.eq_nil {l : List Entry} (h : RegistryOf l []) : l = [] := by
  cases h with
  | nobody h => exact h

theorem RegistryOf.comm {l : List Entry} {a b : List Worker} (h : RegistryOf l (a ++ b)) :
    RegistryOf l (b ++ a) := by
  cases a with
  | nil => simpa using h
  | cons w a =>
    cases b with
    | nil => simpa using h
    | cons w' b =>
      generalize hl : w :: a ++ w' :: b = ws at h
      cases h <;> simp at hl

/-- A listed test is in the map of the one worker there is. -/
theorem RegistryOf.mem {l : List Entry} {ws : List Worker} (h : RegistryOf l ws) {e : Entry}
    (he : e ∈ l) : ∃ w, ws = [w] ∧ e.test ∈ w.inFlight.keys := by
  cases h with
  | nobody h => simp [h] at he
  | one w h =>
    have : e.test ∈ listed l := List.mem_map_of_mem he
    rw [h, listed_registry] at this
    exact ⟨w, rfl, w.keys_shown_sublist.subset this⟩

theorem targetsOk_harvestTargets {d : Disk} (b : Bool) (h : (listed d.inflight).Nodup) :
    TargetsOk d (harvestTargets b d.inflight (readLedger d.progress)) where
  mem := fun _ he => (mem_harvestTargets he).1
  unrecorded := fun _ he => (mem_harvestTargets he).2
  nodup := nodup_harvestTargets h

/-- After the mark of the first target the others are still due. -/
theorem TargetsOk.tail {d : Disk} {e : Entry} {targets : List Entry} {reason : JsString}
    (h : TargetsOk d (e :: targets)) :
    TargetsOk { d with progress := d.progress ++ [.crashMark e.test reason] } targets where
  mem := fun a ha => h.mem a (by simp [ha])
  unrecorded := by
    intro a ha
    have hne : a.test ≠ e.test := by
      have hnd := h.nodup
      simp only [listed, List.map_cons, List.nodup_cons] at hnd
      exact fun heq => hnd.1 (heq ▸ List.mem_map_of_mem ha)
    simpa using ⟨h.unrecorded a (by simp [ha]), hne⟩
  nodup := (List.nodup_cons.mp h.nodup).2

/-- A test gets its first line. -/
theorem recorded_nodup_append {lines : List Rec} {r : Rec} (h : (recorded lines).Nodup)
    (hr : r.test ∉ recorded lines) : (recorded (lines ++ [r])).Nodup := by
  rw [recorded_append, recorded_singleton, List.nodup_append]
  refine ⟨h, by simp, ?_⟩
  rintro a ha b hb rfl
  rw [List.mem_singleton] at hb
  exact hr (hb ▸ ha)

theorem tally_cases (cfg : Config) (np : Int) (before after : Nat) (result : CycleResult) :
    (∃ np', tally cfg np before after result = .top np') ∨
      tally cfg np before after result = .broke true := by
  unfold tally
  split
  · split
    · exact .inr rfl
    · exact .inl ⟨_, rfl⟩
  · exact .inl ⟨_, rfl⟩

theorem tally_ok {cfg cfg' : Config} {d : Disk} {np : Int} {before after : Nat}
    {result : CycleResult} : (tally cfg np before after result).Ok cfg' d [] := by
  rcases tally_cases cfg np before after result with ⟨np', h⟩ | h <;> rw [h] <;> rfl

namespace Sys.Inv

/-- An empty output directory. -/
theorem init : (Sys.idle Disk.empty).Inv where
  orphans := rfl
  nodup := by simp [Sys.idle, Disk.empty]
  registry := .nobody rfl
  pc := by simp [Sys.idle]

/-- The supervisor's steps. -/
theorem sup_step {cfg : Config} {at_ now : Int} {pc : Pc} {d d' : Disk} {fallen : List Worker}
    {clock : Nat} {p' : Option Supervisor}
    (h : (Sys.mk d (some ⟨cfg, at_, pc⟩) [] fallen clock).Inv)
    (hs : SupStep cfg at_ d now pc p' d') :
    (Sys.mk d' p' [] (if pc.harvestEnds then [] else fallen) clock).Inv := by
  have hpc : pc.Ok cfg d fallen := h.pc _ rfl
  have hreg := h.registry
  have hnd := h.nodup
  cases hs with
  | rmProgress => exact hpc.elim
  | rmInflight => exact hpc.elim
  | readInflight =>
    exact ⟨rfl, hnd, hreg, by rintro p hp; cases hp; rfl⟩
  | readLedger _ b k inflight =>
    have hl : inflight = d.inflight := hpc
    exact ⟨rfl, hnd, hreg, by
      rintro p hp; cases hp
      rw [hl]
      exact targetsOk_harvestTargets b hreg.listed_nodup⟩
  | reap => exact ⟨rfl, hnd, hreg, by rintro p hp; cases hp; exact hpc⟩
  | reaped => exact ⟨rfl, hnd, hreg, by rintro p hp; cases hp; exact hpc⟩
  | mark reason b k e targets =>
    have ht : TargetsOk d (e :: targets) := hpc
    exact ⟨rfl, recorded_nodup_append hnd (ht.unrecorded e (by simp)), hreg, by
      rintro p hp; cases hp
      exact ht.tail⟩
  | marked => exact ⟨rfl, hnd, hreg, by rintro p hp; cases hp; trivial⟩
  | clearStartup => exact ⟨rfl, hnd, .nobody rfl, by rintro p hp; cases hp; rfl⟩
  | clearCycle reason b np before after result =>
    have hcur : (tally cfg np before after result).Ok cfg { d with inflight := [] } [] := tally_ok
    refine ⟨rfl, hnd, ?_, by rintro p hp; cases hp; exact hcur⟩
    rcases tally_cases cfg np before after result with ⟨np', ht⟩ | ht <;> rw [ht] <;>
      exact .nobody rfl
  | leave np hall => exact ⟨rfl, hnd, hreg, by rintro p hp; cases hp; exact hpc⟩
  | enter np t ht hr => exact ⟨rfl, hnd, hreg, by rintro p hp; cases hp; exact hpc⟩
  | launch np before =>
    have hf : fallen = [] := hpc
    subst hf
    have hin : d.inflight = [] := RegistryOf.eq_nil hreg
    exact ⟨rfl, hnd, .one _ (by simpa [Worker.launched, Worker.shown] using hin), by
      rintro p hp; cases hp
      exact ⟨rfl, rfl, .of_launched hin⟩⟩
  | exitZero => exact ⟨rfl, hnd, hreg, by rintro p hp; cases hp; exact hpc⟩
  | exitAbnormal => exact ⟨rfl, hnd, hreg, by rintro p hp; cases hp; trivial⟩
  | done => exact ⟨rfl, hnd, hreg, by rintro p hp; cases hp; exact hpc⟩
  | stalled => exact ⟨rfl, hnd, hreg, by rintro p hp; cases hp; trivial⟩
  | exited => exact ⟨rfl, hnd, hreg, by rintro p hp; cases hp; trivial⟩
  | clean =>
    have hf : fallen = [] := hpc
    subst hf
    exact ⟨rfl, hnd, .nobody rfl, by rintro p hp; cases hp; rfl⟩
  | outputs =>
    have hf : fallen = [] := hpc
    subst hf
    exact ⟨rfl, hnd, hreg, by simp⟩

/-- A worker's append is the first line of its test. -/
theorem nodup_workerStep {w w' : Worker} {d d' : Disk} {we : WorkerEvent} (hw : w.Inv d)
    (hnd : (recorded d.progress).Nodup) (hs : WorkerStep w d we w' d') :
    (recorded d'.progress).Nodup := by
  cases hs with
  | @append r ht =>
    have hr : r.test ∈ w.inFlight.keys := by simpa [Worker.ThreadOk, ht] using hw.thread
    refine recorded_nodup_append hnd ?_
    rw [Rec.test_ran, hw.held _ hr, ht]
    simp
  | _ => exact hnd

/-- Every step of the supervised system keeps the invariant. -/
theorem step {s s' : Sys} {e : Event} (h : s.Inv) (hok : supervised s e)
    (hs : s.step e = some s') : s'.Inv := by
  have horph := h.orphans
  obtain ⟨d, sup, orphans, fallen, clock⟩ := s
  obtain rfl : orphans = [] := horph
  cases sysStep_of_step hs with
  | start cfg fresh =>
    obtain rfl : fresh = false := hok
    exact ⟨rfl, h.nodup, h.registry, by rintro p hp; cases hp; trivial⟩
  | sup hsup => exact h.sup_step hsup
  | @stallAwait cfg at_ np before w =>
    have hpc : fallen = [] ∧ w.cfg = cfg ∧ w.Inv d := h.pc _ rfl
    obtain ⟨rfl, -, hw⟩ := hpc
    exact ⟨rfl, h.nodup, .one w hw.mirror, by rintro p hp; cases hp; trivial⟩
  | stallExited => exact ⟨rfl, h.nodup, h.registry, by rintro p hp; cases hp; trivial⟩
  | @worker cfg at_ np before w w' d' we hw' =>
    have hpc : fallen = [] ∧ w.cfg = cfg ∧ w.Inv d := h.pc _ rfl
    obtain ⟨rfl, hcfg, hw⟩ := hpc
    have hinv := hw.step hw'
    refine ⟨rfl, nodup_workerStep hw h.nodup hw', .one w' hinv.mirror, ?_⟩
    rintro p hp; cases hp
    exact ⟨rfl, by rw [← hcfg]; exact hw'.cfg_eq, hinv⟩
  | @workerExits cfg at_ np before w hc =>
    have hpc : fallen = [] ∧ w.cfg = cfg ∧ w.Inv d := h.pc _ rfl
    obtain ⟨rfl, -, hw⟩ := hpc
    refine ⟨rfl, h.nodup, .nobody (hw.inflight_of_canExit hc), ?_⟩
    rintro p hp; cases hp; rfl
  | @workerThrows cfg at_ np before w ht =>
    have hpc : fallen = [] ∧ w.cfg = cfg ∧ w.Inv d := h.pc _ rfl
    obtain ⟨rfl, -, hw⟩ := hpc
    obtain ⟨-, -, -, hin⟩ := hw.of_rejected ht
    exact ⟨rfl, h.nodup, .nobody hin, by rintro p hp; cases hp; trivial⟩
  | @workerDies cfg at_ np before w what =>
    have hpc : fallen = [] ∧ w.cfg = cfg ∧ w.Inv d := h.pc _ rfl
    obtain ⟨rfl, -, hw⟩ := hpc
    exact ⟨rfl, h.nodup, .one w hw.mirror, by rintro p hp; cases hp; trivial⟩
  | orphan hi => simp at hi
  | orphanExits hi => simp at hi
  | orphanDies hi => simp at hi
  | interrupt => exact hok.elim
  | containerCrash =>
    exact ⟨rfl, h.nodup, by simpa [Sys.live, Sys.current] using h.registry.comm, by simp⟩

/-- The invariant holds after every run on an empty output directory. -/
theorem of_run {es : List Event} {s : Sys}
    (h : Run Sys.step supervised (Sys.idle Disk.empty) es s) : s.Inv :=
  h.invariant init fun _ _ _ hI hok hs => hI.step hok hs

end Sys.Inv

end CorpusRunner
