import CorpusRunner.Proofs.RerunInvariant
import Mathlib.Algebra.BigOperators.Group.Finset.Piecewise
import Mathlib.Algebra.Order.BigOperators.Group.Finset

/-!
# Bounded re-execution

No test is spawned more often than there are slots. A death under a set of tests ends the
execution of one of them, and its harvest makes at most one mark, so that the number of marks
is bounded by the number of executions.
-/

namespace CorpusRunner

def crashMarks (lines : List Rec) : Nat := (lines.filter Rec.isCrashMark).length

/-- A worker dies or is declared stalled only while a test of `W` is spawned and unrecorded;
the supervisor is not started again and the container does not crash. -/
def blamed (W : Finset JsString) (s : Sys) : Event → Prop
  | .stall => ∃ t ∈ W, s.Pending t
  | .workerDies _ => ∃ t ∈ W, s.Pending t
  | .start _ _ => False
  | .containerCrash => False
  | _ => True

instance (s : Sys) (t : JsString) : Decidable (s.Pending t) := by
  unfold Sys.Pending
  infer_instance

instance (W : Finset JsString) (s : Sys) (e : Event) : Decidable (blamed W s e) := by
  induction e using Event.casesOn <;> dsimp only [blamed] <;> infer_instance

/-- The marks that a harvest may still make. -/
def Harvest.openMarks (h : Harvest) : Nat :=
  match h.phase with
  | .readInflight => if h.onlyOldest then 1 else 0
  | .readLedger _ => if h.onlyOldest then 1 else 0
  | .reap _ targets => targets.length
  | .append targets => targets.length
  | .clear => 0

/-- The marks that the death of a worker may still lead to. -/
def Pc.openMarks : Pc → Nat
  | .exited _ _ (.abnormal _) => 1
  | .returned _ _ .stall => 1
  | .returned _ _ (.exit _) => 1
  | .harvest h _ => h.openMarks
  | _ => 0

/-- Of an empty registry a harvest marks nothing. -/
def Sys.openMarks (s : Sys) : Nat :=
  match s.sup with
  | some p => if s.disk.inflight = [] then 0 else p.pc.openMarks
  | none => 0

theorem openMarks_le (cfg : Config) (at_ : Int) (pc : Pc) (d : Disk) (fallen : List Worker)
    (clock : Nat) : (Sys.mk d (some ⟨cfg, at_, pc⟩) [] fallen clock).openMarks ≤ pc.openMarks := by
  simp only [Sys.openMarks]
  split
  · exact Nat.zero_le _
  · exact Nat.le_refl _

theorem openMarks_mono {cfg cfg' : Config} {at_ at_' : Int} {pc pc' : Pc} {d d' : Disk}
    {orphans orphans' fallen fallen' : List Worker} {clock clock' : Nat}
    (hd : d'.inflight = d.inflight) (h : pc'.openMarks ≤ pc.openMarks) :
    (Sys.mk d' (some ⟨cfg', at_', pc'⟩) orphans' fallen' clock').openMarks ≤
      (Sys.mk d (some ⟨cfg, at_, pc⟩) orphans fallen clock).openMarks := by
  simp only [Sys.openMarks, hd]
  split
  · exact Nat.le_refl _
  · exact h

/-- The tests of `W` that the current worker is running. -/
def Sys.underway (s : Sys) (W : Finset JsString) : Finset JsString :=
  W.filter (fun t => ∃ w ∈ s.current, t ∈ w.running)

/-- The startup harvest finds the registry empty. -/
def Pc.nothingLeft (d : Disk) : Pc → Prop
  | .harvest h _ => h.onlyOldest = false → d.inflight = []
  | _ => True

/-- Every death is paid for by the execution of a test of `W` that it ends. -/
structure MarkInv (W : Finset JsString) (marks : Nat) (es : List Event) (s : Sys) : Prop where
  nothingLeft : ∀ p, s.sup = some p → p.pc.nothingLeft s.disk
  paid : crashMarks s.disk.progress + s.openMarks + (s.underway W).card ≤
    marks + ∑ t ∈ W, spawns es t

theorem sum_spawns_append (W : Finset JsString) (es : List Event) (e : Event) :
    ∑ t ∈ W, spawns (es ++ [e]) t =
      ∑ t ∈ W, spawns es t + if ∃ t ∈ W, e.spawned = some t then 1 else 0 := by
  simp only [spawns_append, Finset.sum_add_distrib, Nat.add_left_cancel_iff]
  cases h : e.spawned with
  | none => simp
  | some a => simp

theorem crashMarks_append_ran (lines : List Rec) (r : RunRec) :
    crashMarks (lines ++ [.ran r]) = crashMarks lines := by
  simp [crashMarks, Rec.isCrashMark]

theorem crashMarks_append_crashMark (lines : List Rec) (t n : JsString) :
    crashMarks (lines ++ [.crashMark t n]) = crashMarks lines + 1 := by
  unfold crashMarks
  rw [List.filter_append, List.length_append]
  rfl

/-- The supervisor's steps start and end without a running test. -/
theorem underway_of_supStep {cfg : Config} {at_ now : Int} {d d' : Disk} {pc : Pc}
    {p' : Option Supervisor} (hs : SupStep cfg at_ d now pc p' d') (fallen : List Worker)
    (clock : Nat) (W : Finset JsString) : (Sys.mk d' p' [] fallen clock).underway W = ∅ := by
  have h : ∀ w ∈ (Sys.mk d' p' [] fallen clock).current, w.running = [] := by
    cases hs with
    | clearCycle reason b np before after result =>
      rcases tally_cases cfg np before after result with ⟨np', h⟩ | h <;> simp [h, Sys.current]
    | launch => simp [Sys.current, Worker.launched, Worker.running, Thread.running]
    | _ => simp [Sys.current, startupHarvest]
  refine Finset.filter_eq_empty_iff.mpr ?_
  rintro t - ⟨w, hw, ht⟩
  simp [h w hw] at ht

namespace MarkInv

variable {W : Finset JsString} {marks : Nat} {es : List Event}

theorem sup_step {cfg : Config} {at_ now : Int} {pc : Pc} {d d' : Disk} {fallen : List Worker}
    {clock : Nat} {p' : Option Supervisor}
    (hinv : (Sys.mk d (some ⟨cfg, at_, pc⟩) [] fallen clock).Inv)
    (h : MarkInv W marks es (Sys.mk d (some ⟨cfg, at_, pc⟩) [] fallen clock))
    (hs : SupStep cfg at_ d now pc p' d') (fallen' : List Worker) :
    MarkInv W marks (es ++ [.sup now]) (Sys.mk d' p' [] fallen' clock) := by
  have hpc : pc.Ok cfg d fallen := hinv.pc _ rfl
  have hleft : pc.nothingLeft d := h.nothingLeft _ rfl
  -- it is enough that the marks made and the marks still open do not grow together
  have key : (∀ p, p' = some p → p.pc.nothingLeft d') →
      crashMarks d'.progress + (Sys.mk d' p' [] fallen' clock).openMarks ≤
        crashMarks d.progress + (Sys.mk d (some ⟨cfg, at_, pc⟩) [] fallen clock).openMarks →
      MarkInv W marks (es ++ [.sup now]) (Sys.mk d' p' [] fallen' clock) := by
    intro hl hle
    have hpaid : crashMarks d.progress +
      (Sys.mk d (some ⟨cfg, at_, pc⟩) [] fallen clock).openMarks + _ ≤ _ := h.paid
    refine ⟨hl, ?_⟩
    rw [underway_of_supStep hs, sum_spawns_append, if_neg (by simp [Event.spawned]),
      Finset.card_empty]
    have : crashMarks (Sys.mk d' p' [] fallen' clock).disk.progress = crashMarks d'.progress := rfl
    omega
  cases hs with
  | rmProgress => exact hpc.elim
  | rmInflight => exact hpc.elim
  | readInflight reason b k =>
    exact key (by rintro p ⟨⟩; exact hleft) (Nat.le_refl _)
  | readLedger reason b k inflight =>
    have hl : inflight = d.inflight := hpc
    refine key (by rintro p ⟨⟩; exact hleft) ?_
    have hlen : (Pc.harvest ⟨reason, b, .reap inflight
          (harvestTargets b inflight (readLedger d.progress))⟩ k).openMarks ≤
        (Pc.harvest ⟨reason, b, .readLedger inflight⟩ k).openMarks := by
      cases b with
      | true => exact length_harvestTargets_oldest _ _
      | false =>
        have hnil : d.inflight = [] := hleft rfl
        simp [Pc.openMarks, Harvest.openMarks, hl, hnil, harvestTargets, targetsOf]
    exact Nat.add_le_add_left (openMarks_mono rfl hlen) _
  | reap reason b k e es' targets =>
    exact key (by rintro p ⟨⟩; exact hleft) (Nat.le_refl _)
  | reaped reason b k targets =>
    exact key (by rintro p ⟨⟩; exact hleft) (Nat.le_refl _)
  | mark reason b k e targets =>
    have ht : TargetsOk d (e :: targets) := hpc
    have hne : d.inflight ≠ [] := List.ne_nil_of_mem (ht.mem e (by simp))
    refine key (by rintro p ⟨⟩; exact hleft) ?_
    rw [crashMarks_append_crashMark]
    simp only [Sys.openMarks, if_neg hne, Pc.openMarks, Harvest.openMarks, List.length_cons]
    omega
  | marked reason b k =>
    exact key (by rintro p ⟨⟩; exact hleft) (Nat.le_refl _)
  | clearCycle reason b np before after result =>
    refine key ?_ ?_
    · intro p hp
      cases hp
      rcases tally_cases cfg np before after result with ⟨np', h⟩ | h <;> rw [h] <;> trivial
    · simp [Sys.openMarks]
  | stalled => exact key (by rintro p ⟨⟩ h; cases h) (Nat.le_refl _)
  | exited => exact key (by rintro p ⟨⟩ h; cases h) (Nat.le_refl _)
  | outputs => exact key (by simp) (by simp [Sys.openMarks])
  | clearStartup | clean => exact key (by rintro p ⟨⟩; trivial) (by simp [Sys.openMarks])
  | _ =>
    exact key (by rintro p ⟨⟩; trivial) (Nat.add_le_add_left (openMarks_mono rfl (by rfl)) _)

/-- The tests of `W` under way after a step of the worker: at most the spawned one is new. -/
theorem underway_worker_step {cfg : Config} {at_ np : Int} {before : Nat} {w w' : Worker}
    {d d' : Disk} {fallen : List Worker} {clock clock' : Nat} {we : WorkerEvent} (hw : w.Inv d)
    (hs : WorkerStep w d we w' d') :
    ((Sys.mk d' (some ⟨cfg, at_, .await np before w'⟩) [] fallen clock').underway W).card ≤
      ((Sys.mk d (some ⟨cfg, at_, .await np before w⟩) [] fallen clock).underway W).card +
        if ∃ t ∈ W, we.spawned = some t then 1 else 0 := by
  have hinv' := hw.step hs
  have hmem : ∀ t ∈ w'.running, t ∈ w.running ∨ we.spawned = some t := fun t ht =>
    (hs.mem_running hw t (hinv'.running_unrecorded ht)).mp ht
  simp only [Sys.underway, Sys.current, List.mem_singleton, exists_eq_left]
  cases hsp : we.spawned with
  | none =>
    simp only [reduceCtorEq, and_false, exists_false, if_false, Nat.add_zero]
    refine Finset.card_le_card fun t ht => ?_
    rw [Finset.mem_filter] at ht ⊢
    exact ⟨ht.1, by simpa [hsp] using hmem t ht.2⟩
  | some a =>
    by_cases ha : a ∈ W
    · rw [if_pos ⟨a, ha, rfl⟩]
      refine le_trans (Finset.card_le_card fun t ht => ?_) (Finset.card_insert_le a _)
      rw [Finset.mem_filter] at ht
      rw [Finset.mem_insert, Finset.mem_filter]
      rcases hmem t ht.2 with h | h
      · exact .inr ⟨ht.1, h⟩
      · rw [hsp] at h
        exact .inl (Option.some.inj h).symm
    · refine le_trans (Finset.card_le_card fun t ht => ?_) (Nat.le_add_right _ _)
      rw [Finset.mem_filter] at ht ⊢
      refine ⟨ht.1, ?_⟩
      rcases hmem t ht.2 with h | h
      · exact h
      · rw [hsp] at h
        exact absurd (Option.some.inj h ▸ ht.1) ha

/-- A worker that ends under a running test of `W` opens one mark. -/
theorem worker_ends {cfg : Config} {at_ np : Int} {before : Nat} {w : Worker} {d : Disk}
    {clock : Nat} {pc : Pc} {fallen : List Worker} {e : Event}
    (h : MarkInv W marks es (Sys.mk d (some ⟨cfg, at_, .await np before w⟩) [] [] clock))
    (hcur : (Sys.mk d (some ⟨cfg, at_, pc⟩) [] fallen clock).current = [])
    (hleft : pc.nothingLeft d) (hopen : pc.openMarks = 1) (he : e.spawned = none)
    (hb : ∃ t ∈ W, (Sys.mk d (some ⟨cfg, at_, .await np before w⟩) [] [] clock).Pending t) :
    MarkInv W marks (es ++ [e]) (Sys.mk d (some ⟨cfg, at_, pc⟩) [] fallen clock) := by
  obtain ⟨t, htW, w', hw', ht⟩ := hb
  obtain rfl : w' = w := by simpa [Sys.current] using hw'
  have hpos : 0 < ((Sys.mk d (some ⟨cfg, at_, .await np before w'⟩) [] [] clock).underway W).card :=
    Finset.card_pos.mpr ⟨t, Finset.mem_filter.mpr ⟨htW, w', by simp [Sys.current], ht⟩⟩
  have hgone : (Sys.mk d (some ⟨cfg, at_, pc⟩) [] fallen clock).underway W = ∅ := by
    simp [Sys.underway, hcur]
  have hpaid := h.paid
  have hle := openMarks_le cfg at_ pc d fallen clock
  refine ⟨by rintro p ⟨⟩; exact hleft, ?_⟩
  rw [hgone, sum_spawns_append, if_neg (by simp [he]), Finset.card_empty]
  simp only at hpaid ⊢
  omega

theorem step {s s' : Sys} {e : Event} (hinv : s.Inv) (h : MarkInv W marks es s)
    (hsup : supervised s e) (hb : blamed W s e) (hs : s.step e = some s') :
    MarkInv W marks (es ++ [e]) s' := by
  have horph := hinv.orphans
  obtain ⟨d, sup, orphans, fallen, clock⟩ := s
  obtain rfl : orphans = [] := horph
  have hpaid := h.paid
  cases sysStep_of_step hs with
  | start => exact hb.elim
  | sup hsup' => exact h.sup_step hinv hsup' _
  | @stallAwait cfg at_ np before w =>
    have hpc : fallen = [] ∧ w.cfg = cfg ∧ w.Inv d := hinv.pc _ rfl
    obtain ⟨rfl, -, -⟩ := hpc
    exact h.worker_ends rfl trivial rfl rfl hb
  | @stallExited cfg at_ np before how =>
    cases how with
    | zero =>
      have hf : fallen = [] := hinv.pc _ rfl
      subst hf
      obtain ⟨t, -, w, hw, -⟩ := hb
      simp [Sys.current] at hw
    | abnormal what =>
      refine ⟨by rintro p ⟨⟩; trivial, ?_⟩
      rw [sum_spawns_append, if_neg (by simp [Event.spawned])]
      exact hpaid
  | @worker cfg at_ np before w w' d' we hw' =>
    have hpc : fallen = [] ∧ w.cfg = cfg ∧ w.Inv d := hinv.pc _ rfl
    have hunder : ((Sys.mk d' (some ⟨cfg, at_, .await np before w'⟩) [] fallen
          (clockAfter clock we)).underway W).card ≤
        ((Sys.mk d (some ⟨cfg, at_, .await np before w⟩) [] fallen clock).underway W).card +
          if ∃ t ∈ W, we.spawned = some t then 1 else 0 := underway_worker_step hpc.2.2 hw'
    have hmarks : crashMarks d'.progress = crashMarks d.progress := by
      rcases hw'.progress_cases with hp | ⟨r, hp⟩ <;> rw [hp]
      exact crashMarks_append_ran _ _
    refine ⟨by rintro p ⟨⟩; trivial, ?_⟩
    have hopen := openMarks_le cfg at_ (.await np before w') d' fallen (clockAfter clock we)
    have hzero : (Pc.await np before w').openMarks = 0 := rfl
    rw [sum_spawns_append]
    change crashMarks d'.progress + (Sys.mk d' (some ⟨cfg, at_, .await np before w'⟩) [] fallen
        (clockAfter clock we)).openMarks + ((Sys.mk d' (some ⟨cfg, at_, .await np before w'⟩) []
        fallen (clockAfter clock we)).underway W).card ≤
      marks + (_ + if ∃ t ∈ W, we.spawned = some t then 1 else 0)
    simp only at hpaid
    omega
  | @workerExits cfg at_ np before w hc =>
    refine ⟨by rintro p ⟨⟩; trivial, ?_⟩
    rw [sum_spawns_append, if_neg (by simp [Event.spawned])]
    refine le_trans ?_ hpaid
    simp [Sys.openMarks, Pc.openMarks, Sys.underway, Sys.current, running_of_canExit hc]
  | @workerThrows cfg at_ np before w ht =>
    have hpc : fallen = [] ∧ w.cfg = cfg ∧ w.Inv d := hinv.pc _ rfl
    obtain ⟨rfl, -, hw⟩ := hpc
    obtain ⟨-, -, hrun, hin⟩ := hw.of_rejected ht
    refine ⟨by rintro p ⟨⟩; trivial, ?_⟩
    rw [sum_spawns_append, if_neg (by simp [Event.spawned])]
    refine le_trans ?_ hpaid
    simp [Sys.openMarks, hin, Sys.underway, Sys.current, hrun]
  | @workerDies cfg at_ np before w what =>
    have hpc : fallen = [] ∧ w.cfg = cfg ∧ w.Inv d := hinv.pc _ rfl
    obtain ⟨rfl, -, -⟩ := hpc
    exact h.worker_ends rfl trivial rfl rfl hb
  | orphan hi => simp at hi
  | orphanExits hi => simp at hi
  | orphanDies hi => simp at hi
  | interrupt => exact hsup.elim
  | containerCrash => exact hb.elim

/-- A supervisor is started on an empty registry. -/
theorem of_start {s s' : Sys} {cfg : Config} (hin : s.disk.inflight = [])
    (hs : s.step (.start cfg false) = some s') :
    MarkInv W (crashMarks s.disk.progress) [] s' := by
  obtain ⟨d, sup, orphans, fallen, clock⟩ := s
  cases sysStep_of_step hs with
  | start =>
    refine ⟨by rintro p ⟨⟩ -; exact hin, ?_⟩
    simp [Sys.openMarks, Pc.openMarks, Harvest.openMarks, startupHarvest, Sys.underway,
      Sys.current]

end MarkInv

theorem spawns_append_le (es es' : List Event) (t : JsString) :
    spawns es' t ≤ spawns (es ++ es') t := by
  unfold spawns
  rw [List.filterMap_append, List.count_append]
  omega

/-- **Bounded re-execution.** Over every history of one output directory with `CONCURRENCY`
`c ≥ 1`, one selection and a clock that does not go back: (i) no test is spawned more than `c`
times; (ii) a supervisor that finds the registry empty, and whose workers die or stall only
while a test of `W` is spawned and unrecorded, marks at most `c * |W|` tests. -/
theorem boundedRerun {all : Selection} {c : Int} {es : List Event} {s : Sys} (hc : 1 ≤ c)
    (h : Run Sys.step (steady all c) (Sys.idle Disk.empty) es s) :
    (∀ t, (spawns es t : Int) ≤ c) ∧
    ∀ (W : Finset JsString) (cfg : Config) (es' : List Event) (s₁ s₂ : Sys),
      s.disk.inflight = [] → steady all c s (.start cfg false) →
      s.step (.start cfg false) = some s₁ →
      Run Sys.step (fun s e => steady all c s e ∧ blamed W s e) s₁ es' s₂ →
      (crashMarks s₂.disk.progress : Int) ≤ crashMarks s.disk.progress + c * W.card := by
  obtain ⟨k, rfl⟩ := Int.eq_ofNat_of_zero_le (show 0 ≤ c by omega)
  have hspawns : ∀ {es s}, Run Sys.step (steady all k) (Sys.idle Disk.empty) es s →
      ∀ t, spawns es t ≤ k := fun h t => (RerunInv.of_run h).2.counts.total t
  refine ⟨fun t => Int.ofNat_le.mpr (hspawns h t), ?_⟩
  intro W cfg es' s₁ s₂ hin hok hstart hrun
  have hI := RerunInv.of_run h
  have hmark := hrun.traceInvariant
    (I := fun es s => s.Inv ∧ MarkInv W (crashMarks _) es s)
    ⟨hI.1.step hok.1 hstart, .of_start hin hstart⟩
    fun _ _ _ _ hI hok hs => ⟨hI.1.step hok.1.1 hs, hI.2.step hI.1 hok.1.1 hok.2 hs⟩
  have hwhole : Run Sys.step (steady all k) (Sys.idle Disk.empty)
      ((es ++ [.start cfg false]) ++ es') s₂ :=
    (h.snoc hok hstart).trans (hrun.mono fun _ _ h => h.1)
  have hsum : ∑ t ∈ W, spawns es' t ≤ W.card * k := by
    rw [← Nat.nsmul_eq_mul]
    exact Finset.sum_le_card_nsmul _ _ _ fun t _ =>
      (spawns_append_le _ _ t).trans (hspawns hwhole t)
  have hpaid := hmark.2.paid
  have hle : crashMarks s₂.disk.progress ≤ crashMarks s.disk.progress + k * W.card := by
    rw [Nat.mul_comm]
    omega
  exact_mod_cast hle

/-- `b` brings the worker down twice; the first mark falls on `a`, which was started before. -/
def poisonedRun : List Event :=
  [.sup 0, .sup 0, .sup 0, .sup 0, .sup 0, .sup 1, .sup 1] ++
  [.load, .clear, .claim 1, .register, .spawn (js "a") (some 11), .mirror,
    .claim 2, .register, .spawn (js "b") (some 12), .mirror].map Event.worker ++
  [.workerDies (js "SIGKILL"), .sup 3, .sup 3, .sup 3, .sup 3, .sup 3, .sup 3, .sup 3, .sup 3,
    .sup 3, .sup 3, .sup 4, .sup 4] ++
  [.load, .clear, .claim 5, .register, .spawn (js "b") (some 13), .mirror].map Event.worker ++
  [.workerDies (js "SIGKILL"), .sup 6, .sup 6, .sup 6, .sup 6, .sup 6, .sup 6, .sup 6, .sup 6,
    .sup 6]

theorem boundedRerun_poisonedRun :
    ∃ s₁ s₂, (Sys.idle Disk.empty).step (.start twoTests false) = some s₁ ∧
      execute Sys.step (fun s e => steady twoTests.all 2 s e ∧ blamed {js "b"} s e) s₁
        poisonedRun = some s₂ ∧
      recorded s₂.disk.progress = [js "a", js "b"] ∧ spawns poisonedRun (js "b") = 2 ∧
      (∀ t, (spawns [.start twoTests false] t : Int) ≤ 2) ∧
      (crashMarks s₂.disk.progress : Int) ≤
        crashMarks Disk.empty.progress + 2 * ({js "b"} : Finset JsString).card := by
  have hstart : steady twoTests.all 2 (Sys.idle Disk.empty) (.start twoTests false) := by decide
  have hinit : Run Sys.step (steady twoTests.all 2) (Sys.idle Disk.empty) [] _ := .refl
  refine ⟨_, _, rfl, rfl, rfl, rfl, ?_, ?_⟩
  · exact (boundedRerun (by decide) (.single hstart rfl)).1
  · exact (boundedRerun (by decide) hinit).2 {js "b"} twoTests poisonedRun _ _ rfl hstart rfl
      (run_of_execute rfl)

end CorpusRunner
