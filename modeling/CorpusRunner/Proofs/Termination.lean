import CorpusRunner.Proofs.Loop
import Mathlib.Data.Prod.Lex

/-!
# Termination of the supervisor's loop

A cycle either takes a test out of what remains or counts towards the no-progress limit, with
one exception: a worker that exits with 0 resets the counter. With at least one slot such a
worker has recorded all that remained. With none it has recorded nothing, and the loop never
ends.
-/

namespace CorpusRunner

/-! ## The measure -/

/-- What the thread of a worker has before it until it is idle again. -/
def Thread.weight : Thread → Nat
  | .boot => 0
  | .loaded => 3
  | .idle => 2
  | .claimed _ => 5
  | .registered _ => 4
  | .spawned _ _ => 3
  | .settled _ => 1
  | .appended _ => 0
  | .rejected => 0

/-- A bound on the steps that a worker has before it. -/
def Worker.weight (w : Worker) : Nat :=
  match w.thread with
  | .boot => 7 * w.cfg.all.tests.length + w.cfg.concurrency.toNat + 4
  | t => 7 * w.queue.length + 4 * w.inFlight.size + w.unstarted + w.looping + t.weight

/-- Every step of a worker lowers its weight. -/
theorem WorkerStep.weight_lt {w w' : Worker} {d d' : Disk} {e : WorkerEvent} (h : w.Inv d)
    (hs : WorkerStep w d e w' d') : w'.weight < w.weight := by
  cases hs with
  | load ht =>
    have hth : w.inFlight.keys = [] ∧ w.looping = 0 ∧ w.unstarted = 0 ∧ w.queue = [] := by
      simpa [Worker.ThreadOk, ht] using h.thread
    have hsz : w.inFlight.size = 0 := by rw [← JsMap.length_keys, hth.1]; rfl
    have hle := List.length_filter_le (fun t => !(readLedger d.progress).has t)
      w.cfg.all.tests
    simp only [Worker.weight, ht, hth.2.1, hsz, Thread.weight]
    omega
  | clear ht => simp [Worker.weight, ht, Thread.weight]
  | @claim now t rest w₁ ht hq hs =>
    obtain ⟨-, -, -, -, hsum⟩ := Worker.takeSlot_frame hs
    have hsize : (w.inFlight.set t ⟨now, none⟩).size ≤ w.inFlight.size + 1 := by
      rw [JsMap.size_set]
      split <;> omega
    simp only [Worker.weight, ht, hq, List.length_cons, Thread.weight]
    omega
  | slotEnd ht hq hs =>
    obtain ⟨-, hth, hqu, hfl, hsum⟩ := Worker.takeSlot_frame hs
    simp only [Worker.weight, hth, ht, hqu, hfl, Thread.weight]
    omega
  | mirror ht => simp [Worker.weight, ht, Thread.weight]
  | @deregister t ht =>
    have hth : t ∈ w.inFlight.keys := by simpa [Worker.ThreadOk, ht] using h.thread
    have hsize := JsMap.size_delete_of_mem hth
    simp only [Worker.weight, ht, Thread.weight]
    omega
  | _ ht => simp [Worker.weight, ht, Thread.weight]

/-- The cycles without growth that the counter still allows, as far as it is decided. -/
def Pc.credit (cfg : Config) (lines : List Rec) : Pc → Nat
  | .top np => (cfg.maxNoProgress - np).toNat
  | .launch np before => left np before
  | .await np before _ => left np before
  | .exited np before _ => left np before
  | .returned np before _ => left np before
  | .harvest _ (.cycle np before after _) =>
    if after ≤ before then (cfg.maxNoProgress - np).toNat else cfg.maxNoProgress.toNat + 1
  | _ => 0
where
  left (np : Int) (before : Nat) : Nat :=
    if (readLedger lines).size ≤ before then (cfg.maxNoProgress - np).toNat
    else cfg.maxNoProgress.toNat + 1

theorem credit_harvest (cfg : Config) (lines : List Rec) (h h' : Harvest) (k : Resume) :
    (Pc.harvest h k).credit cfg lines = (Pc.harvest h' k).credit cfg lines := by
  cases k <;> rfl

/-- How far a cycle still is from its end; when nothing remains the top is the end. -/
def Pc.stage (done : Bool) : Pc → Nat
  | .top _ => if done then 2 else 12
  | .launch _ _ => 11
  | .await _ _ _ => 10
  | .exited _ _ _ => 9
  | .returned _ _ _ => 8
  | .harvest h _ =>
    match h.phase with
    | .readInflight => 7
    | .readLedger _ => 6
    | .reap _ _ => 5
    | .append _ => 4
    | .clear => 3
  | .clean => 3
  | .broke _ => 1
  | _ => 0

/-- The steps left within a stage. -/
def Pc.inner : Pc → Nat
  | .await _ _ w => w.weight
  | .harvest h _ =>
    match h.phase with
    | .reap entries _ => entries.length
    | .append targets => targets.length
    | _ => 0
  | _ => 0

def measure (cfg : Config) (lines : List Rec) (pc : Pc) : ℕ ×ₗ ℕ ×ₗ ℕ ×ₗ ℕ :=
  let n := (remaining cfg lines).length
  toLex (n, toLex (if n = 0 then 0 else pc.credit cfg lines, toLex (pc.stage (n == 0), pc.inner)))

/-- The measure of a state; a supervisor that has ended has the least. -/
def Sys.measure (cfg : Config) (s : Sys) : ℕ ×ₗ ℕ ×ₗ ℕ ×ₗ ℕ :=
  match s.pc with
  | some pc => CorpusRunner.measure cfg s.disk.progress pc
  | none => toLex ((remaining cfg s.disk.progress).length, toLex (0, toLex (0, 0)))

section

variable {cfg : Config} {lines : List Rec} {pc pc' : Pc}

theorem measure_lt_of_remaining {lines' : List Rec}
    (h : (remaining cfg lines').length < (remaining cfg lines).length) :
    measure cfg lines' pc' < measure cfg lines pc :=
  Prod.Lex.toLex_lt_toLex.mpr (.inl h)

theorem measure_lt_of_credit (hr : remaining cfg lines ≠ [])
    (h : pc'.credit cfg lines < pc.credit cfg lines) :
    measure cfg lines pc' < measure cfg lines pc := by
  have hn : (remaining cfg lines).length ≠ 0 := by simpa using hr
  refine Prod.Lex.toLex_lt_toLex.mpr (.inr ⟨rfl, Prod.Lex.toLex_lt_toLex.mpr (.inl ?_)⟩)
  simpa [hn] using h

/-- Within a stage, or on to a later one, the credit must not grow. -/
theorem measure_lt_of_stage
    (hc : remaining cfg lines ≠ [] → pc'.credit cfg lines ≤ pc.credit cfg lines)
    (h : pc'.stage ((remaining cfg lines).length == 0) <
        pc.stage ((remaining cfg lines).length == 0) ∨
      pc'.stage ((remaining cfg lines).length == 0) =
        pc.stage ((remaining cfg lines).length == 0) ∧ pc'.inner < pc.inner) :
    measure cfg lines pc' < measure cfg lines pc := by
  refine Prod.Lex.toLex_lt_toLex.mpr (.inr ⟨rfl, ?_⟩)
  have hst : toLex (pc'.stage ((remaining cfg lines).length == 0), pc'.inner) <
      toLex (pc.stage ((remaining cfg lines).length == 0), pc.inner) :=
    Prod.Lex.toLex_lt_toLex.mpr h
  by_cases hn : remaining cfg lines = []
  · refine Prod.Lex.toLex_lt_toLex.mpr (.inr ⟨by simp [hn], ?_⟩)
    exact hst
  · have hn' : (remaining cfg lines).length ≠ 0 := by simpa using hn
    rcases Nat.lt_or_eq_of_le (hc hn) with hlt | heq
    · exact Prod.Lex.toLex_lt_toLex.mpr (.inl (by simpa [hn'] using hlt))
    · exact Prod.Lex.toLex_lt_toLex.mpr (.inr ⟨by simp [hn', heq], hst⟩)

end

/-! ## Every step lowers the measure -/

/-- The end of a cycle lowers the credit, or leaves the loop. -/
theorem measure_tally_lt {cfg : Config} {lines : List Rec} {hv : Harvest} {np : Int}
    {before after : Nat} {result : CycleResult} (hr : result ≠ .done) (hph : hv.phase = .clear) :
    measure cfg lines (tally cfg np before after result) <
      measure cfg lines (.harvest hv (.cycle np before after result)) := by
  have hlast : (Pc.harvest hv (.cycle np before after result)).stage
      ((remaining cfg lines).length == 0) = 3 := by
    simp [Pc.stage, hph]
  have key : ∀ np', (remaining cfg lines ≠ [] → (Pc.top np').credit cfg lines <
      (Pc.harvest hv (.cycle np before after result)).credit cfg lines) →
      measure cfg lines (.top np') <
        measure cfg lines (.harvest hv (.cycle np before after result)) := by
    intro np' hcr
    by_cases hn : remaining cfg lines = []
    · refine measure_lt_of_stage (fun h => absurd hn h) (.inl ?_)
      rw [hlast]
      simp [Pc.stage, hn]
    · exact measure_lt_of_credit hn (hcr hn)
  by_cases hle : after ≤ before
  · rw [tally_of_le hle hr]
    split
    · refine measure_lt_of_stage (fun _ => Nat.zero_le _) (.inl ?_)
      rw [hlast]
      simp [Pc.stage]
    · refine key _ fun _ => ?_
      simp only [Pc.credit, if_pos hle]
      omega
  · rw [tally_of_lt (by omega)]
    refine key _ fun _ => ?_
    simp only [Pc.credit, if_neg hle]
    omega

theorem measure_supStep_lt {cfg : Config} {at_ now : Int} {d d' : Disk} {pc : Pc}
    {p' : Option Supervisor} (h : pc.LoopOk cfg d) (hs : SupStep cfg at_ d now pc p' d') :
    (Sys.mk d' p' [] [] 0).measure cfg < measure cfg d.progress pc := by
  -- most steps change neither the ledger nor the credit
  have stage : ∀ {pc' : Pc}, pc'.credit cfg d.progress ≤ pc.credit cfg d.progress →
      (∀ b, pc'.stage b < pc.stage b ∨ pc'.stage b = pc.stage b ∧ pc'.inner < pc.inner) →
      measure cfg d.progress pc' < measure cfg d.progress pc := fun hc hst =>
    measure_lt_of_stage (fun _ => hc) (hst _)
  have complete : ∀ {pc' : Pc}, Complete cfg d.progress →
      (pc'.stage true < pc.stage true ∨ pc'.stage true = pc.stage true ∧ pc'.inner < pc.inner) →
      measure cfg d.progress pc' < measure cfg d.progress pc := by
    intro pc' hall hst
    have hn := remaining_eq_nil_iff.mpr hall
    exact measure_lt_of_stage (fun h => absurd hn h) (by simpa [hn] using hst)
  cases hs with
  | rmProgress => exact h.elim
  | rmInflight => exact h.elim
  | clearStartup =>
    obtain ⟨-, -, -, np, before, after, result, hk, -⟩ := h
    cases hk
  | mark reason b k e targets =>
    obtain ⟨-, hl, ht, -⟩ := h
    refine measure_lt_of_remaining (length_remaining_append_lt (mem_remaining.mpr ⟨?_, ?_⟩))
    · exact hl.selected _ (List.mem_map_of_mem (ht.mem e (by simp)))
    · exact ht.unrecorded e (by simp)
  | clearCycle reason b np before after result =>
    obtain ⟨-, -, -, np', before', after', result', hk, hr⟩ := h
    cases hk
    exact measure_tally_lt hr rfl
  | leave np hall => exact complete hall (.inl (by simp [Pc.stage]))
  | enter np t ht hr =>
    refine measure_lt_of_stage (fun _ => ?_) (.inl ?_)
    · simp [Pc.credit, Pc.credit.left]
    · have hn : remaining cfg d.progress ≠ [] := List.ne_nil_of_mem (mem_remaining.mpr ⟨ht, hr⟩)
      simp [Pc.stage, hn]
  | exitZero => exact complete h.2.1 (.inl (by simp [Pc.stage]))
  | done => exact complete h.2 (.inl (by simp [Pc.stage]))
  | clean => exact complete h.2 (.inl (by simp [Pc.stage]))
  | outputs =>
    refine Prod.Lex.toLex_lt_toLex.mpr (.inr ⟨rfl, ?_⟩)
    refine Prod.Lex.toLex_lt_toLex.mpr (.inr ⟨by simp [Pc.credit], ?_⟩)
    exact Prod.Lex.toLex_lt_toLex.mpr (.inl (by simp [Pc.stage]))
  | reap reason b k e es targets =>
    exact stage (credit_harvest ..).le fun _ => .inr ⟨rfl, by simp [Pc.inner]⟩
  | readInflight => exact stage (credit_harvest ..).le fun _ => .inl (by simp [Pc.stage])
  | readLedger => exact stage (credit_harvest ..).le fun _ => .inl (by simp [Pc.stage])
  | reaped => exact stage (credit_harvest ..).le fun _ => .inl (by simp [Pc.stage])
  | marked => exact stage (credit_harvest ..).le fun _ => .inl (by simp [Pc.stage])
  | _ => exact stage (Nat.le_refl _) fun _ => .inl (by simp [Pc.stage])

/-- Every step of the loop lowers the measure. -/
theorem measure_step_lt {cfg : Config} {s s' : Sys} {e : Event} (h : LoopInv cfg s)
    (hok : inLoop s e) (hs : s.step e = some s') : s'.measure cfg < s.measure cfg := by
  obtain ⟨d, sup, orphans, fallen, clock⟩ := s
  cases sysStep_of_step hs with
  | @sup cfg' at_ now pc p' d' hsup =>
    obtain ⟨hcfg, hpc⟩ := h _ rfl
    obtain rfl : cfg' = cfg := hcfg
    exact measure_supStep_lt hpc hsup
  | @stallAwait cfg' at_ np before w =>
    exact measure_lt_of_stage (fun _ => Nat.le_refl _) (.inl (by simp [Pc.stage]))
  | @stallExited cfg' at_ np before how =>
    exact measure_lt_of_stage (fun _ => Nat.le_refl _) (.inl (by simp [Pc.stage]))
  | @worker cfg' at_ np before w w' d' we hw' =>
    obtain ⟨-, -, hwc, hw⟩ := h _ rfl
    have hlt := hw'.weight_lt hw
    cases hw' with
    | append ht =>
      exact measure_lt_of_remaining (length_remaining_append_lt (hwc ▸ hw.append_remaining ht))
    | _ => exact measure_lt_of_stage (fun _ => Nat.le_refl _) (.inr ⟨rfl, hlt⟩)
  | @workerExits cfg' at_ np before w hx =>
    exact measure_lt_of_stage (fun _ => Nat.le_refl _) (.inl (by simp [Pc.stage]))
  | @workerThrows cfg' at_ np before w hx =>
    exact measure_lt_of_stage (fun _ => Nat.le_refl _) (.inl (by simp [Pc.stage]))
  | @workerDies cfg' at_ np before w what =>
    exact measure_lt_of_stage (fun _ => Nat.le_refl _) (.inl (by simp [Pc.stage]))
  | _ => exact hok.elim

/-- The loop ends if there is a slot, or nothing to do. -/
theorem terminates_loop {cfg : Config} {s : Sys} (h : LoopInv cfg s) :
    Terminates Sys.step inLoop s :=
  acc_of_measure (I := LoopInv cfg) wellFounded_lt (Sys.measure cfg)
    (fun _ _ _ hI hok hs => hI.step hok hs) (fun _ _ _ hI hok hs => measure_step_lt hI hok hs) h

/-! ## Without a slot -/

/-- The steps of a cycle whose worker's pool throws. -/
def rejecting (_ : Sys) : Event → Prop
  | .sup _ => True
  | .worker .load => True
  | .worker .clear => True
  | .workerExits => True
  | _ => False

instance (s : Sys) (e : Event) : Decidable (rejecting s e) := by
  induction e using Event.casesOn with
  | worker we =>
    induction we using WorkerEvent.casesOn <;> dsimp only [rejecting] <;> infer_instance
  | _ => dsimp only [rejecting]; infer_instance

/-- The worker exits with 1, and the harvest finds nothing to mark. -/
theorem rejected_cycle {cfg : Config} (hc : arrayLimit ≤ cfg.concurrency) {lines : List Rec}
    (hrem : ¬ Complete cfg lines) (summary : Option Summary) (at_ np : Int) (clock : Nat) :
    ∃ es, Run Sys.step rejecting ⟨⟨lines, [], summary⟩, some ⟨cfg, at_, .top np⟩, [], [], clock⟩
      es ⟨⟨lines, [], summary⟩, some ⟨cfg, at_, tally cfg np (readLedger lines).size
        (readLedger lines).size (.exit (js "1"))⟩, [], [], clock⟩ := by
  have hr : cfg.all.tests.filter (fun t => !(readLedger lines).has t) ≠ [] := by
    rw [Ne, remaining_eq_nil]
    exact hrem
  have hlimit : ¬ cfg.concurrency < arrayLimit := Int.not_lt.mpr hc
  refine ⟨[.sup 0, .sup 0, .worker .load, .worker .clear, .workerExits, .sup 0, .sup 0, .sup 0,
    .sup 0, .sup 0, .sup 0, .sup 0], run_of_execute ?_⟩
  simp [execute, rejecting, Sys.step, Supervisor.step, Harvest.step, hr, Pc.harvestEnds,
    Worker.launched, Worker.step, clockAfter, hlimit, Worker.canExit, harvestTargets, targetsOf]

/-- The loop is given up with the ledger as it was. -/
theorem rejected_loop {cfg : Config} (hc : arrayLimit ≤ cfg.concurrency) {lines : List Rec}
    (hrem : ¬ Complete cfg lines) (summary : Option Summary) (at_ : Int) (clock : Nat) :
    ∀ np : Int, ∃ es s, Run Sys.step rejecting
      ⟨⟨lines, [], summary⟩, some ⟨cfg, at_, .top np⟩, [], [], clock⟩ es s ∧
      s.sup = none ∧ s.disk.progress = lines := by
  intro np
  -- on the cycles that the counter still allows
  induction hn : (cfg.maxNoProgress - np).toNat using Nat.strongRecOn generalizing np with
  | ind n ih =>
    obtain ⟨es, hrun⟩ := rejected_cycle hc hrem summary at_ np clock
    rw [tally_of_le (Nat.le_refl _) (by simp)] at hrun
    split at hrun
    · exact ⟨es ++ [.sup 0], _, hrun.snoc (show rejecting _ (.sup 0) from trivial) rfl, rfl, rfl⟩
    · obtain ⟨es', s, hrun', hend⟩ := ih _ (by omega) (np + 1) rfl
      exact ⟨es ++ es', s, hrun.trans hrun', hend⟩

/-! ## The law of one cycle -/

/-- Where a cycle stands that has not changed the ledger. -/
def Pc.idleCycle (np : Int) (before : Nat) : Pc → Prop
  | .launch n b => n = np ∧ b = before
  | .await n b _ => n = np ∧ b = before
  | .exited n b (.abnormal _) => n = np ∧ b = before
  | .returned n b .stall => n = np ∧ b = before
  | .returned n b (.exit _) => n = np ∧ b = before
  | .harvest _ (.cycle n b after _) => n = np ∧ b = before ∧ after ≤ b
  | .top n => n = np + 1
  | .broke _ => True
  | _ => False

/-- What has become of the cycle that was entered with `before` recorded tests: it has taken a
test out of what remained, or has not changed the ledger. -/
def CycleInv (cfg : Config) (lines : List Rec) (np : Int) (s : Sys) : Prop :=
  (remaining cfg s.disk.progress).length < (remaining cfg lines).length ∨
    s.disk.progress = lines ∧
      ∀ p, s.sup = some p → p.pc.idleCycle np (readLedger lines).size

theorem CycleInv.sup_step {cfg : Config} {lines : List Rec} {np : Int} {d d' : Disk}
    {at_ now : Int} {pc : Pc} {p' : Option Supervisor} {orphans fallen fallen' : List Worker}
    {clock : Nat} (hl : pc.LoopOk cfg d) (hrem : remaining cfg lines ≠ [])
    (hp : d.progress = lines) (hidle : pc.idleCycle np (readLedger lines).size)
    (hb : (Sys.mk d (some ⟨cfg, at_, pc⟩) orphans fallen clock).between = false)
    (hs : SupStep cfg at_ d now pc p' d') :
    CycleInv cfg lines np (Sys.mk d' p' orphans fallen' clock) := by
  subst hp
  cases hs with
  | leave => cases hb
  | enter => cases hb
  | outputs => cases hb
  | rmProgress => exact hl.elim
  | rmInflight => exact hl.elim
  | mark reason b k e targets =>
    obtain ⟨-, hlist, ht, -⟩ := hl
    refine .inl (length_remaining_append_lt (mem_remaining.mpr ⟨?_, ?_⟩))
    · exact hlist.selected _ (List.mem_map_of_mem (ht.mem e (by simp)))
    · exact ht.unrecorded e (by simp)
  | clearStartup =>
    obtain ⟨-, -, -, np', before, after, result, hk, -⟩ := hl
    cases hk
  | clearCycle reason b n before after result =>
    obtain ⟨-, -, -, np', before', after', result', hk, hres⟩ := hl
    cases hk
    obtain ⟨rfl, -, hle⟩ : n = np ∧ _ ∧ after ≤ before := hidle
    rw [tally_of_le hle hres]
    split <;> exact .inr ⟨rfl, by rintro p ⟨⟩; first | rfl | trivial⟩
  | stalled n before =>
    exact .inr ⟨rfl, by rintro p ⟨⟩; exact ⟨hidle.1, hidle.2, hidle.2.ge⟩⟩
  | exited n before what =>
    exact .inr ⟨rfl, by rintro p ⟨⟩; exact ⟨hidle.1, hidle.2, hidle.2.ge⟩⟩
  | launch => exact .inr ⟨rfl, by rintro p ⟨⟩; exact hidle⟩
  | exitZero => exact hidle.elim
  | exitAbnormal => exact .inr ⟨rfl, by rintro p ⟨⟩; exact hidle⟩
  | done => exact hidle.elim
  | clean => exact hidle.elim
  | _ =>
    obtain ⟨-, -, -, np', before', after', result', hk, hres⟩ := hl
    subst hk
    exact .inr ⟨rfl, by rintro p ⟨⟩; exact hidle⟩

theorem CycleInv.step {cfg : Config} {lines : List Rec} {np : Int} {s s' : Sys} {e : Event}
    (hl : LoopInv cfg s) (hrem : remaining cfg lines ≠ []) (h : CycleInv cfg lines np s)
    (hok : withinCycle inLoop s e) (hs : s.step e = some s') : CycleInv cfg lines np s' := by
  rcases h with h | ⟨hp, hidle⟩
  · obtain ⟨l, hl'⟩ := hl.progress_append hok.1 hs
    refine .inl (lt_of_le_of_lt ?_ h)
    rw [hl']
    exact length_remaining_append_le cfg _ _
  · obtain ⟨d, sup, orphans, fallen, clock⟩ := s
    obtain ⟨hok, hb⟩ := hok
    cases sysStep_of_step hs with
    | @sup cfg' at_ now pc p' d' hsup =>
      obtain ⟨hcfg, hpc⟩ := hl _ rfl
      obtain rfl : cfg' = cfg := hcfg
      exact CycleInv.sup_step hpc hrem hp (hidle _ rfl) hb hsup
    | @stallAwait cfg' at_ n before w =>
      have hi : n = np ∧ before = (readLedger lines).size := hidle _ rfl
      exact .inr ⟨hp, by rintro p ⟨⟩; exact hi⟩
    | @stallExited cfg' at_ n before how =>
      have hi := hidle _ rfl
      cases how with
      | zero => exact hi.elim
      | abnormal what => exact .inr ⟨hp, by rintro p ⟨⟩; exact hi⟩
    | @worker cfg' at_ n before w w' d' we hw' =>
      have hi : n = np ∧ before = (readLedger lines).size := hidle _ rfl
      obtain ⟨-, -, hwc, hw⟩ := hl _ rfl
      cases hw' with
      | append ht =>
        refine .inl ?_
        subst hp
        exact length_remaining_append_lt (hwc ▸ hw.append_remaining ht)
      | _ => exact .inr ⟨hp, by rintro p ⟨⟩; exact hi⟩
    | @workerExits cfg' at_ n before w hx =>
      obtain ⟨hcfg, hc, hwc, hw⟩ := hl _ rfl
      have hall := (hw.complete_of_canExit (by rw [hwc]; omega) hx).2
      rw [hwc] at hall
      refine .inl ?_
      have hnil : remaining cfg d.progress = [] := remaining_eq_nil_iff.mpr hall
      rw [show (Sys.disk _).progress = d.progress from rfl, hnil]
      exact List.length_pos_iff.mpr hrem
    | @workerThrows cfg' at_ n before w hx =>
      have hi : n = np ∧ before = (readLedger lines).size := hidle _ rfl
      exact .inr ⟨hp, by rintro p ⟨⟩; exact hi⟩
    | @workerDies cfg' at_ n before w what =>
      have hi : n = np ∧ before = (readLedger lines).size := hidle _ rfl
      exact .inr ⟨hp, by rintro p ⟨⟩; exact hi⟩
    | _ => exact hok.elim

/-- One test, and `CONCURRENCY=-1`. -/
def negativeConcurrency : Cli :=
  { filters := [], listFile := none, concurrency := some (-1), testTimeoutMs := none,
    stallMs := none, limit := none, maxNoProgress := none }

def oneTest : Corpus := ⟨[js "test-a.js"], by decide, fun _ => true⟩

end CorpusRunner
