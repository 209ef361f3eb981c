import CorpusRunner.System
import CorpusRunner.Misc.Run

/-!
# What a step can do

The step functions read backwards, once for the worker, once for the supervisor and once for
the whole system: one constructor per branch, with its guards and its effect. Every invariant
is a case analysis over these relations; no later proof unfolds a step function.
-/

namespace CorpusRunner

/-- The branches of `Worker.step`. -/
inductive WorkerStep (w : Worker) (d : Disk) : WorkerEvent → Worker → Disk → Prop
  | load (h : w.thread = .boot) :
      WorkerStep w d .load
        { w with thread := .loaded
                 queue := w.cfg.all.tests.filter (fun t => !(readLedger d.progress).has t)
                 unstarted := w.cfg.concurrency.toNat } d
  | clear (h : w.thread = .loaded) (hc : w.cfg.concurrency < arrayLimit) :
      WorkerStep w d .clear { w with thread := .idle } { d with inflight := registry w.inFlight }
  | clearRejects (h : w.thread = .loaded) (hc : arrayLimit ≤ w.cfg.concurrency) :
      WorkerStep w d .clear { w with thread := .rejected }
        { d with inflight := registry w.inFlight }
  | claim {now : Nat} {t : JsString} {rest : List JsString} {w₁ : Worker}
      (h : w.thread = .idle) (hq : w.queue = t :: rest) (hs : w.takeSlot = some w₁) :
      WorkerStep w d (.claim now)
        { w₁ with thread := .claimed t, queue := rest
                  inFlight := w.inFlight.set t ⟨now, none⟩ } d
  | slotEnd {w₁ : Worker} (h : w.thread = .idle) (hq : w.queue = [])
      (hs : w.takeSlot = some w₁) : WorkerStep w d .slotEnd w₁ d
  | register {t : JsString} (h : w.thread = .claimed t) :
      WorkerStep w d .register { w with thread := .registered t }
        { d with inflight := registry w.inFlight }
  | spawn {t : JsString} {pid : Option Pid} (h : w.thread = .registered t) :
      WorkerStep w d (.spawn t pid) { w with thread := .spawned t pid } d
  | spawnThrows {t : JsString} (h : w.thread = .registered t) :
      WorkerStep w d (.spawnThrows t) { w with thread := .idle } d
  | mirror {t : JsString} {pid : Option Pid} (h : w.thread = .spawned t pid) :
      WorkerStep w d .mirror
        { w with thread := .idle
                 inFlight := w.inFlight.modify t (fun v => { v with pid := pid }) }
        { d with inflight := registry (w.inFlight.modify t (fun v => { v with pid := pid })) }
  | settle {r : RunRec} (h : w.thread = .idle) (hu : w.unstarted = 0)
      (hr : r.test ∈ w.inFlight.keys) :
      WorkerStep w d (.settle r) { w with thread := .settled r } d
  | append {r : RunRec} (h : w.thread = .settled r) :
      WorkerStep w d .append { w with thread := .appended r.test }
        { d with progress := d.progress ++ [.ran r] }
  | deregister {t : JsString} (h : w.thread = .appended t) :
      WorkerStep w d .deregister
        { w with thread := .idle, looping := w.looping + 1, inFlight := w.inFlight.delete t }
        { d with inflight := registry (w.inFlight.delete t) }

theorem workerStep_of_step {w w' : Worker} {d d' : Disk} {e : WorkerEvent}
    (h : w.step d e = some (w', d')) : WorkerStep w d e w' d' := by
  unfold Worker.step at h
  split at h
  case h_1 ht =>
    simp only [Option.some.injEq, Prod.mk.injEq] at h
    obtain ⟨rfl, rfl⟩ := h
    exact .load ht
  case h_2 ht =>
    simp only [Option.some.injEq, Prod.mk.injEq] at h
    obtain ⟨rfl, rfl⟩ := h
    split
    · rename_i hc
      exact .clear ht hc
    · rename_i hc
      exact .clearRejects ht (Int.not_lt.mp hc)
  case h_3 ht =>
    split at h
    · rename_i hq hs
      simp only [Option.some.injEq, Prod.mk.injEq] at h
      obtain ⟨rfl, rfl⟩ := h
      exact .claim ht hq hs
    · cases h
  case h_4 ht =>
    split at h
    · rename_i hq hs
      simp only [Option.some.injEq, Prod.mk.injEq] at h
      obtain ⟨rfl, rfl⟩ := h
      exact .slotEnd ht hq hs
    · cases h
  case h_5 ht =>
    simp only [Option.some.injEq, Prod.mk.injEq] at h
    obtain ⟨rfl, rfl⟩ := h
    exact .register ht
  case h_6 ht =>
    split at h
    · rename_i hts
      subst hts
      simp only [Option.some.injEq, Prod.mk.injEq] at h
      obtain ⟨rfl, rfl⟩ := h
      exact .spawn ht
    · cases h
  case h_7 ht =>
    split at h
    · rename_i hts
      subst hts
      simp only [Option.some.injEq, Prod.mk.injEq] at h
      obtain ⟨rfl, rfl⟩ := h
      exact .spawnThrows ht
    · cases h
  case h_8 ht =>
    simp only [Option.some.injEq, Prod.mk.injEq] at h
    obtain ⟨rfl, rfl⟩ := h
    exact .mirror ht
  case h_9 ht =>
    split at h
    · rename_i hc
      simp only [Option.some.injEq, Prod.mk.injEq] at h
      obtain ⟨rfl, rfl⟩ := h
      exact .settle ht hc.1 hc.2
    · cases h
  case h_10 ht =>
    simp only [Option.some.injEq, Prod.mk.injEq] at h
    obtain ⟨rfl, rfl⟩ := h
    exact .append ht
  case h_11 ht =>
    simp only [Option.some.injEq, Prod.mk.injEq] at h
    obtain ⟨rfl, rfl⟩ := h
    exact .deregister ht
  case h_12 => cases h

/-- `takeSlot` uses up one slot and nothing else. -/
theorem takeSlot_cases {w w₁ : Worker} (h : w.takeSlot = some w₁) :
    (0 < w.unstarted ∧ w₁ = { w with unstarted := w.unstarted - 1 }) ∨
    (w.unstarted = 0 ∧ 0 < w.looping ∧ w₁ = { w with looping := w.looping - 1 }) := by
  obtain ⟨n, hn, rfl⟩ := Option.map_eq_some_iff.mp h
  rcases nextSlot_cases hn with ⟨hu, rfl⟩ | ⟨hu, hl, rfl⟩
  · exact .inl ⟨hu, rfl⟩
  · exact .inr ⟨hu, hl, rfl⟩

/-- The branches of `Supervisor.step`; `none` as the next supervisor is its end. -/
inductive SupStep (cfg : Config) (at_ : Int) (d : Disk) (now : Int) :
    Pc → Option Supervisor → Disk → Prop
  | rmProgress :
      SupStep cfg at_ d now .rmProgress (some ⟨cfg, at_, .rmInflight⟩) { d with progress := [] }
  | rmInflight :
      SupStep cfg at_ d now .rmInflight (some ⟨cfg, at_, startupHarvest⟩)
        { d with inflight := [] }
  | readInflight (reason : JsString) (b : Bool) (k : Resume) :
      SupStep cfg at_ d now (.harvest ⟨reason, b, .readInflight⟩ k)
        (some ⟨cfg, at_, .harvest ⟨reason, b, .readLedger d.inflight⟩ k⟩) d
  | readLedger (reason : JsString) (b : Bool) (k : Resume) (inflight : List Entry) :
      SupStep cfg at_ d now (.harvest ⟨reason, b, .readLedger inflight⟩ k)
        (some ⟨cfg, at_, .harvest ⟨reason, b, .reap inflight
          (harvestTargets b inflight (CorpusRunner.readLedger d.progress))⟩ k⟩) d
  | reap (reason : JsString) (b : Bool) (k : Resume) (e : Entry) (es targets : List Entry) :
      SupStep cfg at_ d now (.harvest ⟨reason, b, .reap (e :: es) targets⟩ k)
        (some ⟨cfg, at_, .harvest ⟨reason, b, .reap es targets⟩ k⟩) d
  | reaped (reason : JsString) (b : Bool) (k : Resume) (targets : List Entry) :
      SupStep cfg at_ d now (.harvest ⟨reason, b, .reap [] targets⟩ k)
        (some ⟨cfg, at_, .harvest ⟨reason, b, .append targets⟩ k⟩) d
  | mark (reason : JsString) (b : Bool) (k : Resume) (e : Entry) (targets : List Entry) :
      SupStep cfg at_ d now (.harvest ⟨reason, b, .append (e :: targets)⟩ k)
        (some ⟨cfg, at_, .harvest ⟨reason, b, .append targets⟩ k⟩)
        { d with progress := d.progress ++ [.crashMark e.test reason] }
  | marked (reason : JsString) (b : Bool) (k : Resume) :
      SupStep cfg at_ d now (.harvest ⟨reason, b, .append []⟩ k)
        (some ⟨cfg, at_, .harvest ⟨reason, b, .clear⟩ k⟩) d
  | clearStartup (reason : JsString) (b : Bool) :
      SupStep cfg at_ d now (.harvest ⟨reason, b, .clear⟩ .startup)
        (some ⟨cfg, now, .top 0⟩) { d with inflight := [] }
  | clearCycle (reason : JsString) (b : Bool) (np : Int) (before after : Nat)
      (result : CycleResult) :
      SupStep cfg at_ d now (.harvest ⟨reason, b, .clear⟩ (.cycle np before after result))
        (some ⟨cfg, at_, tally cfg np before after result⟩) { d with inflight := [] }
  | leave (np : Int)
      (h : ∀ t ∈ cfg.all.tests, t ∈ recorded d.progress) :
      SupStep cfg at_ d now (.top np) (some ⟨cfg, at_, .broke false⟩) d
  | enter (np : Int) (t : JsString) (ht : t ∈ cfg.all.tests) (hr : t ∉ recorded d.progress) :
      SupStep cfg at_ d now (.top np)
        (some ⟨cfg, at_, .launch np (CorpusRunner.readLedger d.progress).size⟩) d
  | launch (np : Int) (before : Nat) :
      SupStep cfg at_ d now (.launch np before)
        (some ⟨cfg, at_, .await np before (.launched cfg)⟩) d
  | exitZero (np : Int) (before : Nat) :
      SupStep cfg at_ d now (.exited np before .zero)
        (some ⟨cfg, at_, .returned np before .done⟩) d
  | exitAbnormal (np : Int) (before : Nat) (what : JsString) :
      SupStep cfg at_ d now (.exited np before (.abnormal what))
        (some ⟨cfg, at_, .returned np before (.exit what)⟩) d
  | done (np : Int) (before : Nat) :
      SupStep cfg at_ d now (.returned np before .done) (some ⟨cfg, at_, .clean⟩) d
  | stalled (np : Int) (before : Nat) :
      SupStep cfg at_ d now (.returned np before .stall)
        (some ⟨cfg, at_, .harvest ⟨stallReason cfg, true, .readInflight⟩
          (.cycle np before (CorpusRunner.readLedger d.progress).size .stall)⟩) d
  | exited (np : Int) (before : Nat) (what : JsString) :
      SupStep cfg at_ d now (.returned np before (.exit what))
        (some ⟨cfg, at_, .harvest ⟨exitReason what, true, .readInflight⟩
          (.cycle np before (CorpusRunner.readLedger d.progress).size (.exit what))⟩) d
  | clean :
      SupStep cfg at_ d now .clean (some ⟨cfg, at_, .top 0⟩) { d with inflight := [] }
  | outputs (aborted : Bool) :
      SupStep cfg at_ d now (.broke aborted) none
        { d with summary := some (writeOutputs cfg.all.tests d.progress at_ now) }

/-- `remaining` is empty when every selected test has a line. -/
theorem remaining_eq_nil {l : List JsString} {lines : List Rec} :
    l.filter (fun t => !(readLedger lines).has t) = [] ↔ ∀ t ∈ l, t ∈ recorded lines := by
  simp [List.filter_eq_nil_iff]

theorem supStep_of_step {cfg : Config} {at_ now : Int} {pc : Pc} {d d' : Disk}
    {p' : Option Supervisor} (h : Supervisor.step ⟨cfg, at_, pc⟩ d now = some (p', d')) :
    SupStep cfg at_ d now pc p' d' := by
  cases pc with
  | rmProgress =>
    simp only [Supervisor.step, Option.some.injEq, Prod.mk.injEq] at h
    obtain ⟨rfl, rfl⟩ := h
    exact .rmProgress
  | rmInflight =>
    simp only [Supervisor.step, Option.some.injEq, Prod.mk.injEq] at h
    obtain ⟨rfl, rfl⟩ := h
    exact .rmInflight
  | harvest hv k =>
    obtain ⟨reason, b, phase⟩ := hv
    cases phase with
    | readInflight =>
      simp only [Supervisor.step, Harvest.step, Option.some.injEq, Prod.mk.injEq] at h
      obtain ⟨rfl, rfl⟩ := h
      exact .readInflight ..
    | readLedger inflight =>
      simp only [Supervisor.step, Harvest.step, Option.some.injEq, Prod.mk.injEq] at h
      obtain ⟨rfl, rfl⟩ := h
      exact .readLedger ..
    | reap entries targets =>
      cases entries with
      | nil =>
        simp only [Supervisor.step, Harvest.step, Option.some.injEq, Prod.mk.injEq] at h
        obtain ⟨rfl, rfl⟩ := h
        exact .reaped ..
      | cons e es =>
        simp only [Supervisor.step, Harvest.step, Option.some.injEq, Prod.mk.injEq] at h
        obtain ⟨rfl, rfl⟩ := h
        exact .reap ..
    | append targets =>
      cases targets with
      | nil =>
        simp only [Supervisor.step, Harvest.step, Option.some.injEq, Prod.mk.injEq] at h
        obtain ⟨rfl, rfl⟩ := h
        exact .marked ..
      | cons e es =>
        simp only [Supervisor.step, Harvest.step, Option.some.injEq, Prod.mk.injEq] at h
        obtain ⟨rfl, rfl⟩ := h
        exact .mark ..
    | clear =>
      cases k with
      | startup =>
        simp only [Supervisor.step, Harvest.step, Option.some.injEq, Prod.mk.injEq] at h
        obtain ⟨rfl, rfl⟩ := h
        exact .clearStartup ..
      | cycle np before after result =>
        simp only [Supervisor.step, Harvest.step, Option.some.injEq, Prod.mk.injEq] at h
        obtain ⟨rfl, rfl⟩ := h
        exact .clearCycle ..
  | top np =>
    simp only [Supervisor.step] at h
    split at h
    · rename_i hr
      simp only [Option.some.injEq, Prod.mk.injEq] at h
      obtain ⟨rfl, rfl⟩ := h
      exact .leave np (remaining_eq_nil.mp hr)
    · rename_i hr
      simp only [Option.some.injEq, Prod.mk.injEq] at h
      obtain ⟨rfl, rfl⟩ := h
      obtain ⟨t, ht⟩ := List.exists_mem_of_ne_nil _ hr
      rw [List.mem_filter] at ht
      exact .enter np t ht.1 (by simpa using ht.2)
  | launch np before =>
    simp only [Supervisor.step, Option.some.injEq, Prod.mk.injEq] at h
    obtain ⟨rfl, rfl⟩ := h
    exact .launch ..
  | await np before w => simp [Supervisor.step] at h
  | exited np before how =>
    cases how with
    | zero =>
      simp only [Supervisor.step, Option.some.injEq, Prod.mk.injEq] at h
      obtain ⟨rfl, rfl⟩ := h
      exact .exitZero ..
    | abnormal what =>
      simp only [Supervisor.step, Option.some.injEq, Prod.mk.injEq] at h
      obtain ⟨rfl, rfl⟩ := h
      exact .exitAbnormal ..
  | returned np before result =>
    cases result with
    | done =>
      simp only [Supervisor.step, Option.some.injEq, Prod.mk.injEq] at h
      obtain ⟨rfl, rfl⟩ := h
      exact .done ..
    | stall =>
      simp only [Supervisor.step, Option.some.injEq, Prod.mk.injEq] at h
      obtain ⟨rfl, rfl⟩ := h
      exact .stalled ..
    | exit what =>
      simp only [Supervisor.step, Option.some.injEq, Prod.mk.injEq] at h
      obtain ⟨rfl, rfl⟩ := h
      exact .exited ..
  | clean =>
    simp only [Supervisor.step, Option.some.injEq, Prod.mk.injEq] at h
    obtain ⟨rfl, rfl⟩ := h
    exact .clean
  | broke aborted =>
    simp only [Supervisor.step, Option.some.injEq, Prod.mk.injEq] at h
    obtain ⟨rfl, rfl⟩ := h
    exact .outputs ..

/-- The branches of `Sys.step`. -/
inductive SysStep (d : Disk) (orphans fallen : List Worker) (clock : Nat) :
    Option Supervisor → Event → Sys → Prop
  | start (cfg : Config) (fresh : Bool) :
      SysStep d orphans fallen clock none (.start cfg fresh)
        ⟨d, some ⟨cfg, 0, if fresh then .rmProgress else startupHarvest⟩, orphans, fallen, clock⟩
  | sup {cfg : Config} {at_ now : Int} {pc : Pc} {p' : Option Supervisor} {d' : Disk}
      (h : SupStep cfg at_ d now pc p' d') :
      SysStep d orphans fallen clock (some ⟨cfg, at_, pc⟩) (.sup now)
        ⟨d', p', orphans, if pc.harvestEnds then [] else fallen, clock⟩
  | stallAwait {cfg : Config} {at_ np : Int} {before : Nat} {w : Worker} :
      SysStep d orphans fallen clock (some ⟨cfg, at_, .await np before w⟩) .stall
        ⟨d, some ⟨cfg, at_, .returned np before .stall⟩, orphans, fallen ++ [w], clock⟩
  | stallExited {cfg : Config} {at_ np : Int} {before : Nat} {how : WorkerEnd} :
      SysStep d orphans fallen clock (some ⟨cfg, at_, .exited np before how⟩) .stall
        ⟨d, some ⟨cfg, at_, .returned np before .stall⟩, orphans, fallen, clock⟩
  | worker {cfg : Config} {at_ np : Int} {before : Nat} {w w' : Worker} {d' : Disk}
      {we : WorkerEvent} (h : WorkerStep w d we w' d') :
      SysStep d orphans fallen clock (some ⟨cfg, at_, .await np before w⟩) (.worker we)
        ⟨d', some ⟨cfg, at_, .await np before w'⟩, orphans, fallen, clockAfter clock we⟩
  | workerExits {cfg : Config} {at_ np : Int} {before : Nat} {w : Worker}
      (h : w.canExit = true) :
      SysStep d orphans fallen clock (some ⟨cfg, at_, .await np before w⟩) .workerExits
        ⟨d, some ⟨cfg, at_, .exited np before .zero⟩, orphans, fallen, clock⟩
  | workerThrows {cfg : Config} {at_ np : Int} {before : Nat} {w : Worker}
      (h : w.thread = .rejected) :
      SysStep d orphans fallen clock (some ⟨cfg, at_, .await np before w⟩) .workerExits
        ⟨d, some ⟨cfg, at_, .exited np before (.abnormal (js "1"))⟩, orphans, fallen, clock⟩
  | workerDies {cfg : Config} {at_ np : Int} {before : Nat} {w : Worker} {what : JsString} :
      SysStep d orphans fallen clock (some ⟨cfg, at_, .await np before w⟩) (.workerDies what)
        ⟨d, some ⟨cfg, at_, .exited np before (.abnormal what)⟩, orphans, fallen ++ [w], clock⟩
  | orphan {p : Option Supervisor} {i : Nat} {w w' : Worker} {d' : Disk} {we : WorkerEvent}
      (hi : orphans[i]? = some w) (h : WorkerStep w d we w' d') :
      SysStep d orphans fallen clock p (.orphan i we)
        ⟨d', p, orphans.set i w', fallen, clockAfter clock we⟩
  | orphanExits {p : Option Supervisor} {i : Nat} {w : Worker} (hi : orphans[i]? = some w)
      (h : w.canExit = true ∨ w.thread = .rejected) :
      SysStep d orphans fallen clock p (.orphanExits i)
        ⟨d, p, orphans.eraseIdx i, fallen, clock⟩
  | orphanDies {p : Option Supervisor} {i : Nat} {w : Worker} (hi : orphans[i]? = some w) :
      SysStep d orphans fallen clock p (.orphanDies i)
        ⟨d, p, orphans.eraseIdx i, fallen ++ [w], clock⟩
  | interrupt {p : Supervisor} :
      SysStep d orphans fallen clock (some p) .interrupt
        ⟨d, none, orphans ++ (Sys.mk d (some p) orphans fallen clock).current, fallen, clock⟩
  | containerCrash {p : Option Supervisor} :
      SysStep d orphans fallen clock p .containerCrash
        ⟨d, none, [], fallen ++ (Sys.mk d p orphans fallen clock).live, clock⟩

theorem sysStep_of_step {s s' : Sys} {e : Event} (h : s.step e = some s') :
    SysStep s.disk s.orphans s.fallen s.clock s.sup e s' := by
  obtain ⟨d, sup, orphans, fallen, clock⟩ := s
  cases e with
  | start cfg fresh =>
    cases sup with
    | none =>
      simp only [Sys.step, Option.some.injEq] at h
      exact h ▸ .start cfg fresh
    | some p => simp [Sys.step] at h
  | sup now =>
    cases sup with
    | none => simp [Sys.step] at h
    | some p =>
      obtain ⟨cfg, at_, pc⟩ := p
      simp only [Sys.step] at h
      split at h
      · rename_i hp
        simp only [Option.some.injEq] at h
        exact h ▸ .sup (supStep_of_step hp)
      · cases h
  | stall =>
    simp only [Sys.step] at h
    split at h
    · simp only [Option.some.injEq] at h
      exact h ▸ .stallAwait
    · simp only [Option.some.injEq] at h
      exact h ▸ .stallExited
    · cases h
  | worker we =>
    simp only [Sys.step] at h
    split at h
    · split at h
      · rename_i hw
        simp only [Option.some.injEq] at h
        exact h ▸ .worker (workerStep_of_step hw)
      · cases h
    · cases h
  | workerExits =>
    simp only [Sys.step] at h
    split at h
    · split at h
      · rename_i hc
        simp only [Option.some.injEq] at h
        exact h ▸ .workerExits hc
      · split at h
        · rename_i ht
          simp only [Option.some.injEq] at h
          exact h ▸ .workerThrows ht
        · cases h
    · cases h
  | workerDies what =>
    simp only [Sys.step] at h
    split at h
    · simp only [Option.some.injEq] at h
      exact h ▸ .workerDies
    · cases h
  | orphan i we =>
    simp only [Sys.step] at h
    split at h
    · rename_i hi
      split at h
      · rename_i hw
        simp only [Option.some.injEq] at h
        exact h ▸ .orphan hi (workerStep_of_step hw)
      · cases h
    · cases h
  | orphanExits i =>
    simp only [Sys.step] at h
    split at h
    · rename_i hi
      split at h
      · rename_i hc
        simp only [Option.some.injEq] at h
        exact h ▸ .orphanExits hi hc
      · cases h
    · cases h
  | orphanDies i =>
    simp only [Sys.step] at h
    split at h
    · rename_i hi
      simp only [Option.some.injEq] at h
      exact h ▸ .orphanDies hi
    · cases h
  | interrupt =>
    cases sup with
    | none => simp [Sys.step] at h
    | some p =>
      simp only [Sys.step, Option.some.injEq] at h
      exact h ▸ .interrupt
  | containerCrash =>
    simp only [Sys.step, Option.some.injEq] at h
    exact h ▸ .containerCrash

end CorpusRunner
