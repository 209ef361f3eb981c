import CorpusRunner.Proofs.Completeness

/-!
# Sweeps in the order of the list

A schedule under which the condition of `Passable` is also necessary: every claim reads the
same clock, every child starts, and the test that settles is always the first in flight, when
no slot is free. Then what remains is a last part of the list at every point, a cycle ends
exactly at the first hit, and no hit position is passed with growth except the first of a run.
-/

namespace CorpusRunner

/-- The schedule, up to an abort. -/
def fifo (W : Finset JsString) (s : Sys) : Event → Prop
  | .sup _ => s.pc ≠ some (.broke true)
  | .worker (.claim now) => now = s.clock
  | .worker (.spawn _ pid) => pid ≠ none
  | .worker (.spawnThrows _) => False
  | .worker (.settle r) => ∀ w ∈ s.current,
      ¬ w.wedged W ∧ w.looping = 0 ∧ w.inFlight.keys.head? = some r.test
  | .worker _ => True
  | .workerExits => True
  | .workerDies _ => ∃ w ∈ s.current, w.wedged W
  | _ => False

theorem poisoned_of_fifo {W : Finset JsString} {s : Sys} {e : Event} (h : fifo W s e) :
    poisoned W s e := by
  cases e with
  | worker we =>
    cases we with
    | claim now => exact Nat.le_of_eq (Eq.symm h)
    | settle r => exact fun w hw => (h w hw).1
    | _ => trivial
  | workerDies what => exact h
  | _ => trivial

theorem inLoop_of_fifo {W : Finset JsString} {s : Sys} {e : Event} (h : fifo W s e) :
    inLoop s e := inLoop_of_poisoned (poisoned_of_fifo h)

/-- The first hit position. -/
structure FirstHit (W : Finset JsString) (c : Nat) (l : List JsString) (m : Nat) : Prop where
  here : hit W c l m
  notBefore : ∀ i < m, ¬ hit W c l i

/-- The worker of a cycle that was entered when `start` remained. -/
structure FifoWorker (W : Finset JsString) (start : List JsString) (w : Worker) (d : Disk) :
    Prop where
  order : ∃ m, remaining w.cfg d.progress = start.drop m ∧
    ∀ i < m, ¬ hit W w.cfg.concurrency.toNat start i
  child : ∀ p ∈ w.inFlight.entries, p.2.pid.isSome ∨ w.thread = .claimed p.1 ∨
    w.thread = .registered p.1 ∨ ∃ pid, w.thread = .spawned p.1 (some pid)
  spawned : ∀ t, w.thread ≠ .spawned t none
  settled : ∀ r, w.thread = .settled r → ∃ rest,
    remaining w.cfg d.progress = r.test :: rest ∧
      ¬ hit W w.cfg.concurrency.toNat (remaining w.cfg d.progress) 0

namespace FifoWorker

variable {W : Finset JsString} {start : List JsString} {w w' : Worker} {d d' : Disk}
  {e : WorkerEvent}

theorem of_launched {cfg : Config} (h : remaining cfg d.progress = start) :
    FifoWorker W start (.launched cfg) d where
  order := ⟨0, by simpa [Worker.launched] using h, by simp⟩
  child := by simp [Worker.launched]
  spawned := by simp [Worker.launched]
  settled := by simp [Worker.launched]

/-- When the first test in flight settles no test of the window wedges. -/
theorem settle_free (h : FifoWorker W start w d) (hinv : w.Inv d) (ht : w.thread = .idle)
    (hu : w.unstarted = 0) (hlo : w.looping = 0) (hw : ¬ w.wedged W) :
    ¬ hit W w.cfg.concurrency.toNat (remaining w.cfg d.progress) 0 := by
  rw [hinv.remaining_eq_of_quiet (by simp [ht]) (by simp [ht])]
  rintro ⟨t, htk, htW⟩
  rw [List.drop_zero] at htk
  have hsize := w.inFlight.length_keys
  have hk : t ∈ w.inFlight.keys := by
    by_cases hq : w.queue = []
    · rw [hq, List.append_nil] at htk
      exact List.mem_of_mem_take htk
    · have hbusy := hinv.busy (by simp [ht]) hq
      rwa [List.take_append_of_le_length (by omega), List.take_of_length_le (by omega)] at htk
  obtain ⟨p, hp, rfl⟩ := List.mem_map.mp hk
  have hpid : p.2.pid.isSome := by simpa [ht] using h.child p hp
  exact hw ⟨p.1, List.mem_append_left _
    (List.mem_map_of_mem (List.mem_filter.mpr ⟨hp, hpid⟩)), htW⟩

theorem step (h : FifoWorker W start w d) (hinv : w.Inv d) (hs : WorkerStep w d e w' d')
    (hspawn : ∀ t pid, e = .spawn t pid → pid ≠ none) (hthrows : ∀ t, e ≠ .spawnThrows t)
    (hsettle : ∀ r, e = .settle r →
      ¬ w.wedged W ∧ w.looping = 0 ∧ w.inFlight.keys.head? = some r.test) :
    FifoWorker W start w' d' := by
  have idle : w.thread = .idle → ∀ p ∈ w.inFlight.entries, p.2.pid.isSome := fun ht p hp => by
    simpa [ht] using h.child p hp
  cases hs with
  | load ht =>
    have hth : w.inFlight.keys = [] ∧ w.looping = 0 ∧ w.unstarted = 0 ∧ w.queue = [] := by
      simpa [Worker.ThreadOk, ht] using hinv.thread
    refine ⟨h.order, fun p hp => ?_, by simp, by simp⟩
    have := JsMap.mem_keys_of_mem_entries hp
    simp [hth.1] at this
  | clear ht | clearRejects ht =>
    exact ⟨h.order, fun p hp => .inl (by simpa [ht] using h.child p hp), by simp, by simp⟩
  | @claim now t rest w₁ ht hq hs₁ =>
    obtain ⟨hcfg, -, -, -, -⟩ := Worker.takeSlot_frame hs₁
    have hnot : t ∉ w.inFlight.keys := Worker.head_notMem hinv.nodup hq
    refine ⟨by simpa [hcfg] using h.order, fun p hp => ?_, by simp, by simp⟩
    rw [JsMap.entries_set_of_notMem hnot] at hp
    rcases List.mem_append.mp hp with hp | hp
    · exact .inl (idle ht p hp)
    · rw [List.mem_singleton] at hp
      exact .inr (.inl (by simp [hp]))
  | slotEnd ht hq hs₁ =>
    obtain ⟨hcfg, hth, -, hfl, -⟩ := Worker.takeSlot_frame hs₁
    exact ⟨by simpa [hcfg] using h.order, fun p hp => .inl (idle ht p (hfl ▸ hp)),
      by simp [hth, ht], by simp [hth, ht]⟩
  | register ht =>
    refine ⟨h.order, fun p hp => ?_, by simp, by simp⟩
    simpa [ht] using h.child p hp
  | @spawn t pid ht =>
    obtain ⟨pid', rfl⟩ := Option.ne_none_iff_exists'.mp (hspawn t pid rfl)
    refine ⟨h.order, fun p hp => ?_, by simp, by simp⟩
    simpa [ht] using h.child p hp
  | spawnThrows ht => exact absurd rfl (hthrows _)
  | @mirror t pid ht =>
    obtain ⟨pid', rfl⟩ : ∃ pid', pid = some pid' := by
      cases pid with
      | none => exact absurd ht (h.spawned t)
      | some pid' => exact ⟨pid', rfl⟩
    refine ⟨h.order, fun p hp => ?_, by simp, by simp⟩
    change p ∈ w.inFlight.entries.map _ at hp
    obtain ⟨q, hq, rfl⟩ := List.mem_map.mp hp
    left
    split
    · rfl
    · rename_i hqt
      have := h.child q hq
      simp only [ht, reduceCtorEq, false_or, Thread.spawned.injEq] at this
      apply this.resolve_right
      intro hspawned
      obtain ⟨_, hqt', _⟩ := hspawned
      exact hqt hqt'.symm
  | @settle r ht hu hr =>
    obtain ⟨hw, hlo, hhead⟩ := hsettle r rfl
    refine ⟨h.order, fun p hp => .inl (idle ht p hp), by simp, ?_⟩
    intro r' heq
    cases heq
    refine ⟨w.inFlight.keys.tail ++ w.queue, ?_, h.settle_free hinv ht hu hlo hw⟩
    change remaining w.cfg d.progress = _
    rw [hinv.remaining_eq_of_quiet (by simp [ht]) (by simp [ht])]
    cases hk : w.inFlight.keys with
    | nil => simp [hk] at hhead
    | cons a l =>
      rw [hk, List.head?_cons, Option.some.injEq] at hhead
      simp [hhead]
  | @append r ht =>
    obtain ⟨rest, hrem, hfree⟩ := h.settled r ht
    obtain ⟨m, hm, hbefore⟩ := h.order
    refine ⟨⟨m + 1, ?_, ?_⟩, fun p hp => .inl (by simpa [ht] using h.child p hp), by simp, by simp⟩
    · change remaining w.cfg (d.progress ++ [.ran r]) = _
      rw [remaining_append_head (r := .ran r) hrem, ← List.tail_drop, ← hm, hrem, List.tail_cons]
    · intro i hi
      rcases Nat.lt_succ_iff_lt_or_eq.mp hi with hi | rfl
      · exact hbefore i hi
      · intro hhit
        rw [hm, hit_drop, Nat.add_zero] at hfree
        exact hfree hhit
  | deregister ht =>
    refine ⟨h.order, fun p hp => .inl ?_, by simp, by simp⟩
    simpa [ht] using h.child p (List.mem_of_mem_filter hp)

end FifoWorker

/-- A wedged worker is at a hit position. -/
theorem CycleWorker.hit_of_wedged {W : Finset JsString} {start : List JsString}
    {lines : List Rec} {w : Worker} {d : Disk} (h : CycleWorker W start lines w d)
    (hinv : w.Inv d) (hw : w.wedged W) :
    hit W w.cfg.concurrency.toNat (remaining w.cfg d.progress) 0 := by
  obtain ⟨t, htc, htW⟩ := hw
  have htk := w.children_subset_keys hinv t htc
  have hb := hinv.boot_ne_of_mem htk
  have hslots := hinv.slots
  have hsize := w.inFlight.length_keys
  rw [hinv.remaining_eq_of_quiet hb (h.wedged t htc htW).2.2]
  refine hit_zero_of_mem ?_ htW
  rw [List.take_append]
  refine List.mem_append_left _ ?_
  rwa [List.take_of_length_le (by omega)]

/-- What one cycle does to what remains, and where it leads. -/
inductive FifoEffect (W : Finset JsString) (cfg : Config) (np : Int) (start : List JsString) :
    List JsString → Pc → Prop
  | left (h : start = []) : FifoEffect W cfg np start start (.broke false)
  | complete {m : Nat} (h : start.drop m = [])
      (hm : ∀ i < m, ¬ hit W cfg.concurrency.toNat start i) :
      FifoEffect W cfg np start [] (.top 0)
  | blocked (h : hit W cfg.concurrency.toNat start 0) :
      FifoEffect W cfg np start (start.drop 1)
        (if np + 1 ≥ cfg.maxNoProgress then .broke true else .top (np + 1))
  | worked {m : Nat} (h : FirstHit W cfg.concurrency.toNat start (m + 1)) :
      FifoEffect W cfg np start (start.drop (m + 2)) (.top 0)

/-- Where a cycle stands that was entered with the ledger `lines`. -/
def Pc.FifoOk (W : Finset JsString) (cfg : Config) (np : Int) (lines : List Rec) (d : Disk) :
    Pc → Prop
  | .launch _ _ => d.progress = lines
  | .await _ _ w => FifoWorker W (remaining cfg lines) w d
  | .exited _ _ .zero => Through
  | .exited _ _ (.abnormal _) => Stopped
  | .returned _ _ .done => Through
  | .returned _ _ _ => Stopped
  | .clean => Through
  | .harvest ⟨_, _, .append []⟩ _ => Stepped
  | .harvest ⟨_, _, .clear⟩ _ => Stepped
  | .harvest _ _ => Stopped
  | .top n => FifoEffect W cfg np (remaining cfg lines) (remaining cfg d.progress) (.top n)
  | .broke b => FifoEffect W cfg np (remaining cfg lines) (remaining cfg d.progress) (.broke b)
  | _ => False
where
  Through : Prop := ∃ m, (remaining cfg lines).drop m = [] ∧
    ∀ i < m, ¬ hit W cfg.concurrency.toNat (remaining cfg lines) i
  Stopped : Prop := ∃ m, FirstHit W cfg.concurrency.toNat (remaining cfg lines) m ∧
    remaining cfg d.progress = (remaining cfg lines).drop m
  Stepped : Prop := ∃ m, FirstHit W cfg.concurrency.toNat (remaining cfg lines) m ∧
    remaining cfg d.progress = (remaining cfg lines).drop (m + 1)

theorem fifoEffect_of_marked {W : Finset JsString} {cfg : Config} (np : Int) {lines : List Rec}
    {after m : Nat} {reason : JsString} {result : CycleResult} {d : Disk}
    (h : Marked W cfg lines after reason d) (hr : result ≠ .done)
    (hm : FirstHit W cfg.concurrency.toNat (remaining cfg lines) m)
    (hd : remaining cfg d.progress = (remaining cfg lines).drop (m + 1)) :
    FifoEffect W cfg np (remaining cfg lines) (remaining cfg d.progress)
      (tally cfg np (readLedger lines).size after result) := by
  obtain ⟨lines', t, rest, rfl, hout, hrem, hp⟩ := h
  have hlt := lt_length_of_hit hm.here
  have hrest : remaining cfg d.progress = rest := by
    rw [hp]
    exact remaining_append_head (r := .crashMark t reason) hrem
  have hlen : rest.length + (m + 1) = (remaining cfg lines).length := by
    rw [← hrest, hd, List.length_drop]
    omega
  generalize hR : remaining cfg lines' = R at hout hrem
  cases hout with
  | blocked ht hW =>
    obtain rfl : m = 0 := by
      rw [hrem, List.length_cons] at hlen
      omega
    rw [tally_of_le (Nat.le_refl _) hr, hd]
    exact .blocked hm.here
  | @worked _ ks tl t' hgrow hW hsuf hlen' hks =>
    have hsum := congrArg List.length hrem
    simp only [List.length_append, List.length_cons] at hsum
    obtain ⟨m, rfl⟩ : ∃ m', m = m' + 1 := ⟨m - 1, by omega⟩
    rw [tally_of_lt hgrow, hd]
    exact .worked hm

/-- The invariant of one cycle under this schedule. -/
def FifoInv (W : Finset JsString) (cfg : Config) (np : Int) (lines : List Rec) (s : Sys) : Prop :=
  PoisonInv W cfg np lines s ∧ ∀ p, s.sup = some p → p.pc.FifoOk W cfg np lines s.disk

namespace FifoInv

variable {W : Finset JsString} {cfg : Config} {np : Int} {lines : List Rec}

theorem sup_step {d d' : Disk} {at_ now : Int} {pc : Pc} {p' : Option Supervisor}
    {orphans fallen : List Worker} {clock : Nat} (hl : pc.LoopOk cfg d)
    (hp : pc.PoisonOk W cfg np lines d fallen clock) (h : pc.FifoOk W cfg np lines d)
    (hb : (Sys.mk d (some ⟨cfg, at_, pc⟩) orphans fallen clock).between = false)
    (hs : SupStep cfg at_ d now pc p' d') :
    ∃ p, p' = some p ∧ p.pc.FifoOk W cfg np lines d' := by
  cases hs with
  | leave => cases hb
  | enter => cases hb
  | outputs => cases hb
  | rmProgress => exact h.elim
  | rmInflight => exact h.elim
  | clearStartup =>
    obtain ⟨-, after, result, -, hk, -⟩ := hp
    cases hk
  | readInflight => exact ⟨_, rfl, h⟩
  | readLedger => exact ⟨_, rfl, h⟩
  | reap => exact ⟨_, rfl, h⟩
  | reaped reason b k targets =>
    obtain ⟨-, after, result, -, -, -, -, e, rest, rfl, -⟩ := hp
    exact ⟨_, rfl, h⟩
  | mark reason b k e targets =>
    obtain ⟨ho, after, result, hr, hk, ha, hout, e', rest, htg, hrem⟩ := hp
    obtain ⟨rfl, rfl⟩ : e = e' ∧ targets = [] := by simpa using htg
    obtain ⟨m, hm, hd⟩ := h
    refine ⟨_, rfl, m, hm, ?_⟩
    change remaining cfg (d.progress ++ [.crashMark e.test reason]) = _
    rw [remaining_append_head (r := .crashMark e.test reason) hrem, ← List.tail_drop, ← hd, hrem,
      List.tail_cons]
  | marked => exact ⟨_, rfl, h⟩
  | clearCycle reason b np' before after result =>
    obtain ⟨ho, after', result', hr, hk, hmk⟩ := hp
    cases hk
    obtain ⟨m, hm, hd⟩ := h
    have heff := fifoEffect_of_marked np hmk hr hm hd
    refine ⟨_, rfl, ?_⟩
    rcases tally_cases cfg np (readLedger lines).size after result with ⟨np', ht⟩ | ht
    · simp only [ht] at heff ⊢
      exact heff
    · simp only [ht] at heff ⊢
      exact heff
  | launch n b => exact ⟨_, rfl, .of_launched (by rw [show d.progress = lines from h])⟩
  | exitZero => exact ⟨_, rfl, h⟩
  | exitAbnormal => exact ⟨_, rfl, h⟩
  | done => exact ⟨_, rfl, h⟩
  | stalled => exact ⟨_, rfl, h⟩
  | exited => exact ⟨_, rfl, h⟩
  | clean =>
    obtain ⟨m, hm, hfree⟩ := h
    refine ⟨_, rfl, ?_⟩
    change FifoEffect W cfg np _ (remaining cfg d.progress) _
    rw [remaining_eq_nil_iff.mpr hl.2]
    exact .complete hm hfree

theorem step {s s' : Sys} {e : Event} (hlimit : cfg.concurrency < arrayLimit)
    (h : FifoInv W cfg np lines s) (hok : withinCycle (fifo W) s e)
    (hs : s.step e = some s') : FifoInv W cfg np lines s' := by
  obtain ⟨hp, hf⟩ := h
  obtain ⟨hfo, hb⟩ := hok
  have hpo := poisoned_of_fifo hfo
  have hin := inLoop_of_poisoned hpo
  refine ⟨hp.step hlimit ⟨hpo, hb⟩ hs, ?_⟩
  obtain ⟨hl, p, hsup, hpc⟩ := hp
  obtain ⟨d, sup, orphans, fallen, clock⟩ := s
  cases sysStep_of_step hs with
  | @sup cfg' at_ now pc p' d' hss =>
    obtain ⟨hcfg, hlo⟩ := hl _ rfl
    obtain rfl : cfg' = cfg := hcfg
    have hff := hf _ rfl
    cases hsup
    obtain ⟨q, rfl, hq⟩ := sup_step hlo hpc hff hb hss
    intro q' heq
    cases heq
    exact hq
  | stallAwait => exact hfo.elim
  | stallExited => exact hfo.elim
  | @worker cfg' at_ n before w w' d' we hw' =>
    obtain ⟨hcfg, hc, hwc, hw⟩ := hl _ rfl
    have hff : FifoWorker W (remaining cfg lines) w d := hf _ rfl
    intro q hq
    cases hq
    refine hff.step hw hw' ?_ ?_ ?_
    · rintro t pid rfl
      exact hfo
    · rintro t rfl
      exact hfo
    · rintro r rfl
      exact hfo w (by simp [Sys.current])
  | @workerExits cfg' at_ n before w hx =>
    obtain ⟨hcfg, hc, hwc, hw⟩ := hl _ rfl
    have hff : FifoWorker W (remaining cfg lines) w d := hf _ rfl
    obtain ⟨m, hm, hfree⟩ := hff.order
    have hall := (hw.complete_of_canExit (by rw [hwc]; omega) hx).2
    rw [remaining_eq_nil_iff.mpr hall] at hm
    intro q hq
    cases hq
    exact ⟨m, hm.symm, hwc ▸ hfree⟩
  | @workerThrows cfg' at_ n before w ht =>
    obtain ⟨hcfg, hc, hwc, hw⟩ := hl _ rfl
    have hge := (hw.of_rejected ht).2.1
    rw [hwc] at hge
    exact absurd hlimit (Int.not_lt.mpr hge)
  | @workerDies cfg' at_ n before w what =>
    obtain ⟨hcfg, hc, hwc, hw⟩ := hl _ rfl
    have hff : FifoWorker W (remaining cfg lines) w d := hf _ rfl
    cases hsup
    obtain ⟨-, -, -, -, hcw⟩ := hpc
    obtain ⟨v, hv, hwedged⟩ := hfo
    obtain rfl : v = w := by simpa [Sys.current] using hv
    obtain ⟨m, hm, hfree⟩ := hff.order
    have hhit := hcw.hit_of_wedged hw hwedged
    rw [hm, hit_drop, Nat.add_zero] at hhit
    obtain rfl : v.cfg = cfg := hwc
    intro q hq
    cases hq
    exact ⟨m, ⟨hhit, hfree⟩, hm⟩
  | _ => exact hin.elim

end FifoInv

/-- One cycle under this schedule. -/
theorem fifo_effect {W : Finset JsString} {cfg : Config} {np : Int} {s s' : Sys}
    (hlimit : cfg.concurrency < arrayLimit) (hl : LoopInv cfg s) (hf : s.fallen = [])
    (hs : s.pc = some (.top np)) (h : Cycle (fifo W) s s') :
    ∃ pc, s'.pc = some pc ∧ s'.fallen = [] ∧
      FifoEffect W cfg np (remaining cfg s.disk.progress) (remaining cfg s'.disk.progress) pc := by
  obtain ⟨-, hb', e, s₁, es, hok, hstep, hrun⟩ := h
  have hl₁ := hl.step (inLoop_of_fifo hok) hstep
  obtain ⟨hd, hf₁, ⟨hpc, hall⟩ | ⟨hpc, hrem⟩⟩ :=
    top_step (fun _ _ => inLoop_of_fifo) hl hs hok hstep
  · rw [withinCycle_between (by simp [Sys.between, hpc]) hrun]
    refine ⟨_, hpc, hf₁.trans hf, ?_⟩
    rw [hd]
    exact .left (remaining_eq_nil_iff.mpr hall)
  · obtain ⟨p, hp, hpp⟩ := Option.map_eq_some_iff.mp hpc
    have hinv : FifoInv W cfg np s.disk.progress s₁ := by
      refine ⟨⟨hl₁, p, hp, ?_⟩, fun q hq => ?_⟩
      · rw [hpp]
        exact ⟨rfl, rfl, by rw [hd], hf₁.trans hf⟩
      · obtain rfl : p = q := Option.some.inj (hp.symm.trans hq)
        rw [hpp]
        exact congrArg Disk.progress hd
    obtain ⟨⟨-, p', hp', hpo⟩, hfo⟩ :=
      hrun.invariant hinv fun _ _ _ hI hok hs => hI.step hlimit hok hs
    have hff := hfo p' hp'
    obtain ⟨pc, hpc', ⟨n, rfl⟩ | ⟨b, rfl⟩⟩ := pc_of_between hb'
    · rw [Sys.pc, hp', Option.map_some, Option.some.injEq] at hpc'
      rw [hpc'] at hpo hff
      exact ⟨_, by rw [Sys.pc, hp', Option.map_some, hpc'], hpo.1, hff⟩
    · rw [Sys.pc, hp', Option.map_some, Option.some.injEq] at hpc'
      rw [hpc'] at hpo hff
      exact ⟨_, by rw [Sys.pc, hp', Option.map_some, hpc'], hpo.1, hff⟩

/-- Under this schedule something can happen until an abort or the supervisor's end. -/
theorem fifo_enabled {W : Finset JsString} {s : Sys} (hsup : s.sup ≠ none)
    (hb : s.pc ≠ some (.broke true)) : ∃ t, Steps Sys.step (fifo W) s t := by
  rcases Sys.progress hsup with
    ⟨t, ht⟩ | ⟨w, hcur, ⟨e, hr, hs⟩ | hs | ⟨hlo, hdies, t, hk, hs⟩⟩
  · exact ⟨t, .sup 0, hb, ht⟩
  · refine steps_of_isSome hs ?_
    cases e with
    | claim now => exact hr
    | spawn t pid =>
      obtain rfl : pid = some 0 := hr
      simp [fifo]
    | settle r => exact hr.elim
    | spawnThrows t => exact hr.elim
    | _ => trivial
  · exact steps_of_isSome hs trivial
  · by_cases hwedged : w.wedged W
    · exact steps_of_isSome hdies ⟨w, by simp [hcur], hwedged⟩
    · refine steps_of_isSome (hs ⟨t, .pass, 0, some 0, none, [], none⟩ rfl) ?_
      intro v hv
      rw [hcur, List.mem_singleton] at hv
      rw [hv]
      exact ⟨hwedged, hlo, hk⟩

/-! ## When the sweep is bound to be aborted -/

/-- A run of `m` hit positions from `b` on, entered without growth (`b = 0`) or by the growth
that ends at the hit position `b - 1`, the first of its run. -/
structure Barrier (W : Finset JsString) (c m : Nat) (l : List JsString) (b : Nat) : Prop where
  ne_one : b ≠ 1
  hits : ∀ i < m, hit W c l (b + i)
  entry : 0 < b → hit W c l (b - 1)
  free : 1 < b → ¬ hit W c l (b - 2)

theorem exists_barrier {W : Finset JsString} {c m : Nat} {l : List JsString}
    (h : ¬ Passable W c m l) : ∃ b, Barrier W c m l b := by
  by_cases h0 : ∀ i < m, hit W c l i
  · exact ⟨0, by simp, by simpa using h0, by simp, by simp⟩
  · have hex : ∃ s, ∀ i ≤ m, hit W c l (s + i) := by
      by_contra hno
      refine h ⟨by simpa using h0, fun s => ?_⟩
      by_contra hs
      exact hno ⟨s, by simpa using hs⟩
    classical
    have hs := Nat.find_spec hex
    have hmin : ∀ k < Nat.find hex, ¬ ∀ i ≤ m, hit W c l (k + i) := fun k hk => Nat.find_min hex hk
    generalize Nat.find hex = s at hs hmin
    have hpos : s ≠ 0 := by
      intro heq
      subst heq
      exact h0 fun i hi => by simpa using hs i (by omega)
    refine ⟨s + 1, by omega, fun i hi => ?_, fun _ => ?_, fun hs1 hhit => ?_⟩
    · have := hs (i + 1) (by omega)
      rwa [show s + 1 + i = s + (i + 1) by omega]
    · exact hs 0 (Nat.zero_le m)
    · refine hmin (s - 1) (by omega) fun i hi => ?_
      cases i with
      | zero => exact hhit
      | succ i =>
        have := hs i (by omega)
        rwa [show s - 1 + (i + 1) = s + i by omega]

/-- Ahead of the barrier, or `n` positions into it. -/
def Doomed (l : List JsString) (b n : Nat) (R : List JsString) : Prop :=
  (∃ j, j + 1 < b ∧ R = l.drop j) ∨ R = l.drop (b + n)

/-- Between two cycles of a sweep that has a barrier before it. -/
structure DoomInv (W : Finset JsString) (cfg : Config) (l : List JsString) (b : Nat) (s : Sys) :
    Prop where
  loop : LoopInv cfg s
  fallen : s.fallen = []
  at_ : s.pc = some (.broke true) ∨ ∃ np, s.pc = some (.top np) ∧ 0 ≤ np ∧
    np < cfg.maxNoProgress ∧ Doomed l b np.toNat (remaining cfg s.disk.progress)

/-- A cycle ahead of the barrier. -/
theorem Barrier.ahead {W : Finset JsString} {cfg : Config} {m b j : Nat} {np : Int}
    {l R' : List JsString} {pc : Pc} (hbar : Barrier W cfg.concurrency.toNat m l b)
    (hj : j + 1 < b) (h : FifoEffect W cfg np (l.drop j) R' pc) :
    pc = .broke true ∨ pc = .top (np + 1) ∧ np + 1 < cfg.maxNoProgress ∧
      (∃ j, j + 1 < b ∧ R' = l.drop j) ∨ pc = .top 0 ∧ Doomed l b 0 R' := by
  have hentry := hbar.entry (by omega)
  have hfree := hbar.free (by omega)
  have hlen := lt_length_of_hit hentry
  cases h with
  | left h =>
    rw [List.drop_eq_nil_iff] at h
    omega
  | @complete m' h hm =>
    rw [List.drop_drop, List.drop_eq_nil_iff] at h
    refine absurd ?_ (hm (b - 1 - j) (by omega))
    rwa [hit_drop, show j + (b - 1 - j) = b - 1 by omega]
  | blocked h =>
    rw [hit_drop, Nat.add_zero] at h
    have hne : j ≠ b - 2 := fun heq => hfree (heq ▸ h)
    split
    · exact .inl rfl
    · exact .inr (.inl ⟨rfl, by omega, j + 1, by omega, by rw [List.drop_drop]⟩)
  | @worked m' h =>
    have hhere := h.here
    rw [hit_drop] at hhere
    have hne : j + (m' + 1) ≠ b - 2 := fun heq => hfree (heq ▸ hhere)
    have hle : j + (m' + 1) ≤ b - 1 := by
      by_contra hgt
      refine h.notBefore (b - 1 - j) (by omega) ?_
      rwa [hit_drop, show j + (b - 1 - j) = b - 1 by omega]
    refine .inr (.inr ⟨rfl, ?_⟩)
    rw [List.drop_drop]
    by_cases heq : j + (m' + 1) = b - 1
    · exact .inr (by rw [show j + (m' + 2) = b + 0 by omega])
    · exact .inl ⟨j + (m' + 2), by omega, rfl⟩

/-- A cycle within the barrier. -/
theorem Barrier.within {W : Finset JsString} {cfg : Config} {m b n : Nat} {np : Int}
    {l R' : List JsString} {pc : Pc} (hbar : Barrier W cfg.concurrency.toNat m l b) (hn : n < m)
    (h : FifoEffect W cfg np (l.drop (b + n)) R' pc) :
    R' = l.drop (b + (n + 1)) ∧
      pc = if np + 1 ≥ cfg.maxNoProgress then .broke true else .top (np + 1) := by
  have hhit := hbar.hits n hn
  have hlen := lt_length_of_hit hhit
  have hzero : hit W cfg.concurrency.toNat (l.drop (b + n)) 0 := by rwa [hit_drop]
  cases h with
  | left h =>
    rw [List.drop_eq_nil_iff] at h
    omega
  | @complete m' h hm =>
    rw [List.drop_drop, List.drop_eq_nil_iff] at h
    exact absurd hzero (hm 0 (by omega))
  | blocked h => exact ⟨by rw [List.drop_drop]; rfl, rfl⟩
  | worked h => exact absurd hzero (h.notBefore 0 (by omega))

theorem DoomInv.cycle {W : Finset JsString} {cfg : Config} {l : List JsString} {b : Nat}
    {s s' : Sys} (hlimit : cfg.concurrency < arrayLimit) (hm : 1 ≤ cfg.maxNoProgress)
    (hbar : Barrier W cfg.concurrency.toNat cfg.maxNoProgress.toNat l b)
    (h : DoomInv W cfg l b s) (hc : Cycle (fifo W) s s') : DoomInv W cfg l b s' := by
  obtain ⟨es, hrun⟩ := hc.run
  have hl' := h.loop.of_run (fun _ _ => inLoop_of_fifo) hrun
  obtain ⟨np, hpc⟩ := hc.top fun _ _ => inLoop_of_fifo
  obtain ⟨pc', hpc', hf', heff⟩ := fifo_effect hlimit h.loop h.fallen hpc hc
  refine ⟨hl', hf', ?_⟩
  rcases h.at_ with hb | ⟨np', hnp', h0, hlt, hdoom⟩
  · rw [hb] at hpc
    cases hpc
  · obtain rfl : np = np' := by
      rw [hpc] at hnp'
      simpa using hnp'
    rcases hdoom with ⟨j, hj, hR⟩ | hR
    · rw [hR] at heff
      rcases hbar.ahead hj heff with rfl | ⟨rfl, hlt', hd⟩ | ⟨rfl, hd⟩
      · exact .inl hpc'
      · exact .inr ⟨np + 1, hpc', by omega, hlt', .inl hd⟩
      · exact .inr ⟨0, hpc', Int.le_refl 0, by omega, hd⟩
    · rw [hR] at heff
      obtain ⟨hR', rfl⟩ := hbar.within (by omega) heff
      by_cases hge : np + 1 ≥ cfg.maxNoProgress
      · rw [if_pos hge] at hpc'
        exact .inl hpc'
      · rw [if_neg hge] at hpc'
        refine .inr ⟨np + 1, hpc', by omega, by omega, .inr ?_⟩
        rw [hR', show (np + 1).toNat = np.toNat + 1 by omega]

/-- Nothing happens in this schedule after an abort. -/
theorem not_fifo_step_of_aborted {W : Finset JsString} {s t : Sys} {e : Event}
    (hb : s.pc = some (.broke true)) (hok : fifo W s e) (hs : s.step e = some t) : False := by
  have hend := (broke_step hb (inLoop_of_fifo hok) hs).1
  obtain ⟨d, sup, orphans, fallen, clock⟩ := s
  cases sysStep_of_step hs with
  | sup => exact hok hb
  | stallAwait => cases hb
  | stallExited => cases hb
  | worker => cases hb
  | workerExits | workerThrows => cases hb
  | workerDies => cases hb
  | _ => exact (inLoop_of_fifo hok).elim

/-- Without the condition some sweep is aborted right after a cycle that has marked a test. -/
theorem exists_abort {W : Finset JsString} {cfg : Config} {lines : List Rec}
    (summary : Option Summary) (startedAt : Int) (clock : Nat) (hc : 1 ≤ cfg.concurrency)
    (hlimit : cfg.concurrency < arrayLimit) (hm : 1 ≤ cfg.maxNoProgress)
    (hp : ¬ Passable W cfg.concurrency.toNat cfg.maxNoProgress.toNat (remaining cfg lines)) :
    ∃ es s s', Run Sys.step (fifo W) (loopEntry cfg lines summary startedAt clock) es s ∧
      Cycle (fifo W) s s' ∧ s'.pc = some (.broke true) ∧ LoopInv cfg s ∧ s.fallen = [] := by
  obtain ⟨b, hbar⟩ := exists_barrier hp
  have hentry : LoopInv cfg (loopEntry cfg lines summary startedAt clock) := .entry (.inl hc)
  have hdoom : DoomInv W cfg (remaining cfg lines) b
      (loopEntry cfg lines summary startedAt clock) := by
    refine ⟨hentry, rfl, .inr ⟨0, rfl, Int.le_refl 0, by omega, ?_⟩⟩
    by_cases hb : 1 < b
    · exact .inl ⟨0, hb, rfl⟩
    · have := hbar.ne_one
      obtain rfl : b = 0 := by omega
      exact .inr rfl
  have hinv : ∀ {es s}, Run Sys.step (fifo W) (loopEntry cfg lines summary startedAt clock) es s →
      s.between = true → DoomInv W cfg (remaining cfg lines) b s := fun hr hb =>
    cycle_induction rfl hdoom (fun _ _ hI hcy => hI.cycle hlimit hm hbar hcy) hr hb
  obtain ⟨es, s', hr, hstuck⟩ :=
    ((terminates_loop hentry).mono fun _ _ => inLoop_of_fifo (W := W)).exists_stuck
  have haborted : s'.pc = some (.broke true) := by
    by_contra hne
    by_cases hend : s'.sup = none
    · cases hr with
      | refl => cases hend
      | @snoc es e u _ hru hok hs =>
        obtain ⟨b', hb'⟩ := ended_step (inLoop_of_fifo hok) hs hend
        rcases (hinv hru (by simp [Sys.between, hb'])).at_ with hb | ⟨np, hnp, -⟩
        · exact not_fifo_step_of_aborted hb hok hs
        · rw [hb'] at hnp
          cases hnp
    · obtain ⟨t, ht⟩ := fifo_enabled (W := W) hend hne
      exact hstuck t ht
  have hbs : s'.between = true := by simp [Sys.between, haborted]
  rcases last_cycle rfl hr hbs with rfl | ⟨t, es', -, hbt, hrt, hct⟩
  · cases haborted
  · have hI := hinv hrt hbt
    exact ⟨es', t, s', hrt, hct, haborted, hI.loop, hI.fallen⟩

end CorpusRunner
