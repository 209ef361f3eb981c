import CorpusRunner.Misc.ListOrder
import CorpusRunner.Proofs.LedgerVerdicts
import CorpusRunner.Proofs.WatchProgress

/-!
# How long a worker takes

The slots of the pool claim the tests in list order, none of them waits while there are tests
left, and no test takes longer than its cap and the 3000 ms of the reap timer. The test at place
`i` of what is to do is therefore claimed `i / concurrency` such times after the launch, and all
of it is done within as many as there are rounds (`Watch.worker_in_time`). The worker itself may
go on for longer: what its tests have left behind can hold its pipes open.
-/

namespace CorpusRunner

/-- `todo` (`corpus-worker.mjs:101`). -/
def Config.todo (cfg : Config) (lines : List Rec) : List JsString :=
  cfg.all.tests.filter (fun t => !(readLedger lines).has t)

theorem Config.nodup_todo (cfg : Config) (lines : List Rec) : (cfg.todo lines).Nodup :=
  cfg.all.nodup.filter _

/-! ## Rounds -/

section Rounds

variable {c T : Nat}

/-- A round later. -/
theorem round_succ (hc : 0 < c) (i : Nat) : i / c * T + T = (i + c) / c * T := by
  rw [Nat.add_div_right i hc, Nat.succ_mul]

theorem rounds_mono {i j : Nat} (h : i ≤ j) : i / c * T ≤ j / c * T :=
  Nat.mul_le_mul_right T (Nat.div_le_div_right h)

end Rounds

namespace Watch

/-- Nothing that is recorded is missing again. -/
theorem missing_of_step {s s' : Watch} {e : WatchEvent} (h : WatchStep s e s')
    (hmissing : s'.Missing) : s.Missing := by
  have hworker : ∀ {we w d}, WorkerStep s.worker s.disk we w d →
      (∃ t ∈ w.cfg.all.tests, t ∉ recorded d.progress) → s.Missing := by
    rintro we w d hw ⟨t, ht, hrec⟩
    refine ⟨t, hw.cfg_eq ▸ ht, ?_⟩
    intro hold
    rcases hw.progress_cases with hp | ⟨r, hp⟩
    · exact hrec (by rw [hp]; exact hold)
    · exact hrec (by rw [hp, recorded_append]; exact List.mem_append_left _ hold)
  cases h with
  | worker hw | spawn hw | spawnThrows hw => exact hworker hw hmissing
  | settle _ _ hw => exact hworker hw hmissing
  | child | released | rejects | exits | poll | tick => exact hmissing

/-- The worker has claimed these tests, `c` slots share them, and none takes longer than `T`. -/
structure Pace (todo claimed : List JsString) (c T : Nat) (s : Watch) : Prop where
  split : todo = claimed ++ s.worker.queue
  started : ∀ t n, s.worker.startedAt t = some n → t ∈ claimed ∧ n ≤ claimed.idxOf t / c * T
  /-- As long as a test waits. -/
  early : s.worker.queue ≠ [] → s.now ≤ claimed.length / c * T
  /-- Beyond that only the children's pipes are waited for. -/
  now : s.Missing → s.now ≤ (todo.length + c - 1) / c * T

namespace Pace

variable {todo claimed : List JsString} {c T : Nat} {s s' : Watch}

/-- A step that claims no test, at a time that stands still. -/
theorem keep (h : Pace todo claimed c T s) (hqueue : s'.worker.queue = s.worker.queue)
    (hstarted : ∀ t n, s'.worker.startedAt t = some n → s.worker.startedAt t = some n)
    (hnow : s'.now = s.now) (hmissing : s'.Missing → s.Missing) : Pace todo claimed c T s' where
  split := by
    rw [hqueue]
    exact h.split
  started := fun t n ht => h.started t n (hstarted t n ht)
  early := by
    rw [hqueue, hnow]
    exact h.early
  now := by
    rw [hnow]
    exact fun hm => h.now (hmissing hm)

/-- The next test is claimed. -/
theorem claim {t : JsString} {rest : List JsString} (h : Pace todo claimed c T s)
    (hnd : todo.Nodup) (hq : s.worker.queue = t :: rest) (hrest : s'.worker.queue = rest)
    (hstarted : ∀ a, s'.worker.startedAt a = if a = t then some s.now else s.worker.startedAt a)
    (hnow : s'.now = s.now) (hmissing : s'.Missing → s.Missing) :
    Pace todo (claimed ++ [t]) c T s' := by
  have hearly := h.early (by simp [hq])
  have hnew : t ∉ claimed := by
    intro ht
    rw [h.split, hq] at hnd
    exact (List.nodup_append.mp hnd).2.2 t ht t (by simp) rfl
  exact {
    split := by rw [h.split, hq, hrest, List.append_assoc, List.singleton_append]
    started := by
      intro a n ha
      rw [hstarted] at ha
      split at ha
      · rename_i hat
        obtain rfl := Option.some.inj ha
        rw [hat, List.idxOf_append_of_notMem hnew, List.idxOf_cons_self]
        exact ⟨by simp, hearly⟩
      · obtain ⟨hmem, hn⟩ := h.started a n ha
        rw [List.idxOf_append_of_mem hmem]
        exact ⟨List.mem_append_left _ hmem, hn⟩
    early := by
      intro _
      rw [hnow, List.length_append]
      exact hearly.trans (rounds_mono (Nat.le_add_right _ _))
    now := by
      rw [hnow]
      exact fun hm => h.now (hmissing hm) }

/-- A test in flight that was claimed early enough ends in time. -/
theorem succ_le {t : JsString} {n i : Nat} (h : Pace todo claimed c T s) (hc : 0 < c)
    (ht : s.worker.startedAt t = some n) (hdeadline : s.now + 1 ≤ n + T)
    (hi : claimed.idxOf t + c ≤ i) : s.now + 1 ≤ i / c * T := by
  have hn := (h.started t n ht).2
  calc s.now + 1 ≤ n + T := hdeadline
    _ ≤ claimed.idxOf t / c * T + T := Nat.add_le_add_right hn T
    _ = (claimed.idxOf t + c) / c * T := round_succ hc _
    _ ≤ i / c * T := rounds_mono hi

/-- The clock ticks only while no slot is free for a test that waits; of as many tests in flight
as there are slots, the one that was claimed first is a round ahead. -/
theorem tick (h : Pace todo claimed s.worker.cfg.concurrency.toNat (timerDelay s.timeout + 3000) s)
    (hinv : s.Inv) (hquiet : s.quiet = true) :
    Pace todo claimed s.worker.cfg.concurrency.toNat (timerDelay s.timeout + 3000)
      { s with now := s.now + 1 } := by
  obtain ⟨hidle, hunstarted, hlooping, -⟩ := quiet_iff.mp hquiet
  have hinv' := hinv.tick hquiet
  have hbusy : s.Missing → ∃ a n, s.worker.startedAt a = some n ∧
      s.worker.inFlight.keys ≠ [] ∧ 0 < s.worker.cfg.concurrency.toNat := by
    intro hmissing
    obtain ⟨a, n, ha, -⟩ := hinv.exists_inFlight hquiet hmissing
    have hflight : a ∈ s.worker.inFlight.keys := Worker.mem_keys_iff_startedAt.mpr ⟨n, ha⟩
    have hslots := hinv.worker.slots
    rw [← JsMap.length_keys] at hslots
    have hpos := List.length_pos_of_mem hflight
    exact ⟨a, n, ha, List.ne_nil_of_mem hflight, by omega⟩
  have hdeadline : ∀ {t m}, s.worker.startedAt t = some m →
      s.now + 1 ≤ m + (timerDelay s.timeout + 3000) := by
    intro t m hm
    rw [← Nat.add_assoc]
    exact (hinv'.deadline t m hm).2
  exact {
    split := h.split
    started := h.started
    early := by
      intro hq
      -- a test that waits is missing in the ledger
      obtain ⟨a, hwaits⟩ := List.exists_mem_of_ne_nil _ hq
      have hselected := hinv.worker.order.subset (List.mem_append_right _ hwaits)
      obtain ⟨-, -, -, hne, hc⟩ := hbusy ⟨a, hselected, hinv.worker.waiting a hwaits⟩
      have hall := hinv.worker.busy (by simp [hidle]) hq
      rw [← JsMap.length_keys, hunstarted, hlooping] at hall
      have hsub : s.worker.inFlight.keys ⊆ claimed := by
        intro t ht
        obtain ⟨m, hm⟩ := Worker.mem_keys_iff_startedAt.mp ht
        exact (h.started t m hm).1
      have hnd := (List.nodup_append.mp hinv.worker.nodup).1
      obtain ⟨t, ht, hfirst⟩ := exists_idxOf_add_length_le hnd hsub hne
      obtain ⟨m, hm⟩ := Worker.mem_keys_iff_startedAt.mp ht
      exact h.succ_le (by omega) hm (hdeadline hm) (by omega)
    now := by
      intro hmissing
      obtain ⟨a, n, ha, -, hc⟩ := hbusy hmissing
      have hidx := List.idxOf_lt_length_of_mem (h.started a n ha).1
      have hlen := congrArg List.length h.split
      rw [List.length_append] at hlen
      exact h.succ_le (by omega) ha (hdeadline ha) (by omega) }

end Pace

/-- The pace of a worker from its launch. -/
structure Paced (cfg : Config) (timeout : Int) (lines : List Rec) (s : Watch) : Prop where
  inv : s.Inv
  settings : s.worker.cfg = cfg ∧ s.timeout = timeout
  boot : s.worker.thread = .boot → s.now = 0 ∧ s.disk.progress = lines
  pace : s.worker.thread ≠ .boot → ∃ claimed, Pace (cfg.todo lines) claimed
    cfg.concurrency.toNat (timerDelay timeout + 3000) s

namespace Paced

variable {cfg : Config} {timeout : Int} {lines : List Rec} {s s' : Watch} {e : WatchEvent}

theorem of_launched (cfg : Config) (timeout : Int) (phase : Nat) (lines : List Rec) :
    Paced cfg timeout lines (launched cfg timeout phase lines) where
  inv := .of_launched ..
  settings := ⟨rfl, rfl⟩
  boot := fun _ => ⟨rfl, rfl⟩
  pace := fun h => absurd rfl h

/-- A step behind the reading of the ledger. -/
theorem later (h : Paced cfg timeout lines s) (hinv : s'.Inv)
    (hset : s'.worker.cfg = s.worker.cfg ∧ s'.timeout = s.timeout)
    (hboot : s.worker.thread ≠ .boot) (hboot' : s'.worker.thread ≠ .boot)
    (hpace : ∀ claimed, Pace (cfg.todo lines) claimed cfg.concurrency.toNat
        (timerDelay timeout + 3000) s →
      ∃ claimed', Pace (cfg.todo lines) claimed' cfg.concurrency.toNat
        (timerDelay timeout + 3000) s') : Paced cfg timeout lines s' where
  inv := hinv
  settings := ⟨hset.1.trans h.settings.1, hset.2.trans h.settings.2⟩
  boot := fun hb => absurd hb hboot'
  pace := by
    intro _
    obtain ⟨claimed, hc⟩ := h.pace hboot
    exact hpace claimed hc

/-- A step that leaves the clock and the tests alone, or ends one. -/
theorem keep (h : Paced cfg timeout lines s) (hinv : s'.Inv)
    (hset : s'.worker.cfg = s.worker.cfg ∧ s'.timeout = s.timeout)
    (hboot : s.worker.thread ≠ .boot) (hboot' : s'.worker.thread ≠ .boot)
    (hqueue : s'.worker.queue = s.worker.queue)
    (hstarted : ∀ t n, s'.worker.startedAt t = some n → s.worker.startedAt t = some n)
    (hnow : s'.now = s.now) (hmissing : s'.Missing → s.Missing) : Paced cfg timeout lines s' :=
  h.later hinv hset hboot hboot' fun claimed hc => ⟨claimed, hc.keep hqueue hstarted hnow hmissing⟩

/-- A step of the supervisor alone. -/
theorem same (h : Paced cfg timeout lines s) (hinv : s'.Inv) (hworker : s'.worker = s.worker)
    (htimeout : s'.timeout = s.timeout) (hnow : s'.now = s.now) (hdisk : s'.disk = s.disk) :
    Paced cfg timeout lines s' where
  inv := hinv
  settings := by
    rw [hworker, htimeout]
    exact h.settings
  boot := by
    rw [hworker, hnow, hdisk]
    exact h.boot
  pace := by
    rw [hworker]
    intro hboot
    obtain ⟨claimed, hc⟩ := h.pace hboot
    refine ⟨claimed, hc.keep ?_ ?_ hnow ?_⟩
    · rw [hworker]
    · rw [hworker]
      exact fun _ _ => id
    · rw [Missing, Missing, hworker, hdisk]
      exact id

/-- The worker's own steps. -/
theorem worker_step {e : WorkerEvent} {w : Worker} {d : Disk} (h : Paced cfg timeout lines s)
    (hstep : WorkerStep s.worker s.disk e w d) (hown : e.own s.now = true) :
    Paced cfg timeout lines { s with worker := w, disk := d } := by
  have hinv := h.inv.step (.worker hstep hown)
  have hmissing := missing_of_step (.worker hstep hown)
  have hcfg := hstep.cfg_eq
  cases hstep with
  | load ht =>
    obtain ⟨hnow, hlines⟩ := h.boot ht
    have hnone : s.worker.inFlight.keys = [] := by
      have hthread := h.inv.worker.thread
      simp only [Worker.ThreadOk, ht] at hthread
      exact hthread.1
    refine ⟨hinv, h.settings, by simp, fun _ => ⟨[], ?_, ?_, ?_, ?_⟩⟩
    · simp only [h.settings.1, hlines]
      rfl
    · intro t n hn
      have hmem : t ∈ s.worker.inFlight.keys := Worker.mem_keys_iff_startedAt.mpr ⟨n, hn⟩
      rw [hnone] at hmem
      cases hmem
    · intro _
      simp [hnow]
    · intro _
      simp [hnow]
  | @claim now t rest w₁ ht hq hs =>
    have hnow : now = s.now := by simpa [WorkerEvent.own] using hown
    refine h.later hinv ⟨hcfg, rfl⟩ (by simp [ht]) (by simp) fun claimed hc =>
      ⟨claimed ++ [t], ?_⟩
    refine hc.claim (cfg.nodup_todo lines) hq rfl ?_ rfl hmissing
    intro a
    rw [Worker.startedAt, JsMap.get?_set, hnow]
    split <;> rfl
  | @slotEnd w₁ ht hq hs =>
    obtain ⟨-, hthread, hqueue, hflight, -⟩ := Worker.takeSlot_frame hs
    apply h.keep hinv ⟨hcfg, rfl⟩ (by simp [ht]) (by simp [hthread, ht]) hqueue _ rfl hmissing
    intro t n hn
    rw [Worker.startedAt, hflight] at hn
    exact hn
  | @mirror t pid ht =>
    apply h.keep hinv ⟨hcfg, rfl⟩ (by simp [ht]) (by simp) rfl _ rfl hmissing
    intro a n hn
    rw [Worker.startedAt, JsMap.get?_modify] at hn
    split at hn
    · rw [Option.map_map] at hn
      exact hn
    · exact hn
  | @deregister t ht =>
    apply h.keep hinv ⟨hcfg, rfl⟩ (by simp [ht]) (by simp) rfl _ rfl hmissing
    intro a n hn
    rw [Worker.startedAt, JsMap.get?_delete] at hn
    split at hn
    · cases hn
    · exact hn
  | spawn | spawnThrows | settle => cases hown
  | clear ht | clearRejects ht | register ht | append ht =>
    exact h.keep hinv ⟨hcfg, rfl⟩ (by simp [ht]) (by simp) rfl (fun _ _ => id) rfl hmissing

/-- Every step keeps the pace. -/
theorem step (h : Paced cfg timeout lines s) (hstep : WatchStep s e s') :
    Paced cfg timeout lines s' := by
  have hinv := h.inv.step hstep
  have hmissing := missing_of_step hstep
  cases hstep with
  | worker hw hown => exact h.worker_step hw hown
  | spawn hw =>
    cases hw with
    | spawn ht =>
      exact h.keep hinv ⟨rfl, rfl⟩ (by simp [ht]) (by simp) rfl (fun _ _ => id) rfl hmissing
  | spawnThrows hw =>
    cases hw with
    | spawnThrows ht =>
      exact h.keep hinv ⟨rfl, rfl⟩ (by simp [ht]) (by simp) rfl (fun _ _ => id) rfl hmissing
  | settle _ _ hw =>
    cases hw with
    | settle ht =>
      exact h.keep hinv ⟨rfl, rfl⟩ (by simp [ht]) (by simp) rfl (fun _ _ => id) rfl hmissing
  | child hidle =>
    have hnot : s.worker.thread ≠ .boot := by simp [hidle]
    exact h.keep hinv ⟨rfl, rfl⟩ hnot hnot rfl (fun _ _ => id) rfl hmissing
  | released | rejects | exits | poll => exact h.same hinv rfl rfl rfl rfl
  | tick hquiet =>
    have hidle := (quiet_iff.mp hquiet).1
    refine h.later hinv ⟨rfl, rfl⟩ (by simp [hidle]) (by simp [hidle]) fun claimed hc => ?_
    rw [← h.settings.1, ← h.settings.2] at hc ⊢
    exact ⟨claimed, hc.tick h.inv hquiet⟩

end Paced

/-- `runWorkerOnce` has seen the worker end by itself or by the error of its pool, or given it
up. -/
theorem result_cases {cfg : Config} {timeout : Int} {phase : Nat} {lines : List Rec}
    {es : List WatchEvent} {s : Watch}
    (h : Run Watch.step unrestricted (launched cfg timeout phase lines) es s) :
    s.result = none ∨ s.result = some .stall ∨ s.worker.thread = .rejected ∨
      s.result = some .done ∧ s.worker.canExit = true := by
  apply h.invariant (I := fun s => s.result = none ∨ s.result = some .stall ∨
    s.worker.thread = .rejected ∨ s.result = some .done ∧ s.worker.canExit = true)
  · exact .inl rfl
  · intro u e u' _ _ hstep
    obtain ⟨hnone, hstep⟩ := watchStep_of_step hstep
    cases hstep with
    | exits hdrained =>
      exact .inr (.inr (.inr ⟨rfl, (Bool.and_eq_true_iff.mp hdrained).1⟩))
    | rejects hthread => exact .inr (.inr (.inl hthread))
    | poll =>
      by_cases hstall : u.worker.cfg.stallMs < (u.now : Int) - u.onPoll.poll.lastGrow
      · exact .inr (.inl (if_pos hstall))
      · exact .inl (if_neg hstall)
    | worker | spawn | spawnThrows | settle | child | released | tick => exact .inl hnone

/-- Whatever its children do, one worker is enough, and it is so in time. As long as a selected
test is missing in the ledger, the clock of a worker under watch has not passed as many rounds of
`TEST_TIMEOUT_MS` and 3000 ms as its slots need for what it found to do; as long as
`runWorkerOnce` has not returned, something can happen that is not left to the children; and when
it has, every selected test is recorded, if there is a slot, the slots can be made, and `STALL_MS`
is no shorter than a round. -/
theorem worker_in_time {cfg : Config} {timeout : Int} {phase : Nat} {lines : List Rec}
    {es : List WatchEvent} {s : Watch}
    (h : Run Watch.step unrestricted (launched cfg timeout phase lines) es s) :
    ((∃ t ∈ cfg.all.tests, t ∉ recorded s.disk.progress) →
        s.now ≤ ((cfg.todo lines).length + cfg.concurrency.toNat - 1) / cfg.concurrency.toNat *
          (timerDelay timeout + 3000)) ∧
      (s.result = none → ∃ e s', e.fromChild = false ∧ s.step e = some s') ∧
      (0 < cfg.concurrency → cfg.concurrency < arrayLimit →
        (timerDelay timeout : Int) + 3000 ≤ cfg.stallMs → s.result ≠ none →
        ∀ t ∈ cfg.all.tests, t ∈ recorded s.disk.progress) := by
  have hpaced : Paced cfg timeout lines s := by
    apply h.invariant (Paced.of_launched cfg timeout phase lines)
    intro u e u' hu _ hstep
    exact hu.step (watchStep_of_step hstep).2
  refine ⟨?_, exists_step h, ?_⟩
  · intro hmissing
    by_cases hboot : s.worker.thread = .boot
    · rw [(hpaced.boot hboot).1]
      exact Nat.zero_le _
    · obtain ⟨claimed, hc⟩ := hpaced.pace hboot
      rw [← hpaced.settings.1] at hmissing
      exact hc.now hmissing
  · intro hc hlimit hbound hresult
    rcases result_cases h with hnone | hstall | hthread | ⟨-, hexit⟩
    · exact absurd hnone hresult
    · exact recorded_of_stall hbound h hstall
    · have hover := (hpaced.inv.worker.of_rejected hthread).2.1
      rw [hpaced.settings.1] at hover
      exact absurd hlimit (Int.not_lt.mpr hover)
    · rw [← hpaced.settings.1] at hc ⊢
      exact (hpaced.inv.worker.complete_of_canExit hc hexit).2

/-! ## Two tests one after the other -/

/-- One slot. -/
def queuedConfig : Config := { mixedConfig with concurrency := 1 }

/-- The test is claimed, runs for a millisecond and is recorded. -/
def turnOf (t : JsString) (now : Nat) (pid : Pid) : List WatchEvent :=
  [.worker (.claim now), .worker .register, .spawn t (some pid) [] ⟨some 0, none⟩,
    .worker .mirror, .tick, .child t .close, .settle t, .worker .append, .worker .deregister]

/-- A process of the first test holds its pipes open for a millisecond more. -/
def queuedEvents : List WatchEvent :=
  [.worker .load, .worker .clear] ++ turnOf slowTest 0 7 ++ turnOf fastTest 1 8 ++
    [.worker .slotEnd, .released fastTest, .tick, .released slowTest, .exits]

theorem worker_in_time_queued : ∃ s,
    Run Watch.step unrestricted (launched queuedConfig 1000 3000 []) queuedEvents s ∧
      s.now = 3 ∧ s.result = some .done ∧
      ((∃ t ∈ queuedConfig.all.tests, t ∉ recorded s.disk.progress) → s.now ≤ 2 * (1000 + 3000)) ∧
      ∀ t ∈ [slowTest, fastTest], t ∈ recorded s.disk.progress := by
  have hrun : ∃ s, Run Watch.step unrestricted (launched queuedConfig 1000 3000 []) queuedEvents s ∧
      s.now = 3 ∧ s.result = some .done :=
    ⟨_, run_of_execute rfl, rfl, rfl⟩
  obtain ⟨s, hrun, hnow, hresult⟩ := hrun
  obtain ⟨hlate, -, hall⟩ := worker_in_time hrun
  exact ⟨s, hrun, hnow, hresult, hlate,
    hall (by decide) (by decide) (by decide) (by simp [hresult])⟩

end Watch

end CorpusRunner
