import CorpusRunner.Proofs.Steps

/-!
# The worker's invariant

What holds of one live worker and the files, as long as nobody else appends to
`progress.jsonl` or writes `inflight.json`: which tests are queued, claimed and recorded, how
the slots add up, and that `inflight.json` shows the map.
-/

namespace CorpusRunner

theorem WorkerStep.cfg_eq {w w' : Worker} {d d' : Disk} {e : WorkerEvent}
    (h : WorkerStep w d e w' d') : w'.cfg = w.cfg := by
  cases h with
  | claim _ _ hs => rcases takeSlot_cases hs with ⟨-, rfl⟩ | ⟨-, -, rfl⟩ <;> rfl
  | slotEnd _ _ hs => rcases takeSlot_cases hs with ⟨-, rfl⟩ | ⟨-, -, rfl⟩ <;> rfl
  | _ => rfl

namespace Worker

/-- What `inflight.json` shows of the map: not a test that was claimed since the last write. -/
def shown (w : Worker) : JsMap JsString Reg :=
  match w.thread with
  | .claimed t => w.inFlight.delete t
  | _ => w.inFlight

/-- What the thread's position says about the map. -/
def ThreadOk (w : Worker) : Prop :=
  match w.thread with
  | .boot => w.inFlight.keys = [] ∧ w.looping = 0 ∧ w.unstarted = 0 ∧ w.queue = []
  | .loaded => w.inFlight.keys = []
  | .idle => True
  | .claimed t => ∃ m : JsMap JsString Reg, t ∉ m.keys ∧ ∃ v, w.inFlight = m.set t v
  | .registered t => t ∈ w.inFlight.keys
  | .spawned t _ => t ∈ w.inFlight.keys
  | .settled r => r.test ∈ w.inFlight.keys
  | .appended t => t ∈ w.inFlight.keys
  | .rejected => w.inFlight.keys = [] ∧ arrayLimit ≤ w.cfg.concurrency

theorem canExit_iff {w : Worker} : w.canExit = true ↔
    w.thread = .idle ∧ w.unstarted = 0 ∧ w.looping = 0 ∧ w.inFlight.keys = [] := by
  simp only [canExit, Bool.and_eq_true, decide_eq_true_eq, beq_iff_eq, List.isEmpty_iff, and_assoc]

structure Inv (w : Worker) (d : Disk) : Prop where
  /-- Tests are claimed in list order, and each at most once. -/
  order : (w.inFlight.keys ++ w.queue).Sublist w.cfg.all.tests
  waiting : ∀ t ∈ w.queue, t ∉ recorded d.progress
  held : ∀ t ∈ w.inFlight.keys, t ∈ recorded d.progress ↔ w.thread = .appended t
  cover : w.thread ≠ .boot → ∀ t ∈ w.cfg.all.tests,
    t ∈ recorded d.progress ∨ t ∈ w.inFlight.keys ∨ t ∈ w.queue
  slots : w.unstarted + w.looping + w.inFlight.size ≤ w.cfg.concurrency.toNat
  /-- No slot returns before the queue is empty. -/
  busy : w.thread ≠ .boot → w.queue ≠ [] →
    w.unstarted + w.looping + w.inFlight.size = w.cfg.concurrency.toNat
  thread : w.ThreadOk
  mirror : d.inflight = registry w.shown

theorem shown_eq {w : Worker} (h : ∀ t, w.thread ≠ .claimed t) : w.shown = w.inFlight := by
  unfold shown
  split
  · rename_i t ht
    exact absurd ht (h t)
  · rfl

@[simp] theorem keys_shown_sublist (w : Worker) : w.shown.keys.Sublist w.inFlight.keys := by
  unfold shown
  split
  · rw [JsMap.keys_delete]
    exact List.filter_sublist
  · exact List.Sublist.refl _

/-- The registry lists every test that is spawned and not recorded. -/
theorem running_subset_shown (w : Worker) : ∀ t ∈ w.running, t ∈ w.shown.keys := by
  intro t ht
  unfold running Thread.running at ht
  unfold shown
  cases hw : w.thread with
  | claimed t' => simpa [hw] using ht
  | registered t' => exact (List.mem_filter.mp (by simpa only [hw] using ht)).1
  | appended t' => exact (List.mem_filter.mp (by simpa only [hw] using ht)).1
  | _ => simpa only [hw] using ht

theorem running_subset_inFlight (w : Worker) : ∀ t ∈ w.running, t ∈ w.inFlight.keys :=
  fun t ht => (keys_shown_sublist w).subset (running_subset_shown w t ht)

/-- The head of the queue is not in flight yet. -/
theorem head_notMem {w : Worker} {t : JsString} {rest : List JsString}
    (h : (w.inFlight.keys ++ w.queue).Nodup) (hq : w.queue = t :: rest) :
    t ∉ w.inFlight.keys := by
  intro hk
  exact (List.nodup_append.mp h).2.2 t hk t (by simp [hq]) rfl

theorem takeSlot_frame {w w₁ : Worker} (h : w.takeSlot = some w₁) :
    w₁.cfg = w.cfg ∧ w₁.thread = w.thread ∧ w₁.queue = w.queue ∧ w₁.inFlight = w.inFlight ∧
      w₁.unstarted + w₁.looping + 1 = w.unstarted + w.looping := by
  rcases takeSlot_cases h with ⟨hu, rfl⟩ | ⟨hu, hl, rfl⟩
  · exact ⟨rfl, rfl, rfl, rfl, by simp only; omega⟩
  · exact ⟨rfl, rfl, rfl, rfl, by simp only; omega⟩

namespace Inv

variable {w w' : Worker} {d d' : Disk} {e : WorkerEvent}

theorem nodup (h : w.Inv d) : (w.inFlight.keys ++ w.queue).Nodup :=
  List.Nodup.sublist h.order w.cfg.all.nodup

theorem notMem_queue (h : w.Inv d) {t : JsString} (ht : t ∈ w.inFlight.keys) : t ∉ w.queue :=
  fun hq => (List.nodup_append.mp h.nodup).2.2 t ht t hq rfl

theorem boot_ne_of_mem (h : w.Inv d) {t : JsString} (ht : t ∈ w.inFlight.keys) :
    w.thread ≠ .boot := by
  intro hb
  have hnil : w.inFlight.keys = [] ∧ w.looping = 0 ∧ w.unstarted = 0 ∧ w.queue = [] := by
    simpa [ThreadOk, hb] using h.thread
  simp [hnil.1] at ht

/-- A worker that has just been launched. -/
theorem of_launched {cfg : Config} (h : d.inflight = []) : (launched cfg).Inv d where
  order := by simp [launched]
  waiting := by simp [launched]
  held := by simp [launched]
  cover := by simp [launched]
  slots := by simp [launched]
  busy := by simp [launched]
  thread := by simp [launched, ThreadOk]
  mirror := by simpa [launched, shown] using h

/-- A step that neither claims nor records nor forgets a test, and ends no slot. -/
theorem keep (h : w.Inv d) (hcfg : w'.cfg = w.cfg) (hqueue : w'.queue = w.queue)
    (hslots : w'.unstarted = w.unstarted ∧ w'.looping = w.looping)
    (hkeys : w'.inFlight.keys = w.inFlight.keys) (hprogress : d'.progress = d.progress)
    (hboot : w.thread ≠ .boot) (happended : ∀ t, w'.thread = .appended t ↔ w.thread = .appended t)
    (hthread : w'.ThreadOk) (hmirror : d'.inflight = registry w'.shown) : w'.Inv d' := by
  have hsize : w'.inFlight.size = w.inFlight.size := by
    rw [← JsMap.length_keys, hkeys, JsMap.length_keys]
  exact {
    order := by simpa [hkeys, hqueue, hcfg] using h.order
    waiting := by simpa [hqueue, hprogress] using h.waiting
    held := by simpa [hkeys, hprogress, happended] using h.held
    cover := by
      intro _
      simpa [hcfg, hprogress, hkeys, hqueue] using h.cover hboot
    slots := by
      rw [hslots.1, hslots.2, hsize, hcfg]
      exact h.slots
    busy := by
      intro _
      rw [hslots.1, hslots.2, hsize, hcfg, hqueue]
      exact h.busy hboot
    thread := hthread
    mirror := hmirror }

/-- Every step keeps the invariant. -/
theorem step (h : w.Inv d) (hs : WorkerStep w d e w' d') : w'.Inv d' := by
  cases hs with
  | load ht =>
    have hth : w.inFlight.keys = [] ∧ w.looping = 0 ∧ w.unstarted = 0 ∧ w.queue = [] := by
      simpa [ThreadOk, ht] using h.thread
    have hsz : w.inFlight.size = 0 := by rw [← JsMap.length_keys, hth.1]; rfl
    exact {
      order := by simp [hth.1, List.filter_sublist]
      waiting := by simp
      held := by simp [hth.1]
      cover := by
        intro _ t ht'
        by_cases hr : t ∈ recorded d.progress
        · exact .inl hr
        · exact .inr (.inr (by simpa using ⟨ht', hr⟩))
      slots := by simp [hth.2.1, hsz]
      busy := by simp [hth.2.1, hsz]
      thread := by simpa [ThreadOk] using hth.1
      mirror := by simpa [shown, ht] using h.mirror }
  | clear ht =>
    refine h.keep rfl rfl ⟨rfl, rfl⟩ rfl rfl ?_ ?_ ?_ ?_
    · simp [ht]
    · simp [ht]
    · trivial
    · rfl
  | clearRejects ht hc =>
    have hkeys : w.inFlight.keys = [] := by simpa [ThreadOk, ht] using h.thread
    refine h.keep rfl rfl ⟨rfl, rfl⟩ rfl rfl ?_ ?_ ?_ ?_
    · simp [ht]
    · simp [ht]
    · exact ⟨hkeys, hc⟩
    · rfl
  | @claim now t rest w₁ ht hq hs =>
    obtain ⟨hcfg, -, -, -, hsum⟩ := takeSlot_frame hs
    have hnot : t ∉ w.inFlight.keys := Worker.head_notMem h.nodup hq
    have hrec : t ∉ recorded d.progress := h.waiting t (by simp [hq])
    have hsize : (w.inFlight.set t ⟨now, none⟩).size = w.inFlight.size + 1 := by
      rw [JsMap.size_set, if_neg hnot]
    have hbusy := h.busy (by simp [ht]) (by simp [hq])
    exact {
      order := by
        have := h.order
        rw [hq] at this
        simpa [JsMap.keys_set_of_notMem hnot, hcfg] using this
      waiting := fun a ha => h.waiting a (by simp [hq, ha])
      held := by
        intro a ha
        rw [JsMap.mem_keys_set] at ha
        rcases ha with ha | rfl
        · simpa [ht] using (h.held a ha)
        · simpa using hrec
      cover := by
        intro _ a ha
        simp only [hcfg] at ha
        rcases h.cover (by simp [ht]) a ha with hr | hk | hq'
        · exact .inl hr
        · exact .inr (.inl (by simp [hk]))
        · rw [hq] at hq'
          rcases List.mem_cons.mp hq' with rfl | hq'
          · exact .inr (.inl (by simp))
          · exact .inr (.inr hq')
      slots := by simp only [hsize, hcfg]; omega
      busy := by intro _ _; simp only [hsize, hcfg]; omega
      thread := ⟨w.inFlight, hnot, _, rfl⟩
      mirror := by
        rw [h.mirror]
        simp [shown, ht, JsMap.delete_set_of_notMem hnot] }
  | slotEnd ht hq hs =>
    obtain ⟨hcfg, hth, hqu, hfl, hsum⟩ := takeSlot_frame hs
    have hslots := h.slots
    exact {
      order := by simpa [hcfg, hqu, hfl] using h.order
      waiting := by simpa [hqu] using h.waiting
      held := by simpa [hth, hfl] using h.held
      cover := by simpa [hcfg, hth, hqu, hfl] using h.cover
      slots := by rw [hcfg, hfl]; omega
      busy := by simp [hqu, hq]
      thread := by simp [ThreadOk, hth, ht]
      mirror := by rw [h.mirror]; simp [shown, hth, hfl] }
  | @register t ht =>
    obtain ⟨m, -, v, hm⟩ : ∃ m : JsMap JsString Reg, t ∉ m.keys ∧ ∃ v, w.inFlight = m.set t v := by
      simpa [ThreadOk, ht] using h.thread
    refine h.keep rfl rfl ⟨rfl, rfl⟩ rfl rfl ?_ ?_ ?_ ?_
    · simp [ht]
    · simp [ht]
    · simp [ThreadOk, hm]
    · rfl
  | @spawn t pid ht =>
    have hth : t ∈ w.inFlight.keys := by simpa [ThreadOk, ht] using h.thread
    refine h.keep rfl rfl ⟨rfl, rfl⟩ rfl rfl ?_ ?_ ?_ ?_
    · simp [ht]
    · simp [ht]
    · simpa [ThreadOk] using hth
    · rw [h.mirror]
      simp [shown, ht]
  | spawnThrows ht =>
    refine h.keep rfl rfl ⟨rfl, rfl⟩ rfl rfl ?_ ?_ ?_ ?_
    · simp [ht]
    · simp [ht]
    · trivial
    · rw [h.mirror]
      simp [shown, ht]
  | mirror ht =>
    refine h.keep rfl rfl ⟨rfl, rfl⟩ (by simp) rfl ?_ ?_ ?_ ?_
    · simp [ht]
    · simp [ht]
    · trivial
    · rfl
  | settle ht _ hr =>
    refine h.keep rfl rfl ⟨rfl, rfl⟩ rfl rfl ?_ ?_ ?_ ?_
    · simp [ht]
    · simp [ht]
    · simpa [ThreadOk] using hr
    · rw [h.mirror]
      simp [shown, ht]
  | @append r ht =>
    have hr : r.test ∈ w.inFlight.keys := by simpa [ThreadOk, ht] using h.thread
    exact {
      order := h.order
      waiting := by
        intro a ha hmem
        simp only [recorded_append, recorded_singleton, Rec.test_ran, List.mem_append,
          List.mem_singleton] at hmem
        rcases hmem with hmem | rfl
        · exact h.waiting a ha hmem
        · exact h.notMem_queue hr ha
      held := by
        intro a ha
        have hold := h.held a ha
        simp only [ht, reduceCtorEq, iff_false] at hold
        simp only [recorded_append, recorded_singleton, Rec.test_ran, List.mem_append, hold,
          List.mem_singleton, false_or, Thread.appended.injEq]
        exact eq_comm
      cover := by
        intro _ a ha
        rcases h.cover (by simp [ht]) a ha with h1 | h1 | h1
        · exact .inl (by simp [h1])
        · exact .inr (.inl h1)
        · exact .inr (.inr h1)
      slots := h.slots
      busy := fun _ => h.busy (by simp [ht])
      thread := by simpa [ThreadOk] using hr
      mirror := by
        change d.inflight = _
        rw [h.mirror]
        simp [shown, ht] }
  | @deregister t ht =>
    have hth : t ∈ w.inFlight.keys := by simpa [ThreadOk, ht] using h.thread
    have hsize := JsMap.size_delete_of_mem hth
    have hslots := h.slots
    exact {
      order := by
        rw [JsMap.keys_delete]
        exact (List.filter_sublist.append_right _).trans h.order
      waiting := h.waiting
      held := by
        intro a ha
        simp only [JsMap.keys_delete, List.mem_filter, decide_eq_true_eq] at ha
        have hold := h.held a ha.1
        simp only [ht, Thread.appended.injEq] at hold
        simp only [hold, reduceCtorEq, iff_false]
        exact fun e => ha.2 e.symm
      cover := by
        intro _ a ha
        rcases h.cover (by simp [ht]) a ha with h1 | h1 | h1
        · exact .inl h1
        · by_cases hat : a = t
          · exact .inl ((h.held a h1).mpr (by rw [ht, hat]))
          · exact .inr (.inl (by simp [h1, hat]))
        · exact .inr (.inr h1)
      slots := by simp only; omega
      busy := by
        intro _ hq
        have := h.busy (by simp [ht]) hq
        simp only
        omega
      thread := by simp [ThreadOk]
      mirror := rfl }

/-- With at least one slot, a worker that ends by itself has recorded its whole selection. -/
theorem complete_of_canExit (h : w.Inv d) (hc : 0 < w.cfg.concurrency) (he : w.canExit = true) :
    w.inFlight = .empty ∧ ∀ t ∈ w.cfg.all.tests, t ∈ recorded d.progress := by
  obtain ⟨ht, hu, hl, hk⟩ := canExit_iff.mp he
  have hsize : w.inFlight.size = 0 := by rw [← JsMap.length_keys, hk]; rfl
  have hq : w.queue = [] := by
    by_contra hne
    have := h.busy (by simp [ht]) hne
    omega
  refine ⟨JsMap.eq_empty_of_keys hk, fun t htm => ?_⟩
  rcases h.cover (by simp [ht]) t htm with h1 | h1 | h1
  · exact h1
  · simp [hk] at h1
  · simp [hq] at h1

/-- A worker that has returned from every slot leaves an empty registry. -/
theorem inflight_of_canExit (h : w.Inv d) (he : w.canExit = true) : d.inflight = [] := by
  obtain ⟨ht, -, -, hk⟩ := canExit_iff.mp he
  rw [h.mirror, shown_eq (by simp [ht]), JsMap.eq_empty_of_keys hk]
  rfl

end Inv

end Worker

/-! ## Further facts about a worker's steps -/

theorem WorkerStep.progress_cases {w w' : Worker} {d d' : Disk} {e : WorkerEvent}
    (hs : WorkerStep w d e w' d') :
    d'.progress = d.progress ∨ ∃ r, d'.progress = d.progress ++ [.ran r] := by
  cases hs with
  | append => exact .inr ⟨_, rfl⟩
  | _ => exact .inl rfl

/-- A worker that has returned from every slot runs nothing. -/
theorem running_of_canExit {w : Worker} (h : w.canExit = true) : w.running = [] := by
  obtain ⟨ht, -, -, hk⟩ := Worker.canExit_iff.mp h
  simp [Worker.running, Thread.running, ht, hk]

/-- Nor does one whose pool has thrown. -/
theorem Worker.Inv.of_rejected {w : Worker} {d : Disk} (h : w.Inv d) (ht : w.thread = .rejected) :
    w.inFlight = .empty ∧ arrayLimit ≤ w.cfg.concurrency ∧ w.running = [] ∧ d.inflight = [] := by
  have hth : w.inFlight.keys = [] ∧ arrayLimit ≤ w.cfg.concurrency := by
    simpa [Worker.ThreadOk, ht] using h.thread
  have hempty := JsMap.eq_empty_of_keys hth.1
  refine ⟨hempty, hth.2, ?_, ?_⟩
  · simp [Worker.running, Thread.running, ht, hth.1]
  · rw [h.mirror, Worker.shown_eq (by simp [ht]), hempty]
    rfl

/-- The map's entries stand in the order of their start, none later than the clock. -/
def Worker.Sorted (w : Worker) (clock : Nat) : Prop :=
  w.inFlight.entries.Pairwise (fun a b => a.2.startedAt ≤ b.2.startedAt) ∧
    ∀ a ∈ w.inFlight.entries, a.2.startedAt ≤ clock

theorem WorkerStep.sorted {w w' : Worker} {d d' : Disk} {e : WorkerEvent} {clock : Nat}
    (h : w.Inv d) (hs : WorkerStep w d e w' d') (hso : w.Sorted clock)
    (hmono : ∀ now, e = .claim now → clock ≤ now) : w'.Sorted (clockAfter clock e) := by
  cases hs with
  | @claim now t rest w₁ ht hq hs =>
    have hnot : t ∉ w.inFlight.keys := Worker.head_notMem h.nodup hq
    have hle := hmono now rfl
    constructor
    · rw [JsMap.entries_set_of_notMem hnot, List.pairwise_append]
      refine ⟨hso.1, by simp, ?_⟩
      intro a ha b hb
      rw [List.mem_singleton] at hb
      rw [hb]
      exact (hso.2 a ha).trans hle
    · intro a ha
      rw [JsMap.entries_set_of_notMem hnot] at ha
      rcases List.mem_append.mp ha with ha | ha
      · exact (hso.2 a ha).trans hle
      · rw [List.mem_singleton] at ha
        rw [ha]
        exact Nat.le_refl _
  | slotEnd ht hq hs =>
    obtain ⟨-, -, -, hfl, -⟩ := Worker.takeSlot_frame hs
    simpa [Worker.Sorted, hfl, clockAfter] using hso
  | @mirror t pid ht =>
    -- only the pid of an entry changes
    have hstart : ∀ p : JsString × Reg,
        (if p.1 = t then (p.1, { p.2 with pid := pid }) else p).2.startedAt = p.2.startedAt := by
      intro p
      split <;> rfl
    constructor
    · change (w.inFlight.entries.map _).Pairwise _
      rw [List.pairwise_map]
      refine hso.1.imp ?_
      intro a b hab
      simpa only [hstart] using hab
    · intro a ha
      change a ∈ w.inFlight.entries.map _ at ha
      obtain ⟨p, hp, rfl⟩ := List.mem_map.mp ha
      simp only [hstart]
      exact hso.2 p hp
  | deregister ht =>
    exact ⟨hso.1.sublist List.filter_sublist, fun a ha => hso.2 a (List.mem_of_mem_filter ha)⟩
  | _ => exact hso

theorem registry_started {m : JsMap JsString Reg}
    (h : m.entries.Pairwise (fun a b => a.2.startedAt ≤ b.2.startedAt)) :
    (registry m).Pairwise (fun a b => a.startedAt ≤ b.startedAt) := by
  unfold registry
  rw [List.pairwise_map]
  exact h

theorem Worker.Sorted.shown {w : Worker} {clock : Nat} (h : w.Sorted clock) :
    w.shown.entries.Pairwise (fun a b => a.2.startedAt ≤ b.2.startedAt) := by
  unfold Worker.shown
  split
  · exact h.1.sublist List.filter_sublist
  · exact h.1

/-- The steps that do not depend on how a test goes, at a given time and with a given pid. -/
def WorkerEvent.routine (now : Nat) (pid : Pid) : WorkerEvent → Prop
  | .claim n => n = now
  | .spawn _ p => p = some pid
  | .spawnThrows _ => False
  | .settle _ => False
  | _ => True

/-- A worker can go on by itself, or can end, or waits for a test to settle. -/
theorem Worker.progress (w : Worker) (d : Disk) (now : Nat) (pid : Pid) :
    (∃ e, e.routine now pid ∧ (w.step d e).isSome) ∨ (w.canExit = true ∨ w.thread = .rejected) ∨
      w.thread = .idle ∧ w.unstarted = 0 ∧ w.looping = 0 ∧
        ∃ t rest, w.inFlight.keys = t :: rest := by
  cases ht : w.thread with
  | boot => exact .inl ⟨.load, trivial, by simp [Worker.step, ht]⟩
  | loaded => exact .inl ⟨.clear, trivial, by simp [Worker.step, ht]⟩
  | claimed t => exact .inl ⟨.register, trivial, by simp [Worker.step, ht]⟩
  | registered t =>
    exact .inl ⟨.spawn t (some pid), rfl, by simp [Worker.step, ht]⟩
  | spawned t p => exact .inl ⟨.mirror, trivial, by simp [Worker.step, ht]⟩
  | settled r => exact .inl ⟨.append, trivial, by simp [Worker.step, ht]⟩
  | appended t => exact .inl ⟨.deregister, trivial, by simp [Worker.step, ht]⟩
  | rejected => exact .inr (.inl (.inr rfl))
  | idle =>
    cases hs : w.takeSlot with
    | some w₁ =>
      cases hq : w.queue with
      | nil => exact .inl ⟨.slotEnd, trivial, by simp [Worker.step, ht, hq, hs]⟩
      | cons t rest =>
        exact .inl ⟨.claim now, rfl, by simp [Worker.step, ht, hq, hs]⟩
    | none =>
      have hslot : w.unstarted = 0 ∧ w.looping = 0 :=
        nextSlot_eq_none (Option.map_eq_none_iff.mp hs)
      cases hk : w.inFlight.keys with
      | nil => exact .inr (.inl (.inl (by simp [Worker.canExit, ht, hslot.1, hslot.2, hk])))
      | cons t rest => exact .inr (.inr ⟨rfl, hslot.1, hslot.2, t, rest, rfl⟩)

end CorpusRunner
