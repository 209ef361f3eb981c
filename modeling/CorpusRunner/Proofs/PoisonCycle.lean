import CorpusRunner.Proofs.Loop
import Mathlib.Data.Finset.Basic

/-!
# One cycle under wedging tests

A worker that has started the child of a wedging test records nothing more and ends in a death
or a stall. What the cycle does to the list of what remains depends on whether the worker has
recorded anything before: if not, a wedging test is among the first `concurrency` tests that
remained, and the first of these is marked; if so, the wedging test stands behind them, and
what remains is what was in flight before it, and everything from it on, less one mark.
-/

namespace CorpusRunner

/-- The tests in the worker's map whose child process has been started. -/
def Worker.children (w : Worker) : List JsString :=
  (w.inFlight.entries.filter (fun p => p.2.pid.isSome)).map Prod.fst ++
    match w.thread with
    | .spawned t (some _) => [t]
    | _ => []

/-- The child of a wedging test is running. -/
def Worker.wedged (W : Finset JsString) (w : Worker) : Prop := ∃ t ∈ w.children, t ∈ W

instance (W : Finset JsString) (w : Worker) : Decidable (w.wedged W) := by
  unfold Worker.wedged
  infer_instance

/-- The loop under the wedging tests `W`: while the child of one is running the worker makes no
record, and only then it dies or is declared stalled. The clock does not go back. -/
def poisoned (W : Finset JsString) (s : Sys) : Event → Prop
  | .sup _ => True
  | .stall => ∃ w ∈ s.current ++ s.fallen, w.wedged W
  | .worker (.claim now) => s.clock ≤ now
  | .worker (.settle _) => ∀ w ∈ s.current, ¬ w.wedged W
  | .worker _ => True
  | .workerExits => True
  | .workerDies _ => ∃ w ∈ s.current, w.wedged W
  | _ => False

instance (W : Finset JsString) (s : Sys) (e : Event) : Decidable (poisoned W s e) := by
  induction e using Event.casesOn with
  | worker we =>
    induction we using WorkerEvent.casesOn <;> dsimp only [poisoned] <;> infer_instance
  | _ => dsimp only [poisoned]; infer_instance

theorem inLoop_of_poisoned {W : Finset JsString} {s : Sys} {e : Event} (h : poisoned W s e) :
    inLoop s e := by
  cases e <;> trivial

theorem Worker.children_subset_keys {w : Worker} {d : Disk} (h : w.Inv d) :
    ∀ t ∈ w.children, t ∈ w.inFlight.keys := by
  intro t ht
  unfold children at ht
  rcases List.mem_append.mp ht with ht | ht
  · obtain ⟨p, hp, rfl⟩ := List.mem_map.mp ht
    exact List.mem_map_of_mem (List.mem_of_mem_filter hp)
  · split at ht
    · rename_i t' pid hth
      obtain rfl : t = t' := by simpa using ht
      simpa [ThreadOk, hth] using h.thread
    · simp at ht

/-- A child is started by `spawn` and by nothing else. -/
theorem WorkerStep.mem_children {w w' : Worker} {d d' : Disk} {e : WorkerEvent} (h : w.Inv d)
    (hs : WorkerStep w d e w' d') {t : JsString} (ht : t ∈ w'.children) :
    t ∈ w.children ∨ ∃ pid, e = .spawn t (some pid) := by
  have same : ∀ {v : Worker}, v.inFlight = w.inFlight →
      (∀ t pid, v.thread ≠ .spawned t (some pid)) → t ∈ v.children → t ∈ w.children := by
    intro v hfl hth hv
    unfold Worker.children at hv ⊢
    rw [hfl] at hv
    rcases List.mem_append.mp hv with hv | hv
    · exact List.mem_append_left _ hv
    · split at hv
      · rename_i t' pid ht'
        exact absurd ht' (hth t' pid)
      · simp at hv
  cases hs with
  | @claim now a rest w₁ hth hq hs =>
    have hnot : a ∉ w.inFlight.keys := Worker.head_notMem h.nodup hq
    left
    simpa [Worker.children, JsMap.entries_set_of_notMem hnot, hth] using ht
  | slotEnd hth hq hs =>
    obtain ⟨-, hth', -, hfl, -⟩ := Worker.takeSlot_frame hs
    exact .inl (same hfl (by simp [hth', hth]) ht)
  | @spawn a pid hth =>
    cases pid with
    | none =>
      left
      simpa [Worker.children, hth] using ht
    | some pid =>
      have : t ∈ w.children ∨ t = a := by simpa [Worker.children, hth] using ht
      rcases this with h | rfl
      · exact .inl h
      · exact .inr ⟨pid, rfl⟩
  | @mirror a pid hth =>
    left
    simp only [Worker.children, List.append_nil, List.mem_map, List.mem_filter] at ht
    obtain ⟨p, ⟨hp, hpid⟩, rfl⟩ := ht
    change p ∈ w.inFlight.entries.map _ at hp
    obtain ⟨q, hq, rfl⟩ := List.mem_map.mp hp
    by_cases hqa : q.1 = a
    · have hpid' : pid.isSome := by simpa [hqa] using hpid
      obtain ⟨pid', rfl⟩ := Option.isSome_iff_exists.mp hpid'
      simp [Worker.children, hth, hqa]
    · simp only [hqa, if_false] at hpid ⊢
      exact List.mem_append_left _ (List.mem_map_of_mem (List.mem_filter.mpr ⟨hq, hpid⟩))
  | deregister hth =>
    left
    simp only [Worker.children, List.append_nil, List.mem_map, List.mem_filter] at ht
    obtain ⟨p, ⟨hp, hpid⟩, rfl⟩ := ht
    have hp' : p ∈ w.inFlight.entries := List.mem_of_mem_filter hp
    exact List.mem_append_left _ (List.mem_map_of_mem (List.mem_filter.mpr ⟨hp', hpid⟩))
  | _ => exact .inl (same (by rfl) (by simp) ht)

/-- Any other step starts none. -/
theorem WorkerStep.mem_children_of_ne {w w' : Worker} {d d' : Disk} {e : WorkerEvent}
    (h : w.Inv d) (hs : WorkerStep w d e w' d') (he : ∀ t pid, e ≠ .spawn t (some pid))
    {t : JsString} (ht : t ∈ w'.children) : t ∈ w.children := by
  rcases hs.mem_children h ht with hc | ⟨pid, hspawn⟩
  · exact hc
  · exact absurd hspawn (he t pid)

/-- What remains is what is in flight without a record, and the queue. -/
theorem Worker.Inv.remaining_eq {w : Worker} {d : Disk} (h : w.Inv d) (hb : w.thread ≠ .boot) :
    remaining w.cfg d.progress =
      (w.inFlight.keys ++ w.queue).filter (fun t => decide (t ∉ recorded d.progress)) := by
  have hsub := h.order.filter (fun t => decide (t ∉ recorded d.progress))
  refine (hsub.eq_of_length_le ?_).symm
  refine (remaining_nodup w.cfg d.progress).length_le_of_subset fun t ht => ?_
  obtain ⟨hall, hr⟩ := mem_remaining.mp ht
  have hmem := (h.cover hb t hall).resolve_left hr
  exact List.mem_filter.mpr ⟨List.mem_append.mpr hmem, by simpa using hr⟩

/-- As long as no record is on its way out of the map, nothing in flight has a line. -/
theorem Worker.Inv.remaining_eq_of_quiet {w : Worker} {d : Disk} (h : w.Inv d)
    (hb : w.thread ≠ .boot) (hq : ∀ t, w.thread ≠ .appended t) :
    remaining w.cfg d.progress = w.inFlight.keys ++ w.queue := by
  rw [h.remaining_eq hb, List.filter_eq_self]
  intro t ht
  simp only [decide_eq_true_eq]
  rcases List.mem_append.mp ht with ht | ht
  · exact fun hr => hq t ((h.held t ht).mp hr)
  · exact h.waiting t ht

/-! ## The worker of one cycle -/

/-- From `t` on, everything that remained at the start of the cycle still does; if the cycle has
made a record, `c` tests stood before `t`. -/
def Untouched (c : Nat) (start : List JsString) (unchanged : Prop) (l : List JsString)
    (t : JsString) : Prop :=
  ∃ ks tl, l = ks ++ t :: tl ∧ (t :: tl) <:+ start ∧
    (unchanged ∨ c + tl.length + 1 ≤ start.length)

/-- The worker of a cycle that was entered with the ledger `lines`, when `start` remained. -/
structure CycleWorker (W : Finset JsString) (start : List JsString) (lines : List Rec)
    (w : Worker) (d : Disk) : Prop where
  boot : w.thread = .boot → d.progress = lines
  queue : w.queue <:+ start
  /-- The first look at the queue of every slot comes before anything is recorded. -/
  slots : w.queue ≠ [] →
    w.cfg.concurrency.toNat + w.queue.length ≤ start.length + w.unstarted
  unchanged : w.thread ≠ .boot → d.progress = lines → w.inFlight.keys ++ w.queue = start
  grown : d.progress = lines ∨
    (readLedger lines).size < (readLedger d.progress).size ∧ w.unstarted = 0
  settled : ∀ r, w.thread = .settled r → w.unstarted = 0
  appended : ∀ t, w.thread = .appended t → d.progress ≠ lines
  claimed : ∀ t, w.thread = .claimed t → t ∉ w.children
  fresh : ∀ t, w.thread = .claimed t ∨ w.thread = .registered t →
    (∃ ks, w.inFlight.keys = ks ++ [t]) ∧
      Untouched w.cfg.concurrency.toNat start (d.progress = lines) (w.inFlight.keys ++ w.queue) t
  wedged : ∀ t ∈ w.children, t ∈ W →
    Untouched w.cfg.concurrency.toNat start (d.progress = lines) (w.inFlight.keys ++ w.queue) t ∧
      (∀ r, w.thread ≠ .settled r) ∧ ∀ t, w.thread ≠ .appended t

namespace CycleWorker

variable {W : Finset JsString} {start : List JsString} {lines : List Rec} {w w' : Worker}
  {d d' : Disk} {e : WorkerEvent}

theorem of_launched {cfg : Config} (h : d.progress = lines) :
    CycleWorker W start lines (.launched cfg) d where
  boot _ := h
  queue := List.nil_suffix
  slots := by simp [Worker.launched]
  unchanged := by simp [Worker.launched]
  grown := .inl h
  settled := by simp [Worker.launched]
  appended := by simp [Worker.launched]
  claimed := by simp [Worker.launched]
  fresh := by simp [Worker.launched]
  wedged := by simp [Worker.children, Worker.launched]

/-- A step that changes neither the ledger nor what is in flight or queued, and starts nothing. -/
theorem frame (h : CycleWorker W start lines w d) (hinv : w.Inv d)
    (hs : WorkerStep w d e w' d') (hb : w.thread ≠ .boot) (hb' : w'.thread ≠ .boot)
    (hp : d'.progress = d.progress) (hk : w'.inFlight.keys = w.inFlight.keys)
    (hq : w'.queue = w.queue) (hu : w'.queue ≠ [] → w'.unstarted = w.unstarted)
    (hu' : w.unstarted = 0 → w'.unstarted = 0)
    (hset : ∀ r, w'.thread = .settled r → w'.unstarted = 0) (happ : ∀ t, w'.thread ≠ .appended t)
    (hcl : ∀ t, w'.thread ≠ .claimed t)
    (hfresh : ∀ t, w'.thread = .claimed t ∨ w'.thread = .registered t →
      w.thread = .claimed t ∨ w.thread = .registered t)
    (hspawn : ∀ t pid, e = .spawn t (some pid) → w.thread = .registered t)
    (hquiet : w'.wedged W → (∀ r, w'.thread ≠ .settled r) ∧ ∀ t, w'.thread ≠ .appended t) :
    CycleWorker W start lines w' d' where
  boot h := absurd h hb'
  queue := hq ▸ h.queue
  slots := by
    intro hne
    have hun := hu hne
    rw [hq] at hne
    have := h.slots hne
    rw [hs.cfg_eq, hq, hun]
    exact this
  unchanged _ hl := by
    rw [hk, hq]
    exact h.unchanged hb (hp ▸ hl)
  grown := by
    rw [hp]
    exact h.grown.imp id fun hg => ⟨hg.1, hu' hg.2⟩
  settled := hset
  appended t ht := absurd ht (happ t)
  claimed t ht := absurd ht (hcl t)
  fresh t ht := by
    rw [hs.cfg_eq, hk, hq, hp]
    exact h.fresh t (hfresh t ht)
  wedged t ht htW := by
    refine ⟨?_, hquiet ⟨t, ht, htW⟩⟩
    rw [hs.cfg_eq, hk, hq, hp]
    rcases hs.mem_children hinv ht with hc | ⟨pid, he⟩
    · exact (h.wedged t hc htW).1
    · exact (h.fresh t (.inr (hspawn t pid he))).2

theorem step (h : CycleWorker W start lines w d) (hinv : w.Inv d)
    (hstart : start = remaining w.cfg lines) (hs : WorkerStep w d e w' d')
    (hsettle : ∀ r, e = .settle r → ¬ w.wedged W) : CycleWorker W start lines w' d' := by
  have hs' := hs
  cases hs with
  | load ht =>
    have hth : w.inFlight.keys = [] ∧ w.looping = 0 ∧ w.unstarted = 0 ∧ w.queue = [] := by
      simpa [Worker.ThreadOk, ht] using hinv.thread
    have hq : w.cfg.all.tests.filter (fun t => !(readLedger d.progress).has t) = start := by
      rw [hstart, ← h.boot ht]
      refine List.filter_congr fun t _ => ?_
      rw [Bool.eq_iff_iff]
      simp
    have hno : ∀ t ∈ w.children, False := fun t htc => by
      have := Worker.children_subset_keys hinv t htc
      simp [hth.1] at this
    exact {
      boot := by simp
      queue := hq ▸ List.suffix_refl _
      slots := by
        intro _
        rw [hq]
        simp only
        omega
      unchanged := by
        intro _ _
        simp only [hth.1, List.nil_append]
        exact hq
      grown := .inl (h.boot ht)
      settled := by simp
      appended := by simp
      claimed := by simp
      fresh := by simp
      wedged := by
        intro t htc _
        exact (hno t (hs'.mem_children_of_ne hinv (by simp) htc)).elim }
  | clear ht | clearRejects ht =>
    exact h.frame hinv hs' (by simp [ht]) (by simp) rfl rfl rfl (fun _ => rfl) id
      (by simp) (by simp) (by simp) (by simp)
      (by simp) (fun _ => by simp)
  | @claim now t rest w₁ ht hq hs₁ =>
    obtain ⟨hcfg, -, -, -, hsum⟩ := Worker.takeSlot_frame hs₁
    have hnot : t ∉ w.inFlight.keys := Worker.head_notMem hinv.nodup hq
    have hkeys : (w.inFlight.set t ⟨now, none⟩).keys = w.inFlight.keys ++ [t] :=
      JsMap.keys_set_of_notMem hnot _
    have hlist : (w.inFlight.set t ⟨now, none⟩).keys ++ rest = w.inFlight.keys ++ w.queue := by
      rw [hkeys, hq]
      simp
    have hsuf : t :: rest <:+ start := hq ▸ h.queue
    have hslots := h.slots (by simp [hq])
    have hlen := hsuf.length_le
    rw [hq] at hslots
    simp only [List.length_cons] at hslots hlen
    have hun : w₁.unstarted + 1 = w.unstarted ∨ w.unstarted = 0 ∧ w₁.unstarted = 0 := by
      rcases takeSlot_cases hs₁ with ⟨hu, rfl⟩ | ⟨hu, -, rfl⟩
      · exact .inl (by simp only; omega)
      · exact .inr ⟨hu, hu⟩
    have hfresh : Untouched w.cfg.concurrency.toNat start (d.progress = lines)
        (w.inFlight.keys ++ w.queue) t := by
      refine ⟨w.inFlight.keys, rest, by rw [hq], hsuf, ?_⟩
      rcases h.grown with hg | hg
      · exact .inl hg
      · exact .inr (by omega)
    exact {
      boot := by simp
      queue := (List.suffix_cons t rest).trans hsuf
      slots := by
        intro _
        simp only [hcfg]
        omega
      unchanged := by
        intro _ hl
        simp only
        rw [hlist]
        exact h.unchanged (by simp [ht]) hl
      grown := h.grown.imp id fun hg => ⟨hg.1, by simp only; omega⟩
      settled := by simp
      appended := by simp
      claimed := by
        intro a ha hac
        obtain rfl : t = a := by simpa using ha
        have hc := hs'.mem_children_of_ne hinv (by simp) hac
        exact hnot (w.children_subset_keys hinv t hc)
      fresh := by
        intro a ha
        obtain rfl : t = a := by simpa using ha
        refine ⟨⟨_, hkeys⟩, ?_⟩
        simp only
        rw [hlist, hcfg]
        exact hfresh
      wedged := by
        intro a ha haW
        refine ⟨?_, by simp, by simp⟩
        simp only
        rw [hlist, hcfg]
        exact (h.wedged a (hs'.mem_children_of_ne hinv (by simp) ha) haW).1 }
  | slotEnd ht hq hs₁ =>
    obtain ⟨hcfg, hth, hqu, hfl, hsum⟩ := Worker.takeSlot_frame hs₁
    refine h.frame hinv hs' (by simp [ht]) (by simp [hth, ht]) rfl (by rw [hfl]) hqu
      (fun hne => absurd (hqu.trans hq) hne) ?_ (by simp [hth, ht]) (by simp [hth, ht])
      (by simp [hth, ht])
      (by simp [hth, ht]) (by simp) (fun _ => by simp [hth, ht])
    rcases takeSlot_cases hs₁ with ⟨hu, rfl⟩ | ⟨hu, -, rfl⟩
    · intro h0
      simp [h0]
    · exact id
  | register ht =>
    refine h.frame hinv hs' (by simp [ht]) (by simp) rfl rfl rfl (fun _ => rfl) id
      (by simp) (by simp) (by simp) ?_
      (by simp) (fun _ => by simp)
    intro t' ht'
    obtain rfl := by simpa using ht'
    exact .inl ht
  | @spawn t pid ht =>
    refine h.frame hinv hs' (by simp [ht]) (by simp) rfl rfl rfl (fun _ => rfl) id
      (by simp) (by simp) (by simp) (by simp)
      ?_ (fun _ => by simp)
    intro t' pid' heq
    cases heq
    exact ht
  | spawnThrows ht =>
    exact h.frame hinv hs' (by simp [ht]) (by simp) rfl rfl rfl (fun _ => rfl) id
      (by simp) (by simp) (by simp) (by simp)
      (by simp) (fun _ => by simp)
  | mirror ht =>
    exact h.frame hinv hs' (by simp [ht]) (by simp) rfl (by simp) rfl (fun _ => rfl) id
      (by simp) (by simp) (by simp) (by simp)
      (by simp) (fun _ => by simp)
  | settle ht hu hr =>
    have hno := hsettle _ rfl
    refine h.frame hinv hs' (by simp [ht]) (by simp) rfl rfl rfl (fun _ => rfl) id
      (fun _ _ => hu) (by simp) (by simp) (by simp) (by simp) ?_
    rintro ⟨t, htc, htW⟩
    exact absurd ⟨t, hs'.mem_children_of_ne hinv (by simp) htc, htW⟩ hno
  | @append r ht =>
    have hnew : r.test ∉ recorded d.progress :=
      (mem_remaining.mp (hinv.append_remaining ht)).2
    have hsize : (readLedger (d.progress ++ [.ran r])).size = (readLedger d.progress).size + 1 := by
      rw [size_readLedger_append, Rec.test_ran, if_neg hnew]
    have hlt : (readLedger lines).size < (readLedger (d.progress ++ [.ran r])).size := by
      rw [hsize]
      rcases h.grown with hg | hg
      · rw [hg]
        omega
      · omega
    have hne : d.progress ++ [.ran r] ≠ lines := fun heq => by
      rw [heq] at hlt
      exact Nat.lt_irrefl _ hlt
    exact {
      boot := by simp
      queue := h.queue
      slots := h.slots
      unchanged := fun _ hl => absurd hl hne
      grown := .inr ⟨hlt, h.settled r ht⟩
      settled := by simp
      appended := fun _ _ => hne
      claimed := by simp
      fresh := by simp
      wedged := by
        intro t htc htW
        have hc := hs'.mem_children_of_ne hinv (by simp) htc
        exact absurd ht ((h.wedged t hc htW).2.1 r) }
  | @deregister t ht =>
    have hne := h.appended t ht
    exact {
      boot := by simp
      queue := h.queue
      slots := h.slots
      unchanged := fun _ hl => absurd hl hne
      grown := h.grown
      settled := by simp
      appended := by simp
      claimed := by simp
      fresh := by simp
      wedged := by
        intro a hac haW
        have hc := hs'.mem_children_of_ne hinv (by simp) hac
        exact absurd ht ((h.wedged a hc haW).2.2 t) }

end CycleWorker

/-! ## The end of the cycle -/

/-- What remains, and the ledger, when a worker dies under `W`: nothing was recorded and a test
of `W` is among the first `c`, or the first test of `W` that runs stands behind these. -/
inductive Outcome (W : Finset JsString) (c : Nat) (start : List JsString) (lines : List Rec) :
    List JsString → List Rec → Prop
  | blocked {t : JsString} (ht : t ∈ start.take c) (hW : t ∈ W) :
      Outcome W c start lines start lines
  | worked {lines' : List Rec} {ks tl : List JsString} {t : JsString}
      (hlt : (readLedger lines).size < (readLedger lines').size) (hW : t ∈ W)
      (hsuf : t :: tl <:+ start) (hlen : c + tl.length + 1 ≤ start.length)
      (hks : ks.length + 1 ≤ c) : Outcome W c start lines (ks ++ t :: tl) lines'

/-- `inflight.json` lists a first part of what remains, in the order of the starts. -/
structure Registered (cfg : Config) (d : Disk) : Prop where
  started : d.inflight.Pairwise (fun a b => a.startedAt ≤ b.startedAt)
  nonempty : d.inflight ≠ []
  front : listed d.inflight <+: remaining cfg d.progress

/-- The harvest marks the first test that remains. -/
theorem Registered.target {cfg : Config} {d : Disk} (h : Registered cfg d) :
    ∃ e rest, harvestTargets true d.inflight (readLedger d.progress) = [e] ∧
      remaining cfg d.progress = e.test :: rest := by
  obtain ⟨l, hcut, hnil⟩ := harvestTargets_of_sorted true d.progress h.started
  have hall : d.inflight.filter (fun e => !(readLedger d.progress).has e.test) = d.inflight := by
    rw [List.filter_eq_self]
    intro e he
    have : e.test ∈ remaining cfg d.progress := h.front.subset (List.mem_map_of_mem he)
    simpa using (mem_remaining.mp this).2
  rw [hall] at hcut
  have hle := length_harvestTargets_oldest d.inflight d.progress
  cases htg : harvestTargets true d.inflight (readLedger d.progress) with
  | nil =>
    rw [htg, hnil htg] at hcut
    exact absurd hcut h.nonempty
  | cons e ts =>
    rw [htg, List.length_cons] at hle
    obtain rfl : ts = [] := List.eq_nil_of_length_eq_zero (by omega)
    rw [htg] at hcut
    obtain ⟨rest, hrest⟩ := h.front
    rw [hcut] at hrest
    exact ⟨e, _, rfl, hrest.symm⟩

/-- In a list without repetitions an element of a first part stands before its end. -/
theorem length_lt_of_mem_left {l₁ l₂ ks tl : List JsString} {t : JsString}
    (h : l₁ ++ l₂ = ks ++ t :: tl) (hnd : (l₁ ++ l₂).Nodup) (ht : t ∈ l₁) :
    ks.length < l₁.length := by
  by_contra hle
  have hpre : l₁ <+: ks := List.prefix_of_prefix_length_le (List.prefix_append l₁ l₂)
    (h ▸ List.prefix_append ks (t :: tl)) (by omega)
  rw [h, List.nodup_append] at hnd
  exact hnd.2.2 t (hpre.subset ht) t (by simp) rfl

theorem CycleWorker.outcome {W : Finset JsString} {lines : List Rec} {w : Worker} {d : Disk}
    (h : CycleWorker W (remaining w.cfg lines) lines w d) (hinv : w.Inv d) (hw : w.wedged W) :
    Outcome W w.cfg.concurrency.toNat (remaining w.cfg lines) lines
        (remaining w.cfg d.progress) d.progress ∧
      w.shown.keys ≠ [] ∧ w.shown.keys <+: remaining w.cfg d.progress := by
  obtain ⟨t, htc, htW⟩ := hw
  obtain ⟨⟨ks, tl, hl, hsuf, hlen⟩, -, hquiet⟩ := h.wedged t htc htW
  have htk := w.children_subset_keys hinv t htc
  have hb := hinv.boot_ne_of_mem htk
  have hrem := hinv.remaining_eq_of_quiet hb hquiet
  have hpos := length_lt_of_mem_left hl hinv.nodup htk
  have hslots := hinv.slots
  have hsize := w.inFlight.length_keys
  refine ⟨?_, ?_, ?_⟩
  · by_cases hp : d.progress = lines
    · have hstart := h.unchanged hb hp
      rw [hp]
      refine .blocked (t := t) ?_ htW
      rw [← hstart, List.take_append]
      refine List.mem_append_left _ ?_
      rwa [List.take_of_length_le (by omega)]
    · rw [hrem, hl]
      have hgrown := h.grown.resolve_left hp
      exact .worked hgrown.1 htW hsuf (hlen.resolve_left hp) (by omega)
  · -- the test that was claimed last is not the one that runs
    unfold Worker.shown
    split
    · rename_i a ha
      have hne : a ≠ t := fun heq => h.claimed a ha (heq ▸ htc)
      rw [JsMap.keys_delete]
      exact List.ne_nil_of_mem (List.mem_filter.mpr ⟨htk, by simpa using hne.symm⟩)
    · exact List.ne_nil_of_mem htk
  · rw [hrem]
    refine List.IsPrefix.trans ?_ (List.prefix_append _ _)
    unfold Worker.shown
    split
    · rename_i a ha
      obtain ⟨⟨ks', hks'⟩, -⟩ := h.fresh a (.inl ha)
      have hnd := w.inFlight.keys_nodup
      rw [hks', List.nodup_append] at hnd
      rw [JsMap.keys_delete, hks', List.filter_append]
      have h1 : ks'.filter (fun b => decide (b ≠ a)) = ks' := by
        rw [List.filter_eq_self]
        intro b hb
        simpa using hnd.2.2 b hb a (by simp)
      have h2 : [a].filter (fun b => decide (b ≠ a)) = [] := by simp
      rw [h1, h2, List.append_nil]
      exact List.prefix_append _ _
    · exact List.prefix_refl _

/-- What one cycle does to the ledger, and where it leads. -/
inductive CycleEffect (W : Finset JsString) (cfg : Config) (np : Int) (lines : List Rec) :
    List Rec → Pc → Prop
  /-- Nothing remained. -/
  | left (h : Complete cfg lines) : CycleEffect W cfg np lines lines (.broke false)
  /-- The worker has come to its end. -/
  | complete {lines' : List Rec} (h : Complete cfg lines') :
      CycleEffect W cfg np lines lines' (.top 0)
  | blocked {t note h : JsString} {rest : List JsString}
      (ht : t ∈ (remaining cfg lines).take cfg.concurrency.toNat) (hW : t ∈ W)
      (hrem : remaining cfg lines = h :: rest) :
      CycleEffect W cfg np lines (lines ++ [.crashMark h note])
        (if np + 1 ≥ cfg.maxNoProgress then .broke true else .top (np + 1))
  | worked {lines' : List Rec} {ks tl : List JsString} {t : JsString} (hW : t ∈ W)
      (hsuf : t :: tl <:+ remaining cfg lines)
      (hlen : cfg.concurrency.toNat + tl.length + 1 ≤ (remaining cfg lines).length)
      (hks : ks.length + 1 ≤ cfg.concurrency.toNat)
      (hrem : remaining cfg lines' = (ks ++ t :: tl).tail) :
      CycleEffect W cfg np lines lines' (.top 0)

/-- A worker has died and has not been harvested. -/
structure Dead (W : Finset JsString) (cfg : Config) (lines : List Rec) (d : Disk) : Prop where
  outcome : Outcome W cfg.concurrency.toNat (remaining cfg lines) lines
    (remaining cfg d.progress) d.progress
  registered : Registered cfg d

section

variable (W : Finset JsString) (cfg : Config) (lines : List Rec) (after : Nat)
  (reason : JsString) (d : Disk)

/-- The harvest has chosen the first test that remains. -/
def Unmarked (targets : List Entry) : Prop :=
  after = (readLedger d.progress).size ∧
    Outcome W cfg.concurrency.toNat (remaining cfg lines) lines
      (remaining cfg d.progress) d.progress ∧
    ∃ e rest, targets = [e] ∧ remaining cfg d.progress = e.test :: rest

/-- The harvest has marked the first test that remained. -/
def Marked : Prop :=
  ∃ lines' t rest, after = (readLedger lines').size ∧
    Outcome W cfg.concurrency.toNat (remaining cfg lines) lines (remaining cfg lines') lines' ∧
    remaining cfg lines' = t :: rest ∧ d.progress = lines' ++ [.crashMark t reason]

/-- The harvest of a cycle. -/
def PhaseOk : HarvestPhase → Prop
  | .readInflight => Dead W cfg lines d ∧ after = (readLedger d.progress).size
  | .readLedger l => Dead W cfg lines d ∧ after = (readLedger d.progress).size ∧ l = d.inflight
  | .reap _ targets => Unmarked W cfg lines after d targets
  | .append [] => Marked W cfg lines after reason d
  | .append targets => Unmarked W cfg lines after d targets
  | .clear => Marked W cfg lines after reason d

end

/-- Where a cycle stands that was entered with the ledger `lines`. -/
def Pc.PoisonOk (W : Finset JsString) (cfg : Config) (np : Int) (lines : List Rec) (d : Disk)
    (fallen : List Worker) (clock : Nat) : Pc → Prop
  | .launch n b => n = np ∧ b = (readLedger lines).size ∧ d.progress = lines ∧ fallen = []
  | .await n b w => n = np ∧ b = (readLedger lines).size ∧ fallen = [] ∧ w.Sorted clock ∧
      CycleWorker W (remaining cfg lines) lines w d
  | .exited _ _ .zero => fallen = []
  | .exited n b (.abnormal _) => n = np ∧ b = (readLedger lines).size ∧ Dead W cfg lines d
  | .returned _ _ .done => fallen = []
  | .returned n b _ => n = np ∧ b = (readLedger lines).size ∧ Dead W cfg lines d
  | .clean => fallen = []
  | .harvest h k => h.onlyOldest = true ∧ ∃ after result, result ≠ .done ∧
      k = .cycle np (readLedger lines).size after result ∧
      PhaseOk W cfg lines after h.reason d h.phase
  | .top n => fallen = [] ∧ CycleEffect W cfg np lines d.progress (.top n)
  | .broke b => fallen = [] ∧ CycleEffect W cfg np lines d.progress (.broke b)
  | _ => False

/-- The end of a harvest is the end of the cycle. -/
theorem effect_of_marked {W : Finset JsString} {cfg : Config} (np : Int) {lines : List Rec}
    {after : Nat} {reason : JsString} {result : CycleResult} {d : Disk}
    (h : Marked W cfg lines after reason d) (hr : result ≠ .done) :
    CycleEffect W cfg np lines d.progress (tally cfg np (readLedger lines).size after result) := by
  obtain ⟨lines', t, rest, rfl, hout, hrem, hp⟩ := h
  rw [hp]
  generalize hR : remaining cfg lines' = R at hout hrem
  cases hout with
  | blocked ht hW =>
    rw [tally_of_le (Nat.le_refl _) hr]
    exact .blocked ht hW hrem
  | @worked _ ks tl t' hlt hW hsuf hlen hks =>
    rw [tally_of_lt hlt]
    refine .worked hW hsuf hlen hks ?_
    rw [hrem, List.tail_cons]
    exact remaining_append_head (hR.trans hrem)

/-- The invariant of one cycle. -/
def PoisonInv (W : Finset JsString) (cfg : Config) (np : Int) (lines : List Rec) (s : Sys) :
    Prop :=
  LoopInv cfg s ∧
    ∃ p, s.sup = some p ∧ p.pc.PoisonOk W cfg np lines s.disk s.fallen s.clock

namespace PoisonInv

variable {W : Finset JsString} {cfg : Config} {np : Int} {lines : List Rec}

theorem sup_step {d d' : Disk} {at_ now : Int} {pc : Pc} {p' : Option Supervisor}
    {orphans fallen : List Worker} {clock : Nat} (hl : pc.LoopOk cfg d)
    (h : pc.PoisonOk W cfg np lines d fallen clock)
    (hb : (Sys.mk d (some ⟨cfg, at_, pc⟩) orphans fallen clock).between = false)
    (hs : SupStep cfg at_ d now pc p' d') :
    ∃ p, p' = some p ∧
      p.pc.PoisonOk W cfg np lines d' (if pc.harvestEnds then [] else fallen) clock := by
  cases hs with
  | leave => cases hb
  | enter => cases hb
  | outputs => cases hb
  | rmProgress => exact h.elim
  | rmInflight => exact h.elim
  | clearStartup =>
    obtain ⟨-, after, result, -, hk, -⟩ := h
    cases hk
  | readInflight reason b k =>
    obtain ⟨ho, after, result, hr, hk, hd⟩ := h
    exact ⟨_, rfl, ho, after, result, hr, hk, hd.1, hd.2, rfl⟩
  | readLedger reason b k inflight =>
    obtain ⟨rfl, after, result, hr, hk, hd, ha, hi⟩ := h
    obtain rfl : inflight = d.inflight := hi
    obtain ⟨e, rest, htg, hrem⟩ := hd.registered.target
    exact ⟨_, rfl, rfl, after, result, hr, hk, ha, hd.outcome, e, rest, htg, hrem⟩
  | reap reason b k e es targets => exact ⟨_, rfl, h⟩
  | reaped reason b k targets =>
    obtain ⟨ho, after, result, hr, hk, ha, hout, e, rest, rfl, hrem⟩ := h
    exact ⟨_, rfl, ho, after, result, hr, hk, ha, hout, e, rest, rfl, hrem⟩
  | mark reason b k e targets =>
    obtain ⟨ho, after, result, hr, hk, ha, hout, e', rest, htg, hrem⟩ := h
    obtain ⟨rfl, rfl⟩ : e = e' ∧ targets = [] := by simpa using htg
    exact ⟨_, rfl, ho, after, result, hr, hk, d.progress, _, rest, ha, hout, hrem, rfl⟩
  | marked reason b k =>
    obtain ⟨ho, after, result, hr, hk, hm⟩ := h
    exact ⟨_, rfl, ho, after, result, hr, hk, hm⟩
  | clearCycle reason b np' before after result =>
    obtain ⟨ho, after', result', hr, hk, hm⟩ := h
    cases hk
    have heff := effect_of_marked np hm hr
    refine ⟨_, rfl, ?_⟩
    rcases tally_cases cfg np (readLedger lines).size after result with ⟨np', ht⟩ | ht
    · simp only [ht] at heff ⊢
      exact ⟨rfl, heff⟩
    · simp only [ht] at heff ⊢
      exact ⟨rfl, heff⟩
  | launch n b =>
    obtain ⟨hn, hbf, hp, hf⟩ := h
    exact ⟨_, rfl, hn, hbf, hf, ⟨by simp [Worker.launched], by simp [Worker.launched]⟩,
      .of_launched hp⟩
  | exitZero => exact ⟨_, rfl, h⟩
  | exitAbnormal => exact ⟨_, rfl, h⟩
  | done => exact ⟨_, rfl, h⟩
  | stalled n b =>
    obtain ⟨hn, hbf, hd⟩ := h
    exact ⟨_, rfl, rfl, _, .stall, by simp, by rw [hn, hbf], hd, rfl⟩
  | exited n b what =>
    obtain ⟨hn, hbf, hd⟩ := h
    exact ⟨_, rfl, rfl, _, .exit what, by simp, by rw [hn, hbf], hd, rfl⟩
  | clean => exact ⟨_, rfl, h, .complete hl.2⟩

/-- A wedged worker ends. -/
theorem dead_of_wedged {w : Worker} {d : Disk} {clock : Nat} (hw : w.Inv d)
    (h : CycleWorker W (remaining w.cfg lines) lines w d) (hso : w.Sorted clock)
    (hwedged : w.wedged W) : Dead W w.cfg lines d := by
  obtain ⟨hout, hne, hpre⟩ := h.outcome hw hwedged
  refine ⟨hout, ?_, ?_, ?_⟩
  · rw [hw.mirror]
    exact registry_started hso.shown
  · intro hnil
    refine hne ?_
    rw [← listed_registry, ← hw.mirror, hnil]
    rfl
  · rw [hw.mirror, listed_registry]
    exact hpre

theorem step {s s' : Sys} {e : Event} (hlimit : cfg.concurrency < arrayLimit)
    (h : PoisonInv W cfg np lines s) (hok : withinCycle (poisoned W) s e)
    (hs : s.step e = some s') : PoisonInv W cfg np lines s' := by
  obtain ⟨hl, p, hp, hpc⟩ := h
  obtain ⟨hpo, hb⟩ := hok
  have hin := inLoop_of_poisoned hpo
  refine ⟨hl.step hin hs, ?_⟩
  obtain ⟨d, sup, orphans, fallen, clock⟩ := s
  cases sysStep_of_step hs with
  | @sup cfg' at_ now pc p' d' hsup =>
    obtain ⟨hcfg, hlo⟩ := hl _ rfl
    obtain rfl : cfg' = cfg := hcfg
    cases hp
    exact sup_step hlo hpc hb hsup
  | @stallAwait cfg' at_ n before w =>
    obtain ⟨hcfg, hc, hwc, hw⟩ := hl _ rfl
    cases hp
    obtain ⟨hn, hbf, hf, hso, hcw⟩ := hpc
    have hf' : fallen = [] := hf
    subst hf'
    obtain ⟨w', hw', hwedged⟩ := hpo
    obtain rfl : w' = w := by simpa [Sys.current] using hw'
    obtain rfl : w'.cfg = cfg := hwc
    exact ⟨_, rfl, hn, hbf, dead_of_wedged hw hcw hso hwedged⟩
  | @stallExited cfg' at_ n before how =>
    cases hp
    cases how with
    | zero =>
      have hf : fallen = [] := hpc
      subst hf
      obtain ⟨w', hw', -⟩ := hpo
      simp [Sys.current] at hw'
    | abnormal what => exact ⟨_, rfl, hpc⟩
  | @worker cfg' at_ n before w w' d' we hw' =>
    obtain ⟨hcfg, hc, hwc, hw⟩ := hl _ rfl
    cases hp
    obtain ⟨hn, hbf, hf, hso, hcw⟩ := hpc
    obtain rfl : w.cfg = cfg := hwc
    refine ⟨_, rfl, hn, hbf, hf, hw'.sorted hw hso ?_, hcw.step hw rfl hw' ?_⟩
    · rintro now rfl
      exact hpo
    · rintro r rfl
      exact hpo w (by simp [Sys.current])
  | @workerExits cfg' at_ n before w hx =>
    cases hp
    exact ⟨_, rfl, hpc.2.2.1⟩
  | @workerThrows cfg' at_ n before w ht =>
    obtain ⟨hcfg, hc, hwc, hw⟩ := hl _ rfl
    have hge := (hw.of_rejected ht).2.1
    rw [hwc] at hge
    exact absurd hlimit (Int.not_lt.mpr hge)
  | @workerDies cfg' at_ n before w what =>
    obtain ⟨hcfg, hc, hwc, hw⟩ := hl _ rfl
    cases hp
    obtain ⟨hn, hbf, hf, hso, hcw⟩ := hpc
    obtain ⟨w', hw', hwedged⟩ := hpo
    obtain rfl : w' = w := by simpa [Sys.current] using hw'
    obtain rfl : w'.cfg = cfg := hwc
    exact ⟨_, rfl, hn, hbf, dead_of_wedged hw hcw hso hwedged⟩
  | _ => exact hin.elim

end PoisonInv

/-- **One cycle** under the wedging tests `W`. There are slots, or no worker is launched. -/
theorem cycle_effect {W : Finset JsString} {cfg : Config} {np : Int} {s s' : Sys}
    (hlimit : Complete cfg s.disk.progress ∨ cfg.concurrency < arrayLimit) (hl : LoopInv cfg s)
    (hf : s.fallen = []) (hs : s.pc = some (.top np)) (h : Cycle (poisoned W) s s') :
    ∃ pc, s'.pc = some pc ∧ s'.fallen = [] ∧
      CycleEffect W cfg np s.disk.progress s'.disk.progress pc := by
  obtain ⟨-, hb', e, s₁, es, hok, hstep, hrun⟩ := h
  have hl₁ := hl.step (inLoop_of_poisoned hok) hstep
  obtain ⟨hd, hf₁, ⟨hpc, hall⟩ | ⟨hpc, hrem⟩⟩ :=
    top_step (fun _ _ => inLoop_of_poisoned) hl hs hok hstep
  · rw [withinCycle_between (by simp [Sys.between, hpc]) hrun]
    refine ⟨_, hpc, hf₁.trans hf, ?_⟩
    rw [hd]
    exact .left hall
  · have hslots := hlimit.resolve_left fun hall => hrem (remaining_eq_nil_iff.mpr hall)
    obtain ⟨p, hp, hpp⟩ := Option.map_eq_some_iff.mp hpc
    have hinv : PoisonInv W cfg np s.disk.progress s₁ := by
      refine ⟨hl₁, p, hp, ?_⟩
      rw [hpp]
      exact ⟨rfl, rfl, by rw [hd], hf₁.trans hf⟩
    obtain ⟨-, p', hp', hpo⟩ := hrun.invariant hinv fun _ _ _ hI hok hs =>
      hI.step hslots hok hs
    obtain ⟨pc, hpc', ⟨n, rfl⟩ | ⟨b, rfl⟩⟩ := pc_of_between hb'
    · rw [Sys.pc, hp', Option.map_some, Option.some.injEq] at hpc'
      rw [hpc'] at hpo
      exact ⟨_, by rw [Sys.pc, hp', Option.map_some, hpc'], hpo⟩
    · rw [Sys.pc, hp', Option.map_some, Option.some.injEq] at hpc'
      rw [hpc'] at hpo
      exact ⟨_, by rw [Sys.pc, hp', Option.map_some, hpc'], hpo⟩

end CorpusRunner
