import CorpusRunner.Proofs.LedgerSafety
import CorpusRunner.Misc.ListOrder

/-!
# What bounds the executions of a test

Each abnormal cycle marks only the oldest test in flight and forgets the others, which are run
again. A test survives such a cycle only if the mark fell on a test that stands before it, so
what bounds its executions is its *rank*: the number of unrecorded tests that stand before it.
When it is spawned all of those are in flight, hence fewer than the slots, and every death
under it lowers the rank.
-/

namespace CorpusRunner

/-- The test that a step of a worker spawns or tries to spawn. -/
def WorkerEvent.spawned : WorkerEvent → Option JsString
  | .spawn t _ => some t
  | .spawnThrows t => some t
  | _ => none

def Event.spawned : Event → Option JsString
  | .worker e => e.spawned
  | .orphan _ e => e.spawned
  | _ => none

/-- How often the child of `t` has been spawned. -/
def spawns (es : List Event) (t : JsString) : Nat := (es.filterMap Event.spawned).count t

/-- `Date.now()` does not go back between two claims. -/
def clockMono (s : Sys) : Event → Prop
  | .worker (.claim now) => s.clock ≤ now
  | .orphan _ (.claim now) => s.clock ≤ now
  | _ => True

instance (s : Sys) (e : Event) : Decidable (clockMono s e) := by
  induction e using Event.casesOn with
  | worker we =>
    induction we using WorkerEvent.casesOn <;> dsimp only [clockMono] <;> infer_instance
  | orphan i we =>
    induction we using WorkerEvent.casesOn <;> dsimp only [clockMono] <;> infer_instance
  | _ => dsimp only [clockMono]; infer_instance

/-- The supervisors are all started with the selection `all` and `CONCURRENCY = c`. -/
def startsAs (all : Selection) (c : Int) : Event → Prop
  | .start cfg _ => cfg.all = all ∧ cfg.concurrency = c
  | _ => True

instance (all : Selection) (c : Int) (e : Event) : Decidable (startsAs all c e) := by
  induction e using Event.casesOn <;> dsimp only [startsAs] <;> infer_instance

/-- One directory and selection, one concurrency, and a clock that does not go back. -/
def steady (all : Selection) (c : Int) (s : Sys) (e : Event) : Prop :=
  supervised s e ∧ clockMono s e ∧ startsAs all c e

instance (all : Selection) (c : Int) (s : Sys) (e : Event) : Decidable (steady all c s e) := by
  unfold steady
  infer_instance

/-- The number of unrecorded tests that stand before `t`. -/
def rank (all : Selection) (lines : List Rec) (t : JsString) : Nat :=
  ((before all.tests t).filter (fun a => decide (a ∉ recorded lines))).length

theorem rank_append_le (all : Selection) (lines : List Rec) (r : Rec) (t : JsString) :
    rank all (lines ++ [r]) t ≤ rank all lines t := by
  unfold rank
  refine (List.monotone_filter_right _ ?_).length_le
  intro a ha
  simp only [decide_eq_true_eq] at ha ⊢
  exact fun h => ha (by simp [h])

/-- A mark that falls on a test before `t` lowers the rank of `t`. -/
theorem rank_append_lt {all : Selection} {lines : List Rec} {r : Rec} {t : JsString}
    (hb : r.test ∈ before all.tests t) (hr : r.test ∉ recorded lines) :
    rank all (lines ++ [r]) t + 1 ≤ rank all lines t := by
  unfold rank
  have hnd : ((before all.tests t).filter (fun a => decide (a ∉ recorded lines))).Nodup :=
    ((before_sublist _ _).nodup all.nodup).filter _
  have hmem : r.test ∈ (before all.tests t).filter (fun a => decide (a ∉ recorded lines)) := by
    simpa using ⟨hb, hr⟩
  have hsub : (before all.tests t).filter (fun a => decide (a ∉ recorded (lines ++ [r]))) ⊆
      ((before all.tests t).filter (fun a => decide (a ∉ recorded lines))).erase r.test := by
    intro a ha
    simp only [List.mem_filter, decide_eq_true_eq, recorded_append, recorded_singleton,
      List.mem_append, List.mem_singleton, not_or] at ha
    rw [hnd.mem_erase_iff]
    exact ⟨ha.2.2, by simpa using ⟨ha.1, ha.2.1⟩⟩
  have hle := (((before_sublist _ _).nodup all.nodup).filter _).length_le_of_subset hsub
  rw [List.length_erase_of_mem hmem] at hle
  have := List.length_pos_of_mem hmem
  omega

@[simp] theorem spawns_nil (t : JsString) : spawns [] t = 0 := rfl

theorem spawns_append (es : List Event) (e : Event) (t : JsString) :
    spawns (es ++ [e]) t = spawns es t + if e.spawned = some t then 1 else 0 := by
  unfold spawns
  rw [List.filterMap_append, List.count_append]
  cases h : e.spawned with
  | none => simp [h]
  | some a =>
    by_cases hat : a = t
    · simp [h, hat]
    · simp [h, hat]

theorem spawns_append_of_none {es : List Event} {e : Event} (h : e.spawned = none)
    (t : JsString) : spawns (es ++ [e]) t = spawns es t := by
  rw [spawns_append, h]
  simp

/-! ## What a worker's step does to the tests that run -/

/-- A running test has no line. -/
theorem Worker.Inv.running_unrecorded {w : Worker} {d : Disk} (h : w.Inv d) {t : JsString}
    (ht : t ∈ w.running) : t ∉ recorded d.progress := by
  intro hr
  have happ := (h.held t (w.running_subset_inFlight t ht)).mp hr
  simp [Worker.running, Thread.running, happ] at ht

/-- After a step a test runs when it ran before or was spawned, and has no line yet. -/
theorem WorkerStep.mem_running {w w' : Worker} {d d' : Disk} {e : WorkerEvent} (h : w.Inv d)
    (hs : WorkerStep w d e w' d') (a : JsString) (ha : a ∉ recorded d'.progress) :
    a ∈ w'.running ↔ a ∈ w.running ∨ e.spawned = some a := by
  -- the test of a thread that is about to spawn is in flight, and does not run yet
  have spawned : ∀ t, w.thread = .registered t →
      (a ∈ w.inFlight.keys ↔ a ∈ w.running ∨ t = a) := by
    intro t ht
    have hk : t ∈ w.inFlight.keys := by simpa [Worker.ThreadOk, ht] using h.thread
    simp only [Worker.running, Thread.running, ht, List.mem_filter, decide_eq_true_eq]
    by_cases hat : a = t
    · simp [hat, hk]
    · simp [hat, Ne.symm (Ne.intro hat)]
  cases hs with
  | load ht =>
    have hk : w.inFlight.keys = [] := by
      have := h.thread
      simp only [Worker.ThreadOk, ht] at this
      exact this.1
    simp [Worker.running, Thread.running, ht, hk, WorkerEvent.spawned]
  | clear ht | clearRejects ht =>
    simp [Worker.running, Thread.running, ht, WorkerEvent.spawned]
  | @claim now t rest w₁ ht hq hs =>
    have hnot : t ∉ w.inFlight.keys := Worker.head_notMem h.nodup hq
    simp only [Worker.running, Thread.running, ht, List.mem_filter, JsMap.mem_keys_set,
      decide_eq_true_eq, WorkerEvent.spawned, reduceCtorEq, or_false]
    constructor
    · rintro ⟨h1 | h1, h2⟩
      · exact h1
      · exact absurd h1 h2
    · intro h1
      exact ⟨.inl h1, fun heq => hnot (heq ▸ h1)⟩
  | slotEnd ht hq hs =>
    obtain ⟨-, hth, -, hfl, -⟩ := Worker.takeSlot_frame hs
    simp [Worker.running, Thread.running, hth, ht, hfl, WorkerEvent.spawned]
  | register ht => simp [Worker.running, Thread.running, ht, WorkerEvent.spawned]
  | @spawn t pid ht =>
    simpa [Worker.running, Thread.running, WorkerEvent.spawned] using spawned t ht
  | @spawnThrows t ht =>
    simpa [Worker.running, Thread.running, WorkerEvent.spawned] using spawned t ht
  | mirror ht => simp [Worker.running, Thread.running, ht, WorkerEvent.spawned]
  | settle ht => simp [Worker.running, Thread.running, ht, WorkerEvent.spawned]
  | @append r ht =>
    have hat : a ≠ r.test := fun heq => ha (by simp [heq])
    simp [Worker.running, Thread.running, ht, WorkerEvent.spawned, hat]
  | deregister ht => simp [Worker.running, Thread.running, ht, WorkerEvent.spawned]

/-- A test that is being spawned has been claimed, does not run and has no line. -/
theorem WorkerStep.spawned_fresh {w w' : Worker} {d d' : Disk} {e : WorkerEvent} {t : JsString}
    (h : w.Inv d) (hs : WorkerStep w d e w' d') (he : e.spawned = some t) :
    w.thread = .registered t ∧ t ∉ w.running ∧ t ∉ recorded d.progress ∧ d' = d := by
  have key : w.thread = .registered t ∧ d' = d := by
    cases hs with
    | spawn ht => exact ⟨by simpa [WorkerEvent.spawned, ht] using he, rfl⟩
    | spawnThrows ht => exact ⟨by simpa [WorkerEvent.spawned, ht] using he, rfl⟩
    | _ => cases he
  have hk : t ∈ w.inFlight.keys := by simpa [Worker.ThreadOk, key.1] using h.thread
  refine ⟨key.1, by simp [Worker.running, Thread.running, key.1], fun hr => ?_, key.2⟩
  have := (h.held t hk).mp hr
  simp [key.1] at this

/-- The unrecorded tests before a test that is being spawned are in flight, so that their
number is below the number of slots. -/
theorem WorkerStep.spawn_rank {w w' : Worker} {d d' : Disk} {e : WorkerEvent} {t : JsString}
    (h : w.Inv d) (hs : WorkerStep w d e w' d') (he : e.spawned = some t) :
    rank w.cfg.all d.progress t + 1 ≤ w.cfg.concurrency.toNat := by
  have key := (hs.spawned_fresh h he).1
  have hk : t ∈ w.inFlight.keys := by simpa [Worker.ThreadOk, key] using h.thread
  have hnd : ((before w.cfg.all.tests t).filter
      (fun a => decide (a ∉ recorded d.progress))).Nodup :=
    ((before_sublist _ _).nodup w.cfg.all.nodup).filter _
  have hsub : (before w.cfg.all.tests t).filter (fun a => decide (a ∉ recorded d.progress)) ⊆
      w.inFlight.keys.erase t := by
    intro a ha
    simp only [List.mem_filter, decide_eq_true_eq] at ha
    rw [w.inFlight.keys_nodup.mem_erase_iff]
    refine ⟨fun heq => notMem_before _ _ (heq ▸ ha.1), ?_⟩
    rcases h.cover (by simp [key]) a ((before_sublist _ _).subset ha.1) with h1 | h1 | h1
    · exact absurd h1 ha.2
    · exact h1
    · -- a queued test stands behind every claimed one
      have hpair : [t, a].Sublist w.cfg.all.tests :=
        ((List.singleton_sublist.mpr hk).append (List.singleton_sublist.mpr h1)).trans h.order
      exact absurd ha.1 (notMem_before_of_pair_sublist w.cfg.all.nodup hpair)
  have hle := hnd.length_le_of_subset hsub
  rw [List.length_erase_of_mem hk, JsMap.length_keys] at hle
  have hpos := List.length_pos_of_mem hk
  rw [JsMap.length_keys] at hpos
  have hslots := h.slots
  unfold rank
  omega

/-! ## The bound -/

/-- The test runs, or ran in a worker that is dead and not harvested. -/
def Sys.Pending (s : Sys) (t : JsString) : Prop :=
  ∃ w ∈ s.current ++ s.fallen, t ∈ w.running

/-- How many executions an unrecorded test has left: its rank if it is pending, one more
otherwise. -/
structure Counts (all : Selection) (c : Nat) (es : List Event) (lines : List Rec)
    (pending : JsString → Prop) : Prop where
  total : ∀ t, spawns es t ≤ c
  running : ∀ t, t ∉ recorded lines → pending t → spawns es t + rank all lines t ≤ c
  waiting : ∀ t, t ∉ recorded lines → ¬ pending t →
    spawns es t = 0 ∨ spawns es t + rank all lines t + 1 ≤ c

namespace Counts

variable {all : Selection} {c : Nat} {es : List Event} {lines : List Rec}
  {pending pending' : JsString → Prop} {e : Event}

theorem init : Counts all c [] [] (fun _ => False) where
  total := by simp
  running := by simp
  waiting := by simp

theorem frame (h : Counts all c es lines pending) (he : e.spawned = none)
    (hp : ∀ t, t ∉ recorded lines → (pending' t ↔ pending t)) :
    Counts all c (es ++ [e]) lines pending' where
  total t := by rw [spawns_append_of_none he]; exact h.total t
  running t ht hpt := by
    rw [spawns_append_of_none he]
    exact h.running t ht ((hp t ht).mp hpt)
  waiting t ht hpt := by
    rw [spawns_append_of_none he]
    exact h.waiting t ht (fun hq => hpt ((hp t ht).mpr hq))

/-- A further line only lowers the ranks. -/
theorem append {r : Rec} (h : Counts all c es lines pending) :
    Counts all c es (lines ++ [r]) pending where
  total := h.total
  running t ht hpt := by
    have := h.running t (fun hr => ht (by simp [hr])) hpt
    have := rank_append_le all lines r t
    omega
  waiting t ht hpt := by
    have := h.waiting t (fun hr => ht (by simp [hr])) hpt
    have := rank_append_le all lines r t
    omega

theorem spawn {a : JsString} (h : Counts all c es lines pending) (he : e.spawned = some a)
    (hp : ∀ t, t ∉ recorded lines → (pending' t ↔ pending t ∨ a = t))
    (ha : a ∉ recorded lines) (hn : ¬ pending a) (hr : rank all lines a + 1 ≤ c) :
    Counts all c (es ++ [e]) lines pending' := by
  have hone : spawns es a + 1 + rank all lines a ≤ c := by
    have := h.waiting a ha hn
    omega
  have hself : spawns (es ++ [e]) a = spawns es a + 1 := by rw [spawns_append, if_pos he]
  have hother : ∀ t, t ≠ a → spawns (es ++ [e]) t = spawns es t := by
    intro t ht
    have hne : e.spawned ≠ some t := fun heq => ht (Option.some.inj (he.symm.trans heq)).symm
    rw [spawns_append, if_neg hne, Nat.add_zero]
  refine ⟨fun t => ?_, fun t ht hpt => ?_, fun t ht hpt => ?_⟩
  · by_cases hta : t = a
    · rw [hta, hself]
      omega
    · rw [hother t hta]
      exact h.total t
  · by_cases hta : t = a
    · rw [hta, hself]
      exact hone
    · rw [hother t hta]
      refine h.running t ht ?_
      rcases (hp t ht).mp hpt with hq | hq
      · exact hq
      · exact absurd hq.symm hta
  · have hta : t ≠ a := fun heq => hpt ((hp t ht).mpr (.inr heq.symm))
    rw [hother t hta]
    exact h.waiting t ht (fun hq => hpt ((hp t ht).mpr (.inl hq)))

/-- Nothing is pending any more once every pending test has paid with its rank. -/
theorem forget (h : Counts all c es lines pending)
    (hd : ∀ t, t ∉ recorded lines → pending t → spawns es t + rank all lines t + 1 ≤ c) :
    Counts all c es lines (fun _ => False) where
  total := h.total
  running := by simp
  waiting t ht _ := by
    by_cases hp : pending t
    · exact .inr (hd t ht hp)
    · exact h.waiting t ht hp

end Counts

/-- What the marks still to be made do for the unrecorded pending tests. -/
def Due (all : Selection) (c : Nat) (es : List Event) (lines : List Rec)
    (pending : JsString → Prop) (targets : List Entry) : Prop :=
  ∀ t, t ∉ recorded lines → pending t →
    (∃ e ∈ targets, e.test = t ∨ e.test ∈ before all.tests t) ∨
      spawns es t + rank all lines t + 1 ≤ c

/-- The targets a harvest has chosen and not marked yet. -/
def HarvestPhase.targets : HarvestPhase → Option (List Entry)
  | .reap _ targets => some targets
  | .append targets => some targets
  | .clear => some []
  | _ => none

structure RerunInv (all : Selection) (c : Int) (es : List Event) (s : Sys) : Prop where
  cfg : ∀ p, s.sup = some p → p.cfg.all = all ∧ p.cfg.concurrency = c
  sorted : ∀ w ∈ s.current, w.Sorted s.clock
  listed : (listed s.disk.inflight).Sublist all.tests
  started : s.disk.inflight.Pairwise (fun a b => a.startedAt ≤ b.startedAt)
  counts : Counts all c.toNat es s.disk.progress s.Pending
  due : ∀ cfg at_ h k targets, s.sup = some ⟨cfg, at_, .harvest h k⟩ →
    h.phase.targets = some targets →
    Due all c.toNat es s.disk.progress s.Pending targets

/-! ## One step -/

/-- The harvest's choice covers every unrecorded test that is pending. -/
theorem due_harvestTargets {all : Selection} {c : Nat} {es : List Event} {s : Sys} (b : Bool)
    (hinv : s.Inv) (hl : (listed s.disk.inflight).Sublist all.tests)
    (hst : s.disk.inflight.Pairwise (fun a b => a.startedAt ≤ b.startedAt)) :
    Due all c es s.disk.progress s.Pending
      (harvestTargets b s.disk.inflight (readLedger s.disk.progress)) := by
  rintro t ht ⟨w, hw, htw⟩
  have hlist : t ∈ listed s.disk.inflight := by
    refine running_listed hinv w ?_ t htw
    simpa [Sys.live, hinv.orphans] using hw
  obtain ⟨e, he, rfl⟩ := List.mem_map.mp hlist
  have hmem : e ∈ s.disk.inflight.filter (fun e => !(readLedger s.disk.progress).has e.test) := by
    simpa using ⟨he, ht⟩
  have hsub : (listed (s.disk.inflight.filter
      (fun e => !(readLedger s.disk.progress).has e.test))).Sublist all.tests :=
    (List.filter_sublist.map _).trans hl
  obtain ⟨l, hcut, hnil⟩ := harvestTargets_of_sorted b s.disk.progress hst
  rw [hcut] at hmem hsub
  refine .inl ?_
  cases htg : harvestTargets b s.disk.inflight (readLedger s.disk.progress) with
  | nil => simp [htg, hnil htg] at hmem
  | cons a l' =>
    refine ⟨a, by simp, ?_⟩
    rw [htg] at hmem hsub
    exact head_eq_or_mem_before all.nodup hsub (List.mem_map_of_mem hmem)

/-- A mark settles the tests whose rank it lowers. -/
theorem Due.mark {all : Selection} {c : Nat} {es : List Event} {lines : List Rec}
    {pending : JsString → Prop} {e : Entry} {targets : List Entry} (reason : JsString)
    (h : Due all c es lines pending (e :: targets)) (hc : Counts all c es lines pending)
    (he : e.test ∉ recorded lines) :
    Due all c es (lines ++ [.crashMark e.test reason]) pending targets := by
  intro t ht hp
  have hne : t ≠ e.test := fun heq => ht (by simp [heq])
  have hold : t ∉ recorded lines := fun hr => ht (by simp [hr])
  have hle := rank_append_le all lines (.crashMark e.test reason) t
  rcases h t hold hp with ⟨a, ha, hat⟩ | hdone
  · rcases List.mem_cons.mp ha with rfl | ha
    · rcases hat with hat | hat
      · exact absurd hat.symm hne
      · have hlt := rank_append_lt (r := .crashMark a.test reason) hat he
        have := hc.running t hold hp
        exact .inr (by omega)
    · exact .inl ⟨a, ha, hat⟩
  · exact .inr (by omega)

namespace RerunInv

variable {all : Selection} {c : Int} {es : List Event}

theorem init : RerunInv all c [] (Sys.idle Disk.empty) where
  cfg := by simp [Sys.idle]
  sorted := by simp [Sys.idle, Sys.current]
  listed := by simp [Sys.idle, Disk.empty]
  started := by simp [Sys.idle, Disk.empty]
  counts := by
    have h : (Sys.idle Disk.empty).Pending = fun _ => False := by
      funext t
      simp [Sys.Pending, Sys.idle, Sys.current]
    rw [h]
    exact .init
  due := by simp [Sys.idle]

theorem sup_step {cfg : Config} {at_ now : Int} {pc : Pc} {d d' : Disk} {fallen : List Worker}
    {clock : Nat} {p' : Option Supervisor}
    (hinv : (Sys.mk d (some ⟨cfg, at_, pc⟩) [] fallen clock).Inv)
    (h : RerunInv all c es (Sys.mk d (some ⟨cfg, at_, pc⟩) [] fallen clock))
    (hs : SupStep cfg at_ d now pc p' d') :
    RerunInv all c (es ++ [.sup now])
      (Sys.mk d' p' [] (if pc.harvestEnds then [] else fallen) clock) := by
  have hcfg := h.cfg _ rfl
  have hpc : pc.Ok cfg d fallen := hinv.pc _ rfl
  have hsp : (Event.sup now).spawned = none := rfl
  have hcounts := h.counts
  -- no worker before and after, and the dead ones are kept: nothing pending changes
  have same : ∀ {at' : Int} {pc' : Pc} {d'' : Disk}, pc.harvestEnds = false →
      (Sys.mk d (some ⟨cfg, at_, pc⟩) [] fallen clock).current = [] →
      (Sys.mk d'' (some ⟨cfg, at', pc'⟩) [] fallen clock).current = [] →
      d''.progress = d.progress → (CorpusRunner.listed d''.inflight).Sublist all.tests →
      d''.inflight.Pairwise (fun a b => a.startedAt ≤ b.startedAt) →
      (∀ h k targets, pc' = .harvest h k → h.phase.targets = some targets →
        Due all c.toNat es d.progress (Sys.mk d (some ⟨cfg, at_, pc⟩) [] fallen clock).Pending
          targets) →
      RerunInv all c (es ++ [.sup now])
        (Sys.mk d'' (some ⟨cfg, at', pc'⟩) [] (if pc.harvestEnds then [] else fallen) clock) := by
    intro at' pc' d'' hends hcur hcur' hprog hl hst hdue
    have hpend : (Sys.mk d'' (some ⟨cfg, at', pc'⟩) [] fallen clock).Pending =
        (Sys.mk d (some ⟨cfg, at_, pc⟩) [] fallen clock).Pending := by
      funext t
      simp only [Sys.Pending, hcur, hcur']
    rw [hends]
    refine ⟨?_, ?_, hl, hst, ?_, ?_⟩
    · rintro p hp; cases hp; exact hcfg
    · intro w hw
      rw [if_neg Bool.false_ne_true, hcur'] at hw
      simp at hw
    · simp only [Bool.false_eq_true, if_false, hpend, hprog]
      exact hcounts.frame hsp (fun _ _ => Iff.rfl)
    · intro cfg' at'' hv k targets hp htg
      simp only [Bool.false_eq_true, if_false, hpend, hprog]
      cases hp
      intro t ht hpt
      rw [spawns_append_of_none hsp]
      exact hdue hv k targets rfl htg t ht hpt
  cases hs with
  | rmProgress => exact hpc.elim
  | rmInflight => exact hpc.elim
  | readInflight => exact same rfl rfl rfl rfl h.listed h.started (by rintro _ _ _ ⟨⟩ ht; cases ht)
  | readLedger reason b k inflight =>
    have hl : inflight = d.inflight := hpc
    subst hl
    refine same rfl rfl rfl rfl h.listed h.started ?_
    rintro _ _ _ ⟨⟩ ht
    cases ht
    exact due_harvestTargets b hinv h.listed h.started
  | reap reason b k e es' targets =>
    refine same rfl rfl rfl rfl h.listed h.started ?_
    rintro _ _ _ ⟨⟩ ht
    cases ht
    exact h.due _ _ _ _ _ rfl rfl
  | reaped reason b k targets =>
    refine same rfl rfl rfl rfl h.listed h.started ?_
    rintro _ _ _ ⟨⟩ ht
    cases ht
    exact h.due _ _ _ _ _ rfl rfl
  | mark reason b k e targets =>
    have ht : TargetsOk d (e :: targets) := hpc
    have hdue := (h.due _ _ _ _ _ rfl rfl).mark reason hcounts
      (ht.unrecorded e (by simp))
    exact ⟨by rintro p hp; cases hp; exact hcfg, by simp [Sys.current], h.listed, h.started,
      hcounts.append.frame hsp (fun _ _ => Iff.rfl), by
        rintro _ _ _ _ _ ⟨⟩ htg t ht' hpt
        cases htg
        rw [spawns_append_of_none hsp]
        exact hdue t ht' hpt⟩
  | marked reason b k =>
    refine same rfl rfl rfl rfl h.listed h.started ?_
    rintro _ _ _ ⟨⟩ ht
    cases ht
    exact h.due _ _ _ _ _ rfl rfl
  | clearStartup =>
    have hf := hcounts.forget fun t ht hp => by simpa using h.due _ _ _ _ _ rfl rfl t ht hp
    exact ⟨by rintro p hp; cases hp; exact hcfg, by simp [Sys.current], by simp, by simp,
      hf.frame hsp (by simp [Sys.Pending, Sys.current, Pc.harvestEnds]), by simp⟩
  | clearCycle reason b np before after result =>
    have hf := hcounts.forget fun t ht hp => by simpa using h.due _ _ _ _ _ rfl rfl t ht hp
    rcases tally_cases cfg np before after result with ⟨np', ht⟩ | ht <;> rw [ht] <;>
      exact ⟨by rintro p hp; cases hp; exact hcfg, by simp [Sys.current], by simp, by simp,
        hf.frame hsp (by simp [Sys.Pending, Sys.current, Pc.harvestEnds]), by simp⟩
  | launch np before =>
    have hf : fallen = [] := hpc
    subst hf
    exact ⟨by rintro p hp; cases hp; exact hcfg,
      by simp [Sys.current, Worker.launched, Worker.Sorted, JsMap.empty], h.listed, h.started,
      hcounts.frame hsp (by simp [Sys.Pending, Sys.current, Pc.harvestEnds, Worker.launched,
        Worker.running, Thread.running]), by simp⟩
  | outputs =>
    exact ⟨by simp, by simp [Sys.current], h.listed, h.started,
      hcounts.frame hsp (fun _ _ => Iff.rfl), by simp⟩
  | clean => exact same rfl rfl rfl rfl (by simp) (by simp) (by simp)
  | stalled => exact same rfl rfl rfl rfl h.listed h.started (by rintro _ _ _ ⟨⟩ ht; cases ht)
  | exited => exact same rfl rfl rfl rfl h.listed h.started (by rintro _ _ _ ⟨⟩ ht; cases ht)
  | _ => exact same rfl rfl rfl rfl h.listed h.started (by simp)

/-- A step of the current worker. -/
theorem worker_step {cfg : Config} {at_ np : Int} {before : Nat} {w w' : Worker} {d d' : Disk}
    {clock : Nat} {we : WorkerEvent} (hw : w.Inv d) (hwc : w.cfg = cfg)
    (h : RerunInv all c es (Sys.mk d (some ⟨cfg, at_, .await np before w⟩) [] [] clock))
    (hmono : ∀ now, we = .claim now → clock ≤ now) (hs : WorkerStep w d we w' d') :
    RerunInv all c (es ++ [.worker we])
      (Sys.mk d' (some ⟨cfg, at_, .await np before w'⟩) [] [] (clockAfter clock we)) := by
  have hcfg := h.cfg _ rfl
  have hcounts := h.counts
  have hinv' := hw.step hs
  have hso : w'.Sorted (clockAfter clock we) :=
    hs.sorted hw (h.sorted w (by simp [Sys.current])) hmono
  have hpend : ∀ v : Worker, ∀ dd cl t, (Sys.mk dd (some ⟨cfg, at_, .await np before v⟩) [] []
      cl).Pending t ↔ t ∈ v.running := by
    intro v dd cl t
    simp [Sys.Pending, Sys.current]
  refine ⟨by rintro p hp; cases hp; exact hcfg, ?_, ?_, ?_, ?_, by simp⟩
  · intro v hv
    obtain rfl : v = w' := by simpa [Sys.current] using hv
    exact hso
  · rw [show d'.inflight = _ from hinv'.mirror, listed_registry]
    have hsub : w'.inFlight.keys.Sublist w'.cfg.all.tests :=
      (List.sublist_append_left _ _).trans hinv'.order
    rw [hs.cfg_eq, hwc, hcfg.1] at hsub
    exact w'.keys_shown_sublist.trans hsub
  · rw [show d'.inflight = _ from hinv'.mirror]
    exact registry_started hso.shown
  · have hrun := fun t ht => WorkerStep.mem_running hw hs t ht
    cases hsp : we.spawned with
    | none =>
      rcases hs.progress_cases with hp | ⟨r, hp⟩
      · rw [hp] at hrun ⊢
        exact hcounts.frame hsp fun t ht => by
          rw [hpend, hpend, hrun t ht, hsp]
          simp
      · rw [hp] at hrun ⊢
        exact (hcounts.append (r := .ran r)).frame hsp fun t ht => by
          rw [hpend, hpend, hrun t ht, hsp]
          simp
    | some a =>
      have hrank := hs.spawn_rank hw hsp
      obtain ⟨-, hnot, hrec, rfl⟩ := hs.spawned_fresh hw hsp
      rw [hwc, hcfg.1, hcfg.2] at hrank
      refine hcounts.spawn hsp (fun t ht => ?_) hrec (by rwa [hpend]) hrank
      rw [hpend, hpend, hrun t ht, hsp]
      simp

theorem step {s s' : Sys} {e : Event} (hinv : s.Inv) (h : RerunInv all c es s)
    (hok : steady all c s e) (hs : s.step e = some s') : RerunInv all c (es ++ [e]) s' := by
  have horph := hinv.orphans
  obtain ⟨d, sup, orphans, fallen, clock⟩ := s
  obtain rfl : orphans = [] := horph
  obtain ⟨hsup, hmono, hstarts⟩ := hok
  cases sysStep_of_step hs with
  | start cfg fresh =>
    obtain rfl : fresh = false := hsup
    exact ⟨by rintro p hp; cases hp; exact hstarts, by simp [Sys.current, startupHarvest],
      h.listed, h.started, h.counts.frame rfl (fun _ _ => Iff.rfl),
      by rintro _ _ _ _ _ ⟨⟩ ht; cases ht⟩
  | sup hsup' => exact h.sup_step hinv hsup'
  | @stallAwait cfg at_ np before w =>
    have hpc : fallen = [] ∧ w.cfg = cfg ∧ w.Inv d := hinv.pc _ rfl
    obtain ⟨rfl, -, -⟩ := hpc
    have hcfg := h.cfg _ rfl
    exact ⟨by rintro p hp; cases hp; exact hcfg, by simp [Sys.current], h.listed,
      h.started, h.counts.frame rfl (fun _ _ => by simp [Sys.Pending, Sys.current]), by simp⟩
  | stallExited =>
    have hcfg := h.cfg _ rfl
    exact ⟨by rintro p hp; cases hp; exact hcfg, by simp [Sys.current], h.listed,
      h.started, h.counts.frame rfl (fun _ _ => Iff.rfl), by simp⟩
  | @worker cfg at_ np before w w' d' we hw' =>
    have hpc : fallen = [] ∧ w.cfg = cfg ∧ w.Inv d := hinv.pc _ rfl
    obtain ⟨rfl, hwc, hw⟩ := hpc
    refine h.worker_step hw hwc ?_ hw'
    rintro now rfl
    exact hmono
  | @workerExits cfg at_ np before w hc =>
    have hpc : fallen = [] ∧ w.cfg = cfg ∧ w.Inv d := hinv.pc _ rfl
    obtain ⟨rfl, -, -⟩ := hpc
    have hcfg := h.cfg _ rfl
    exact ⟨by rintro p hp; cases hp; exact hcfg, by simp [Sys.current], h.listed,
      h.started, h.counts.frame rfl (fun _ _ => by
        simp [Sys.Pending, Sys.current, running_of_canExit hc]), by simp⟩
  | @workerThrows cfg at_ np before w ht =>
    have hpc : fallen = [] ∧ w.cfg = cfg ∧ w.Inv d := hinv.pc _ rfl
    obtain ⟨rfl, -, hw⟩ := hpc
    have hcfg := h.cfg _ rfl
    exact ⟨by rintro p hp; cases hp; exact hcfg, by simp [Sys.current], h.listed,
      h.started, h.counts.frame rfl (fun _ _ => by
        simp [Sys.Pending, Sys.current, (hw.of_rejected ht).2.2.1]), by simp⟩
  | @workerDies cfg at_ np before w what =>
    have hpc : fallen = [] ∧ w.cfg = cfg ∧ w.Inv d := hinv.pc _ rfl
    obtain ⟨rfl, -, -⟩ := hpc
    have hcfg := h.cfg _ rfl
    exact ⟨by rintro p hp; cases hp; exact hcfg, by simp [Sys.current], h.listed,
      h.started, h.counts.frame rfl (fun _ _ => by simp [Sys.Pending, Sys.current]), by simp⟩
  | orphan hi => simp at hi
  | orphanExits hi => simp at hi
  | orphanDies hi => simp at hi
  | interrupt => exact hsup.elim
  | containerCrash =>
    refine ⟨by simp, by simp [Sys.current], h.listed, h.started,
      h.counts.frame rfl (fun t _ => ?_), by simp⟩
    simp only [Sys.Pending, Sys.live, Sys.current, List.append_nil, List.nil_append,
      List.mem_append]
    exact exists_congr fun w => and_congr_left fun _ => or_comm

theorem of_run {s : Sys} (h : Run Sys.step (steady all c) (Sys.idle Disk.empty) es s) :
    s.Inv ∧ RerunInv all c es s :=
  h.traceInvariant (I := fun es s => s.Inv ∧ RerunInv all c es s) ⟨.init, .init⟩
    fun _ _ _ _ hI hok hs => ⟨hI.1.step hok.1 hs, hI.2.step hI.1 hok hs⟩

end RerunInv

end CorpusRunner
