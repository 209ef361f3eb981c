import CorpusRunner.Misc.ListOrder
import CorpusRunner.Proofs.PoolBound
import CorpusRunner.Proofs.WorkerInvariant

/-!
# The worker as a pool

The worker is a pool over the tests it found without a record, seen through its map (`Follows`):
a claim and the end of a slot are turns of the pool, taking a test out of the map resolves its
work, and no other step is seen. Others may write the files meanwhile, as long as they only
append to the ledger. So what stands in the list in front of a running test is running or has a
record (`runPool_bounded`).
-/

namespace CorpusRunner

/-! ## A worker among others -/

/-- A step of the worker, or of somebody else who appends to the ledger and writes the other
files. -/
inductive SharedEvent where
  | own (e : WorkerEvent)
  | others (lines : List Rec) (inflight : List Entry) (summary : Option Summary)

def sharedStep (s : Worker × Disk) : SharedEvent → Option (Worker × Disk)
  | .own e => s.1.step s.2 e
  | .others lines inflight summary => some (s.1, ⟨s.2.progress ++ lines, inflight, summary⟩)

/-! ## The pool behind a worker -/

/-- What the thread's position says about the pool. -/
def PoolAt (w : Worker) (d : Disk) (p : Pool JsString) : Prop :=
  match w.thread with
  | .boot => False
  | .claimed t => 0 < p.i ∧ p.items[p.i - 1]? = some t
  | .registered t => 0 < p.i ∧ p.items[p.i - 1]? = some t
  | .settled r => r.test ∈ w.inFlight.keys
  | .appended t => t ∈ w.inFlight.keys ∧ t ∈ recorded d.progress
  | _ => True

/-- The worker is where the pool is. -/
structure Follows (w : Worker) (d : Disk) (p : Pool JsString) : Prop where
  items : p.items.Sublist w.cfg.all.tests
  conc : p.conc = w.cfg.concurrency.toNat
  queue : w.queue = p.items.drop p.i
  slots : p.unstarted = w.unstarted ∧ p.looping = w.looping
  map : w.inFlight.keys.map some = p.running.map (fun k => p.items[k]?)
  selected : ∀ t ∈ w.cfg.all.tests, t ∉ recorded d.progress → t ∈ p.items
  finished : ∀ k ∈ p.finished, ∀ t, p.items[k]? = some t → t ∈ recorded d.progress
  thread : PoolAt w d p

namespace Follows

variable {w w' : Worker} {d d' : Disk} {p : Pool JsString}

theorem nodup (h : Follows w d p) : p.items.Nodup := List.Nodup.sublist h.items w.cfg.all.nodup

theorem mem_keys (h : Follows w d p) {t : JsString} :
    t ∈ w.inFlight.keys ↔ ∃ k ∈ p.running, p.items[k]? = some t := by
  have hmem : some t ∈ w.inFlight.keys.map some ↔ t ∈ w.inFlight.keys := by simp
  rw [← hmem, h.map, List.mem_map]

theorem size_eq (h : Follows w d p) : w.inFlight.size = p.running.length := by
  have hlength := congrArg List.length h.map
  rwa [List.length_map, List.length_map, JsMap.length_keys] at hlength

/-- A test stands at one place of the items. -/
theorem index_eq (h : Follows w d p) {j k : Nat} {t : JsString} (hj : p.items[j]? = some t)
    (hk : p.items[k]? = some t) : j = k :=
  (List.getElem?_inj (List.getElem?_eq_some_iff.mp hj).1 h.nodup).mp (hj.trans hk.symm)

/-- The pool does not see a step that leaves the queue, the slots and the map's keys alone. -/
theorem keep (h : Follows w d p) (hcfg : w'.cfg = w.cfg) (hqueue : w'.queue = w.queue)
    (hslots : w'.unstarted = w.unstarted ∧ w'.looping = w.looping)
    (hkeys : w'.inFlight.keys = w.inFlight.keys)
    (hprogress : recorded d.progress ⊆ recorded d'.progress) (hthread : PoolAt w' d' p) :
    Follows w' d' p where
  items := hcfg ▸ h.items
  conc := hcfg ▸ h.conc
  queue := hqueue.trans h.queue
  slots := ⟨h.slots.1.trans hslots.1.symm, h.slots.2.trans hslots.2.symm⟩
  map := hkeys ▸ h.map
  selected := by
    intro t ht hr
    exact h.selected t (hcfg ▸ ht) (fun hmem => hr (hprogress hmem))
  finished := fun k hk t ht => hprogress (h.finished k hk t ht)
  thread := hthread

theorem takeSlot (h : Follows w d p) {w₁ : Worker} (hs : w.takeSlot = some w₁) :
    p.takeSlot = some { p with unstarted := w₁.unstarted, looping := w₁.looping } := by
  obtain ⟨hunstarted, hlooping⟩ := h.slots
  obtain ⟨n, hn, rfl⟩ := Option.map_eq_some_iff.mp hs
  rw [Pool.takeSlot, hunstarted, hlooping, hn]
  rfl

/-- A claim is a turn of the pool. -/
theorem claim (h : Follows w d p) (hI : p.Inv) {w₁ : Worker} {t : JsString}
    {rest : List JsString} {v : Reg} (hq : w.queue = t :: rest) (hs : w.takeSlot = some w₁) :
    ∃ p', p.step .turn = some p' ∧
      Follows { w₁ with thread := .claimed t, queue := rest, inFlight := w.inFlight.set t v }
        d p' := by
  obtain ⟨hcfg, -, -, -, -⟩ := Worker.takeSlot_frame hs
  have hdrop : p.items.drop p.i = t :: rest := h.queue.symm.trans hq
  have hitem : p.items[p.i]? = some t := by
    rw [← List.head?_drop, hdrop]
    rfl
  have hrest : rest = p.items.drop (p.i + 1) := by
    rw [← List.tail_drop, hdrop]
    rfl
  have hnot : t ∉ w.inFlight.keys := by
    intro ht
    obtain ⟨k, hk, hkt⟩ := h.mem_keys.mp ht
    exact (hI.lt hk).ne (h.index_eq hkt hitem)
  have hturn : p.step .turn = some { p with
      unstarted := w₁.unstarted, looping := w₁.looping, i := p.i + 1
      running := p.running ++ [p.i], calls := p.calls ++ [t] } := by
    simp only [Pool.step, h.takeSlot hs, hitem]
  refine ⟨_, hturn, ?_⟩
  exact {
    items := hcfg ▸ h.items
    conc := hcfg ▸ h.conc
    queue := hrest
    slots := ⟨rfl, rfl⟩
    map := by
      simp only [JsMap.keys_set_of_notMem hnot, List.map_append, h.map, List.map_singleton, hitem]
    selected := fun a ha => h.selected a (hcfg ▸ ha)
    finished := h.finished
    thread := ⟨Nat.succ_pos _, hitem⟩ }

/-- A slot that finds the queue empty ends in the pool as well. -/
theorem slotEnd (h : Follows w d p) {w₁ : Worker} (ht : w.thread = .idle) (hq : w.queue = [])
    (hs : w.takeSlot = some w₁) :
    ∃ p', p.step .turn = some p' ∧ Follows w₁ d p' := by
  obtain ⟨hcfg, hth, hqu, hfl, -⟩ := Worker.takeSlot_frame hs
  have hnone : p.items[p.i]? = none := by
    rw [← List.head?_drop, ← h.queue, hq]
    rfl
  have hturn : p.step .turn = some { p with
      unstarted := w₁.unstarted, looping := w₁.looping, returned := p.returned + 1 } := by
    simp only [Pool.step, h.takeSlot hs, hnone]
  refine ⟨_, hturn, ?_⟩
  exact {
    items := hcfg ▸ h.items
    conc := hcfg ▸ h.conc
    queue := hqu.trans h.queue
    slots := ⟨rfl, rfl⟩
    map := hfl ▸ h.map
    selected := fun a ha => h.selected a (hcfg ▸ ha)
    finished := h.finished
    thread := by simp [PoolAt, hth, ht] }

/-- Taking a test out of the map resolves its work. -/
theorem deregister (h : Follows w d p) {t : JsString} (ht : w.thread = .appended t) :
    ∃ k p', p.step (.resolves k) = some p' ∧
      Follows { w with thread := .idle, looping := w.looping + 1, inFlight := w.inFlight.delete t }
        { d with inflight := registry (w.inFlight.delete t) } p' := by
  have hat : t ∈ w.inFlight.keys ∧ t ∈ recorded d.progress := by
    simpa only [PoolAt, ht] using h.thread
  obtain ⟨k, hk, hkt⟩ := h.mem_keys.mp hat.1
  have hresolves : p.step (.resolves k) = some { p with
      looping := p.looping + 1, running := p.running.filter (fun j => decide (j ≠ k))
      finished := p.finished ++ [k] } := by
    simp only [Pool.step, if_pos hk]
  refine ⟨k, _, hresolves, ?_⟩
  exact {
    items := h.items
    conc := h.conc
    queue := h.queue
    slots := ⟨h.slots.1, congrArg (· + 1) h.slots.2⟩
    map := by
      have hkeys : (w.inFlight.keys.filter (fun a => decide (a ≠ t))).map some =
          (w.inFlight.keys.map some).filter (fun a => decide (a ≠ some t)) := by
        rw [List.filter_map]
        congr 2
        funext a
        simp
      rw [JsMap.keys_delete, hkeys, h.map, List.filter_map]
      congr 1
      apply List.filter_congr
      intro j _
      have hiff : p.items[j]? ≠ some t ↔ j ≠ k :=
        not_congr ⟨fun hj => h.index_eq hj hkt, fun hj => hj ▸ hkt⟩
      exact decide_eq_decide.mpr hiff
    selected := h.selected
    finished := by
      intro j hj a ha
      rcases List.mem_append.mp hj with hj | hj
      · exact h.finished j hj a ha
      · obtain rfl := List.mem_singleton.mp hj
        obtain rfl : t = a := Option.some.inj (hkt.symm.trans ha)
        exact hat.2
    thread := trivial }

/-- The pool follows each step of the worker. -/
theorem step (h : Follows w d p) (hI : p.Inv) {e : WorkerEvent} (hs : WorkerStep w d e w' d') :
    ∃ es p', Run Pool.step unrestricted p es p' ∧ Follows w' d' p' := by
  have hnone {w' : Worker} {d' : Disk} (h' : Follows w' d' p) :
      ∃ es p', Run Pool.step unrestricted p es p' ∧ Follows w' d' p' := ⟨[], p, .refl, h'⟩
  cases hs with
  | load ht => exact absurd h.thread (by simp [PoolAt, ht])
  | clear ht | clearRejects ht =>
    exact hnone (h.keep rfl rfl ⟨rfl, rfl⟩ rfl (List.Subset.refl _) trivial)
  | claim ht hq hs =>
    obtain ⟨p', hturn, h'⟩ := h.claim hI hq hs
    exact ⟨[.turn], p', .single trivial hturn, h'⟩
  | slotEnd ht hq hs =>
    obtain ⟨p', hturn, h'⟩ := h.slotEnd ht hq hs
    exact ⟨[.turn], p', .single trivial hturn, h'⟩
  | register ht =>
    have hat := h.thread
    simp only [PoolAt, ht] at hat
    exact hnone (h.keep rfl rfl ⟨rfl, rfl⟩ rfl (List.Subset.refl _) hat)
  | spawn ht => exact hnone (h.keep rfl rfl ⟨rfl, rfl⟩ rfl (List.Subset.refl _) trivial)
  | spawnThrows ht => exact hnone (h.keep rfl rfl ⟨rfl, rfl⟩ rfl (List.Subset.refl _) trivial)
  | mirror ht =>
    exact hnone (h.keep rfl rfl ⟨rfl, rfl⟩ (by simp) (List.Subset.refl _) trivial)
  | settle ht hu hr => exact hnone (h.keep rfl rfl ⟨rfl, rfl⟩ rfl (List.Subset.refl _) hr)
  | @append r ht =>
    have hat : r.test ∈ w.inFlight.keys := by simpa only [PoolAt, ht] using h.thread
    have hsub : recorded d.progress ⊆ recorded (d.progress ++ [.ran r]) := by simp
    exact hnone (h.keep rfl rfl ⟨rfl, rfl⟩ rfl hsub ⟨hat, by simp⟩)
  | deregister ht =>
    obtain ⟨k, p', hresolves, h'⟩ := h.deregister ht
    exact ⟨[.resolves k], p', .single trivial hresolves, h'⟩

/-- Others only add records. -/
theorem others (h : Follows w d p) (lines : List Rec) (inflight : List Entry)
    (summary : Option Summary) : Follows w ⟨d.progress ++ lines, inflight, summary⟩ p := by
  have hsub : recorded d.progress ⊆ recorded (d.progress ++ lines) := by simp
  refine h.keep rfl rfl ⟨rfl, rfl⟩ rfl hsub ?_
  have hat := h.thread
  unfold PoolAt at hat ⊢
  cases ht : w.thread with
  | appended t =>
    simp only [ht] at hat ⊢
    exact ⟨hat.1, hsub hat.2⟩
  | claimed t => simpa only [ht] using hat
  | registered t => simpa only [ht] using hat
  | settled r => simpa only [ht] using hat
  | boot => simp only [ht] at hat
  | loaded | idle | spawned | rejected => trivial

/-- When the worker has read the ledger, its pool starts. -/
theorem load (hmap : w.inFlight.keys = []) (hlooping : w.looping = 0)
    (hlimit : w.cfg.concurrency < arrayLimit) :
    Follows
      { w with thread := .loaded
               queue := w.cfg.all.tests.filter (fun t => !(readLedger d.progress).has t)
               unstarted := w.cfg.concurrency.toNat } d
      (.start (w.cfg.all.tests.filter (fun t => !(readLedger d.progress).has t))
        w.cfg.concurrency.toNat) where
  items := List.filter_sublist
  conc := rfl
  queue := rfl
  slots := by
    have hpos : 0 < arrayLimit := by decide
    exact ⟨Pool.slots_eq (by omega), hlooping.symm⟩
  map := by rw [hmap]; rfl
  selected := by
    intro t ht' hr
    exact List.mem_filter.mpr ⟨ht', by simpa using hr⟩
  finished := fun k hk => absurd hk List.not_mem_nil
  thread := trivial

/-! ## What stands in front of a running test -/

/-- A later index is no earlier place in the list. -/
theorem index_lt (h : Follows w d p) {j k : Nat} {a b : JsString} (ha : p.items[j]? = some a)
    (hb : p.items[k]? = some b) (hbefore : a ∈ before w.cfg.all.tests b) : j < k := by
  by_contra hle
  rcases Nat.eq_or_lt_of_le (Nat.not_lt.mp hle) with rfl | hlt
  · obtain rfl : a = b := Option.some.inj (ha.symm.trans hb)
    exact notMem_before _ _ hbefore
  · -- `b` comes first in the items, so also in the list
    have htake : b ∈ p.items.take j := by
      apply List.mem_of_getElem? (i := k)
      rw [List.getElem?_take_of_lt hlt, hb]
    have hdrop : a ∈ p.items.drop j := by
      apply List.mem_of_getElem? (i := 0)
      rw [List.getElem?_drop, Nat.add_zero, ha]
    have hpair : [b, a].Sublist (p.items.take j ++ p.items.drop j) :=
      (List.singleton_sublist.mpr htake).append (List.singleton_sublist.mpr hdrop)
    rw [List.take_append_drop] at hpair
    exact notMem_before_of_pair_sublist w.cfg.all.nodup (hpair.trans h.items) hbefore

/-- An index that has been claimed and has no record is in the map. -/
theorem mem_of_claimed (h : Follows w d p) (hI : p.Inv) {j : Nat} {a : JsString}
    (ha : p.items[j]? = some a) (hj : j < p.i) (hr : a ∉ recorded d.progress) :
    a ∈ w.inFlight.keys := by
  have hmem : j ∈ p.running ++ p.finished := hI.once.mem_iff.mpr (List.mem_range.mpr hj)
  rcases List.mem_append.mp hmem with hmem | hmem
  · exact h.mem_keys.mpr ⟨j, hmem, ha⟩
  · exact absurd (h.finished j hmem a ha) hr

theorem inFlight_of_before (h : Follows w d p) (hI : p.Inv) {a b : JsString}
    (hb : b ∈ w.inFlight.keys) (hbefore : a ∈ before w.cfg.all.tests b)
    (hr : a ∉ recorded d.progress) : a ∈ w.inFlight.keys := by
  obtain ⟨k, hk, hkb⟩ := h.mem_keys.mp hb
  have hall : a ∈ w.cfg.all.tests := (before_sublist _ _).subset hbefore
  obtain ⟨j, hj⟩ := List.mem_iff_getElem?.mp (h.selected a hall hr)
  exact h.mem_of_claimed hI hj ((h.index_lt hj hkb hbefore).trans (hI.lt hk)) hr

/-- The test that was claimed last has none behind it. -/
theorem ne_of_last (h : Follows w d p) (hI : p.Inv) {t a b : JsString}
    (hlast : 0 < p.i ∧ p.items[p.i - 1]? = some t) (hb : b ∈ w.inFlight.keys)
    (hbefore : a ∈ before w.cfg.all.tests b) : a ≠ t := by
  intro hat
  obtain ⟨k, hk, hkb⟩ := h.mem_keys.mp hb
  have hlt := h.index_lt (hat ▸ hlast.2) hkb hbefore
  have hki := hI.lt hk
  omega

theorem running_of_before (h : Follows w d p) (hI : p.Inv) {a b : JsString}
    (hb : b ∈ w.running) (hbefore : a ∈ before w.cfg.all.tests b)
    (hr : a ∉ recorded d.progress) : a ∈ w.running := by
  have hbin := Worker.running_subset_inFlight w b hb
  have hain := h.inFlight_of_before hI hbin hbefore hr
  have hat := h.thread
  unfold PoolAt at hat
  unfold Worker.running Thread.running
  cases ht : w.thread with
  | claimed t =>
    simp only [ht] at hat
    exact List.mem_filter.mpr ⟨hain, decide_eq_true (h.ne_of_last hI hat hbin hbefore)⟩
  | registered t =>
    simp only [ht] at hat
    exact List.mem_filter.mpr ⟨hain, decide_eq_true (h.ne_of_last hI hat hbin hbefore)⟩
  | appended t =>
    simp only [ht] at hat
    refine List.mem_filter.mpr ⟨hain, decide_eq_true ?_⟩
    exact fun hat' => hr (hat' ▸ hat.2)
  | boot | loaded | idle | spawned | settled | rejected => exact hain

end Follows

/-! ## Runs -/

/-- The worker has not read the ledger yet, or `runPool` throws. -/
def Worker.Poolless (w : Worker) : Prop :=
  match w.thread with
  | .boot => True
  | .loaded => arrayLimit ≤ w.cfg.concurrency
  | .rejected => True
  | _ => False

/-- A worker without a pool has nothing, any other follows one. -/
def Pooled (s : Worker × Disk) : Prop :=
  (s.1.Poolless ∧ s.1.inFlight.keys = [] ∧ s.1.looping = 0) ∨
    ∃ items conc es p, Run Pool.step unrestricted (.start items conc) es p ∧ Follows s.1 s.2 p

theorem Pooled.step {s s' : Worker × Disk} {e : SharedEvent} (h : Pooled s)
    (hs : sharedStep s e = some s') : Pooled s' := by
  obtain ⟨w, d⟩ := s
  obtain ⟨w', d'⟩ := s'
  cases e with
  | own e =>
    have hstep : WorkerStep w d e w' d' := workerStep_of_step hs
    rcases h with ⟨ht, hmap, hlooping⟩ | ⟨items, conc, es, p, hrun, hfollows⟩
    · have hpoolless : w.Poolless := ht
      unfold Worker.Poolless at hpoolless
      cases hstep with
      | load _ =>
        by_cases hlimit : w.cfg.concurrency < arrayLimit
        · exact .inr ⟨_, _, [], _, .refl, Follows.load hmap hlooping hlimit⟩
        · exact .inl ⟨Int.not_lt.mp hlimit, hmap, hlooping⟩
      | clear h hc =>
        simp only [h] at hpoolless
        exact absurd hc (Int.not_lt.mpr hpoolless)
      | clearRejects => exact .inl ⟨trivial, hmap, hlooping⟩
      | register h | spawn h | spawnThrows h | mirror h | append h | deregister h =>
        simp only [h] at hpoolless
      | claim h _ _ | slotEnd h _ _ | settle h _ _ => simp only [h] at hpoolless
    · right
      obtain ⟨es', p', hrun', hfollows'⟩ := hfollows.step (Pool.inv_of_run hrun) hstep
      exact ⟨items, conc, es ++ es', p', hrun.trans hrun', hfollows'⟩
  | others lines inflight summary =>
    simp only [sharedStep, Option.some.injEq, Prod.mk.injEq] at hs
    obtain ⟨rfl, rfl⟩ := hs
    rcases h with hboot | ⟨items, conc, es, p, hrun, hfollows⟩
    · exact .inl hboot
    · exact .inr ⟨items, conc, es, p, hrun, hfollows.others lines inflight summary⟩

/-- The tests in flight of a worker, against its list and the ledger. -/
structure InListOrder (w : Worker) (d : Disk) : Prop where
  bound : w.inFlight.size ≤ w.cfg.concurrency.toNat
  inFlight : ∀ b ∈ w.inFlight.keys, ∀ a ∈ before w.cfg.all.tests b,
    a ∉ recorded d.progress → a ∈ w.inFlight.keys
  running : ∀ b ∈ w.running, ∀ a ∈ before w.cfg.all.tests b,
    a ∉ recorded d.progress → a ∈ w.running

theorem Pooled.inListOrder {w : Worker} {d : Disk} (h : Pooled (w, d)) : InListOrder w d := by
  rcases h with ⟨-, hmap, -⟩ | ⟨items, conc, es, p, hrun, hfollows⟩
  · have hkeys : w.inFlight.keys = [] := hmap
    refine ⟨?_, by simp [hkeys], ?_⟩
    · rw [← JsMap.length_keys, hkeys]
      exact Nat.zero_le _
    · intro b hb
      exact absurd (Worker.running_subset_inFlight w b hb) (by simp [hkeys])
  · have hI := Pool.inv_of_run hrun
    have hslots := hI.slots
    have hle := Pool.slots_le p.conc
    refine ⟨?_, ?_, ?_⟩
    · have hfollows : Follows w d p := hfollows
      rw [hfollows.size_eq, ← hfollows.conc]
      omega
    · exact fun b hb a hbefore hr => hfollows.inFlight_of_before hI hb hbefore hr
    · exact fun b hb a hbefore hr => hfollows.running_of_before hI hb hbefore hr

/-- The pool works off its items in order, each once and as many at a time as it has slots, and
resolves when it is done, as long as the slots fit into an array; the worker's map is within the
same bound, and what stands in the list in front of a test in flight is in flight or has a
record. -/
theorem runPool_bounded {α : Type} (items : List α) {conc : Nat} (hconc : 1 ≤ conc)
    (hlimit : conc < arrayLimit) (cfg : Config) (d : Disk) :
    (∀ es p, Run Pool.step unrestricted (.start items conc) es p →
      p.items = items ∧ p.conc = conc ∧ p.Bounded) ∧
    Terminates Pool.step unrestricted (.start items conc) ∧
    (∀ es p, Run Pool.step unrestricted (.start items conc) es p →
      (∀ q, ¬ Steps Pool.step unrestricted p q) → p.resolved = true) ∧
    ∀ es w d', Run sharedStep unrestricted (.launched cfg, d) es (w, d') → InListOrder w d' := by
  refine ⟨?_, Pool.terminates_start items conc, ?_, ?_⟩
  · intro es p h
    obtain ⟨hitems, hp⟩ := Pool.frame_of_run h
    exact ⟨hitems, hp, (Pool.inv_of_run h).bounded (hp ▸ hconc) (hp ▸ hlimit)⟩
  · intro es p h hstuck
    obtain ⟨-, hp⟩ := Pool.frame_of_run h
    exact Pool.resolved_of_stuck (Pool.inv_of_run h) (hp ▸ hlimit) hstuck
  · intro es w d' h
    have hpooled : Pooled (w, d') :=
      h.invariant (Or.inl ⟨trivial, rfl, rfl⟩) fun _ _ _ hI _ hs => hI.step hs
    exact hpooled.inListOrder

/-- Two slots over three items, of which the second resolves first. -/
def threeItems : List PoolEvent :=
  [.turn, .turn, .resolves 1, .turn, .resolves 2, .resolves 0, .turn, .turn]

theorem runPool_bounded_threeItems :
    ∃ p : Pool Nat, execute Pool.step unrestricted (.start [10, 20, 30] 2) threeItems = some p ∧
      p.resolved = true ∧ p.Bounded := by
  have hrun : execute Pool.step unrestricted (.start [10, 20, 30] 2) threeItems = some
      { Pool.start [10, 20, 30] 2 with
        i := 3, unstarted := 0, finished := [1, 2, 0], returned := 2, calls := [10, 20, 30] } := by
    decide
  have hall := (runPool_bounded [10, 20, 30] (by decide : 1 ≤ 2) (by decide)
    ⟨⟨[js "a"], by simp⟩, 2, 90000, 4⟩ .empty).1
  exact ⟨_, hrun, by decide, (hall _ _ (run_of_execute hrun)).2.2⟩

/-- With 2^32 slots no work is called, and `runPool` does not resolve. -/
theorem runPool_bounded_fails_arrayLimit :
    1 ≤ arrayLimit ∧ (Pool.start [10, 20] arrayLimit).rejected = true ∧
      (∀ es p, Run Pool.step unrestricted (.start [10, 20] arrayLimit) es p → p.calls = []) ∧
      ¬ ∀ es p, Run Pool.step unrestricted (.start [10, 20] arrayLimit) es p →
        (∀ q, ¬ Steps Pool.step unrestricted p q) → p.calls = [10, 20] ∧ p.resolved = true := by
  have hlimit : arrayLimit ≤ arrayLimit := Nat.le_refl _
  refine ⟨by decide, by decide, fun es p h => ?_, fun h => ?_⟩
  · rw [Pool.eq_start_of_rejected hlimit h]
    rfl
  · have hstuck : ∀ q, ¬ Steps Pool.step unrestricted (.start [10, 20] arrayLimit) q := by
      rintro q ⟨e, -, hs⟩
      rw [Pool.not_step_of_rejected hlimit] at hs
      cases hs
    exact absurd (h [] _ .refl hstuck).1 (by decide)

end CorpusRunner
