import CorpusRunner.Proofs.Protocol

/-!
# Ledger safety

In every state that supervisors, workers, deaths and container crashes can reach:
`progress.jsonl` has at most one line per test, each line is a record of `runOne` or the mark
of a test that a dead worker left in flight, and `inflight.json` lists what is running.
-/

namespace CorpusRunner

/-- What entitles a step from `s` to append a line: `runOne` has produced the record for a
test that a live worker holds, or the test was in flight in a dead worker and has no line. -/
inductive Justified (s : Sys) : Rec → Prop
  | ran (w : Worker) (r : RunRec) : w ∈ s.live → w.thread = .settled r →
      r.test ∈ w.inFlight.keys → Justified s (.ran r)
  | crash (w : Worker) (t note : JsString) : w ∈ s.fallen → t ∈ w.inFlight.keys →
      t ∉ recorded s.disk.progress → Justified s (.crashMark t note)

/-- A step leaves `progress.jsonl` alone or appends one justified line. -/
theorem progress_step {s s' : Sys} {e : Event} (h : s.Inv) (hok : supervised s e)
    (hs : s.step e = some s') :
    s'.disk.progress = s.disk.progress ∨
      ∃ r, s'.disk.progress = s.disk.progress ++ [r] ∧ Justified s r := by
  have horph := h.orphans
  obtain ⟨d, sup, orphans, fallen, clock⟩ := s
  obtain rfl : orphans = [] := horph
  cases sysStep_of_step hs with
  | @sup cfg at_ now pc p' d' hsup =>
    have hpc : pc.Ok cfg d fallen := h.pc _ rfl
    cases hsup with
    | rmProgress => exact hpc.elim
    | mark reason b k e targets =>
      have ht : TargetsOk d (e :: targets) := hpc
      obtain ⟨w, hw, hk⟩ := h.registry.mem (ht.mem e (by simp))
      refine .inr ⟨_, rfl, .crash w _ _ ?_ hk (ht.unrecorded e (by simp))⟩
      change fallen = [w] at hw
      simp [hw]
    | _ => exact .inl rfl
  | @worker cfg at_ np before w w' d' we hw' =>
    have hpc : fallen = [] ∧ w.cfg = cfg ∧ w.Inv d := h.pc _ rfl
    cases hw' with
    | @append r ht =>
      have hr : r.test ∈ w.inFlight.keys := by
        simpa [Worker.ThreadOk, ht] using hpc.2.2.thread
      exact .inr ⟨_, rfl, .ran w r (by simp [Sys.live, Sys.current]) ht hr⟩
    | _ => exact .inl rfl
  | orphan hi => simp at hi
  | interrupt => exact hok.elim
  | _ => exact .inl rfl

/-- Lines are only ever appended. -/
theorem progress_extends {s s' : Sys} {es : List Event} (h : s.Inv)
    (hr : Run Sys.step supervised s es s') : s.disk.progress <+: s'.disk.progress := by
  have hr' := hr.strengthen h fun _ _ _ hI hok hs => hI.step hok hs
  refine hr'.invariant (I := fun t => s.disk.progress <+: t.disk.progress)
    (List.prefix_refl _) ?_
  rintro t e t' hp ⟨hok, hI⟩ hs
  rcases progress_step hI hok hs with heq | ⟨r, heq, -⟩
  · rwa [heq]
  · rw [heq]
    exact hp.trans (List.prefix_append _ _)

/-- Every line has been appended by a step that was entitled to. -/
theorem justified_lines {s : Sys} {es : List Event}
    (h : Run Sys.step supervised (Sys.idle Disk.empty) es s) :
    ∀ r ∈ s.disk.progress, ∃ es₁ e es₂ s₁ s₂, es = es₁ ++ e :: es₂ ∧
      Run Sys.step supervised (Sys.idle Disk.empty) es₁ s₁ ∧ s₁.step e = some s₂ ∧
      s₂.disk.progress = s₁.disk.progress ++ [r] ∧ Justified s₁ r := by
  induction h with
  | refl => simp [Sys.idle, Disk.empty]
  | @snoc es e s' s'' hrun hok hs ih =>
    intro r hr
    have old : r ∈ s'.disk.progress → ∃ es₁ e' es₂ s₁ s₂, es ++ [e] = es₁ ++ e' :: es₂ ∧
        Run Sys.step supervised (Sys.idle Disk.empty) es₁ s₁ ∧ s₁.step e' = some s₂ ∧
        s₂.disk.progress = s₁.disk.progress ++ [r] ∧ Justified s₁ r := by
      intro hr
      obtain ⟨es₁, e', es₂, s₁, s₂, rfl, h1, h2, h3, h4⟩ := ih r hr
      exact ⟨es₁, e', es₂ ++ [e], s₁, s₂, by simp, h1, h2, h3, h4⟩
    rcases progress_step (.of_run hrun) hok hs with heq | ⟨r', heq, hj⟩
    · exact old (heq ▸ hr)
    · rw [heq] at hr
      rcases List.mem_append.mp hr with hr | hr
      · exact old hr
      · obtain rfl : r = r' := by simpa using hr
        exact ⟨es, e, [], s', s'', rfl, hrun, hs, heq, hj⟩

/-- As long as a worker is alive, or dead and not harvested, every test it has spawned and not
recorded is listed. -/
theorem running_listed {s : Sys} (h : s.Inv) :
    ∀ w ∈ s.live ++ s.fallen, ∀ t ∈ w.running, t ∈ listed s.disk.inflight := by
  intro w hw t ht
  have hmem : w ∈ s.current ++ s.fallen := by
    simpa [Sys.live, h.orphans] using hw
  have hreg := h.registry
  generalize hl : s.current ++ s.fallen = ws at hreg hmem
  cases hreg with
  | nobody => simp at hmem
  | one w' heq =>
    obtain rfl : w = w' := by simpa using hmem
    rw [heq, listed_registry]
    exact w.running_subset_shown t ht

/-- **Ledger safety.** In every reachable state `progress.jsonl` holds at most one line per
test, so that in every later state the entry of a recorded test is the line it has now; every
line was justified when it was appended; and every test that a worker, alive or dead and not
yet harvested, has spawned and not recorded is listed in `inflight.json`. -/
theorem ledgerSafety {s : Sys} {es : List Event}
    (h : Run Sys.step supervised (Sys.idle Disk.empty) es s) :
    (recorded s.disk.progress).Nodup ∧
    (∀ es' s', Run Sys.step supervised s es' s' → ∀ r ∈ s.disk.progress,
      (readLedger s'.disk.progress).get? r.test = some r) ∧
    (∀ r ∈ s.disk.progress, ∃ es₁ e es₂ s₁ s₂, es = es₁ ++ e :: es₂ ∧
      Run Sys.step supervised (Sys.idle Disk.empty) es₁ s₁ ∧ s₁.step e = some s₂ ∧
      s₂.disk.progress = s₁.disk.progress ++ [r] ∧ Justified s₁ r) ∧
    ∀ w ∈ s.live ++ s.fallen, ∀ t ∈ w.running, t ∈ listed s.disk.inflight := by
  have hI := Sys.Inv.of_run h
  refine ⟨hI.nodup, ?_, justified_lines h, running_listed hI⟩
  intro es' s' h' r hr
  have hI' := Sys.Inv.of_run (h.trans h')
  exact get?_readLedger_of_nodup hI'.nodup ((progress_extends hI h').subset hr)

/-- Two tests, two slots. -/
def twoTests : Config := ⟨⟨[js "a", js "b"], by decide⟩, 2, 90000, 4⟩

def passRec (t : JsString) : RunRec := ⟨t, .pass, 7, some 0, none, [], none⟩

/-- `a` is recorded and still listed, `b` is running, when the container crashes; the next
supervisor crashes in the middle of its harvest, right after the mark of `b`. -/
def crashedHarvest : List Event :=
  [.start twoTests false, .sup 0, .sup 0, .sup 0, .sup 0, .sup 0, .sup 1, .sup 1] ++
  [.load, .clear, .claim 1, .register, .spawn (js "a") (some 11), .mirror,
    .claim 2, .register, .spawn (js "b") (some 12), .mirror,
    .settle (passRec (js "a")), .append].map Event.worker ++
  [.containerCrash, .start twoTests false, .sup 3, .sup 3, .sup 3, .sup 3, .sup 3, .sup 3,
    .containerCrash]

theorem ledgerSafety_crashedHarvest :
    ∃ s, execute Sys.step supervised (Sys.idle Disk.empty) crashedHarvest = some s ∧
      s.disk.progress = [.ran (passRec (js "a")), .crashMark (js "b") startupReason] ∧
      (recorded s.disk.progress).Nodup ∧ s.fallen.length = 1 := by
  have safe : ∀ s, execute Sys.step supervised (Sys.idle Disk.empty) crashedHarvest = some s →
      (recorded s.disk.progress).Nodup := fun s h => (ledgerSafety (run_of_execute h)).1
  exact ⟨_, rfl, rfl, safe _ rfl, rfl⟩

end CorpusRunner
