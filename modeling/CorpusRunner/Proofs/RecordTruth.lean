import CorpusRunner.Proofs.StallBound
import CorpusRunner.Proofs.TimeoutVerdict

/-!
# What a record may be relied on for

Between the events of one call of `runOne` and its record stands the order in which the handlers
are called, and the record can be wrong about that (`RunOne.exactVerdict_iff`). What it is never
wrong about is here (`RunOne.Truthful`): a test that passes or is skipped has ended with exit code
0, an exit code and a signal are the child's own, a timeout was not declared before its time, and
no duration is longer than the cap and the 3000 ms of the reap timer.
-/

namespace CorpusRunner

theorem length_last (n : Nat) (s : JsString) :
    (if s.length > n then s.drop (s.length - n) else s).length ≤ n := by
  split
  · rw [List.length_drop]
    omega
  · omega

/-- The text that a record keeps stays within 1500 code units. -/
theorem length_tailText (out err errorMsg : JsString) :
    (tailText out err errorMsg).length ≤ 1500 :=
  length_last 1500 _

/-- An exit code is only ever classified as 0 or as something else. -/
theorem classify_passes_iff (out err : JsString) (code : Option Int) :
    (classify out err code = .pass ∨ classify out err code = .skip) ↔ code = some 0 := by
  unfold classify
  split
  · rename_i hcode
    split <;> simp [hcode]
  · rename_i hcode
    simp [hcode]

/-- The child has been heard to end. -/
def Ended (es : List (Nat × RunEvent)) : Prop := ∃ e ∈ es, e.2 = .exit ∨ e.2 = .close

theorem Ended.append {es : List (Nat × RunEvent)} (h : Ended es) (es' : List (Nat × RunEvent)) :
    Ended (es ++ es') := by
  obtain ⟨e, he, hends⟩ := h
  exact ⟨e, List.mem_append_left _ he, hends⟩

theorem ended_snoc {es : List (Nat × RunEvent)} {now : Nat} {e : RunEvent}
    (h : e = .exit ∨ e = .close) : Ended (es ++ [(now, e)]) :=
  ⟨(now, e), by simp, h⟩

namespace RunOne

/-- What the record says of the call is so; the kill timer was armed for `cap`, and the events
are the call's own. -/
structure Truthful (s : RunOne) (cap : Nat) (es : List (Nat × RunEvent)) (r : RunRec) : Prop where
  test : r.test = s.test
  flags : r.flags = s.flags
  /-- A test passes, or is skipped, exactly by exit code 0, unless it has timed out. -/
  passed : (r.status = .pass ∨ r.status = .skip) ↔ r.exitCode = some 0 ∧ r.status ≠ .timeout
  code : ∀ c, r.exitCode = some c → s.ending.code = some c ∧ Ended es
  /-- The reap timer's record has a signal of its own. -/
  signal : ∀ x, r.signal = some x →
    s.ending.signal = some x ∧ Ended es ∨ r.status = .timeout ∧ x = js "SIGKILL"
  capped : r.status = .timeout → (cap : Int) ≤ r.durationMs
  duration : 0 ≤ r.durationMs ∧ r.durationMs ≤ cap + 3000
  /-- What failed comes with the end of its output. -/
  tail : r.tail.isSome = true ↔ r.status = .fail ∨ r.status = .timeout
  short : ∀ x, r.tail = some x → x.length ≤ 1500

variable {s s' : RunOne} {now cap : Nat} {e : RunEvent} {es : List (Nat × RunEvent)}

/-! ## The record of a handler -/

section Record

variable {status : RunStatus} {code : Option Int} {signal : Option JsString} {errorMsg : JsString}

theorem flags_finalize : (s.finalize now status code signal errorMsg).flags = s.flags := by
  unfold finalize
  split <;> rfl

theorem ending_finalize : (s.finalize now status code signal errorMsg).ending = s.ending := by
  unfold finalize
  split <;> rfl

/-- A `finalize` that finds the call settled makes no record. -/
theorem mem_resolved_finalize {r : RunRec}
    (h : r ∈ (s.finalize now status code signal errorMsg).resolved) :
    r ∈ s.resolved ∨ s.settled = false ∧ r = s.record now status code signal errorMsg := by
  by_cases hs : s.settled = true
  · rw [finalize_of_settled hs] at h
    exact .inl h
  · have hs : s.settled = false := by simpa using hs
    rw [resolved_finalize hs, List.mem_append, List.mem_singleton] at h
    rcases h with h | h
    · exact .inl h
    · exact .inr ⟨hs, h⟩

theorem tail_record : (s.record now status code signal errorMsg).tail.isSome = true ↔
    status = .fail ∨ status = .timeout := by
  by_cases h : status = .fail ∨ status = .timeout
  · simp [record, h]
  · simp [record, h]

theorem length_tail_record {x : JsString}
    (h : (s.record now status code signal errorMsg).tail = some x) : x.length ≤ 1500 := by
  simp only [record] at h
  split at h
  · rw [← Option.some.inj h]
    exact length_tailText ..
  · cases h

theorem signal_record {x : JsString}
    (h : (s.record now status code signal errorMsg).signal = some x) : signal = some x := by
  simp only [record] at h
  split at h
  · cases h
  · exact h

/-- The record of an `error`. -/
theorem truthful_of_error (hstart : s.started ≤ now) (hlate : now ≤ s.started + cap + 3000) :
    s.Truthful cap es (s.record now .fail none none errorMsg) where
  test := rfl
  flags := rfl
  passed := by simp [record]
  code := by simp [record]
  signal := by simp [record]
  capped := by simp [record]
  duration := by
    simp only [record]
    omega
  tail := tail_record
  short := fun _ => length_tail_record

/-- The record of a `close`, or of the grace timer. -/
theorem truthful_of_end (hstart : s.started ≤ now) (hlate : now ≤ s.started + cap + 3000)
    (hcapped : s.killed = true → s.started + cap ≤ now) (hended : Ended es) :
    s.Truthful cap es (s.record now
      (if s.killed then .timeout else classify s.out s.err s.ending.code)
      s.ending.code s.ending.signal []) where
  test := rfl
  flags := rfl
  passed := by
    simp only [record]
    cases s.killed with
    | true => simp
    | false => simp [classify_passes_iff, classify_ne_timeout]
  code := fun _ hc => ⟨hc, hended⟩
  signal := fun _ hx => .inl ⟨signal_record hx, hended⟩
  capped := by
    intro htimeout
    have hkilled : s.killed = true := by
      by_contra hnot
      simp only [record, hnot] at htimeout
      exact classify_ne_timeout _ _ _ htimeout
    have hnow := hcapped hkilled
    simp only [record]
    omega
  duration := by
    simp only [record]
    omega
  tail := tail_record
  short := fun _ => length_tail_record

/-- The record of the reap timer. -/
theorem truthful_of_reap (hlate : now ≤ s.started + cap + 3000)
    (hcapped : s.started + cap ≤ now) :
    s.Truthful cap es (s.record now .timeout none (some (js "SIGKILL")) []) where
  test := rfl
  flags := rfl
  passed := by simp [record]
  code := by simp [record]
  signal := fun _ hx => .inr ⟨rfl, (Option.some.inj (signal_record hx)).symm⟩
  capped := by
    intro _
    simp only [record]
    omega
  duration := by
    simp only [record]
    omega
  tail := tail_record
  short := fun _ => length_tail_record

end Record

end RunOne

/-! ## What a handler does -/

/-- Nothing else makes a `RunStep`. -/
theorem RunStep.step_eq {s s' : RunOne} {now : Nat} {e : RunEvent} (h : RunStep s now e s') :
    s.step (now, e) = some s' := by
  cases h with
  | stdout | stderr | error | exit | close => rfl
  | kill ht hc hx => simp [RunOne.step, ht, hc, hx]
  | reap ht hc => simp [RunOne.step, ht, hc]
  | grace ht hc => simp [RunOne.step, ht, hc]

/-- What the call has been given stays. -/
theorem RunStep.given_eq {s s' : RunOne} {now : Nat} {e : RunEvent} (h : RunStep s now e s') :
    s'.flags = s.flags ∧ s'.ending = s.ending := by
  have hraise : ∀ (u : RunOne) (killError : Option JsString),
      (u.raise now killError).flags = u.flags ∧ (u.raise now killError).ending = u.ending := by
    intro u killError
    cases killError with
    | none => exact ⟨rfl, rfl⟩
    | some msg => exact ⟨RunOne.flags_finalize, RunOne.ending_finalize⟩
  cases h with
  | stdout | stderr | exit => exact ⟨rfl, rfl⟩
  | error => exact ⟨RunOne.flags_finalize, RunOne.ending_finalize⟩
  | close => exact ⟨RunOne.flags_finalize, RunOne.ending_finalize⟩
  | @kill t killError => exact hraise (s.disarm t).markKilled killError
  | reap => exact ⟨RunOne.flags_finalize, RunOne.ending_finalize⟩
  | grace => exact ⟨RunOne.flags_finalize, RunOne.ending_finalize⟩

namespace RunOne

variable {s s' : RunOne} {now cap : Nat} {e : RunEvent} {es : List (Nat × RunEvent)}

/-- A later state of the call leaves a record as true as it was. -/
theorem Truthful.step {r : RunRec} (h : s.Truthful cap es r) (hstep : RunStep s now e s') :
    s'.Truthful cap es r := by
  obtain ⟨htest, -⟩ := hstep.test_eq
  obtain ⟨hflags, hending⟩ := hstep.given_eq
  refine { h with test := ?_, flags := ?_, code := ?_, signal := ?_ }
  · rw [htest]
    exact h.test
  · rw [hflags]
    exact h.flags
  · rw [hending]
    exact h.code
  · rw [hending]
    exact h.signal

/-- So do later events. -/
theorem Truthful.append {r : RunRec} (h : s.Truthful cap es r) (es' : List (Nat × RunEvent)) :
    s.Truthful cap (es ++ es') r := by
  refine { h with code := ?_, signal := ?_ }
  · intro c hc
    obtain ⟨hcode, hended⟩ := h.code c hc
    exact ⟨hcode, hended.append es'⟩
  · intro x hx
    rcases h.signal x hx with ⟨hsignal, hended⟩ | hreap
    · exact .inl ⟨hsignal, hended.append es'⟩
    · exact .inr hreap

/-- The record that a handler makes. -/
theorem record_cases (hstep : RunStep s now e s') {r : RunRec} (hr : r ∈ s'.resolved) :
    r ∈ s.resolved ∨
      s.settled = false ∧
        ((∃ msg, r = s.record now .fail none none msg) ∨
          (r = s.record now (if s.killed then .timeout else classify s.out s.err s.ending.code)
              s.ending.code s.ending.signal [] ∧
            (e = .close ∨ ∃ t ∈ s.timers.pending, t.callback = .grace)) ∨
          r = s.record now .timeout none (some (js "SIGKILL")) [] ∧
            ∃ t ∈ s.timers.pending, t.callback = .reap) := by
  cases hstep with
  | stdout | stderr | exit => exact .inl hr
  | error msg =>
    rcases mem_resolved_finalize hr with hr | ⟨hs, hr⟩
    · exact .inl hr
    · exact .inr ⟨hs, .inl ⟨_, hr⟩⟩
  | close =>
    rcases mem_resolved_finalize hr with hr | ⟨hs, hr⟩
    · exact .inl hr
    · exact .inr ⟨hs, .inr (.inl ⟨hr, .inl rfl⟩)⟩
  | @kill t killError =>
    cases killError with
    | none => exact .inl hr
    | some msg =>
      rcases mem_resolved_finalize (s := (s.disarm t).markKilled) hr with hr | ⟨hs, hr⟩
      · exact .inl hr
      · exact .inr ⟨hs, .inl ⟨_, hr⟩⟩
  | @reap t ht hc =>
    rcases mem_resolved_finalize (s := s.disarm t) hr with hr | ⟨hs, hr⟩
    · exact .inl hr
    · exact .inr ⟨hs, .inr (.inr ⟨hr, t, ht, hc⟩)⟩
  | @grace t ht hc =>
    rcases mem_resolved_finalize (s := s.disarm t) hr with hr | ⟨hs, hr⟩
    · exact .inl hr
    · exact .inr ⟨hs, .inr (.inl ⟨hr, .inr ⟨t, ht, hc⟩⟩)⟩

/-! ## Every order of events -/

/-- A call at time `now` after its events. -/
structure Told (s : RunOne) (now cap : Nat) (es : List (Nat × RunEvent)) : Prop where
  onTime : s.OnTime now cap
  since : s.started ≤ now
  capped : s.killed = true → s.started + cap ≤ now
  kill : ∀ t ∈ s.timers.pending, t.callback = .kill → s.started + cap ≤ t.due
  reap : ∀ t ∈ s.timers.pending, t.callback = .reap → s.killed = true
  grace : ∀ t ∈ s.timers.pending, t.callback = .grace → Ended es
  records : ∀ r ∈ s.resolved, s.Truthful cap es r

theorem Told.of_spawned (test : JsString) (flags : List JsString) (ending : Ending)
    (timeout : Int) (now : Nat) :
    (spawned test flags ending timeout now).Told now (timerDelay timeout) [] := by
  have htimer : ∀ t ∈ (spawned test flags ending timeout now).timers.pending,
      t = ⟨0, now + timerDelay timeout, .kill⟩ := by
    intro t ht
    simpa [spawned, begin, Timers.empty] using ht
  refine ⟨.of_spawned .., Nat.le_refl _, by simp [spawned, begin], ?_, ?_, ?_, ?_⟩
  · intro t ht _
    rw [htimer t ht]
    exact Nat.le_refl _
  · intro t ht hc
    rw [htimer t ht] at hc
    cases hc
  · intro t ht hc
    rw [htimer t ht] at hc
    cases hc
  · simp [spawned, begin]

theorem Told.of_threw (test : JsString) (flags : List JsString) (msg : JsString) (now cap : Nat) :
    (threw test flags msg now).Told now cap [] := by
  have hnone : (threw test flags msg now).timers.pending = [] := rfl
  refine ⟨.of_threw .., Nat.le_refl _, by simp [threw, begin], by simp [hnone], by simp [hnone],
    by simp [hnone], ?_⟩
  intro r hr
  rw [threw, resolved_finalize rfl] at hr
  rw [List.mem_singleton.mp hr]
  exact truthful_of_error (s := threw test flags msg now) (Nat.le_refl now)
    (Nat.le_trans (Nat.le_add_right now cap) (Nat.le_add_right _ _))

/-- The kill timer fires no sooner than it is due. -/
theorem Told.capped_step (h : s.Told now cap es) (hdue : e.due now = true)
    (hstep : RunStep s now e s') (hk : s'.killed = true) : s.started + cap ≤ now := by
  rw [killed_of_step hstep, Bool.or_eq_true] at hk
  rcases hk with hk | hfires
  · exact h.capped hk
  · cases hstep with
    | stdout | stderr | error | exit | close => cases hfires
    | @kill t killError ht hc =>
      have hearly : t.due ≤ now := by simpa [RunEvent.due] using hdue
      exact (h.kill t ht hc).trans hearly
    | reap _ hc => simp [RunEvent.firesCap, hc] at hfires
    | grace _ hc => simp [RunEvent.firesCap, hc] at hfires

/-- The grace timer is armed behind an `exit`. -/
theorem Told.grace_step (h : s.Told now cap es) (hstep : RunStep s now e s') {t : Timer Callback}
    (ht : t ∈ s'.timers.pending) (hc : t.callback = .grace) : Ended (es ++ [(now, e)]) := by
  cases hstep with
  | exit => exact ended_snoc (.inl rfl)
  | close => exact ended_snoc (.inr rfl)
  | stdout | stderr => exact (h.grace t ht hc).append _
  | error => exact (h.grace t (mem_pending_finalize ht) hc).append _
  | @kill u killError hu =>
    rcases Timers.mem_setTimeout.mp ht with ht | ht
    · have ht := mem_pending_raise (s := (s.disarm u).markKilled) ht
      exact (h.grace t (Timers.mem_clearTimeout.mp ht).1 hc).append _
    · rw [ht] at hc
      cases hc
  | @reap u =>
    have ht := mem_pending_finalize (s := s.disarm u) ht
    exact (h.grace t (Timers.mem_clearTimeout.mp ht).1 hc).append _
  | @grace u hu hgrace => exact (h.grace u hu hgrace).append _

/-- A record that a handler makes is true. -/
theorem Told.records_step (h : s.Told now cap es) (hstep : RunStep s now e s') {r : RunRec}
    (hr : r ∈ s'.resolved) : s'.Truthful cap (es ++ [(now, e)]) r := by
  rcases record_cases hstep hr with hr | ⟨hs, hmade⟩
  · exact ((h.records r hr).append _).step hstep
  · obtain ⟨u, hu, hlate⟩ := h.onTime.deadline hs
    have hnow : now ≤ s.started + cap + 3000 := (h.onTime.due u hu).trans hlate
    rcases hmade with ⟨msg, rfl⟩ | ⟨rfl, hends⟩ | ⟨rfl, t, ht, hc⟩
    · exact (truthful_of_error h.since hnow).step hstep
    · have hended : Ended (es ++ [(now, e)]) := by
        rcases hends with hclose | ⟨t, ht, hc⟩
        · exact ended_snoc (.inr hclose)
        · exact (h.grace t ht hc).append _
      exact (truthful_of_end h.since hnow h.capped hended).step hstep
    · exact (truthful_of_reap hnow (h.capped (h.reap t ht hc))).step hstep

theorem Told.step (h : s.Told now cap es) (hdue : e.due now = true) (hstep : RunStep s now e s') :
    s'.Told now cap (es ++ [(now, e)]) := by
  obtain ⟨-, hstarted⟩ := hstep.test_eq
  refine ⟨h.onTime.step hstep, ?_, ?_, ?_, ?_, ?_, ?_⟩
  · rw [hstarted]
    exact h.since
  · rw [hstarted]
    exact h.capped_step hdue hstep
  · intro t ht hc
    rw [hstarted]
    rcases hstep.mem_pending ht with ⟨ht, -⟩ | ⟨hgrace, -⟩ | ⟨hreap, -⟩
    · exact h.kill t ht hc
    · rw [hc] at hgrace
      cases hgrace
    · rw [hc] at hreap
      cases hreap
  · intro t ht hc
    rw [killed_of_step hstep, Bool.or_eq_true]
    rcases hstep.mem_pending ht with ⟨ht, -⟩ | ⟨hgrace, -⟩ | ⟨-, -, u, killError, rfl, -, hu⟩
    · exact .inl (h.reap t ht hc)
    · rw [hc] at hgrace
      cases hgrace
    · exact .inr (by simp [RunEvent.firesCap, hu])
  · exact fun t ht hc => h.grace_step hstep ht hc
  · exact fun r hr => h.records_step hstep hr

theorem Told.tick (h : s.Told now cap es) (hdue : ∀ t ∈ s.timers.pending, now < t.due) :
    s.Told (now + 1) cap es :=
  { h with
    onTime := h.onTime.tick hdue
    since := Nat.le_succ_of_le h.since
    capped := fun hk => Nat.le_succ_of_le (h.capped hk) }

end RunOne

end CorpusRunner
