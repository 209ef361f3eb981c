import CorpusRunner.Proofs.IntrospectRun

/-!
# What comes into the report

As long as every `spawn` gives a child with its streams and the files can be read, the driver is
where its stage says (`Driver.Good`): it has an entry for each test in front of the one that runs,
in order, and comes to the end by its timers alone. Otherwise it is lost: a rejected promise or a
file that cannot be read ends it with an error, and the tests behind have no entry
(`introspect_iff`).
-/

namespace CorpusRunner

namespace Introspect

/-! ## What is asked of the environment -/

/-- The listed tests that exist. -/
def Files.listed (f : Files) : List JsString :=
  match f.redwall with
  | .ok redwall => f.ids redwall
  | .error _ => []

structure Files.Readable (f : Files) : Prop where
  redwall : ∃ text, f.redwall = .ok text
  tests : ∀ id ∈ f.listed, ∃ src, f.readFileSync id = .ok src

/-- If the event calls `spawn`, it gives a child with its streams. -/
def DriverEvent.Spawns : DriverEvent → Prop
  | .spawn _ outcome => outcome = .child true true
  | _ => True

/-- Nothing is heard of a child. -/
def DriverEvent.Silent : DriverEvent → Prop
  | .spawn _ outcome => outcome = .child true true
  | .child (.fire _ none) => True
  | .child _ => False
  | .settled => True

namespace Driver

variable {s s' : Driver} {e : DriverEvent}

/-- The tests that have an entry. -/
def entries (s : Driver) : List JsString := s.report.tests.map TestEntry.test

/-- The branches of `Driver.step`. -/
inductive Step (s : Driver) : DriverEvent → Driver → Prop
  | spawn {now : Nat} {outcome : Spawn} {args : List JsString} {timeout : Int}
      (hcall : s.call = none) (hcommand : s.command = some (args, timeout)) :
      Step s (.spawn now outcome) { s with call := some (run args timeout now outcome) }
  | child {e : CallEvent} {c c' : Call} (hcall : s.call = some c) (h : c.Step e c') :
      Step s (.child e) { s with call := some c' }
  | resolved {c : Call} {r : Outcome} (hcall : s.call = some c) (h : c.promise = some (.ok r)) :
      Step s .settled ({ s with call := none }.resume r)
  | rejected {c : Call} {exn : Exn} (hcall : s.call = some c)
      (h : c.promise = some (.error exn)) : Step s .settled ({ s with call := none }.fail exn)

theorem step_of_eq (h : s.step e = some s') : Step s e s' := by
  cases e with
  | spawn now outcome =>
    simp only [Driver.step] at h
    split at h
    · rename_i args timeout hcall hcommand
      exact Option.some.inj h ▸ .spawn hcall hcommand
    · cases h
  | child e =>
    simp only [Driver.step] at h
    split at h
    · rename_i c hcall
      obtain ⟨c', hc', hs⟩ := Option.map_eq_some_iff.mp h
      exact hs ▸ .child hcall (Call.step_of_eq hc')
    · cases h
  | settled =>
    simp only [Driver.step] at h
    cases hcall : s.call with
    | none => simp [hcall] at h
    | some c =>
      simp only [hcall, Option.bind_some] at h
      split at h
      · rename_i r hr
        exact Option.some.inj h ▸ .resolved hcall hr
      · rename_i exn hexn
        exact Option.some.inj h ▸ .rejected hcall hexn
      · cases h

/-! ## Where the driver is -/

/-- What the stage says about the report. -/
def Place (s : Driver) : Prop :=
  match s.stage with
  | .probe => s.report.tests = [] ∧ s.report.status = .running
  | .matrix results =>
    s.report.tests = [] ∧ s.report.status = .running ∧ results.length < matrixArgs.length
  | .test ids i id _ =>
    s.files.listed = ids ∧ (∃ text, s.files.redwall = .ok text) ∧ ids[i]? = some id ∧
      s.entries = ids.take i ∧ s.report.status = .running ∧
      ∀ a ∈ ids.take (i + 1), ∃ src, s.files.readFileSync a = .ok src
  | .ended =>
    s.call = none ∧ s.report.status = .done ∧ s.entries = s.files.listed ∧ s.files.Readable

structure Good (s : Driver) : Prop where
  place : s.Place
  call : ∀ c, s.call = some c → c.Ok

/-- The promise that is awaited is rejected, or the driver has ended with an error. -/
structure Lost (s : Driver) : Prop where
  entries : s.entries <+: s.files.listed
  way : (s.stage ≠ .ended ∧ ∃ c exn, s.call = some c ∧ c.thrown = some exn) ∨
    s.stage = .ended ∧ s.call = none ∧ s.report.status = .error

theorem Good.entries_listed (h : s.Good) : s.entries <+: s.files.listed := by
  have hplace := h.place
  unfold Place at hplace
  split at hplace
  · simp [Driver.entries, hplace.1]
  · simp [Driver.entries, hplace.1]
  · obtain ⟨hlisted, -, -, hentries, -, -⟩ := hplace
    rw [hentries, hlisted]
    exact List.take_prefix _ _
  · obtain ⟨-, -, hentries, -⟩ := hplace
    exact hentries ▸ List.prefix_rfl

theorem lost_fail (h : s.entries <+: s.files.listed) (hcall : s.call = none) (exn : Exn) :
    (s.fail exn).Lost :=
  ⟨h, .inr ⟨rfl, hcall, rfl⟩⟩

/-- The head of the loop finds the end, the next test, or a test that cannot be read. -/
theorem next_cases (hcall : s.call = none) {ids : List JsString} {i : Nat}
    (hlisted : s.files.listed = ids) (hredwall : ∃ text, s.files.redwall = .ok text)
    (hentries : s.entries = ids.take i) (hstatus : s.report.status = .running)
    (hread : ∀ a ∈ ids.take i, ∃ src, s.files.readFileSync a = .ok src) :
    (s.next ids i).Good ∨ (s.next ids i).Lost ∧ ¬ s.files.Readable := by
  unfold next
  split
  · rename_i hnone
    left
    have hall : ids.take i = ids := List.take_of_length_le (List.getElem?_eq_none_iff.mp hnone)
    rw [hall] at hentries hread
    refine ⟨⟨hcall, rfl, hentries.trans hlisted.symm, hredwall, hlisted ▸ hread⟩, ?_⟩
    intro c hc
    cases hcall.symm.trans hc
  · rename_i id hid
    simp only
    split
    · rename_i exn hexn
      right
      constructor
      · apply lost_fail
        · change s.entries <+: s.files.listed
          rw [hentries, hlisted]
          exact List.take_prefix _ _
        · exact hcall
      · intro hreadable
        obtain ⟨src, hsrc⟩ := hreadable.tests id (hlisted ▸ List.mem_of_getElem? hid)
        cases hexn.symm.trans hsrc
    · rename_i src hsrc
      left
      refine ⟨⟨hlisted, hredwall, hid, hentries, hstatus, ?_⟩, ?_⟩
      · intro a ha
        rw [List.take_add_one, hid, List.mem_append] at ha
        rcases ha with ha | ha
        · exact hread a ha
        · obtain rfl : a = id := by simpa using ha
          exact ⟨src, hsrc⟩
      · intro c hc
        cases hcall.symm.trans hc

theorem resume_cases (h : s.Place) (hcall : s.call = none) (hstage : s.stage ≠ .ended)
    (r : Outcome) : (s.resume r).Good ∨ (s.resume r).Lost ∧ ¬ s.files.Readable := by
  have hnone (c : Call) : s.call ≠ some c := by simp [hcall]
  unfold Place at h
  cases hs : s.stage with
  | probe =>
    simp only [hs] at h
    simp only [resume, hs]
    exact .inl ⟨⟨h.1, h.2, by decide⟩, fun c hc => absurd hc (hnone c)⟩
  | matrix results =>
    simp only [hs] at h
    obtain ⟨htests, hstatus, -⟩ := h
    simp only [resume, hs]
    split
    · rename_i hlt
      exact .inl ⟨⟨htests, hstatus, hlt⟩, fun c hc => absurd hc (hnone c)⟩
    · split
      · rename_i exn hexn
        right
        constructor
        · apply lost_fail
          · simp [Driver.entries, htests]
          · exact hcall
        · intro hreadable
          obtain ⟨text, htext⟩ := hreadable.redwall
          cases hexn.symm.trans htext
      · rename_i redwall hredwall
        have hlisted : s.files.listed = s.files.ids redwall := by
          unfold Files.listed
          rw [hredwall]
        apply next_cases
        · exact hcall
        · exact hlisted
        · exact ⟨redwall, hredwall⟩
        · simp [Driver.entries, htests]
        · exact hstatus
        · simp
  | test ids i id flags =>
    simp only [hs] at h
    obtain ⟨hlisted, hredwall, hid, hentries, hstatus, hread⟩ := h
    have happend : s.entries ++ [id] = ids.take (i + 1) := by
      rw [List.take_add_one, hid, hentries]
      rfl
    simp only [resume, hs]
    apply next_cases
    · exact hcall
    · exact hlisted
    · exact hredwall
    · rw [← happend]
      exact List.map_append
    · exact hstatus
    · exact hread
  | ended => exact absurd hs hstage

theorem next_files (s : Driver) (ids : List JsString) (i : Nat) :
    (s.next ids i).files = s.files := by
  unfold next
  split
  · rfl
  · simp only
    split <;> rfl

theorem resume_files (s : Driver) (r : Outcome) : (s.resume r).files = s.files := by
  unfold resume
  split
  · rfl
  · simp only
    split
    · rfl
    · split
      · rfl
      · exact next_files _ _ _
  · exact next_files _ _ _
  · rfl

theorem Step.files_eq (h : Step s e s') : s'.files = s.files := by
  cases h with
  | resolved => exact resume_files _ _
  | _ => rfl

/-- At the end there is nothing to do. -/
theorem Good.stage_ne (h : s.Good) {c : Call} (hcall : s.call = some c) : s.stage ≠ .ended := by
  intro hs
  have hplace := h.place
  simp only [Place, hs] at hplace
  cases hplace.1.symm.trans hcall

theorem command_ended (hs : s.stage = .ended) : s.command = none := by
  simp only [command, hs]

/-- The place does not depend on the call before the end. -/
theorem place_call (h : s.Place) (hs : s.stage ≠ .ended) (call : Option Call) :
    { s with call }.Place := by
  obtain ⟨files, stage, report, c⟩ := s
  cases stage with
  | probe | matrix | test => exact h
  | ended => exact absurd rfl hs

/-- A step from a good place leads to one, or `spawn` or a file is to blame. -/
theorem Good.step (h : s.Good) (hs : Step s e s') :
    (s'.Good ∧ e.Spawns) ∨ s'.Lost ∧ (¬ e.Spawns ∨ ¬ s.files.Readable) := by
  cases hs with
  | @spawn now outcome args timeout hcall hcommand =>
    have hstage : s.stage ≠ .ended := by
      intro hended
      cases (command_ended hended).symm.trans hcommand
    by_cases ho : outcome = .child true true
    · left
      refine ⟨⟨place_call h.place hstage _, ?_⟩, ho⟩
      intro c hc
      rw [← Option.some.inj hc, ho]
      exact Call.ok_run args timeout now
    · right
      obtain ⟨exn, hexn⟩ := Call.thrown_run args timeout now ho
      exact ⟨⟨h.entries_listed, .inl ⟨hstage, _, exn, rfl, hexn⟩⟩, .inl ho⟩
  | child hcall hc =>
    left
    refine ⟨⟨place_call h.place (h.stage_ne hcall) _, ?_⟩, trivial⟩
    intro c hc'
    rw [← Option.some.inj hc']
    exact (h.call _ hcall).step hc
  | @resolved c r hcall _ =>
    have hstage := h.stage_ne hcall
    rcases resume_cases (s := { s with call := none }) (place_call h.place hstage none) rfl hstage r
      with hgood | ⟨hlost, hread⟩
    · exact .inl ⟨hgood, trivial⟩
    · exact .inr ⟨hlost, .inr hread⟩
  | rejected hcall hc => exact absurd hc ((h.call _ hcall).resolves.notRejected _)

/-- What is lost stays lost. -/
theorem Lost.step (h : s.Lost) (hs : Step s e s') : s'.Lost := by
  rcases h.way with ⟨hstage, c, exn, hcall, hthrown⟩ | ⟨hstage, hcall, -⟩
  · cases hs with
    | spawn hnone _ => cases hnone.symm.trans hcall
    | child hc hstep =>
      obtain rfl := Option.some.inj (hcall.symm.trans hc)
      exact ⟨h.entries, .inl ⟨hstage, _, exn, rfl, hstep.thrown_eq.trans hthrown⟩⟩
    | resolved hc hpromise =>
      obtain rfl := Option.some.inj (hcall.symm.trans hc)
      cases (Call.promise_of_thrown hthrown).symm.trans hpromise
    | rejected hc hpromise => exact lost_fail (s := { s with call := none }) h.entries rfl _
  · cases hs with
    | spawn _ hcommand => cases (command_ended hstage).symm.trans hcommand
    | child hc _ => cases hcall.symm.trans hc
    | resolved hc _ => cases hcall.symm.trans hc
    | rejected hc _ => cases hcall.symm.trans hc

/-! ## Runs -/

theorem good_start (files : Files) : (start files).Good :=
  ⟨⟨rfl, rfl⟩, fun c hc => by cases hc⟩

/-- Where the driver is after a run, and who is to blame if it is lost. -/
structure Reached (files : Files) (es : List DriverEvent) (s : Driver) : Prop where
  same : s.files = files
  place : (s.Good ∧ ∀ e ∈ es, e.Spawns) ∨
    s.Lost ∧ ((∃ e ∈ es, ¬ e.Spawns) ∨ ¬ files.Readable)

theorem Reached.step {files : Files} {es : List DriverEvent} (h : Reached files es s)
    (hs : Step s e s') : Reached files (es ++ [e]) s' := by
  refine ⟨hs.files_eq.trans h.same, ?_⟩
  rcases h.place with ⟨hgood, hspawns⟩ | ⟨hlost, hblame⟩
  · rcases hgood.step hs with ⟨hgood', he⟩ | ⟨hlost, hblame⟩
    · have hall := List.forall_mem_append.mpr ⟨hspawns, List.forall_mem_singleton.mpr he⟩
      exact .inl ⟨hgood', hall⟩
    · refine .inr ⟨hlost, ?_⟩
      rcases hblame with he | hread
      · exact .inl ⟨e, by simp, he⟩
      · exact .inr (h.same ▸ hread)
  · refine .inr ⟨hlost.step hs, ?_⟩
    rcases hblame with ⟨e', he', hne⟩ | hread
    · exact .inl ⟨e', List.mem_append_left _ he', hne⟩
    · exact .inr hread

theorem reached_of_run {files : Files} {es : List DriverEvent}
    (h : Run Driver.step unrestricted (start files) es s) : Reached files es s := by
  apply h.traceInvariant
  · exact ⟨rfl, .inl ⟨good_start files, by simp⟩⟩
  · intro es t e t' ht _ hs
    exact ht.step (step_of_eq hs)

theorem Reached.entries_listed {files : Files} {es : List DriverEvent} (h : Reached files es s) :
    s.entries <+: files.listed := by
  rw [← h.same]
  rcases h.place with ⟨hgood, -⟩ | ⟨hlost, -⟩
  · exact hgood.entries_listed
  · exact hlost.entries

/-- At the end every test has its entry, or `spawn` or a file was to blame. -/
theorem Reached.ended_iff {files : Files} {es : List DriverEvent} (h : Reached files es s)
    (hended : s.stage = .ended) :
    s.report.status = .done ∧ s.entries = files.listed ↔
      (∀ e ∈ es, e.Spawns) ∧ files.Readable := by
  obtain ⟨rfl, hplace⟩ := h
  rcases hplace with ⟨hgood, hspawns⟩ | ⟨hlost, hblame⟩
  · have hplace := hgood.place
    simp only [Place, hended] at hplace
    obtain ⟨-, hstatus, hentries, hread⟩ := hplace
    exact ⟨fun _ => ⟨hspawns, hread⟩, fun _ => ⟨hstatus, hentries⟩⟩
  · constructor
    · intro ⟨hstatus, _⟩
      rcases hlost.way with ⟨hne, -⟩ | ⟨-, -, herror⟩
      · exact absurd hended hne
      · cases hstatus.symm.trans herror
    · intro ⟨hspawns, hread⟩
      rcases hblame with ⟨e, he, hne⟩ | hne
      · exact absurd (hspawns e he) hne
      · exact absurd hread hne

/-! ## Going on by the timers alone -/

/-- The calls of `run` that are left, at most. -/
def left (s : Driver) : Nat :=
  match s.stage with
  | .probe => matrixArgs.length + s.files.listed.length + 2
  | .matrix results => matrixArgs.length - results.length + s.files.listed.length + 1
  | .test ids i _ _ => ids.length - i
  | .ended => 0

theorem left_next_le (s : Driver) (ids : List JsString) (i : Nat) :
    (s.next ids i).left ≤ ids.length - i := by
  unfold next
  split
  · exact Nat.zero_le _
  · simp only
    split
    · exact Nat.zero_le _
    · exact le_rfl

theorem left_resume_lt (h : s.Place) (hstage : s.stage ≠ .ended) (r : Outcome) :
    (s.resume r).left < s.left := by
  unfold Place at h
  cases hs : s.stage with
  | probe =>
    simp only [resume, left, hs, List.length_nil]
    omega
  | matrix results =>
    simp only [hs] at h
    have hleft : s.left = matrixArgs.length - results.length + s.files.listed.length + 1 := by
      simp only [left, hs]
    simp only [resume, hs]
    split
    · simp only [left, hs, List.length_append, List.length_singleton]
      omega
    · split
      · rw [hleft]
        exact Nat.succ_pos _
      · rename_i redwall hredwall
        have hlisted : s.files.listed = s.files.ids redwall := by
          unfold Files.listed
          rw [hredwall]
        rw [hleft, hlisted]
        exact (left_next_le _ _ _).trans_lt (by omega)
  | test ids i id flags =>
    simp only [hs] at h
    have hlt : i < ids.length := (List.getElem?_eq_some_iff.mp h.2.2.1).1
    have hleft : s.left = ids.length - i := by simp only [left, hs]
    simp only [resume, hs]
    rw [hleft]
    exact (left_next_le _ _ _).trans_lt (by omega)
  | ended => exact absurd hs hstage

/-- The driver has called `run`, or calls it. -/
theorem Good.exists_call (h : s.Good) (hstage : s.stage ≠ .ended) :
    ∃ es c, (∀ e ∈ es, e.Silent) ∧
      Run Driver.step unrestricted s es { s with call := some c } ∧ c.Ok := by
  cases hcall : s.call with
  | some c =>
    refine ⟨[], c, by simp, ?_, h.call c hcall⟩
    rw [← hcall]
    exact .refl
  | none =>
    obtain ⟨⟨args, timeout⟩, hcommand⟩ : ∃ p, s.command = some p := by
      have hplace := h.place
      cases hs : s.stage with
      | probe => exact ⟨_, by simp only [command, hs]; rfl⟩
      | matrix results =>
        simp only [Place, hs] at hplace
        have hargs := List.getElem?_eq_getElem hplace.2.2
        exact ⟨_, by simp only [command, hs, hargs, Option.map_some]; rfl⟩
      | test ids i id flags => exact ⟨_, by simp only [command, hs]; rfl⟩
      | ended => exact absurd hs hstage
    refine ⟨[.spawn 0 (.child true true)], _, List.forall_mem_singleton.mpr rfl,
      .single trivial ?_, Call.ok_run args timeout 0⟩
    simp only [Driver.step, hcall, hcommand]

/-- Its timer settles the call. -/
theorem exists_done {c : Call} (hcall : s.call = some c) (hok : c.Ok) :
    ∃ es c', (∀ e ∈ es, e.Silent) ∧
      Run Driver.step unrestricted s es { s with call := some c' } ∧ c'.Ok ∧ c'.done = true := by
  cases hdone : c.done with
  | true =>
    refine ⟨[], c, by simp, ?_, hok, hdone⟩
    rw [← hcall]
    exact .refl
  | false =>
    obtain ⟨t, ht⟩ := hok.armed hdone
    obtain ⟨c', hc', hok', hdone'⟩ := hok.fire ht none
    refine ⟨[.child (.fire t none)], c', List.forall_mem_singleton.mpr trivial,
      .single trivial ?_, hok', hdone'⟩
    simp only [Driver.step, hcall, hc', Option.map_some]

/-- One `run` more, settled by its timer if nothing is heard. -/
theorem Good.round (h : s.Good) (hread : s.files.Readable) (hstage : s.stage ≠ .ended) :
    ∃ es s', (∀ e ∈ es, e.Silent) ∧ Run Driver.step unrestricted s es s' ∧ s'.Good ∧
      s'.files = s.files ∧ s'.left < s.left := by
  obtain ⟨es₁, c, hsilent₁, hrun₁, hok⟩ := h.exists_call hstage
  obtain ⟨es₂, c', hsilent₂, hrun₂, hok', hdone⟩ :=
    exists_done (s := { s with call := some c }) rfl hok
  obtain ⟨r, hr⟩ := hok'.promise_of_done hdone
  have hplace : { s with call := none }.Place := place_call h.place hstage none
  have hgood : ({ s with call := none }.resume r).Good := by
    rcases resume_cases hplace rfl hstage r with hgood | ⟨-, hne⟩
    · exact hgood
    · exact absurd hread hne
  have hsettled : Driver.step { s with call := some c' } .settled =
      some ({ s with call := none }.resume r) := by
    simp only [Driver.step, Option.bind_some, hr]
  refine ⟨es₁ ++ es₂ ++ [.settled], _, ?_, (hrun₁.trans hrun₂).snoc trivial hsettled, hgood,
    resume_files _ _, left_resume_lt hplace hstage r⟩
  have hsilent := List.forall_mem_append.mpr ⟨hsilent₁, hsilent₂⟩
  exact List.forall_mem_append.mpr ⟨hsilent, List.forall_mem_singleton.mpr trivial⟩

/-- The induction is on the calls that are left. -/
theorem Good.ends (h : s.Good) (hread : s.files.Readable) :
    ∃ es s', (∀ e ∈ es, e.Silent) ∧ Run Driver.step unrestricted s es s' ∧
      s'.stage = .ended := by
  generalize hn : s.left = n
  induction n using Nat.strong_induction_on generalizing s with
  | _ n ih =>
    by_cases hstage : s.stage = .ended
    · exact ⟨[], s, by simp, .refl, hstage⟩
    · obtain ⟨es, s₁, hsilent, hrun, hgood, hfiles, hlt⟩ := h.round hread hstage
      obtain ⟨es', s', hsilent', hrun', hended⟩ :=
        ih s₁.left (hn ▸ hlt) hgood (hfiles ▸ hread) rfl
      exact ⟨es ++ es', s', List.forall_mem_append.mpr ⟨hsilent, hsilent'⟩, hrun.trans hrun',
        hended⟩

end Driver

/-- `run` resolves once, and is never rejected, exactly when `spawn` returns a child that has its
streams. The report has entries for listed tests only, in order; when the driver has ended, it has
one for each of them exactly when every `spawn` was so and every file was read; and as long as
that holds, the driver comes to its end without a word from a child. -/
theorem introspect_iff (args : List JsString) (timeout : Int) (now : Nat) (o : Spawn)
    (files : Files) :
    ((∀ es s, Run Call.step unrestricted (run args timeout now o) es s → s.Resolves) ↔
      o = .child true true) ∧
    ∀ es s, Run Driver.step unrestricted (.start files) es s →
      s.entries <+: files.listed ∧
      (s.stage = .ended →
        (s.report.status = .done ∧ s.entries = files.listed ↔
          (∀ e ∈ es, e.Spawns) ∧ files.Readable)) ∧
      ((∀ e ∈ es, e.Spawns) → files.Readable →
        ∃ es' s', (∀ e ∈ es', e.Silent) ∧ Run Driver.step unrestricted s es' s' ∧
          s'.stage = .ended) := by
  refine ⟨Call.resolves_iff args timeout now o, ?_⟩
  intro es s hrun
  have hreached := Driver.reached_of_run hrun
  refine ⟨hreached.entries_listed, hreached.ended_iff, ?_⟩
  intro hspawns hread
  rcases hreached.place with ⟨hgood, -⟩ | ⟨-, ⟨e, he, hne⟩ | hne⟩
  · exact hgood.ends (hreached.same ▸ hread)
  · exact absurd (hspawns e he) hne
  · exact absurd hread hne

/-! ## A flag that cannot be passed -/

/-- Two tests are listed; the flags of the first one have a NUL in them. -/
def nulFlag : Files where
  here := [js "home"]
  redwall := .ok (js "a\nb\n")
  existsSync := fun _ => true
  readFileSync := fun id =>
    .ok (if id = js "test-a.js" then js "// Flags: --title=" ++ [0] else js "// Flags: --expose-gc")

/-- Every child before exits at once; `spawn` refuses the NUL. -/
def nulRun : List DriverEvent :=
  (List.replicate 8
    [DriverEvent.spawn 0 (.child true true), .child (.close (some 0)), .settled]).flatten ++
  [.spawn 0 (.throws (js "ERR_INVALID_ARG_VALUE")), .settled]

/-- The promise is rejected, and neither of the two tests gets an entry. -/
theorem introspect_fails_nulFlag :
    nulFlag.listed = [js "test-a.js", js "test-b.js"] ∧
    (execute Driver.step unrestricted (.start nulFlag) nulRun).map
      (fun s => (s.report.status, s.report.error, s.report.tests)) =
        some (.error, some .uninitialized, []) ∧
    ¬ ∀ args timeout now o es s,
      Run Call.step unrestricted (run args timeout now o) es s → s.Resolves := by
  refine ⟨by decide +kernel, by decide +kernel, ?_⟩
  intro h
  exact (h [] 12000 0 (.throws []) [] _ .refl).notRejected .uninitialized rfl

end Introspect

end CorpusRunner
