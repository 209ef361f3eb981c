import CorpusRunner.Proofs.ProgramEnds
import CorpusRunner.Proofs.ProgramSafety

/-!
# What a call executes again

A call that finds every selected test recorded runs nothing and reports what is in the ledger,
which is "the classic 'it just skipped them all' surprise" (`run-corpus.mjs:168`). While nobody else
works in the directory it does so exactly if every selected test stands in `progress.jsonl` or in
`inflight.json` when the call is made, and never behind a removal of the files; and it says so on
the console exactly then (`call_replays_iff`).
-/

namespace CorpusRunner

namespace Program

/-! ## The line that says so -/

/-- The second of `cachedLines`. -/
def cachedNote : JsString :=
  js "[supervisor] → nothing re-executed (results below are CACHED). To actually re-run:"

theorem cachedNote_mem (s : Settings) (all : List JsString) : cachedNote ∈ cachedLines s all :=
  List.mem_cons_of_mem _ List.mem_cons_self

/-- A line that begins otherwise. -/
theorem ne_cachedNote {p : JsString} (rest : JsString) (h : startsWith cachedNote p = false) :
    cachedNote ≠ p ++ rest := by
  intro heq
  rw [startsWith_iff.mpr ⟨rest, heq.symm⟩] at h
  cases h

theorem notMem_banner (h : Host) (s : Settings) : cachedNote ∉ banner h s := by
  simp only [banner, List.mem_cons, List.not_mem_nil, or_false, not_or, List.append_assoc]
  exact ⟨ne_cachedNote _ (by decide), ne_cachedNote _ (by decide)⟩

theorem notMem_recoveredLines (recovered : List JsString) :
    cachedNote ∉ recoveredLines recovered := by
  unfold recoveredLines
  split
  · exact List.not_mem_nil
  · simp only [List.mem_singleton, List.append_assoc]
    exact ne_cachedNote _ (by decide)

/-- The number in the line of a launch stands where the note has its arrow. -/
theorem cachedNote_ne_launchLine (all : List JsString) (done : Nat) (remaining : List JsString) :
    cachedNote ≠ launchLine all done remaining := by
  intro heq
  simp only [launchLine, List.append_assoc] at heq
  obtain ⟨c, digits, hdigits⟩ := List.exists_cons_of_ne_nil (natDigits_ne_nil all.length)
  have hdigit := isDigit_natDigits all.length c (by simp [hdigits])
  rw [hdigits, List.cons_append] at heq
  have hbegin : startsWith cachedNote (js "[supervisor] " ++ [0x2192]) = true := by decide
  obtain ⟨tail, htail⟩ := startsWith_iff.mp hbegin
  rw [← htail, List.append_assoc] at heq
  have harrow := (List.cons.inj (List.append_cancel_left heq)).1
  rw [← harrow] at hdigit
  cases hdigit

theorem notMem_cycleLine (result : CycleResult) (marked : List JsString) :
    cachedNote ∉ cycleLine result marked := by
  cases result with
  | done => exact List.not_mem_nil
  | stall =>
    simp only [cycleLine, List.mem_singleton]
    exact ne_cachedNote _ (by decide)
  | exit what =>
    simp only [cycleLine, List.mem_singleton, List.append_assoc]
    exact ne_cachedNote _ (by decide)

theorem notMem_tally (s : Settings) (noProgress : Int) (before after : Nat)
    (result : CycleResult) : cachedNote ∉ (tally s noProgress before after result).2 := by
  unfold tally
  split
  · split
    · simp only [List.mem_singleton, abortLine, List.append_assoc]
      exact ne_cachedNote _ (by decide)
    · exact List.not_mem_nil
  · exact List.not_mem_nil

theorem notMem_reportLines (paths : OutPaths) (m : Summary) :
    cachedNote ∉ reportLines paths m := by
  simp only [reportLines, List.mem_append, List.mem_cons, List.not_mem_nil, or_false, List.mem_map,
    not_or, not_exists, not_and, List.append_assoc]
  refine ⟨⟨ne_cachedNote _ (by decide), ne_cachedNote _ (by decide), by decide⟩, ?_,
    ne_cachedNote _ (by decide), ne_cachedNote _ (by decide)⟩
  intro b _
  simp only [consoleRow, List.append_assoc]
  exact (ne_cachedNote _ (by decide)).symm

/-! ## What needs no worker -/

/-- The test has its entry, or stands in the registry that the recovery marks. -/
def Settled (fresh : Bool) (d : Disk) (t : JsString) : Prop :=
  fresh = false ∧ (d.ledger.has t = true ∨ t ∈ d.registry.map Item.test)

/-- The texts are ones that the program writes. -/
def Written (d : Disk) : Prop := ∃ e, DiskMatches d e

/-- With what the recovery has still to mark, the ledger has the tests of `S`. -/
structure Knows (S : JsString → Prop) (d : Disk) (pending : List Item) : Prop where
  written : Written d
  named : ∀ x ∈ pending, x.test ≠ []
  settles : ∀ t, S t ↔ d.ledger.has t = true ∨ t ∈ pending.map Item.test

theorem Written.registry_ne {d : Disk} (h : Written d) : ∀ x ∈ d.registry, x.test ≠ [] := by
  obtain ⟨e, hm⟩ := h
  intro x hx
  rw [hm.registry] at hx
  obtain ⟨y, hy, rfl⟩ := List.mem_map.mp hx
  exact hm.listed y hy

/-- The ledger behind an append. -/
theorem Written.has_append {d : Disk} (h : Written d) {r : Rec} (hr : r.test ≠ [])
    (t : JsString) : (d.append r).ledger.has t = true ↔ d.ledger.has t = true ∨ t = r.test := by
  obtain ⟨e, hm⟩ := h
  rw [(hm.append hr).has_eq, hm.has_eq, has_readLedger, has_readLedger, recorded_append,
    List.mem_append, recorded_singleton, List.mem_singleton]

/-- The supervisor is on its way to its first look at the ledger; these are the entries that it
has still to mark. -/
inductive Opening (d : Disk) : Pc → List Item → Prop
  | readInflight : Opening d startupHarvest d.registry
  | readLedger (inflight : List Item) :
      Opening d (.harvest ⟨startupReason, false, .readLedger inflight⟩ .startup) inflight
  | reap (entries targets : List Item) :
      Opening d (.harvest ⟨startupReason, false, .reap entries targets⟩ .startup) targets
  | append (targets : List Item) (marked : List JsString) :
      Opening d (.harvest ⟨startupReason, false, .append targets marked⟩ .startup) targets
  | clear (marked : List JsString) :
      Opening d (.harvest ⟨startupReason, false, .clear marked⟩ .startup) []
  | guard : Opening d .guard []

section Recovery

variable {S : JsString → Prop} {d d' : Disk} {pending : List Item}

/-- Entries that are in the ledger need no mark. -/
theorem Knows.readLedger (h : Knows S d pending) :
    Knows S d (harvestTargets false pending d.ledger) where
  written := h.written
  named := fun x hx => h.named x (List.mem_of_mem_filter hx)
  settles := by
    intro t
    rw [h.settles]
    by_cases ht : d.ledger.has t = true
    · simp [ht]
    · have hmem : t ∈ (harvestTargets false pending d.ledger).map Item.test ↔
          t ∈ pending.map Item.test := by
        simp only [harvestTargets, targetsOf, Bool.false_and, Bool.false_eq_true, if_false,
          List.mem_map, List.mem_filter, Bool.not_eq_true']
        constructor
        · rintro ⟨x, ⟨hx, -⟩, rfl⟩
          exact ⟨x, hx, rfl⟩
        · rintro ⟨x, hx, rfl⟩
          exact ⟨x, ⟨hx, by simpa using ht⟩, rfl⟩
      rw [hmem]

/-- An entry is marked. -/
theorem Knows.append {x : Item} {reason : JsString} (h : Knows S d (x :: pending)) :
    Knows S (d.append (.crashMark x.test reason)) pending where
  written := by
    obtain ⟨e, hm⟩ := h.written
    exact ⟨_, hm.append (h.named x List.mem_cons_self)⟩
  named := fun y hy => h.named y (List.mem_cons_of_mem x hy)
  settles := by
    intro t
    have happend := h.written.has_append (r := .crashMark x.test reason)
      (h.named x List.mem_cons_self) t
    rw [h.settles, happend, List.map_cons, List.mem_cons, or_assoc]
    rfl

/-- The registry is emptied. -/
theorem Knows.clear (h : Knows S d pending) :
    Knows S { d with inflight := some (js "[]") } pending where
  written := by
    obtain ⟨e, hm⟩ := h.written
    exact ⟨{ e with inflight := [] }, hm.write rfl (by simp)⟩
  named := h.named
  settles := h.settles

/-- A step of the recovery, and the look at the ledger behind it. -/
theorem opening_step {h : Host} {minutes : Int → JsString} {settings : Settings}
    {all lines : List JsString} {t now : Int} {pc : Pc} {p' : Option Supervisor}
    (ho : Opening d pc pending) (hk : Knows S d pending)
    (hs : Supervisor.step h minutes ⟨settings, all, t, pc⟩ d now = some (p', d', lines)) :
    (∃ t' pc' pending', p' = some ⟨settings, all, t', pc'⟩ ∧ Opening d' pc' pending' ∧
      Knows S d' pending' ∧ cachedNote ∉ lines) ∨
    p' = some ⟨settings, all, t, .top 0⟩ ∧ Knows S d' [] ∧
      (cachedNote ∈ lines ↔ all ≠ [] ∧ ∀ a ∈ all, S a) := by
  cases ho with
  | readInflight =>
    cases hs
    exact .inl ⟨_, _, _, rfl, .readLedger _, hk, List.not_mem_nil⟩
  | readLedger =>
    cases hs
    exact .inl ⟨_, _, _, rfl, .reap _ _, hk.readLedger, List.not_mem_nil⟩
  | reap entries =>
    cases entries with
    | nil =>
      cases hs
      exact .inl ⟨_, _, _, rfl, .append _ _, hk, List.not_mem_nil⟩
    | cons x entries =>
      cases hs
      exact .inl ⟨_, _, _, rfl, .reap _ _, hk, List.not_mem_nil⟩
  | append _ marked =>
    cases pending with
    | nil =>
      cases hs
      exact .inl ⟨_, _, _, rfl, .clear _, hk, List.not_mem_nil⟩
    | cons x pending =>
      cases hs
      exact .inl ⟨_, _, _, rfl, .append _ _, hk.append, List.not_mem_nil⟩
  | clear marked =>
    cases hs
    exact .inl ⟨_, _, _, rfl, .guard, hk.clear, notMem_recoveredLines marked⟩
  | guard =>
    cases hs
    refine .inr ⟨rfl, hk, ?_⟩
    have hall : (∀ a ∈ all, S a) ↔ all.all d.ledger.has = true := by
      simp only [List.all_eq_true, hk.settles, List.map_nil, List.not_mem_nil, or_false]
    rw [hall]
    split
    · rename_i hcached
      simpa [cachedNote_mem] using hcached
    · rename_i hcached
      simpa using hcached

end Recovery

/-! ## A call -/

/-- The supervisor alone has taken steps. -/
def Alone (es : List Event) : Prop := ∀ e ∈ es, ∃ now, e = .sup now

theorem alone_snoc {es : List Event} {e : Event} :
    Alone (es ++ [e]) ↔ Alone es ∧ ∃ now, e = .sup now := by
  simp [Alone, or_imp, forall_and]

/-- A worker is about to be spawned, or it runs. -/
def Pc.launching : Pc → Prop
  | .launch .. => True
  | .await .. => True
  | _ => False

/-- The supervisor has looked at the ledger. -/
def Pc.looping : Pc → Prop
  | .rmProgress => False
  | .rmInflight => False
  | .guard => False
  | .harvest _ k => k ≠ .startup
  | _ => True

theorem looping_tally (s : Settings) (noProgress : Int) (before after : Nat)
    (result : CycleResult) : (tally s noProgress before after result).1.looping := by
  unfold tally
  split
  · split <;> trivial
  · trivial

/-- A step of the loop prints nothing of cached results, and a launch is not taken back. -/
theorem looping_step {h : Host} {minutes : Int → JsString} {p : Supervisor}
    {p' : Option Supervisor} {d d' : Disk} {lines : List JsString} {now : Int}
    (hp : p.pc.looping) (hs : p.step h minutes d now = some (p', d', lines)) :
    cachedNote ∉ lines ∧ (∀ q, p' = some q → q.pc.looping) ∧
      (p.pc.launching → ∃ q, p' = some q ∧ q.pc.launching) := by
  obtain ⟨settings, all, t, pc⟩ := p
  cases pc with
  | rmProgress | rmInflight | guard => exact hp.elim
  | await => cases hs
  | harvest hv k =>
    simp only [Supervisor.step] at hs
    split at hs
    · cases hs
      exact ⟨List.not_mem_nil, by simpa [Pc.looping] using hp, False.elim⟩
    · cases k with
      | startup => exact absurd rfl hp
      | cycle noProgress before after result =>
        cases hs
        refine ⟨?_, ?_, False.elim⟩
        · rw [List.mem_append, not_or]
          exact ⟨notMem_cycleLine _ _, notMem_tally _ _ _ _ _⟩
        · intro q hq
          rw [← Option.some.inj hq]
          exact looping_tally _ _ _ _ _
  | top noProgress =>
    simp only [Supervisor.step] at hs
    split at hs
    · cases hs
      exact ⟨List.not_mem_nil, by simp [Pc.looping], False.elim⟩
    · cases hs
      refine ⟨?_, by simp [Pc.looping], False.elim⟩
      rw [List.mem_singleton]
      exact cachedNote_ne_launchLine _ _ _
  | launch noProgress before =>
    cases hs
    exact ⟨List.not_mem_nil, by simp [Pc.looping], fun _ => ⟨_, rfl, trivial⟩⟩
  | exited noProgress before how =>
    cases hs
    exact ⟨List.not_mem_nil, by simp [Pc.looping], False.elim⟩
  | returned noProgress before result =>
    cases result <;> (cases hs; exact ⟨List.not_mem_nil, by simp [Pc.looping], False.elim⟩)
  | clean =>
    cases hs
    exact ⟨List.not_mem_nil, by simp [Pc.looping], False.elim⟩
  | broke aborted =>
    obtain ⟨m, -, hwrite⟩ := exists_writeOutputs minutes all t now d
    simp only [Supervisor.step, hwrite] at hs
    cases hs
    exact ⟨notMem_reportLines _ _, by simp, False.elim⟩

/-- How far a call is after its events, when it has printed `new`: before its first launch, at its
end without one, or behind one. -/
inductive Stage (S : JsString → Prop) (settings : Settings) (all : List JsString)
    (es : List Event) (new : List JsString) (d : Disk) : Option Supervisor → Prop
  | rmProgress {t : Int} (halone : Alone es) (hnew : cachedNote ∉ new) (hS : ∀ a, ¬ S a)
      (hw : Written d) :
      Stage S settings all es new d (some ⟨settings, all, t, .rmProgress⟩)
  | rmInflight {t : Int} (halone : Alone es) (hnew : cachedNote ∉ new) (hS : ∀ a, ¬ S a)
      (hw : Written d) (hgone : d.progress = none) :
      Stage S settings all es new d (some ⟨settings, all, t, .rmInflight⟩)
  | opening {t : Int} {pc : Pc} {pending : List Item} (halone : Alone es)
      (hnew : cachedNote ∉ new) (ho : Opening d pc pending) (hk : Knows S d pending) :
      Stage S settings all es new d (some ⟨settings, all, t, pc⟩)
  | top {t : Int} (halone : Alone es)
      (hnew : cachedNote ∈ new ↔ all ≠ [] ∧ ∀ a ∈ all, S a) (hk : Knows S d []) :
      Stage S settings all es new d (some ⟨settings, all, t, .top 0⟩)
  | broke {t : Int} (halone : Alone es) (hnew : cachedNote ∈ new ↔ all ≠ [])
      (hS : ∀ a ∈ all, S a) :
      Stage S settings all es new d (some ⟨settings, all, t, .broke false⟩)
  | ended (halone : Alone es) (hnew : cachedNote ∈ new ↔ all ≠ []) (hS : ∀ a ∈ all, S a) :
      Stage S settings all es new d none
  | launched {sup : Option Supervisor} (hnew : cachedNote ∉ new) (hmissing : ∃ a ∈ all, ¬ S a)
      (hloop : ∀ p, sup = some p → p.pc.looping)
      (hworker : ¬ Alone es ∨ ∃ p, sup = some p ∧ p.pc.launching) :
      Stage S settings all es new d sup

section Stage

variable {S : JsString → Prop} {settings : Settings} {all new lines : List JsString}
  {es : List Event} {d d' : Disk} {p : Supervisor} {p' : Option Supervisor} {now : Int}

/-- A step of the supervisor. -/
theorem Stage.sup_step {h : Host} {minutes : Int → JsString}
    (hst : Stage S settings all es new d (some p))
    (hs : p.step h minutes d now = some (p', d', lines)) :
    Stage S settings all (es ++ [.sup now]) (new ++ lines) d' p' := by
  have hmore : ∀ {es}, Alone es → Alone (es ++ [.sup now]) :=
    fun ha => alone_snoc.mpr ⟨ha, now, rfl⟩
  have hquiet : ∀ {lines}, cachedNote ∉ new → cachedNote ∉ lines → cachedNote ∉ new ++ lines :=
    fun hn hl => by simp [hn, hl]
  cases hst with
  | rmProgress halone hnew hS hw =>
    cases hs
    obtain ⟨e, hm⟩ := hw
    refine .rmInflight (hmore halone) (hquiet hnew List.not_mem_nil) hS ?_ rfl
    exact ⟨{ e with progress := [] }, rfl, by simp, hm.registry, hm.listed, hm.results⟩
  | rmInflight halone hnew hS hw hgone =>
    cases hs
    obtain ⟨e, hm⟩ := hw
    refine .opening (hmore halone) (hquiet hnew (notMem_banner _ _)) .readInflight ?_
    refine ⟨⟨{ e with inflight := [] }, hm.write rfl (by simp)⟩, ?_, ?_⟩
    · intro x hx
      cases hx
    · intro a
      simp [hS, Disk.ledger, hgone, Disk.registry]
  | opening halone hnew ho hk =>
    rcases opening_step ho hk hs with ⟨t', pc', pending', rfl, ho', hk', hl⟩ | ⟨rfl, hk', hl⟩
    · exact .opening (hmore halone) (hquiet hnew hl) ho' hk'
    · refine .top (hmore halone) ?_ hk'
      simp [hnew, hl]
  | top halone hnew hk =>
    have hsettled : ∀ a, S a ↔ d.ledger.has a = true := by
      intro a
      rw [hk.settles]
      simp
    simp only [Supervisor.step] at hs
    split at hs
    · rename_i hnone
      have hS : ∀ a ∈ all, S a := by
        intro a ha
        rw [hsettled]
        simpa using List.filter_eq_nil_iff.mp hnone a ha
      cases hs
      refine .broke (hmore halone) ?_ hS
      rw [List.append_nil, hnew]
      exact ⟨fun h => h.1, fun h => ⟨h, hS⟩⟩
    · rename_i hsome
      obtain ⟨a, ha⟩ := List.exists_mem_of_ne_nil _ hsome
      obtain ⟨hmem, hnot⟩ := List.mem_filter.mp ha
      have hmissing : ¬ S a := by
        rw [hsettled]
        simpa using hnot
      cases hs
      refine .launched ?_ ⟨a, hmem, hmissing⟩ (by simp [Pc.looping]) (.inr ⟨_, rfl, trivial⟩)
      refine hquiet (fun h => hmissing ((hnew.mp h).2 a hmem)) ?_
      rw [List.mem_singleton]
      exact cachedNote_ne_launchLine _ _ _
  | @broke t halone hnew hS =>
    obtain ⟨m, -, hwrite⟩ := exists_writeOutputs minutes all t now d
    simp only [Supervisor.step, hwrite] at hs
    cases hs
    refine .ended (hmore halone) ?_ hS
    rw [List.mem_append, hnew]
    simp [notMem_reportLines]
  | launched hnew hmissing hloop hworker =>
    obtain ⟨hl, hloop', hlaunch⟩ := looping_step (hloop p rfl) hs
    refine .launched (hquiet hnew hl) hmissing hloop' ?_
    rcases hworker with halone | ⟨q, hq, hlaunching⟩
    · exact .inl fun h => halone (alone_snoc.mp h).1
    · obtain rfl := Option.some.inj hq
      exact .inr (hlaunch hlaunching)

/-- What a worker does, and its end. -/
theorem Stage.worker_step {e : Event} {q : Supervisor}
    (hst : Stage S settings all es new d (some p))
    (hp : (∃ noProgress before w, p.pc = .await noProgress before w) ∨
      ∃ noProgress before how, p.pc = .exited noProgress before how)
    (he : ∀ now, e ≠ .sup now) (hq : q.pc.looping) :
    Stage S settings all (es ++ [e]) new d' (some q) := by
  have hbusy : ¬ Alone (es ++ [e]) := by
    intro h
    obtain ⟨-, now, rfl⟩ := alone_snoc.mp h
    exact he now rfl
  have hlaunched : cachedNote ∉ new ∧ ∃ a ∈ all, ¬ S a := by
    cases hst with
    | launched hnew hmissing => exact ⟨hnew, hmissing⟩
    | opening _ _ ho =>
      cases ho <;> simp [startupHarvest] at hp
    | rmProgress | rmInflight | top | broke => simp at hp
  refine .launched hlaunched.1 hlaunched.2 ?_ (.inl hbusy)
  intro q' hq'
  rw [← Option.some.inj hq']
  exact hq

end Stage

/-- A step of a call, in which the console had the lines `old` when it started. -/
theorem stage_step {h : Host} {minutes : Int → JsString} {S : JsString → Prop}
    {settings : Settings} {all old new : List JsString} {es : List Event} {s s' : Sys} {e : Event}
    (hconsole : s.console = old ++ new) (hst : Stage S settings all es new s.disk s.sup)
    (hok : inCall s e) (hs : s.step h minutes e = some s') :
    ∃ new', s'.console = old ++ new' ∧ Stage S settings all (es ++ [e]) new' s'.disk s'.sup := by
  obtain ⟨dir, disk, sup, orphans, console⟩ := s
  cases sup with
  | none =>
    cases e with
    | sup | stall | worker | workerExits | workerDies => cases hs
    | _ => exact hok.elim
  | some p =>
    cases e with
    | sup now =>
      simp only [Sys.step] at hs
      split at hs
      · rename_i p' d' lines hstep
        cases hs
        refine ⟨new ++ lines, ?_, hst.sup_step hstep⟩
        rw [← List.append_assoc, ← hconsole]
      · cases hs
    | stall =>
      simp only [Sys.step] at hs
      split at hs
      · rename_i heq
        cases heq
        cases hs
        exact ⟨new, hconsole, hst.worker_step (.inl ⟨_, _, _, rfl⟩) (by simp) trivial⟩
      · rename_i heq
        cases heq
        cases hs
        exact ⟨new, hconsole, hst.worker_step (.inr ⟨_, _, _, rfl⟩) (by simp) trivial⟩
      · cases hs
    | worker we =>
      simp only [Sys.step] at hs
      split at hs
      · rename_i heq
        cases heq
        split at hs
        · cases hs
          exact ⟨new, hconsole, hst.worker_step (.inl ⟨_, _, _, rfl⟩) (by simp) trivial⟩
        · cases hs
      · cases hs
    | workerExits =>
      simp only [Sys.step] at hs
      split at hs
      · rename_i heq
        cases heq
        split at hs
        · cases hs
          exact ⟨new, hconsole, hst.worker_step (.inl ⟨_, _, _, rfl⟩) (by simp) trivial⟩
        · split at hs
          · cases hs
            exact ⟨new, hconsole, hst.worker_step (.inl ⟨_, _, _, rfl⟩) (by simp) trivial⟩
          · cases hs
      · cases hs
    | workerDies what =>
      simp only [Sys.step] at hs
      split at hs
      · rename_i heq
        cases heq
        cases hs
        exact ⟨new, hconsole, hst.worker_step (.inl ⟨_, _, _, rfl⟩) (by simp) trivial⟩
      · cases hs
    | _ => exact hok.elim

/-- A call that has just been made. -/
theorem stage_start {h : Host} {minutes : Int → JsString} {s s₁ : Sys} {inv : Invocation}
    (hw : Written s.disk) (hs : s.step h minutes (.start inv) = some s₁)
    (hhelp : inv.help = false) (hlist : inv.listOnly = false) :
    ∃ all new, inv.settings.all h = some all ∧ s₁.console = s.console ++ new ∧
      Stage (Settled inv.fresh s.disk) inv.settings all [] new s₁.disk s₁.sup := by
  have halone : Alone [] := by simp [Alone]
  simp only [Sys.step, Sys.start, hhelp, hlist, Bool.false_eq_true, if_false] at hs
  split at hs
  · split at hs
    · cases hs
    · rename_i all hall
      split at hs
      · rename_i hfresh
        cases hs
        refine ⟨all, [], hall, (List.append_nil _).symm, .rmProgress halone List.not_mem_nil ?_ hw⟩
        simp [Settled, hfresh]
      · rename_i hfresh
        cases hs
        refine ⟨all, _, hall, rfl, .opening halone (notMem_banner _ _) .readInflight ?_⟩
        refine ⟨hw, hw.registry_ne, ?_⟩
        intro t
        simp [Settled, hfresh]
  · cases hs

/-- **What a call executes again.** A call that has ended, and in whose time nobody else worked in
the directory, which whole appends and writes have left, has run without a worker exactly if every
selected test had its entry in `progress.jsonl` or stood in `inflight.json` when it was made, and
`--fresh` was not given; and of a selection that is not empty it has printed that nothing was
re-executed exactly then. -/
theorem call_replays_iff {h : Host} {minutes : Int → JsString} {dir : AbsPath} {s s₁ s' : Sys}
    {es es' : List Event} {inv : Invocation}
    (hrun : Run (Sys.step h minutes) unrestricted (Sys.fresh dir) es s)
    (hhelp : inv.help = false) (hlist : inv.listOnly = false)
    (hs : s.step h minutes (.start inv) = some s₁)
    (hcall : Run (Sys.step h minutes) inCall s₁ es' s') (hended : s'.sup = none) :
    ∃ all new, inv.settings.all h = some all ∧ s'.console = s.console ++ new ∧
      (Alone es' ↔ ∀ t ∈ all, Settled inv.fresh s.disk t) ∧
      (cachedNote ∈ new ↔ all ≠ [] ∧ Alone es') := by
  obtain ⟨-, u, -, hu, -⟩ := hrun.simulate (simulates h minutes dir _) (sysMatches_fresh h dir)
  obtain ⟨all, new₁, hall, hconsole₁, hstart⟩ := stage_start ⟨_, hu.disk⟩ hs hhelp hlist
  obtain ⟨new, hconsole, hst⟩ : ∃ new, s'.console = s.console ++ new ∧
      Stage (Settled inv.fresh s.disk) inv.settings all es' new s'.disk s'.sup := by
    apply hcall.traceInvariant (I := fun es u => ∃ new, u.console = s.console ++ new ∧
      Stage (Settled inv.fresh s.disk) inv.settings all es new u.disk u.sup)
    · exact ⟨new₁, hconsole₁, hstart⟩
    · intro es u e u' ⟨new, hconsole, hst⟩ hok hstep
      exact stage_step hconsole hst hok hstep
  refine ⟨all, new, hall, hconsole, ?_⟩
  rw [hended] at hst
  cases hst with
  | ended halone hnew hS =>
    refine ⟨iff_of_true halone hS, ?_⟩
    simp [halone, hnew]
  | launched hnew hmissing _ hworker =>
    have halone : ¬ Alone es' := by
      rcases hworker with halone | ⟨q, hq, -⟩
      · exact halone
      · cases hq
    obtain ⟨a, ha, hnot⟩ := hmissing
    exact ⟨iff_of_false halone fun hall => hnot (hall a ha),
      iff_of_false hnew fun h => halone h.2⟩

/-- The call of the two tests again, when both are recorded: it has printed the note. -/
theorem call_replays_iff_again :
    ∃ s s₁ s' new, execute (Sys.step twoTestHost (fun _ => [])) unrestricted
        (Sys.fresh plainCall.settings.outDir) (bothTests ++ [.sup 9]) = some s ∧
      s.step twoTestHost (fun _ => []) (.start plainCall) = some s₁ ∧
      Run (Sys.step twoTestHost (fun _ => [])) inCall s₁ (List.replicate 8 (.sup 20)) s' ∧
      s'.console = s.console ++ new ∧ cachedNote ∈ new := by
  have hrun : (((execute (Sys.step twoTestHost (fun _ => [])) unrestricted
      (Sys.fresh plainCall.settings.outDir) (bothTests ++ [.sup 9])).bind
        (fun s => s.step twoTestHost (fun _ => []) (.start plainCall))).bind
        (fun s₁ => execute (Sys.step twoTestHost (fun _ => [])) unrestricted s₁
          (List.replicate 8 (.sup 20)))).map (fun s' => s'.sup) = some none := by
    decide +kernel
  obtain ⟨s', hs', hended⟩ := Option.map_eq_some_iff.mp hrun
  obtain ⟨s₁, hs₁, hrun'⟩ := Option.bind_eq_some_iff.mp hs'
  obtain ⟨s, hs, hstart⟩ := Option.bind_eq_some_iff.mp hs₁
  have hevents : Alone (List.replicate 8 (.sup 20)) :=
    fun e he => ⟨20, List.eq_of_mem_replicate he⟩
  have hcall := Run.of_events (P := inCall s₁) (run_of_execute hrun') (by
    intro e he
    obtain ⟨now, rfl⟩ := hevents e he
    trivial)
  obtain ⟨all, new, hall, hconsole, -, hnote⟩ := call_replays_iff (run_of_execute hs)
    (by decide) (by decide) hstart hcall hended
  refine ⟨s, s₁, s', new, hs, hstart, hcall, hconsole, hnote.mpr ⟨?_, hevents⟩⟩
  rintro rfl
  have hselected : plainCall.settings.all twoTestHost ≠ some [] := by decide +kernel
  exact hselected hall

end Program

end CorpusRunner
