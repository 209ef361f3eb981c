import CorpusRunner.IntrospectProbe
import CorpusRunner.Misc.Run
import CorpusRunner.Misc.Utf8Encode

/-!
# What the probe prints

The sections run in order, but their promises are settled in any order, also those of a section
that has thrown. What `R` is in between depends on what each promise has come to alone: a key of
an open promise is marked, and every key keeps the place at which it was written first
(`report_in_any_order`).
-/

namespace CorpusRunner

namespace IntrospectProbe

/-! ## What `R` is, given what the promises have come to -/

def Op.key : Op → JsString
  | .assign key _ => key
  | .safeInto key _ => key

/-- What stands under the key of a statement; `f` is what each promise has come to. -/
def Op.value (f : Nat → Option Settled) : Op → Option Json
  | .assign _ v => v
  | .safeInto _ (.returns v) => v
  | .safeInto _ (.throws stack) => some (errorValue stack)
  | .safeInto _ (.promise p) =>
    match f p with
    | some r => r.value
    | none => some pendingValue

/-- The promise that a statement queues. -/
def Op.promise : Op → Option Nat
  | .safeInto _ (.promise p) => some p
  | _ => none

/-- What the statement adds to `pending`. -/
def Op.entry (o : Nat) (op : Op) : Option Entry := op.promise.map (⟨·, o, op.key⟩)

def Section.entries (f : Nat → Option Settled) (sec : Section) : List (JsString × Option Json) :=
  sec.ops.map fun op => (op.key, op.value f)

def Section.value (f : Nat → Option Settled) (sec : Section) : Option Json :=
  match sec.ending with
  | .out => some (keep (sec.entries f))
  | .value v => v
  | .throws stack => some (errorValue stack)

def reportOf (f : Nat → Option Settled) (secs : List Section) : Json :=
  keep (secs.map fun sec => (sec.key, sec.value f))

/-- What promise `p` has come to. -/
def outcome (es : List Event) (p : Nat) : Option Settled :=
  es.findSome? fun | .settle q r => if q = p then some r else none

/-- The promises that are queued. -/
def queued (secs : List Section) : List Nat := secs.flatMap fun sec => sec.ops.filterMap Op.promise

/-- No key is written twice. -/
structure Distinct (secs : List Section) : Prop where
  sections : (secs.map Section.key).Nodup
  ops : ∀ sec ∈ secs, (sec.ops.map Op.key).Nodup

theorem Distinct.left {secs secs' : List Section} (h : Distinct (secs ++ secs')) :
    Distinct secs where
  sections := by
    have hall := h.sections
    rw [List.map_append] at hall
    exact hall.of_append_left
  ops := fun sec hsec => h.ops sec (List.mem_append_left _ hsec)

/-! ## The sections -/

def Section.slot (sec : Section) (o : Nat) : Slot :=
  match sec.ending with
  | .out => .out o
  | .value v => .value v
  | .throws stack => .value (some (errorValue stack))

/-- `pending`, as the sections queue it. -/
def entriesOf (secs : List Section) : List Entry :=
  secs.zipIdx.flatMap fun (sec, o) => sec.ops.filterMap (Op.entry o)

/-- What the state has to do with what the promises have come to. -/
structure Holds (secs : List Section) (f : Nat → Option Settled) (s : Probe) : Prop where
  outs : s.outs.map JsMap.entries = secs.map (Section.entries f)
  R : s.R.entries = secs.zipIdx.map fun (sec, o) => (sec.key, sec.slot o)
  pending : s.pending = (entriesOf secs).filter fun e => (f e.promise).isNone

variable {secs : List Section} {f : Nat → Option Settled} {s s' : Probe}

/-- Before any promise is settled. -/
def unsettled (_ : Nat) : Option Settled := none

theorem op_eq (o : Nat) (op : Op) : Probe.op o s op =
    { s with pending := s.pending ++ (op.entry o).toList }.fill o op.key (op.value unsettled) := by
  cases op with
  | assign key v => simp [Probe.op, Op.entry, Op.promise, Op.key, Op.value]
  | safeInto key sub =>
    cases sub <;> simp [Probe.op, Op.entry, Op.promise, Op.key, Op.value, unsettled]

theorem modify_concat {α : Type} (l : List α) (a : α) (g : α → α) :
    (l ++ [a]).modify l.length g = l ++ [g a] := by
  induction l with
  | nil => rfl
  | cons b l ih => simp [ih]

/-- The statements of a section write one key after the other. -/
theorem foldl_op {outs : List (JsMap JsString (Option Json))} {m : JsMap JsString (Option Json)}
    (ops : List Op) (hs : s.outs = outs ++ [m]) (hnodup : (ops.map Op.key).Nodup)
    (hfresh : ∀ op ∈ ops, op.key ∉ m.keys) :
    ∃ m', ops.foldl (Probe.op outs.length) s =
        { s with
          outs := outs ++ [m']
          pending := s.pending ++ ops.filterMap (Op.entry outs.length) } ∧
      m'.entries = m.entries ++ ops.map fun op => (op.key, op.value unsettled) := by
  induction ops generalizing s m with
  | nil => exact ⟨m, by simp [← hs], by simp⟩
  | cons op ops ih =>
    rw [List.map_cons, List.nodup_cons] at hnodup
    have hnew := hfresh op (by simp)
    have houts : (Probe.op outs.length s op).outs =
        outs ++ [m.set op.key (op.value unsettled)] := by
      rw [op_eq]
      simp only [Probe.fill, hs, modify_concat]
    obtain ⟨m', heq, hentries⟩ := ih houts hnodup.2 (by
      intro a ha hmem
      rcases JsMap.mem_keys_set.mp hmem with hmem | hkey
      · exact hfresh a (List.mem_cons_of_mem _ ha) hmem
      · exact hnodup.1 (hkey ▸ List.mem_map_of_mem ha))
    refine ⟨m', ?_, ?_⟩
    · rw [List.foldl_cons, heq, op_eq]
      cases hentry : op.entry outs.length <;> simp [Probe.fill, hentry]
    · rw [hentries, JsMap.entries_set_of_notMem hnew, List.append_assoc]
      rfl

theorem Holds.safe (h : Holds secs unsettled s) {sec : Section}
    (hd : Distinct (secs ++ [sec])) : Holds (secs ++ [sec]) unsettled (s.safe sec) := by
  have hlength : s.outs.length = secs.length := by
    rw [← List.length_map JsMap.entries, h.outs, List.length_map]
  obtain ⟨m', heq, hentries⟩ := foldl_op (s := { s with outs := s.outs ++ [.empty] }) sec.ops rfl
    (hd.ops sec (by simp)) (by simp)
  have hkey : sec.key ∉ s.R.keys := by
    have hkeys : s.R.keys = secs.map Section.key := by
      rw [JsMap.keys, h.R, List.map_map]
      conv_rhs => rw [← List.zipIdx_map_fst 0 secs, List.map_map]
      rfl
    have hnodup := hd.sections
    rw [List.map_append, List.map_singleton, ← List.concat_eq_append, List.nodup_concat] at hnodup
    rw [hkeys]
    exact hnodup.1
  have hsafe : s.safe sec = { outs := s.outs ++ [m']
                              R := s.R.set sec.key (sec.slot s.outs.length)
                              pending := s.pending ++
                                sec.ops.filterMap (Op.entry s.outs.length) } := by
    simp only [Probe.safe, heq]
    rfl
  rw [hsafe]
  refine ⟨?_, ?_, ?_⟩
  · rw [List.map_append, List.map_append, h.outs]
    simpa [Section.entries] using hentries
  · rw [JsMap.entries_set_of_notMem hkey, h.R, hlength, List.zipIdx_append, List.map_append]
    simp
  · simp only [unsettled, Option.isNone_none, List.filter_true, h.pending, entriesOf,
      List.zipIdx_append, List.flatMap_append, hlength]
    simp

theorem holds_start (hd : Distinct secs) : Holds secs unsettled (.start secs) := by
  induction secs using List.reverseRecOn with
  | nil => exact ⟨rfl, rfl, rfl⟩
  | append_singleton secs sec ih =>
    rw [Probe.start, List.foldl_append]
    exact (ih hd.left).safe hd

/-! ## A promise is settled -/

/-- The keys of `out` number `o` that promise `p` fills. -/
def filled (pending : List Entry) (p o : Nat) : List JsString :=
  (pending.filter (fun e => decide (e.promise = p ∧ e.out = o))).map Entry.key

theorem getElem?_fill (pending : List Entry) (p o : Nat) (v : Option Json)
    (outs : List (JsMap JsString (Option Json))) :
    (pending.foldl (fun outs e =>
      if e.promise = p then outs.modify e.out (·.set e.key v) else outs) outs)[o]? =
      outs[o]?.map (fun m => m.setAll (fun _ => v) (filled pending p o)) := by
  induction pending generalizing outs with
  | nil => simp [filled]
  | cons e pending ih =>
    rw [List.foldl_cons, ih]
    by_cases hp : e.promise = p
    · rw [if_pos hp, List.getElem?_modify]
      by_cases ho : e.out = o
      · have hfilled : filled (e :: pending) p o = e.key :: filled pending p o := by
          simp [filled, hp, ho]
        rw [hfilled]
        simp [ho, JsMap.setAll_cons, Function.comp_def]
      · have hfilled : filled (e :: pending) p o = filled pending p o := by
          simp [filled, ho]
        rw [hfilled]
        simp [ho]
    · have hfilled : filled (e :: pending) p o = filled pending p o := by
        simp [filled, hp]
      rw [if_neg hp, hfilled]

theorem mem_entriesOf {e : Entry} : e ∈ entriesOf secs ↔
    ∃ sec, secs[e.out]? = some sec ∧ ∃ op ∈ sec.ops, op.promise = some e.promise ∧
      op.key = e.key := by
  simp only [entriesOf, List.mem_flatMap, List.mem_filterMap, Op.entry, Option.map_eq_some_iff]
  constructor
  · rintro ⟨⟨sec, o⟩, hsec, op, hop, p, hp, rfl⟩
    exact ⟨sec, List.mem_zipIdx_iff_getElem?.mp hsec, op, hop, hp, rfl⟩
  · rintro ⟨sec, hsec, op, hop, hp, hkey⟩
    exact ⟨(sec, e.out), List.mem_zipIdx_iff_getElem?.mpr hsec, op, hop, e.promise, hp,
      by rw [hkey]⟩

/-- What the promises have come to once `p` is settled with `r`. -/
def settleTo (f : Nat → Option Settled) (p : Nat) (r : Settled) (q : Nat) : Option Settled :=
  if q = p then some r else f q

theorem value_settleTo {p : Nat} {r : Settled} {op : Op} :
    op.value (settleTo f p r) = if op.promise = some p then r.value else op.value f := by
  cases op with
  | assign key v => rfl
  | safeInto key sub =>
    cases sub with
    | returns v => rfl
    | throws stack => rfl
    | promise q =>
      by_cases hq : q = p <;> simp [Op.value, Op.promise, settleTo, hq]

/-- Of the keys of an `out` just those change that wait for the promise. -/
theorem mem_filled {p o : Nat} {sec : Section} (h : Holds secs f s) (hd : Distinct secs)
    (hp : f p = none) (hsec : secs[o]? = some sec) {op : Op} (hop : op ∈ sec.ops) :
    op.key ∈ filled s.pending p o ↔ op.promise = some p := by
  have hnodup := hd.ops sec (List.mem_of_getElem? hsec)
  simp only [filled, h.pending, List.mem_map, List.mem_filter, decide_eq_true_eq, mem_entriesOf]
  constructor
  · rintro ⟨e, ⟨⟨⟨sec', hsec', op', hop', hpromise, hkey'⟩, -⟩, rfl, rfl⟩, hkey⟩
    obtain rfl : sec' = sec := Option.some.inj (hsec'.symm.trans hsec)
    rwa [List.inj_on_of_nodup_map hnodup hop hop' (hkey.symm.trans hkey'.symm)]
  · intro hpromise
    exact ⟨⟨p, o, op.key⟩, ⟨⟨⟨sec, hsec, op, hop, hpromise, rfl⟩, by simp [hp]⟩, rfl, rfl⟩, rfl⟩

theorem Holds.settle (h : Holds secs f s) (hd : Distinct secs) {p : Nat} {r : Settled}
    (hs : s.step (.settle p r) = some s') :
    f p = none ∧ Holds secs (settleTo f p r) s' := by
  obtain ⟨hany, hs⟩ := Option.ite_none_right_eq_some.mp hs
  obtain rfl := Option.some.inj hs
  obtain ⟨e, he, hpromise⟩ := List.any_eq_true.mp hany
  have hp : f p = none := by
    rw [h.pending, List.mem_filter] at he
    simpa [← of_decide_eq_true hpromise] using he.2
  refine ⟨hp, ?_, h.R, ?_⟩
  · apply List.ext_getElem?
    intro o
    have hout := congrArg (fun l : List (List (JsString × Option Json)) => l[o]?) h.outs
    simp only [List.getElem?_map] at hout
    rw [List.getElem?_map, List.getElem?_map, getElem?_fill]
    cases hsec : secs[o]? with
    | none =>
      rw [hsec] at hout
      rw [Option.map_eq_none_iff.mp hout]
      rfl
    | some sec =>
      rw [hsec] at hout
      obtain ⟨m, hm, hentries⟩ := Option.map_eq_some_iff.mp hout
      have hkeys : m.keys = sec.ops.map Op.key := by
        rw [JsMap.keys, hentries, Section.entries, List.map_map]
        rfl
      have hsubset : ∀ k ∈ filled s.pending p o, k ∈ m.keys := by
        intro k hk
        simp only [filled, h.pending, List.mem_map, List.mem_filter, decide_eq_true_eq,
          mem_entriesOf] at hk
        obtain ⟨e, ⟨⟨⟨sec', hsec', op, hop, -, hkey⟩, -⟩, -, rfl⟩, rfl⟩ := hk
        obtain rfl : sec' = sec := Option.some.inj (hsec'.symm.trans hsec)
        rw [hkeys, ← hkey]
        exact List.mem_map_of_mem hop
      rw [hm, Option.map_some, Option.map_some, Option.map_some, Option.some.injEq]
      apply JsMap.entries_eq_map
      · rw [JsMap.keys_setAll_of_mem hsubset, hkeys]
      · intro op hop
        have hget : m.get? op.key = some (op.value f) := by
          rw [JsMap.get?_eq_some, hentries]
          exact List.mem_map_of_mem hop
        rw [JsMap.get?_setAll, hget, value_settleTo]
        simp only [mem_filled h hd hp hsec hop]
        split <;> rfl
  · rw [h.pending, List.filter_filter]
    apply List.filter_congr
    intro e _
    by_cases hq : e.promise = p <;> simp [settleTo, hq]

/-! ## Runs -/

theorem outcome_snoc {es : List Event} {p : Nat} {r : Settled} (h : outcome es p = none) :
    outcome (es ++ [.settle p r]) = settleTo (outcome es) p r := by
  funext q
  rw [outcome, List.findSome?_append, ← outcome, settleTo]
  by_cases hq : q = p
  · subst hq
    simp [h]
  · simp [hq, Ne.symm hq]

theorem holds_of_run (hd : Distinct secs) {es : List Event}
    (h : Run Probe.step unrestricted (.start secs) es s) : Holds secs (outcome es) s := by
  refine h.traceInvariant (I := fun es s => Holds secs (outcome es) s) (holds_start hd) ?_
  rintro es t ⟨p, r⟩ t' hholds - hs
  obtain ⟨hp, hnext⟩ := hholds.settle hd hs
  rwa [outcome_snoc hp]

theorem Holds.report (h : Holds secs f s) : s.report = reportOf f secs := by
  have hvalue : ∀ x ∈ secs.zipIdx,
      (x.1.key, s.value (x.1.slot x.2)) = (x.1.key, x.1.value f) := by
    rintro ⟨sec, o⟩ hx
    have hsec : secs[o]? = some sec := List.mem_zipIdx_iff_getElem?.mp hx
    have hout := congrArg (fun l : List (List (JsString × Option Json)) => l[o]?) h.outs
    simp only [List.getElem?_map, hsec, Option.map_some] at hout
    obtain ⟨m, hm, hentries⟩ := Option.map_eq_some_iff.mp hout
    cases hending : sec.ending <;>
      simp [Section.slot, Section.value, Probe.value, hending, hm, hentries]
  rw [Probe.report, reportOf, h.R, List.map_map]
  conv_rhs => rw [← List.zipIdx_map_fst 0 secs, List.map_map]
  exact congrArg keep (List.map_congr_left hvalue)

theorem queued_eq (secs : List Section) : (entriesOf secs).map Entry.promise = queued secs := by
  have hops : ∀ x : Section × Nat, (x.1.ops.filterMap (Op.entry x.2)).map Entry.promise =
      x.1.ops.filterMap Op.promise := by
    intro x
    rw [List.map_filterMap]
    apply List.filterMap_congr
    intro op _
    cases hp : op.promise <;> simp [Op.entry, hp]
  rw [entriesOf, List.map_flatMap, queued]
  conv_rhs => rw [← List.zipIdx_map_fst 0 secs, List.flatMap_map]
  simp only [hops]

/-- The promises that are open are those that are queued and not settled. -/
theorem Holds.open_iff (h : Holds secs f s) {p : Nat} :
    (∃ e ∈ s.pending, e.promise = p) ↔ p ∈ queued secs ∧ f p = none := by
  rw [← queued_eq, List.mem_map, h.pending]
  simp only [List.mem_filter, Option.isNone_iff_eq_none]
  constructor
  · rintro ⟨e, ⟨he, hnone⟩, rfl⟩
    exact ⟨⟨e, he, rfl⟩, hnone⟩
  · rintro ⟨⟨e, he, rfl⟩, hnone⟩
    exact ⟨e, ⟨he, hnone⟩, rfl⟩

theorem Holds.printed_isSome (h : Holds secs f s) :
    s.printed.isSome ↔ ∀ p ∈ queued secs, (f p).isSome := by
  have hnil : s.pending = [] ↔ ¬ ∃ p, ∃ e ∈ s.pending, e.promise = p := by
    rw [List.eq_nil_iff_forall_not_mem]
    simp
  rw [Probe.printed, Option.isSome_ite, hnil]
  simp only [h.open_iff, not_exists, not_and, ← Option.ne_none_iff_isSome, ne_eq]

/-- What is printed is read back. -/
theorem Holds.printed_read (h : Holds secs f s) {text : JsString} (htext : s.printed = some text) :
    jsonParse (decodeUtf8 (encodeUtf8 text)) = some (reportOf f secs) := by
  obtain rfl := Option.some.inj (Option.ite_none_right_eq_some.mp htext).2
  have hbytes : jsonParse (decodeUtf8 (encodeUtf8 (stringifyIndent 0 s.report ++ []))) =
      some s.report := jsonParse_indentBytes s.report rfl (by simp)
  rw [List.append_nil] at hbytes
  rw [hbytes, h.report]

/-- **The report does not depend on the order.** Whatever the sub-probes have returned or thrown,
and in whatever order the promises are settled: at every time each key of `R` holds what its
statement, its section or its promise has come to, an open promise is marked, and the keys are in
the order of the script. It is printed once every queued promise is settled, not before, and what
is printed is read back as that object. A queued promise can be settled once. -/
theorem report_in_any_order (secs : List Section) (hd : Distinct secs) (es : List Event) (s : Probe)
    (h : Run Probe.step unrestricted (.start secs) es s) :
    s.report = reportOf (outcome es) secs ∧
      (s.printed.isSome ↔ ∀ p ∈ queued secs, (outcome es p).isSome) ∧
      (∀ text, s.printed = some text →
        jsonParse (decodeUtf8 (encodeUtf8 text)) = some (reportOf (outcome es) secs)) ∧
      ∀ p r, (s.step (.settle p r)).isSome ↔ p ∈ queued secs ∧ outcome es p = none := by
  have hholds := holds_of_run hd h
  refine ⟨hholds.report, hholds.printed_isSome, fun _ => hholds.printed_read, ?_⟩
  intro p r
  rw [← hholds.open_iff]
  simp [Probe.step]

/-- A section that throws behind its promise, and one with two promises. -/
def twoSections : List Section :=
  [{ key := js "vm"
     ops := [.safeInto (js "realm") (.returns none), .safeInto (js "live_synthetic") (.promise 0)]
     ending := .throws (js "Error: VM_PROBE") },
    { key := js "gc"
      ops := [.safeInto (js "live_weakref") (.promise 1), .assign (js "WeakRef_std") none,
        .safeInto (js "internal_WeakReference") (.promise 2)]
      ending := .out }]

/-- The promises are settled from the last one to the first one. -/
def backwards : List Event :=
  [.settle 2 (.rejected (js "TypeError")), .settle 1 (.fulfilled (some .null)),
    .settle 0 (.fulfilled none)]

theorem distinct_twoSections : Distinct twoSections := ⟨by decide, by decide⟩

theorem printed_backwards : ∃ s text,
    Run Probe.step unrestricted (.start twoSections) backwards s ∧ s.printed = some text := by
  have hprinted : (execute Probe.step unrestricted (.start twoSections) backwards).map
      (fun s => s.printed.isSome) = some true := by decide +kernel
  obtain ⟨s, hs, hsome⟩ := Option.map_eq_some_iff.mp hprinted
  obtain ⟨text, htext⟩ := Option.isSome_iff_exists.mp hsome
  exact ⟨s, text, run_of_execute hs, htext⟩

theorem report_in_any_order_backwards :
    ∃ s text, Run Probe.step unrestricted (.start twoSections) backwards s ∧
      s.printed = some text ∧ jsonParse (decodeUtf8 (encodeUtf8 text)) =
        some (.object [(js "vm", errorValue (js "Error: VM_PROBE")),
          (js "gc", .object [(js "live_weakref", .null),
            (js "internal_WeakReference", errorValue (js "TypeError"))])]) := by
  obtain ⟨s, text, hrun, htext⟩ := printed_backwards
  exact ⟨s, text, hrun, htext,
    (report_in_any_order _ distinct_twoSections _ _ hrun).2.2.1 text htext⟩

end IntrospectProbe

end CorpusRunner
