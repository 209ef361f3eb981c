import CorpusRunner.Proofs.ProbeReport
import CorpusRunner.Proofs.ServedReports

/-!
# The way of the probe's object

What the probe has found goes through the order of its promises, the text that it prints, the
pieces in which a pipe hands over the bytes, the report of the driver and the body of an answer.
A client that asks the server finds the object, or the mark that it is still to come
(`probe_arrives`).
-/

namespace CorpusRunner

namespace Introspect

/-! ## One call of `run`, closed before its timer -/

/-- A piece of the child's output. -/
def CallEvent.IsData : CallEvent → Prop
  | .stdout _ => True
  | .stderr _ => True
  | _ => False

def stdoutPieces (es : List CallEvent) : List (List UInt8) :=
  es.filterMap fun
    | .stdout d => some d
    | _ => none

namespace Call

variable {s s' : Call} {e : CallEvent}

/-- Nothing has settled the call. -/
structure Hearing (s : Call) (out : JsString) : Prop extends Listening s where
  open_ : s.done = false
  out : s.out = out

theorem hearing_run (args : List JsString) (timeout : Int) (now : Nat) :
    (run args timeout now (.child true true)).Hearing [] :=
  ⟨⟨rfl, rfl, ⟨0, rfl⟩, rfl⟩, rfl, rfl⟩

theorem Hearing.of_run {out : JsString} {es : List CallEvent} (h : s.Hearing out)
    (hdata : ∀ e ∈ es, e.IsData) (hrun : Run Call.step unrestricted s es s') :
    s'.Hearing (out ++ decodePieces (stdoutPieces es)) := by
  induction es generalizing s out with
  | nil =>
    obtain rfl := hrun.nil_inv
    simpa [stdoutPieces, decodePieces] using h
  | cons e es ih =>
    obtain ⟨t, -, hs, hrest⟩ := hrun.cons_inv
    have hlater := fun a ha => hdata a (List.mem_cons_of_mem e ha)
    have he := hdata e (by simp)
    cases step_of_eq hs with
    | @stdout d _ =>
      have hnext : Hearing { s with out := s.out ++ decodeUtf8 d } (out ++ decodeUtf8 d) :=
        ⟨⟨h.thrown, h.onEnd, h.declared, h.resolved⟩, h.open_, by rw [h.out]⟩
      simpa [stdoutPieces, decodePieces] using ih hnext hlater hrest
    | @stderr d _ =>
      have hnext : Hearing { s with err := s.err ++ decodeUtf8 d } out :=
        ⟨⟨h.thrown, h.onEnd, h.declared, h.resolved⟩, h.open_, h.out⟩
      simpa [stdoutPieces] using ih hnext hlater hrest
    | close => exact he.elim
    | error => exact he.elim
    | fire => exact he.elim

/-- The call is settled with `r`. -/
structure SettledWith (s : Call) (r : Outcome) : Prop extends Listening s where
  done : s.done = true
  first : s.resolved = [r]

theorem finish_done (hdone : s.done = true) (r : Outcome) : (s.finish r).1 = s := by
  simp [finish, hdone]

/-- What comes later does not count. -/
theorem SettledWith.step {r : Outcome} (h : s.SettledWith r) (hs : Step s e s') :
    s'.SettledWith r := by
  cases hs with
  | stdout => exact ⟨⟨h.thrown, h.onEnd, h.declared, h.resolved⟩, h.done, h.first⟩
  | stderr => exact ⟨⟨h.thrown, h.onEnd, h.declared, h.resolved⟩, h.done, h.first⟩
  | close =>
    rw [onClose, finish_done h.done]
    exact h
  | error =>
    rw [onError, finish_done h.done]
    exact h
  | @fire t killError =>
    have hcleared : SettledWith { s with timers := s.timers.clearTimeout (some t.id) } r :=
      ⟨listening_clear h.toListening _, h.done, h.first⟩
    have hraised : (raise { s with timers := s.timers.clearTimeout (some t.id) } killError) =
        { s with timers := s.timers.clearTimeout (some t.id) } := by
      cases killError with
      | none => rfl
      | some e =>
        rw [raise, if_pos hcleared.onEnd, onError, finish_done hcleared.done]
    rw [onTimeout, hraised, finish_done hcleared.done]
    exact hcleared

theorem SettledWith.of_run {r : Outcome} {es : List CallEvent} (h : s.SettledWith r)
    (hrun : Run Call.step unrestricted s es s') : s'.SettledWith r :=
  hrun.invariant (I := fun s => s.SettledWith r) h fun _ _ _ hi _ hs =>
    SettledWith.step hi (step_of_eq hs)

theorem settledWith_close {out : JsString} (h : s.Hearing out) (code : Option Int) :
    (s.onClose code).SettledWith ⟨code, out, s.err, false⟩ := by
  obtain ⟨t, ht⟩ := h.declared
  have hresolved := h.resolved
  rw [h.open_, if_neg Bool.false_ne_true] at hresolved
  have hfinish : s.onClose code = { s with
      done := true
      timers := s.timers.clearTimeout (some t)
      resolved := [⟨code, out, s.err, false⟩] } := by
    simp [onClose, finish, h.open_, ht, hresolved, h.out]
  rw [hfinish]
  exact ⟨⟨h.thrown, h.onEnd, ⟨t, ht⟩, ⟨_, rfl⟩⟩, rfl, rfl⟩

/-- A child that ends before its timer: the promise has what came from `stdout`. -/
theorem promise_of_closed {args : List JsString} {timeout : Int} {now : Nat}
    {data late : List CallEvent} {code : Option Int} (hdata : ∀ e ∈ data, e.IsData)
    (hrun : Run Call.step unrestricted (run args timeout now (.child true true))
      (data ++ .close code :: late) s) :
    ∃ err, s.promise = some (.ok ⟨code, decodePieces (stdoutPieces data), err, false⟩) := by
  obtain ⟨t, hbefore, hbehind⟩ := hrun.append_inv
  have hhearing := (hearing_run args timeout now).of_run hdata hbefore
  rw [List.nil_append] at hhearing
  obtain ⟨u, -, hclose, hlate⟩ := hbehind.cons_inv
  have hu : u = t.onClose code := by
    cases step_of_eq hclose
    rfl
  have hsettled : s.SettledWith ⟨code, decodePieces (stdoutPieces data), t.err, false⟩ := by
    subst hu
    exact (settledWith_close hhearing code).of_run hlate
  exact ⟨t.err, by simp [promise, hsettled.thrown, hsettled.first]⟩

end Call

/-! ## The first call of the driver -/

namespace Driver

variable {s s' : Driver}

/-- The events of a child are those of the call that is awaited. -/
theorem call_of_run {c : Call} (hcall : s.call = some c) {es : List CallEvent}
    (hrun : Run Driver.step unrestricted s (es.map .child) s') :
    ∃ c', Run Call.step unrestricted c es c' ∧ s' = { s with call := some c' } := by
  induction es generalizing s c with
  | nil =>
    obtain rfl := hrun.nil_inv
    exact ⟨c, .refl, by rw [← hcall]⟩
  | cons e es ih =>
    obtain ⟨t, -, hs, hrest⟩ := hrun.cons_inv
    simp only [Driver.step, hcall] at hs
    obtain ⟨c₁, hc₁, rfl⟩ := Option.map_eq_some_iff.mp hs
    obtain ⟨c', hc', rfl⟩ := ih rfl hrest
    exact ⟨c', .cons trivial hc₁ hc', rfl⟩

theorem of_ne_pending (r : Outcome) : Probe.of r ≠ .pending := by
  unfold Probe.of
  split <;> simp

/-- What the probe has found stays in the report. -/
theorem Ready.probe_of_run (h : s.Ready) (hne : s.report.probe ≠ .pending)
    {es : List DriverEvent} (hrun : Run Driver.step unrestricted s es s') :
    s'.report.probe = s.report.probe := by
  have hall : s'.Ready ∧ s.report.Grows s'.report := by
    refine hrun.invariant (I := fun t => t.Ready ∧ s.report.Grows t.report) ⟨h, .refl _⟩ ?_
    intro t e t' ht _ hs
    obtain ⟨hready, hgrows⟩ := ht.1.step (step_of_eq hs)
    exact ⟨hready, ht.2.trans hgrows⟩
  exact hall.2.probe.resolve_left hne

theorem ready_of_run {files : Files} {es : List DriverEvent}
    (hrun : Run Driver.step unrestricted (start files) es s) : s.Ready :=
  hrun.invariant (ready_start files) fun _ _ _ ht _ hs => (ht.step (step_of_eq hs)).1

/-- The first child is the probe; it is closed before its timer. -/
theorem probe_of_closed {files : Files} {now : Nat} {data late : List CallEvent}
    {code : Option Int} {rest : List DriverEvent} (hdata : ∀ e ∈ data, e.IsData)
    (hrun : Run Driver.step unrestricted (start files)
      (.spawn now (.child true true) :: ((data ++ .close code :: late).map .child ++
        .settled :: rest)) s) :
    ∃ err, s.report.probe = .of ⟨code, decodePieces (stdoutPieces data), err, false⟩ := by
  obtain ⟨t, -, hspawn, hbehind⟩ := hrun.cons_inv
  obtain ⟨u, hchild, hrest⟩ := hbehind.append_inv
  obtain ⟨v, -, hsettled, hrest⟩ := hrest.cons_inv
  have hready : v.Ready := ready_of_run
    ((Run.cons trivial hspawn hchild).snoc trivial hsettled)
  obtain rfl := Option.some.inj hspawn
  obtain ⟨c, hc, rfl⟩ := call_of_run rfl hchild
  obtain ⟨err, hpromise⟩ := Call.promise_of_closed hdata hc
  simp only [Driver.step, Option.bind_some, hpromise] at hsettled
  obtain rfl := Option.some.inj hsettled
  exact ⟨err, hready.probe_of_run (of_ne_pending _) hrest⟩

end Driver

/-! ## The server -/

def ServerEvent.driver? : ServerEvent → Option DriverEvent
  | .driver e _ => some e
  | .request _ => none

/-- The requests leave the driver alone. -/
theorem driver_run {host : Host} {files : Files} {es : List ServerEvent} {s : Server}
    (h : Run Server.step unrestricted (.start host files) es s) :
    Run Driver.step unrestricted (.start files) (es.filterMap ServerEvent.driver?) s.driver := by
  refine h.traceInvariant (I := fun es s => Run Driver.step unrestricted (.start files)
    (es.filterMap ServerEvent.driver?) s.driver) .refl ?_
  intro es t e t' ht _ hs
  rw [List.filterMap_append]
  cases e with
  | driver e now =>
    obtain ⟨d, hd, rfl⟩ := Option.map_eq_some_iff.mp hs
    exact ht.snoc trivial hd
  | request url =>
    obtain rfl := Option.some.inj hs
    have hnil : [ServerEvent.request url].filterMap ServerEvent.driver? = [] := rfl
    rw [hnil, List.append_nil]
    exact ht

/-- **The object arrives.** The probe has printed its report; the pipe has handed the bytes over in
pieces that cut no character, and the child has ended before its timer. Then every report that the
server has sent, before or after, has the object of the probe or the mark that it is to come, and
a report that is asked for now has the object: under each key what its statement, its section or
its promise has come to. -/
theorem probe_arrives (secs : List IntrospectProbe.Section) (hd : IntrospectProbe.Distinct secs)
    (settled : List IntrospectProbe.Event) (p : IntrospectProbe.Probe)
    (hprobe : Run IntrospectProbe.Probe.step unrestricted (.start secs) settled p)
    (text : JsString) (htext : p.printed = some text)
    (host : Host) (files : Files) (es : List ServerEvent) (s : Server)
    (hserve : Run Server.step unrestricted (.start host files) es s)
    (now : Nat) (data late : List CallEvent) (code : Option Int) (rest : List DriverEvent)
    (hes : es.filterMap ServerEvent.driver? = .spawn now (.child true true) ::
      ((data ++ .close code :: late).map .child ++ .settled :: rest))
    (hdata : ∀ e ∈ data, e.IsData) (hbytes : (stdoutPieces data).flatten = encodeUtf8 text)
    (huncut : Uncut (stdoutPieces data)) :
    (∀ body ∈ bodiesOf s.responses, ∃ v, View.read (encodeUtf8 body) = some v ∧
      (v.probe = Probe.toJson .pending ∨
        v.probe = IntrospectProbe.reportOf (IntrospectProbe.outcome settled) secs)) ∧
    ∃ v, View.read (encodeUtf8 (s.answer (.ok (js "/", none))).body) = some v ∧
      v.probe = IntrospectProbe.reportOf (IntrospectProbe.outcome settled) secs := by
  have hout : decodePieces (stdoutPieces data) = decodeUtf8 (encodeUtf8 text) := by
    rw [(decodePieces_eq_iff _).mpr huncut, hbytes]
  have hholds := IntrospectProbe.holds_of_run hd hprobe
  have hparse := hholds.printed_read htext
  have hdriver := driver_run hserve
  rw [hes] at hdriver
  obtain ⟨err, hof⟩ := Driver.probe_of_closed hdata hdriver
  have hfound : s.driver.report.probe =
      .parsed (IntrospectProbe.reportOf (IntrospectProbe.outcome settled) secs) := by
    rw [hof, Probe.of, hout, hparse]
  have hserves := serves_of_run hserve
  obtain ⟨seen, hbodies, -, hall⟩ := hserves.seen
  constructor
  · intro body hbody
    rw [hbodies] at hbody
    obtain ⟨snap, hsnap, rfl⟩ := List.mem_map.mp hbody
    refine ⟨snap.1.view, View.read_toJson .., ?_⟩
    rcases (hall snap hsnap).1.probe with hpending | hsame
    · exact .inl (congrArg Probe.toJson hpending)
    · rw [hfound] at hsame
      exact .inr (congrArg Probe.toJson hsame.symm)
  · refine ⟨s.driver.report.view, View.read_toJson .., ?_⟩
    exact congrArg Probe.toJson hfound

/-- The text in one piece, and a request while it is on its way. -/
def onePiece (text : JsString) : List ServerEvent :=
  [.driver (.spawn 0 (.child true true)) 0,
    .driver (.child (.stdout (encodeUtf8 text))) 0, .request (.ok (js "/", none)),
    .driver (.child (.close (some 0))) 0, .driver .settled 0]

theorem probe_arrives_onePiece :
    ∃ text s, Run Server.step unrestricted (.start quietHost oneTest) (onePiece text) s ∧
      ∃ v, View.read (encodeUtf8 (s.answer (.ok (js "/", none))).body) = some v ∧
        v.probe = IntrospectProbe.reportOf
          (IntrospectProbe.outcome IntrospectProbe.backwards) IntrospectProbe.twoSections := by
  obtain ⟨p, text, hprobe, htext⟩ := IntrospectProbe.printed_backwards
  have hserve : Run Server.step unrestricted (.start quietHost oneTest) (onePiece text) _ :=
    run_of_execute rfl
  have huncut : Uncut [encodeUtf8 text] := by
    rw [← decodePieces_eq_iff]
    simp [decodePieces]
  have harrives := probe_arrives _ IntrospectProbe.distinct_twoSections _ _ hprobe text htext
    quietHost oneTest _ _ hserve 0 [.stdout (encodeUtf8 text)] [] (some 0) [] rfl
    (by simp [CallEvent.IsData]) (by simp [stdoutPieces]) huncut
  exact ⟨text, _, hserve, harrives.2⟩

end Introspect

end CorpusRunner
