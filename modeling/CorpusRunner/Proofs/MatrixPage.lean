import CorpusRunner.Proofs.NetMatrix
import CorpusRunner.ServeMatrix

/-!
# The matrix on its page

A page shows what has come until its request, and says `DONE` once the child has ended. Between
the two programs is a pipe that hands over the bytes in pieces, and each piece is decoded by
itself: the page shows the matrix exactly when no character is cut (`page_shows_matrix`).
-/

namespace CorpusRunner

namespace ServeMatrix

/-! ## What a page shows -/

/-- What an event adds to `out`. -/
def Event.text : Event → JsString
  | .stdout d => decodeUtf8 d
  | .stderr d => decodeUtf8 d
  | .close code => js "\n[net-harness exited " ++ codeText code ++ js "]\n"
  | .error message => js "\n[spawn error: " ++ message ++ js "]\n"
  | .request => []

def Event.ends : Event → Bool
  | .close _ => true
  | .error _ => true
  | _ => false

/-- `out` after the events. -/
def shown (es : List Event) : JsString := es.flatMap Event.text

/-- The page that is sent next. -/
def pageAfter (es : List Event) : JsString := page (es.any Event.ends) (shown es)

/-- The pages that were sent, one for each request. -/
def pagesOf : List Event → List Event → List JsString
  | _, [] => []
  | before, .request :: es => pageAfter before :: pagesOf (before ++ [.request]) es
  | before, e :: es => pagesOf (before ++ [e]) es

variable {s s' : Served} {es es' : List Event} {e : Event}

theorem pagesOf_append (before es es' : List Event) :
    pagesOf before (es ++ es') = pagesOf before es ++ pagesOf (before ++ es) es' := by
  induction es generalizing before with
  | nil => simp [pagesOf]
  | cons e es ih => cases e <;> simp [pagesOf, ih]

/-- What the state has to do with the events. -/
structure Shows (es : List Event) (s : Served) : Prop where
  out : s.out = shown es
  done : s.done = es.any Event.ends
  pages : s.pages = pagesOf [] es

theorem Shows.step (h : Shows es s) (hs : s.step e = some s') : Shows (es ++ [e]) s' := by
  have hpages := pagesOf_append [] es [e]
  rw [← h.pages] at hpages
  cases e <;> obtain rfl := Option.some.inj hs <;>
    refine ⟨?_, ?_, ?_⟩ <;>
    simp [h.out, h.done, hpages, shown, Event.text, Event.ends, pagesOf, pageAfter]

theorem shows_of_run (h : Run Served.step unrestricted .start es s) : Shows es s :=
  h.traceInvariant (I := Shows) ⟨rfl, rfl, rfl⟩ fun _ _ _ _ hshows _ hs => hshows.step hs

/-! ## One child, from its first piece to its end -/

/-- What may come before the child has ended, if nothing comes to `stderr`. -/
def Event.Quiet (e : Event) : Prop := e = .request ∨ ∃ d, e = .stdout d

/-- The pieces that have come from `stdout`. -/
def pieces (es : List Event) : List (List UInt8) :=
  es.filterMap fun
    | .stdout d => some d
    | _ => none

theorem shown_quiet (h : ∀ e ∈ es, e.Quiet) : shown es = decodePieces (pieces es) := by
  induction es with
  | nil => rfl
  | cons e es ih =>
    have hrest := ih fun e he => h e (List.mem_cons_of_mem _ he)
    rw [shown, List.flatMap_cons, ← shown, hrest]
    obtain rfl | ⟨d, rfl⟩ := h e (by simp) <;> rfl

theorem ends_quiet (h : ∀ e ∈ es, e.Quiet) : es.any Event.ends = false := by
  rw [List.any_eq_false]
  intro e he
  obtain rfl | ⟨d, rfl⟩ := h e he <;> simp [Event.ends]

/-- A page that is sent before the end shows the pieces that have come. -/
theorem pagesOf_quiet {before : List Event} (hbefore : ∀ e ∈ before, e.Quiet)
    (h : ∀ e ∈ es, e.Quiet) :
    (pagesOf before es).length = es.count .request ∧
      ∀ p ∈ pagesOf before es, ∃ ds, ds <+: pieces (before ++ es) ∧
        p = page false (decodePieces ds) := by
  induction es generalizing before with
  | nil => simp [pagesOf]
  | cons e es ih =>
    have hnext : ∀ a ∈ before ++ [e], a.Quiet := by
      intro a ha
      rcases List.mem_append.mp ha with ha | ha
      · exact hbefore a ha
      · exact List.mem_singleton.mp ha ▸ h e (by simp)
    obtain ⟨hlength, hrest⟩ := ih hnext fun e he => h e (List.mem_cons_of_mem _ he)
    rw [List.append_assoc, List.singleton_append] at hrest
    obtain rfl | ⟨d, rfl⟩ := h e (by simp)
    · rw [pagesOf, List.length_cons, hlength, List.count_cons_self]
      refine ⟨rfl, ?_⟩
      intro p hp
      rcases List.mem_cons.mp hp with rfl | hp
      · refine ⟨pieces before, ?_, ?_⟩
        · rw [pieces, pieces, List.filterMap_append]
          exact List.prefix_append _ _
        · rw [pageAfter, ends_quiet hbefore, shown_quiet hbefore]
      · exact hrest p hp
    · rw [pagesOf, hlength, List.count_cons_of_ne (by simp)]
      · exact ⟨rfl, hrest⟩
      · simp

/-- Requests alone add nothing. -/
theorem pagesOf_requests (before : List Event) (h : ∀ e ∈ es, e = .request) :
    pagesOf before es = List.replicate es.length (pageAfter before) := by
  induction es generalizing before with
  | nil => rfl
  | cons e es ih =>
    obtain rfl := h e (by simp)
    have hsame : pageAfter (before ++ [.request]) = pageAfter before := by
      simp [pageAfter, shown, Event.ends, Event.text]
    rw [pagesOf, ih _ fun e he => h e (List.mem_cons_of_mem _ he), hsame]
    rfl

/-- **The page shows the matrix.** The harness has written its matrix, the pipe has handed the
bytes of the text over in pieces, nothing has come on `stderr`, and the child has ended; requests
have come in between. Before the end each page says `RUNNING` and shows the pieces that have come;
after it each page says `DONE` and shows them all. They are the matrix, a row for each probe with
what has decided its race, exactly when no character is cut by the pieces. -/
theorem page_shows_matrix {κ : Type} (probes : List NetHarness.Probe)
    (es : List (NetHarness.Event κ)) (s : NetHarness.Harness κ)
    (hnet : Run NetHarness.Harness.step unrestricted (.start probes) es s)
    (hall : s.results.length = probes.length) (runtime platform : JsString)
    (pre post : List Event) (code : Option Int) (t : Served)
    (hserve : Run Served.step unrestricted .start (pre ++ .close code :: post) t)
    (hpre : ∀ e ∈ pre, e.Quiet) (hpost : ∀ e ∈ post, e = .request)
    (hbytes : (pieces pre).flatten =
      encodeUtf8 (NetHarness.matrixText runtime platform s.results)) :
    ∃ early, t.pages = early ++ List.replicate post.length
        (page true (decodePieces (pieces pre) ++ Event.text (.close code))) ∧
      early.length = pre.count .request ∧
      (∀ p ∈ early, ∃ ds, ds <+: pieces pre ∧ p = page false (decodePieces ds)) ∧
      (decodePieces (pieces pre) = toWellFormed (NetHarness.matrixText runtime platform
        ((List.range probes.length).filterMap (NetHarness.rowOf probes es))) ↔
          Uncut (pieces pre)) := by
  have hshows := shows_of_run hserve
  obtain ⟨hcount, hearly⟩ := pagesOf_quiet (List.forall_mem_nil _) hpre
  refine ⟨pagesOf [] pre, ?_, hcount, hearly, ?_⟩
  · have hclose : pageAfter (pre ++ [.close code]) =
        page true (decodePieces (pieces pre) ++ Event.text (.close code)) := by
      have hshown : shown (pre ++ [.close code]) = shown pre ++ Event.text (.close code) := by
        simp [shown]
      rw [pageAfter, hshown, shown_quiet hpre]
      simp [Event.ends]
    rw [hshows.pages, pagesOf_append, List.nil_append, pagesOf, pagesOf_requests _ hpost, hclose]
    simp
  · have hrows := (NetHarness.reached_of_run hnet).rows.results_eq
    rw [hall] at hrows
    rw [← hrows, ← decodePieces_eq_iff, hbytes, decodeUtf8_encodeUtf8]

theorem uncut_singleton (d : List UInt8) : Uncut [d] := by
  rw [← decodePieces_eq_iff]
  simp [decodePieces]

/-- The matrix of `NetHarness.lateEvents` in one piece, and a page behind it. -/
theorem page_shows_matrix_lateEvents :
    ∃ s : NetHarness.Harness Nat, ∃ t,
      Run NetHarness.Harness.step unrestricted (.start NetHarness.twoProbes)
        NetHarness.lateEvents s ∧
      Run Served.step unrestricted .start
        [.stdout (encodeUtf8 (NetHarness.matrixText (js "v20") (js "linux/x64") s.results)),
          .close (some 0), .request] t ∧
      t.pages = [page true (toWellFormed (NetHarness.matrixText (js "v20") (js "linux/x64")
        ((List.range 2).filterMap
          (NetHarness.rowOf NetHarness.twoProbes NetHarness.lateEvents))) ++
        js "\n[net-harness exited 0]\n")] := by
  obtain ⟨s, hs, heq⟩ := Option.map_eq_some_iff.mp NetHarness.results_lateEvents
  have hrun := run_of_execute hs
  have hall : s.results.length = 2 := by
    have hrows : s.results.map NetHarness.Row.out = [⟨.ok, some []⟩, NetHarness.hang] :=
      congrArg Prod.fst heq
    rw [← List.length_map NetHarness.Row.out, hrows]
    rfl
  have hserve : Run Served.step unrestricted .start
      [.stdout (encodeUtf8 (NetHarness.matrixText (js "v20") (js "linux/x64") s.results)),
        .close (some 0), .request] _ := run_of_execute rfl
  obtain ⟨early, hpages, hcount, -, htext⟩ := page_shows_matrix NetHarness.twoProbes _ s hrun hall
    (js "v20") (js "linux/x64")
    [.stdout (encodeUtf8 (NetHarness.matrixText (js "v20") (js "linux/x64") s.results))]
    [.request] (some 0) _ hserve (by simp [Event.Quiet]) (by simp) (by simp [pieces])
  obtain rfl : early = [] := by simpa using hcount
  refine ⟨s, _, hrun, hserve, ?_⟩
  rw [hpages, htext.mpr (uncut_singleton _)]
  rfl

end ServeMatrix

end CorpusRunner
