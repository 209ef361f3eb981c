import CorpusRunner.Proofs.RunOnce

/-!
# The chunks of a child's output

The data handlers decode every chunk by itself, and ask for the cap before a chunk and not
within it. So the texts that a record is made of are those of the whole streams where no chunk
ends within a character and none finds the cap reached (`Intact`), and then how the streams are
cut makes no difference (`RunOne.record_of_chunks`). A chunk that ends within a character always
shows in the text (`collect_eq_iff_uncut`) and in a tail that has room for it
(`tailText_eq_iff`); one that is dropped always shows in the text (`collect_eq_iff_room`).
-/

namespace CorpusRunner

/-! ## The text of one stream -/

/-- What the data handler makes of the chunks of a stream. -/
def collect (text : JsString) (chunks : List (List UInt8)) : JsString :=
  chunks.foldl appendChunk text

/-- Every chunk comes before the text so far has reached the cap. -/
def Room (chunks : List (List UInt8)) : Prop :=
  ∀ pre d post, chunks = pre ++ d :: post → (decodeUtf8 pre.flatten).length < outputCap

/-- No chunk ends within a character, and none is dropped. -/
structure Intact (chunks : List (List UInt8)) : Prop where
  uncut : Uncut chunks
  room : Room chunks

theorem collect_append (text : JsString) (chunks chunks' : List (List UInt8)) :
    collect text (chunks ++ chunks') = collect (collect text chunks) chunks' :=
  List.foldl_append

/-- A beginning of the chunks is decoded, each by itself; the rest comes after the cap. -/
theorem collect_cases (text : JsString) (chunks : List (List UInt8)) :
    ∃ kept dropped, chunks = kept ++ dropped ∧ collect text chunks = text ++ decodePieces kept ∧
      (dropped ≠ [] → outputCap ≤ (text ++ decodePieces kept).length) ∧
      ∀ pre d post, kept = pre ++ d :: post → (text ++ decodePieces pre).length < outputCap := by
  induction chunks generalizing text with
  | nil => exact ⟨[], [], rfl, by simp [collect, decodePieces], by simp, by simp⟩
  | cons d chunks ih =>
    by_cases hcap : text.length < outputCap
    · obtain ⟨kept, dropped, hsplit, htext, hdropped, hkept⟩ := ih (text ++ decodeUtf8 d)
      have hcons : ∀ pre, text ++ decodePieces (d :: pre) =
          text ++ decodeUtf8 d ++ decodePieces pre := by
        intro pre
        rw [List.append_assoc]
        rfl
      refine ⟨d :: kept, dropped, by rw [hsplit, List.cons_append], ?_, ?_, ?_⟩
      · rw [hcons, ← htext, collect, List.foldl_cons, appendChunk, if_pos hcap]
        rfl
      · rwa [hcons]
      · intro pre a post hpre
        cases pre with
        | nil => simpa [decodePieces] using hcap
        | cons b pre =>
          rw [List.cons_append, List.cons.injEq] at hpre
          rw [← hpre.1, hcons]
          exact hkept pre a post hpre.2
    · have hfull : ∀ l : List (List UInt8), collect text l = text := by
        intro l
        induction l with
        | nil => rfl
        | cons a l ih => rwa [collect, List.foldl_cons, appendChunk, if_neg hcap]
      refine ⟨[], d :: chunks, rfl, ?_, ?_, by simp⟩
      · rw [hfull]
        simp [decodePieces]
      · intro _
        simpa [decodePieces] using Nat.le_of_not_lt hcap

/-- Where no piece is too late, nothing is dropped. -/
theorem collect_of_room {chunks : List (List UInt8)}
    (h : ∀ pre d post, chunks = pre ++ d :: post → (decodePieces pre).length < outputCap) :
    collect [] chunks = decodePieces chunks := by
  obtain ⟨kept, dropped, rfl, htext, hdropped, -⟩ := collect_cases [] chunks
  cases dropped with
  | nil => simpa using htext
  | cons d dropped =>
    have hcap := hdropped (by simp)
    have hlt := h kept d dropped rfl
    rw [List.nil_append] at hcap
    omega

/-- As long as nothing is dropped, the text is the one of the whole stream exactly when no chunk
ends within a character. -/
theorem collect_eq_iff_uncut {chunks : List (List UInt8)}
    (h : ∀ pre d post, chunks = pre ++ d :: post → (decodePieces pre).length < outputCap) :
    collect [] chunks = decodeUtf8 chunks.flatten ↔ Uncut chunks := by
  rw [collect_of_room h]
  exact decodePieces_eq_iff chunks

theorem Intact.collect_eq {chunks : List (List UInt8)} (h : Intact chunks) :
    collect [] chunks = decodeUtf8 chunks.flatten := by
  have hpieces : ∀ pre d post, chunks = pre ++ d :: post →
      (decodePieces pre).length < outputCap := by
    intro pre d post hsplit
    have hpre : Uncut pre := by
      have huncut := h.uncut
      rw [hsplit] at huncut
      exact huncut.left
    rw [(decodePieces_eq_iff pre).mpr hpre]
    exact h.room pre d post hsplit
  exact (collect_eq_iff_uncut hpieces).mpr h.uncut

/-- As long as no chunk ends within a character, the text is the one of the whole stream exactly
when no chunk is dropped. -/
theorem collect_eq_iff_room {chunks : List (List UInt8)} (h : Uncut chunks)
    (hne : ∀ d ∈ chunks, d ≠ []) :
    collect [] chunks = decodeUtf8 chunks.flatten ↔ Room chunks := by
  constructor
  · intro heq pre d post hsplit
    obtain ⟨kept, dropped, rfl, htext, -, hkept⟩ := collect_cases [] chunks
    have hdropped : dropped = [] := by
      rw [htext, List.nil_append, (decodePieces_eq_iff kept).mpr h.left, h.decodeUtf8_append,
        List.self_eq_append_right, decodeUtf8_eq_nil, List.flatten_eq_nil_iff] at heq
      rw [List.eq_nil_iff_forall_not_mem]
      intro d hd
      exact hne d (by simp [hd]) (heq d hd)
    rw [hdropped, List.append_nil] at hsplit
    have hlt := hkept pre d post hsplit
    rw [hsplit, hdropped, List.append_nil] at h
    rwa [List.nil_append, (decodePieces_eq_iff pre).mpr h.left] at hlt
  · intro hroom
    exact (Intact.mk h hroom).collect_eq

/-- A stream that stays below the cap loses no chunk. -/
theorem intact_of_short {chunks : List (List UInt8)} (h : Uncut chunks)
    (hshort : (decodeUtf8 chunks.flatten).length < outputCap) : Intact chunks := by
  refine ⟨h, ?_⟩
  rintro pre d post rfl
  rw [h.decodeUtf8_append, List.length_append] at hshort
  omega

/-! ## A tail that shows it all -/

/-- Two streams that a tail has room for, with the line between them. -/
def FitsTail (out err : List (List UInt8)) : Prop :=
  out.flatten.length + (js "\n--- stderr ---\n").length + err.flatten.length ≤ 1500

instance (out err : List (List UInt8)) : Decidable (FitsTail out err) :=
  inferInstanceAs (Decidable (_ ≤ _))

section Tail

variable {out err : JsString}

/-- Texts that fit are not cut. -/
theorem tailText_of_fits
    (h : out.length + (js "\n--- stderr ---\n").length + err.length ≤ 1500) :
    tailText out err [] =
      trim (out ++ if err = [] then [] else js "\n--- stderr ---\n" ++ err) := by
  have htrim := length_trim_le (out ++ if err = [] then [] else js "\n--- stderr ---\n" ++ err)
  have hback : (if err = [] then [] else js "\n--- stderr ---\n" ++ err).length ≤
      (js "\n--- stderr ---\n").length + err.length := by
    split
    · exact Nat.zero_le _
    · rw [List.length_append]
  rw [List.length_append] at htrim
  simp only [tailText, if_true]
  rw [if_neg (by omega)]

/-- They keep every U+FFFD. -/
theorem count_tailText
    (h : out.length + (js "\n--- stderr ---\n").length + err.length ≤ 1500) :
    (tailText out err []).count 0xFFFD = out.count 0xFFFD + err.count 0xFFFD := by
  rw [tailText_of_fits h, count_trim (by decide), List.count_append]
  split
  · rename_i herr
    rw [herr]
  · have hline : (js "\n--- stderr ---\n").count 0xFFFD = 0 := by decide
    rw [List.count_append, hline, Nat.zero_add]

end Tail

/-- A stream that a tail has room for is not dropped from. -/
theorem collect_of_fits {chunks : List (List UInt8)} (h : chunks.flatten.length ≤ 1500) :
    collect [] chunks = decodePieces chunks := by
  apply collect_of_room
  intro pre d post hsplit
  have hpre := length_decodePieces pre
  rw [hsplit, List.flatten_append, List.length_append] at h
  simp only [outputCap]
  omega

theorem intact_iff_uncut {chunks : List (List UInt8)} (h : chunks.flatten.length ≤ 1500) :
    Intact chunks ↔ Uncut chunks := by
  constructor
  · exact Intact.uncut
  · intro huncut
    apply intact_of_short huncut
    have hlen := length_decodeUtf8 chunks.flatten
    simp only [outputCap]
    omega

/-- A tail that shows both streams is the one of the whole streams exactly when no chunk ends
within a character. -/
theorem tailText_eq_iff {out err : List (List UInt8)} (h : FitsTail out err) :
    tailText (collect [] out) (collect [] err) [] =
        tailText (decodeUtf8 out.flatten) (decodeUtf8 err.flatten) [] ↔
      Intact out ∧ Intact err := by
  have hout : out.flatten.length ≤ 1500 := by
    unfold FitsTail at h
    omega
  have herr : err.flatten.length ≤ 1500 := by
    unfold FitsTail at h
    omega
  constructor
  · intro heq
    have hpieces : (decodePieces out).length ≤ out.flatten.length := length_decodePieces out
    have hpieces' : (decodePieces err).length ≤ err.flatten.length := length_decodePieces err
    have hwhole := length_decodeUtf8 out.flatten
    have hwhole' := length_decodeUtf8 err.flatten
    have hcount := congrArg (List.count 0xFFFD) heq
    unfold FitsTail at h
    rw [collect_of_fits hout, collect_of_fits herr, count_tailText (by omega),
      count_tailText (by omega)] at hcount
    -- neither stream has fewer of them in pieces
    have hle := count_decodePieces out
    have hle' := count_decodePieces err
    rw [intact_iff_uncut hout, intact_iff_uncut herr]
    exact ⟨uncut_of_count (by omega), uncut_of_count (by omega)⟩
  · intro hintact
    rw [hintact.1.collect_eq, hintact.2.collect_eq]

/-! ## The record -/

/-- What comes of a child that is left to itself, up to `close`. -/
def RunEvent.beforeClose : RunEvent → Bool
  | .stdout _ | .stderr _ | .exit => true
  | _ => false

def stdoutChunks (es : List (Nat × RunEvent)) : List (List UInt8) :=
  es.filterMap (fun e => match e.2 with
    | .stdout d => some d
    | _ => none)

def stderrChunks (es : List (Nat × RunEvent)) : List (List UInt8) :=
  es.filterMap (fun e => match e.2 with
    | .stderr d => some d
    | _ => none)

theorem stdoutChunks_append (es es' : List (Nat × RunEvent)) :
    stdoutChunks (es ++ es') = stdoutChunks es ++ stdoutChunks es' :=
  List.filterMap_append

theorem stderrChunks_append (es es' : List (Nat × RunEvent)) :
    stderrChunks (es ++ es') = stderrChunks es ++ stderrChunks es' :=
  List.filterMap_append

namespace RunOne

/-- The streams are delivered, and the child may exit. -/
def delivering (_ : RunOne) (e : Nat × RunEvent) : Prop := e.2.beforeClose = true

instance (s : RunOne) (e : Nat × RunEvent) : Decidable (delivering s e) :=
  inferInstanceAs (Decidable (_ = _))

/-- The child's streams come in these chunks, whichever is read first and wherever `exit` comes,
and then `close` gives the record. -/
def Gives (child : RunOne) (out err : List (List UInt8)) (r : RunRec) : Prop :=
  ∃ es s s' now, Run RunOne.step delivering child es s ∧ stdoutChunks es = out ∧
    stderrChunks es = err ∧ s.step (now, .close) = some s' ∧ s'.resolved = [r]

/-- The state while the streams are delivered. -/
structure Delivering (ending : Ending) (es : List (Nat × RunEvent)) (s : RunOne) : Prop where
  out : s.out = collect [] (stdoutChunks es)
  err : s.err = collect [] (stderrChunks es)
  killed : s.killed = false
  settled : s.settled = false
  resolved : s.resolved = []
  ending : s.ending = ending

theorem Delivering.step {ending : Ending} {es : List (Nat × RunEvent)} {s s' : RunOne} {now : Nat}
    {e : RunEvent} (h : Delivering ending es s) (he : e.beforeClose = true)
    (hstep : RunStep s now e s') : Delivering ending (es ++ [(now, e)]) s' := by
  have hout : ∀ chunks, stdoutChunks [(now, e)] = chunks →
      collect [] (stdoutChunks (es ++ [(now, e)])) = collect s.out chunks := by
    intro chunks hchunks
    rw [stdoutChunks_append, hchunks, collect_append, h.out]
  have herr : ∀ chunks, stderrChunks [(now, e)] = chunks →
      collect [] (stderrChunks (es ++ [(now, e)])) = collect s.err chunks := by
    intro chunks hchunks
    rw [stderrChunks_append, hchunks, collect_append, h.err]
  cases hstep with
  | stdout d => exact { h with out := (hout [d] rfl).symm, err := (herr [] rfl).symm }
  | stderr d => exact { h with out := (hout [] rfl).symm, err := (herr [d] rfl).symm }
  | exit => exact { h with out := (hout [] rfl).symm, err := (herr [] rfl).symm }
  | error | close | kill | reap | grace => cases he

/-- The record is made of the two collected texts and of what the child ends with. -/
theorem record_of_gives {test : JsString} {flags : List JsString} {ending : Ending}
    {timeout : Int} {start : Nat} {out err : List (List UInt8)} {r : RunRec}
    (h : Gives (spawned test flags ending timeout start) out err r) :
    r.status = classify (collect [] out) (collect [] err) ending.code ∧
      r.tail = if r.status = .fail then some (tailText (collect [] out) (collect [] err) [])
        else none := by
  obtain ⟨es, s, s', now, hrun, rfl, rfl, hclose, hr⟩ := h
  have hs : Delivering ending es s := by
    apply hrun.traceInvariant (I := Delivering ending)
    · exact ⟨rfl, rfl, rfl, rfl, rfl, rfl⟩
    · intro es t e t' ht hok hstep
      exact ht.step hok (runStep_of_step hstep)
  have hend : s.onEnd now = s' := Option.some.inj hclose
  have hrec : r = s.record now (classify s.out s.err s.ending.code) s.ending.code
      s.ending.signal [] := by
    rw [← hend, onEnd, resolved_finalize hs.settled, hs.resolved, hs.killed] at hr
    exact (List.cons.inj hr).1.symm
  rw [hrec, ← hs.out, ← hs.err, ← hs.ending]
  refine ⟨rfl, ?_⟩
  simp only [record, classify_ne_timeout, or_false]

/-- Whatever its chunks are, a child can write them. -/
theorem exists_gives (test : JsString) (flags : List JsString) (ending : Ending) (timeout : Int)
    (start : Nat) (out err : List (List UInt8)) :
    ∃ r, Gives (spawned test flags ending timeout start) out err r := by
  have hstdout : ∀ (chunks : List (List UInt8)) (s : RunOne), Run RunOne.step delivering s
      (chunks.map (fun d => (start, .stdout d))) { s with out := collect s.out chunks } := by
    intro chunks
    induction chunks with
    | nil => exact fun s => .refl
    | cons d chunks ih => exact fun s => .cons rfl rfl (ih _)
  have hstderr : ∀ (chunks : List (List UInt8)) (s : RunOne), Run RunOne.step delivering s
      (chunks.map (fun d => (start, .stderr d))) { s with err := collect s.err chunks } := by
    intro chunks
    induction chunks with
    | nil => exact fun s => .refl
    | cons d chunks ih => exact fun s => .cons rfl rfl (ih _)
  have hrun := (hstdout out (spawned test flags ending timeout start)).trans (hstderr err _)
  refine ⟨_, _, _, _, start, hrun, ?_, ?_, rfl, resolved_finalize rfl⟩
  · simp [stdoutChunks, List.filterMap_map]
  · simp [stderrChunks, List.filterMap_map]

/-- However the streams are cut that another child delivers intact, the two records agree in
status and tail, and show the streams decoded as a whole, if only no chunk ends within a character
and none is dropped; and if the child fails and its tail has room for both streams, then in no
other case. -/
theorem record_of_chunks {test : JsString} {flags : List JsString} {ending : Ending}
    {timeout timeout' : Int} {start start' : Nat} {out err out' err' : List (List UInt8)}
    {r r' : RunRec} (h : Gives (spawned test flags ending timeout start) out err r)
    (h' : Gives (spawned test flags ending timeout' start') out' err' r')
    (hout : out.flatten = out'.flatten) (herr : err.flatten = err'.flatten)
    (hintact' : Intact out' ∧ Intact err') :
    (Intact out ∧ Intact err →
      (r.status = r'.status ∧ r.tail = r'.tail) ∧
        r.status = classify (decodeUtf8 out.flatten) (decodeUtf8 err.flatten) ending.code ∧
        r.tail = if r.status = .fail
          then some (tailText (decodeUtf8 out.flatten) (decodeUtf8 err.flatten) []) else none) ∧
    (ending.code ≠ some 0 → FitsTail out err →
      (r.status = r'.status ∧ r.tail = r'.tail ↔ Intact out ∧ Intact err)) := by
  obtain ⟨hstatus, htail⟩ := record_of_gives h
  obtain ⟨hstatus', htail'⟩ := record_of_gives h'
  rw [hintact'.1.collect_eq, hintact'.2.collect_eq, ← hout, ← herr] at hstatus' htail'
  constructor
  · intro hintact
    rw [hintact.1.collect_eq, hintact.2.collect_eq] at hstatus htail
    have hsame : r.status = r'.status := hstatus.trans hstatus'.symm
    refine ⟨⟨hsame, ?_⟩, hstatus, htail⟩
    rw [htail, htail', hsame]
  · intro hcode hfits
    -- a failing child's record has the tail, whatever has been written
    have hfail : ∀ text text' : JsString, classify text text' ending.code = .fail := by
      intro text text'
      rw [classify, if_neg hcode]
    rw [hfail] at hstatus hstatus'
    rw [if_pos hstatus] at htail
    rw [if_pos hstatus'] at htail'
    rw [hstatus, hstatus', htail, htail', Option.some.injEq, tailText_eq_iff hfits]
    exact and_iff_right rfl

/-- A failing child that writes `é`: in one piece, with what comes before it or by itself, its tail
is the same, and cut it is another. -/
theorem record_of_chunks_wholeCharacter : ∃ r r' r'',
    Gives (spawned (js "test-a.js") [] ⟨some 1, none⟩ 30000 0) [[0x61, 0xC3, 0xA9]] [] r ∧
      Gives (spawned (js "test-a.js") [] ⟨some 1, none⟩ 30000 0) [[0x61], [0xC3, 0xA9]] [] r' ∧
      Gives (spawned (js "test-a.js") [] ⟨some 1, none⟩ 30000 0) [[0x61, 0xC3], [0xA9]] [] r'' ∧
      r.tail = r'.tail ∧ ¬ (r''.status = r'.status ∧ r''.tail = r'.tail) := by
  obtain ⟨r, hr⟩ := exists_gives (js "test-a.js") [] ⟨some 1, none⟩ 30000 0 [[0x61, 0xC3, 0xA9]] []
  obtain ⟨r', hr'⟩ :=
    exists_gives (js "test-a.js") [] ⟨some 1, none⟩ 30000 0 [[0x61], [0xC3, 0xA9]] []
  obtain ⟨r'', hr''⟩ :=
    exists_gives (js "test-a.js") [] ⟨some 1, none⟩ 30000 0 [[0x61, 0xC3], [0xA9]] []
  have hempty : Intact [] := intact_of_short ((decodePieces_eq_iff []).mp rfl) (by decide)
  have hwhole : Intact [[0x61, 0xC3, 0xA9]] :=
    intact_of_short ((decodePieces_eq_iff _).mp (by decide)) (by decide)
  have hpieces : Intact [[0x61], [0xC3, 0xA9]] :=
    intact_of_short ((decodePieces_eq_iff _).mp (by decide)) (by decide)
  refine ⟨r, r', r'', hr, hr', hr'', ?_, ?_⟩
  · exact ((record_of_chunks hr hr' rfl rfl ⟨hpieces, hempty⟩).1 ⟨hwhole, hempty⟩).1.2
  · rw [(record_of_chunks hr'' hr' rfl rfl ⟨hpieces, hempty⟩).2 (by decide) (by decide)]
    intro hintact
    exact absurd ((decodePieces_eq_iff _).mpr hintact.1.uncut) (by decide)

/-! ## A character that is cut -/

/-- A TAP plan that skips, with a no-break space in it. -/
def noBreakSpacePlan : List UInt8 :=
  [0x31, 0x2E, 0x2E, 0x30, 0xC2, 0xA0, 0x23, 0x20, 0x73, 0x6B, 0x69, 0x70]

def skippingChild : RunOne := spawned (js "test-ipv6.js") [] ⟨some 0, none⟩ 30000 0

/-- Whole, the plan is a skip; cut within the space, it is a pass. -/
theorem record_of_chunks_fails_noBreakSpace : ∃ r r',
    Gives skippingChild [noBreakSpacePlan] [] r ∧
      Gives skippingChild [noBreakSpacePlan.take 5, noBreakSpacePlan.drop 5] [] r' ∧
      [noBreakSpacePlan].flatten =
        [noBreakSpacePlan.take 5, noBreakSpacePlan.drop 5].flatten ∧
      r.status = .skip ∧ r'.status = .pass := by
  obtain ⟨r, hr⟩ := exists_gives (js "test-ipv6.js") [] ⟨some 0, none⟩ 30000 0
    [noBreakSpacePlan] []
  obtain ⟨r', hr'⟩ := exists_gives (js "test-ipv6.js") [] ⟨some 0, none⟩ 30000 0
    [noBreakSpacePlan.take 5, noBreakSpacePlan.drop 5] []
  refine ⟨r, r', hr, hr', rfl, (record_of_gives hr).1.trans ?_, (record_of_gives hr').1.trans ?_⟩
  · decide
  · decide

end RunOne

end CorpusRunner
