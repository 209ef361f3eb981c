import CorpusRunner.Lib.Flags

/-!
# Flags, line by line

`parseFlags` reads a text with one expression that remembers where it stopped. What it returns is
what the lines of the text say, each by itself (`parseFlags_lines`). The proof follows the cursor:
behind a match it stands at the end of a line, and everywhere else each code unit that it passes
leaves the flags of the rest alone (`find_flags`).
-/

namespace CorpusRunner

/-! ## Lines and words -/

/-- The lines of a text; a carriage return and the line feed behind it end one line. -/
def textLines : JsString → List JsString
  | [] => [[]]
  | 13 :: 10 :: s => [] :: textLines s
  | c :: s =>
    if isLineTerminator c then [] :: textLines s else (textLines s).modifyHead (c :: ·)

/-- The non-empty tokens between blanks. -/
def words (s : JsString) : List JsString := (s.splitOnP isSpace).filter (fun w => !w.isEmpty)

/-- The flags that a line gives. -/
def lineFlags (line : JsString) : List JsString :=
  if js "// Flags:" <+: line then words (line.drop 9) else []

/-- What ends a line. -/
def newlines : List JsString := [[10], [13], [13, 10], [0x2028], [0x2029]]

theorem words_append_cons {c : UInt16} (hc : isSpace c = true) (s t : JsString) :
    words (s ++ c :: t) = words s ++ words t := by
  rw [words, List.splitOnP_append_cons s t hc, List.filter_append]
  rfl

theorem words_nil : words [] = [] := rfl

theorem words_cons {c : UInt16} (hc : isSpace c = true) (s : JsString) :
    words (c :: s) = words s := by
  have happend := words_append_cons hc [] s
  rwa [List.nil_append, words_nil, List.nil_append] at happend

theorem words_dropWhile (s : JsString) : words (s.dropWhile isSpace) = words s := by
  induction s with
  | nil => rfl
  | cons c s ih =>
    by_cases hc : isSpace c = true
    · rw [List.dropWhile_cons_of_pos hc, ih, words_cons hc]
    · rw [List.dropWhile_cons_of_neg hc]

theorem words_rdropWhile (s : JsString) : words (s.rdropWhile isSpace) = words s := by
  induction s using List.reverseRecOn with
  | nil => rfl
  | append_singleton s c ih =>
    by_cases hc : isSpace c = true
    · rw [List.rdropWhile_concat_pos _ _ _ hc, ih, words_append_cons hc, words_nil,
        List.append_nil]
    · rw [List.rdropWhile_concat_neg _ _ _ hc]

theorem words_trim (s : JsString) : words (trim s) = words s := by
  rw [trim, words_rdropWhile, words_dropWhile]

/-- Both readings of the blanks begin alike, and differ in empty pieces only. -/
theorem splitBlanksFrom_spec (s : JsString) :
    (∃ head rest rest', splitBlanksFrom false s = head :: rest ∧
      s.splitOnP isSpace = head :: rest' ∧
      rest.filter (fun w => !w.isEmpty) = rest'.filter (fun w => !w.isEmpty)) ∧
    (splitBlanksFrom true s).filter (fun w => !w.isEmpty) = words s := by
  induction s with
  | nil => exact ⟨⟨[], [], [], rfl, rfl, rfl⟩, rfl⟩
  | cons c s ih =>
    obtain ⟨⟨head, rest, rest', hsplit, hsplit', hrest⟩, hblank⟩ := ih
    by_cases hc : isSpace c = true
    · have hcons : (c :: s).splitOnP isSpace = [] :: s.splitOnP isSpace := by
        rw [List.splitOnP_cons_eq_if_modifyHead, if_pos hc]
      refine ⟨⟨[], splitBlanksFrom true s, s.splitOnP isSpace, ?_, hcons, hblank⟩, ?_⟩
      · rw [splitBlanksFrom, if_pos hc, if_neg Bool.false_ne_true]
      · rw [splitBlanksFrom, if_pos hc, if_pos rfl, hblank, words_cons hc]
    · have hcons : (c :: s).splitOnP isSpace = (c :: head) :: rest' := by
        rw [List.splitOnP_cons_eq_if_modifyHead, if_neg hc, hsplit']
        rfl
      have hpieces (blank : Bool) : splitBlanksFrom blank (c :: s) = (c :: head) :: rest := by
        rw [splitBlanksFrom, if_neg hc, hsplit]
        rfl
      refine ⟨⟨c :: head, rest, rest', hpieces false, hcons, hrest⟩, ?_⟩
      rw [hpieces true, words, hcons, List.filter_cons_of_pos rfl, List.filter_cons_of_pos rfl,
        hrest]

theorem filter_splitBlanks (s : JsString) :
    (splitBlanks s).filter (fun w => !w.isEmpty) = words s := by
  obtain ⟨⟨head, rest, rest', hsplit, hsplit', hrest⟩, -⟩ := splitBlanksFrom_spec s
  rw [splitBlanks, hsplit, words, hsplit', List.filter_cons, List.filter_cons, hrest]

theorem flagsOf_eq {m : Cursor} {text : JsString} (h : m.groups = [text]) :
    flagsOf m = words text := by
  rw [flagsOf, h, List.headD_cons, filter_splitBlanks, words_trim]

/-! ## Each terminator by itself -/

/-- The lines when every code unit that ends a line ends one of its own. -/
def unitLines (s : JsString) : List JsString := s.splitOnP isLineTerminator

/-- The flags of the rest of a text, where `start` says that a line begins with it. -/
def flagsFrom (start : Bool) (s : JsString) : List JsString :=
  (if start then unitLines s else (unitLines s).tail).flatMap lineFlags

theorem lineFlags_nil : lineFlags [] = [] := by decide

theorem unitLines_cons (c : UInt16) (s : JsString) :
    unitLines (c :: s) =
      if isLineTerminator c then [] :: unitLines s else (unitLines s).modifyHead (c :: ·) :=
  List.splitOnP_cons_eq_if_modifyHead c s

/-- The line ends of `\r\n` are two, with an empty line between them. -/
theorem textLines_spec (s : JsString) :
    ∃ head rest rest', textLines s = head :: rest ∧ unitLines s = head :: rest' ∧
      rest.flatMap lineFlags = rest'.flatMap lineFlags := by
  fun_induction textLines s with
  | case1 => exact ⟨[], [], [], rfl, rfl, rfl⟩
  | case2 s ih =>
    obtain ⟨head, rest, rest', hlines, hunits, hrest⟩ := ih
    have hcr : isLineTerminator 13 = true := by decide
    have hlf : isLineTerminator 10 = true := by decide
    refine ⟨[], textLines s, [] :: unitLines s, rfl, ?_, ?_⟩
    · rw [unitLines_cons, if_pos hcr, unitLines_cons, if_pos hlf]
    · rw [List.flatMap_cons, lineFlags_nil, List.nil_append, hlines, hunits, List.flatMap_cons,
        List.flatMap_cons, hrest]
  | case3 c s _ hc ih =>
    obtain ⟨head, rest, rest', hlines, hunits, hrest⟩ := ih
    refine ⟨[], textLines s, unitLines s, rfl, ?_, ?_⟩
    · rw [unitLines_cons, if_pos hc]
    · rw [hlines, hunits, List.flatMap_cons, List.flatMap_cons, hrest]
  | case4 c s _ hc ih =>
    obtain ⟨head, rest, rest', hlines, hunits, hrest⟩ := ih
    refine ⟨c :: head, rest, rest', ?_, ?_, hrest⟩
    · rw [hlines]
      rfl
    · rw [unitLines_cons, if_neg hc, hunits]
      rfl

theorem flatMap_textLines (s : JsString) :
    (textLines s).flatMap lineFlags = flagsFrom true s := by
  obtain ⟨head, rest, rest', hlines, hunits, hrest⟩ := textLines_spec s
  rw [flagsFrom, if_pos rfl, hlines, hunits, List.flatMap_cons, List.flatMap_cons, hrest]

/-- The first line goes up to the first terminator. -/
theorem unitLines_eq (s : JsString) :
    unitLines s = s.takeWhile isDot :: (unitLines (s.dropWhile isDot)).tail := by
  have hdots : ∀ c ∈ s.takeWhile isDot, isLineTerminator c = false := by
    intro c hc
    simpa [isDot] using List.mem_takeWhile_imp hc
  have hsplit := List.takeWhile_append_dropWhile (p := isDot) (l := s)
  cases hdrop : s.dropWhile isDot with
  | nil =>
    rw [hdrop, List.append_nil] at hsplit
    rw [hsplit] at hdots ⊢
    exact List.splitOnP_eq_singleton hdots
  | cons c rest =>
    have hc : isLineTerminator c = true := by
      have hhead := List.head?_dropWhile_not isDot s
      simpa [hdrop, isDot] using hhead
    rw [hdrop] at hsplit
    rw [unitLines_cons, if_pos hc, List.tail_cons, unitLines, ← hsplit,
      List.splitOnP_append_cons_of_forall_mem hdots c hc, hsplit]
    rfl

theorem flagsFrom_false_cons (c : UInt16) (s : JsString) :
    flagsFrom false (c :: s) = flagsFrom (isLineTerminator c) s := by
  obtain ⟨head, rest, hunits⟩ := List.exists_cons_of_ne_nil
    (List.splitOnP_ne_nil isLineTerminator s)
  have hunits : unitLines s = head :: rest := hunits
  by_cases hc : isLineTerminator c = true
  · simp [flagsFrom, unitLines_cons, hc]
  · simp [flagsFrom, unitLines_cons, hc, hunits]

theorem flagsFrom_true (s : JsString) :
    flagsFrom true s = lineFlags (s.takeWhile isDot) ++ flagsFrom false (s.dropWhile isDot) := by
  rw [flagsFrom, if_pos rfl, unitLines_eq, List.flatMap_cons]
  rfl

theorem flagsFrom_false (s : JsString) :
    flagsFrom false s = flagsFrom false (s.dropWhile isDot) := by
  simp only [flagsFrom, Bool.false_eq_true, if_false]
  rw [unitLines_eq, List.tail_cons]

theorem flagsFrom_true_of_no_header {s : JsString} (h : ¬ js "// Flags:" <+: s) :
    flagsFrom true s = flagsFrom false s := by
  have hline : lineFlags (s.takeWhile isDot) = [] :=
    if_neg fun hbegins => h (hbegins.trans (List.takeWhile_prefix isDot))
  rw [flagsFrom_true, hline, List.nil_append, ← flagsFrom_false]

/-! ## The expression -/

theorem takeWhile_header {ahead : JsString} (h : js "// Flags:" <+: ahead) :
    ahead.takeWhile isDot = js "// Flags:" ++ (ahead.drop 9).takeWhile isDot ∧
      ahead.dropWhile isDot = (ahead.drop 9).dropWhile isDot := by
  obtain ⟨rest, rfl⟩ := h
  have hall : (js "// Flags:").all isDot = true := by decide
  have hdots : ∀ c ∈ js "// Flags:", isDot c = true := List.all_eq_true.mp hall
  have hdrop : (js "// Flags:" ++ rest).drop 9 = rest := List.drop_left' (by decide)
  rw [hdrop, List.takeWhile_append_of_pos hdots, List.dropWhile_append_of_pos hdots]
  exact ⟨rfl, rfl⟩

/-- The first end of the group and the `$` behind it: the end of the line. -/
theorem ends_rest (c : Cursor) :
    ∃ rest, (Regex.seq (.group (.star isDot)) .lineEnd).ends c =
      { behind := (c.ahead.takeWhile isDot).reverse ++ c.behind
        ahead := c.ahead.dropWhile isDot
        groups := c.groups ++ [c.ahead.takeWhile isDot] } :: rest := by
  obtain ⟨rest, hstar⟩ := ends_star isDot c
  generalize hm : Cursor.mk ((c.ahead.takeWhile isDot).reverse ++ c.behind)
    (c.ahead.dropWhile isDot) (c.groups ++ [c.ahead.takeWhile isDot]) = m
  have htake : c.ahead.take (c.ahead.takeWhile isDot).length = c.ahead.takeWhile isDot :=
    (List.prefix_iff_eq_take.mp (List.takeWhile_prefix isDot)).symm
  have hcapture : c.capture { c with
      behind := (c.ahead.takeWhile isDot).reverse ++ c.behind
      ahead := c.ahead.dropWhile isDot } = m := by
    rw [← hm]
    simp only [Cursor.capture, List.length_append, List.length_reverse, Nat.add_sub_cancel,
      htake]
  have hend : m.atLineEnd = true := by
    have hhead := List.head?_dropWhile_not isDot c.ahead
    rw [Cursor.atLineEnd, ← hm]
    cases hrest : c.ahead.dropWhile isDot with
    | nil => rfl
    | cons x rest => simpa [hrest, isDot] using hhead
  have hfirst : Regex.lineEnd.ends m = [m] := if_pos hend
  refine ⟨(rest.map c.capture).flatMap Regex.lineEnd.ends, ?_⟩
  rw [Regex.ends, Regex.ends, hstar, List.map_cons, hcapture, List.flatMap_cons, hfirst]
  rfl

/-- Where a flag line begins, the first match is the line. -/
theorem ends_flagsRe {c : Cursor} (hgroups : c.groups = []) (hstart : c.atLineStart = true)
    (h : js "// Flags:" <+: c.ahead) :
    ∃ rest, flagsRe.ends c =
      { behind := (c.ahead.takeWhile isDot).reverse ++ c.behind
        ahead := c.ahead.dropWhile isDot
        groups := [(c.ahead.drop 9).takeWhile isDot] } :: rest := by
  have hends : flagsRe.ends c =
      (Regex.seq (.group (.star isDot)) .lineEnd).ends (c.skip 9) := by
    rw [flagsRe, Regex.ends, Regex.ends, if_pos hstart, List.flatMap_singleton, Regex.ends,
      ends_lit, if_pos h, List.flatMap_singleton]
    rfl
  obtain ⟨rest, hrest⟩ := ends_rest (c.skip 9)
  obtain ⟨htake, hdrop⟩ := takeWhile_header h
  have hhead : c.ahead.take 9 = js "// Flags:" := (List.prefix_iff_eq_take.mp h).symm
  have hbehind : (c.ahead.takeWhile isDot).reverse ++ c.behind =
      ((c.ahead.drop 9).takeWhile isDot).reverse ++ ((c.ahead.take 9).reverse ++ c.behind) := by
    rw [htake, List.reverse_append, List.append_assoc, hhead]
  refine ⟨rest, ?_⟩
  rw [hends, hrest, hbehind, hdrop]
  simp only [Cursor.skip, hgroups, List.nil_append]

theorem ends_flagsRe_eq_nil {c : Cursor}
    (h : c.atLineStart = false ∨ ¬ js "// Flags:" <+: c.ahead) : flagsRe.ends c = [] := by
  rw [flagsRe, Regex.ends, Regex.ends]
  rcases h with h | h
  · rw [if_neg (by simp [h])]
    rfl
  · split
    · rw [List.flatMap_singleton, Regex.ends, ends_lit, if_neg h]
      rfl
    · rfl

/-- Behind code units of a line no line begins. -/
theorem atLineStart_of_dots {dots behind ahead : JsString} {groups : List JsString}
    (hdots : ∀ c ∈ dots, isDot c = true) (hne : dots ≠ []) :
    (Cursor.mk (dots.reverse ++ behind) ahead groups).atLineStart = false := by
  obtain ⟨x, rest, hrev⟩ := List.exists_cons_of_ne_nil (List.reverse_ne_nil_iff.mpr hne)
  have hx : isDot x = true := hdots x (List.mem_reverse.mp (hrev ▸ List.mem_cons_self))
  simpa [Cursor.atLineStart, hrev, isDot] using hx

/-! ## The loop -/

/-- Either the rest of the text has no flags, or the match takes the flags of one line. The
induction is on what is ahead. -/
theorem find_flags (behind ahead : JsString) :
    (flagsRe.find behind ahead = none ∧
      flagsFrom (Cursor.mk behind ahead []).atLineStart ahead = []) ∨
    ∃ m, flagsRe.find behind ahead = some m ∧ m.text = behind.reverse ++ ahead ∧
      m.ahead.length < ahead.length ∧ m.atLineStart = false ∧
      flagsFrom (Cursor.mk behind ahead []).atLineStart ahead =
        flagsOf m ++ flagsFrom false m.ahead := by
  induction ahead generalizing behind with
  | nil =>
    left
    have hheader : ¬ js "// Flags:" <+: [] := by decide
    have hends : flagsRe.ends ⟨behind, [], []⟩ = [] := ends_flagsRe_eq_nil (.inr hheader)
    refine ⟨by rw [Regex.find, hends]; rfl, ?_⟩
    cases (Cursor.mk behind [] []).atLineStart <;> decide
  | cons x ahead ih =>
    by_cases hmatch : (Cursor.mk behind (x :: ahead) []).atLineStart = true ∧
        js "// Flags:" <+: x :: ahead
    · right
      obtain ⟨hstart, hheader⟩ := hmatch
      obtain ⟨rest, hends⟩ := ends_flagsRe rfl hstart hheader
      obtain ⟨htake, -⟩ := takeWhile_header hheader
      have hsplit := List.takeWhile_append_dropWhile (p := isDot) (l := x :: ahead)
      refine ⟨_, find_eq_of_ends hends, ?_, ?_, ?_, ?_⟩
      · rw [Cursor.text, List.reverse_append, List.reverse_reverse, List.append_assoc, hsplit]
      · have hlength := congrArg List.length hsplit
        have hnine : (js "// Flags:").length = 9 := by decide
        rw [List.length_append, htake, List.length_append, hnine] at hlength
        simp only
        omega
      · refine atLineStart_of_dots (fun c hc => List.mem_takeWhile_imp hc) ?_
        rw [htake]
        exact List.append_ne_nil_of_left_ne_nil (by decide) _
      · rw [hstart, flagsFrom_true, flagsOf_eq rfl, htake, lineFlags,
          if_pos (List.prefix_append _ _), List.drop_left' (by decide)]
    · have hends : flagsRe.ends ⟨behind, x :: ahead, []⟩ = [] := by
        apply ends_flagsRe_eq_nil
        rw [not_and_or, Bool.not_eq_true] at hmatch
        exact hmatch
      have hfind : flagsRe.find behind (x :: ahead) = flagsRe.find (x :: behind) ahead := by
        rw [Regex.find, hends]
      have hflags : flagsFrom (Cursor.mk behind (x :: ahead) []).atLineStart (x :: ahead) =
          flagsFrom (Cursor.mk (x :: behind) ahead []).atLineStart ahead := by
        have hnext : (Cursor.mk (x :: behind) ahead []).atLineStart = isLineTerminator x := rfl
        rw [hnext, ← flagsFrom_false_cons]
        cases hstart : (Cursor.mk behind (x :: ahead) []).atLineStart with
        | false => rfl
        | true => exact flagsFrom_true_of_no_header fun hheader => hmatch ⟨hstart, hheader⟩
      rw [hfind, hflags, List.length_cons]
      rcases ih (x :: behind) with hnone | ⟨m, hm, htext, hlt, hstart, hrest⟩
      · exact .inl hnone
      · right
        refine ⟨m, hm, ?_, hlt.trans (Nat.lt_succ_self _), hstart, hrest⟩
        rw [htext, List.reverse_cons, List.append_assoc]
        rfl

/-- The loop ends, and collects what the rest of the text says. The induction is on the rounds:
each match leaves a shorter rest. -/
theorem flagsLoop_eq {rounds : Nat} (behind ahead : JsString) (flags : List JsString)
    (h : ahead.length < rounds) :
    flagsLoop (behind.reverse ++ ahead) rounds behind.length flags =
      some (flags ++ flagsFrom (Cursor.mk behind ahead []).atLineStart ahead) := by
  induction rounds generalizing behind ahead flags with
  | zero => cases h
  | succ rounds ih =>
    have hexec := exec_text flagsRe behind ahead
    rcases find_flags behind ahead with ⟨hfind, hrest⟩ | ⟨m, hfind, htext, hlt, hstart, hrest⟩
    · rw [flagsLoop, hexec, hfind, hrest, List.append_nil]
    · have hloop := ih m.behind m.ahead (flags ++ flagsOf m) (by omega)
      have hstart' : (Cursor.mk m.behind m.ahead []).atLineStart = false := hstart
      have htext' : m.behind.reverse ++ m.ahead = behind.reverse ++ ahead := htext
      rw [hstart', htext', List.append_assoc, ← hrest] at hloop
      rw [flagsLoop, hexec, hfind]
      exact hloop

theorem flagsLoop_lines {src : JsString} {rounds : Nat} (h : src.length < rounds) :
    flagsLoop src rounds 0 [] = some ((textLines src).flatMap lineFlags) := by
  rw [flatMap_textLines]
  exact flagsLoop_eq [] src [] h

theorem parseFlags_eq (src : JsString) : parseFlags src = flagsFrom true src := by
  rw [parseFlags, flagsLoop_lines (Nat.lt_succ_self _), Option.getD_some, flatMap_textLines]

theorem flagsFrom_append {c : UInt16} (hc : isLineTerminator c = true) (a b : JsString) :
    flagsFrom true (a ++ c :: b) = flagsFrom true a ++ flagsFrom true b := by
  simp only [flagsFrom, if_true, unitLines]
  rw [List.splitOnP_append_cons a b hc, List.flatMap_append]

/-- `parseFlags` returns the flags of the lines, in order; so a text may be cut at any line end.
The loop needs no more rounds than the text has code units, and one. -/
theorem parseFlags_lines :
    (∀ src rounds, src.length < rounds →
      flagsLoop src rounds 0 [] = some ((textLines src).flatMap lineFlags)) ∧
    (∀ src, parseFlags src = (textLines src).flatMap lineFlags) ∧
    ∀ a b, ∀ newline ∈ newlines,
      parseFlags (a ++ newline ++ b) = parseFlags a ++ parseFlags b := by
  refine ⟨fun _ _ h => flagsLoop_lines h, ?_, ?_⟩
  · intro src
    rw [parseFlags_eq, flatMap_textLines]
  · intro a b newline hnewline
    have hone (c : UInt16) (hc : isLineTerminator c = true) :
        flagsFrom true (a ++ [c] ++ b) = flagsFrom true a ++ flagsFrom true b := by
      rw [List.append_assoc]
      exact flagsFrom_append hc a b
    simp only [newlines, List.mem_cons, List.not_mem_nil, or_false] at hnewline
    simp only [parseFlags_eq]
    rcases hnewline with rfl | rfl | rfl | rfl | rfl
    · exact hone 10 (by decide)
    · exact hone 13 (by decide)
    · -- an empty line between the two
      have hcr : flagsFrom true (a ++ 13 :: ([] ++ 10 :: b)) =
          flagsFrom true a ++ flagsFrom true ([] ++ 10 :: b) := flagsFrom_append (by decide) a _
      have hlf : flagsFrom true ([] ++ 10 :: b) = flagsFrom true [] ++ flagsFrom true b :=
        flagsFrom_append (by decide) [] b
      have hnil : flagsFrom true [] = [] := by decide
      rw [hlf, hnil, List.nil_append] at hcr
      rw [List.append_assoc]
      exact hcr
    · exact hone 0x2028 (by decide)
    · exact hone 0x2029 (by decide)

example : parseFlags (js "// Flags: --a  --b\r\nx\n// Flags:\n // Flags: --c\n// Flags: --d") =
    [js "--a", js "--b", js "--d"] := by
  decide +kernel

end CorpusRunner
