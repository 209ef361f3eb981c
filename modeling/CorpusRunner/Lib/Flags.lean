import CorpusRunner.Misc.Regex

/-!
# Flags

`parseFlags` of `corpus-lib.mjs`: the tokens behind `// Flags:` in the text of a test. The
expression keeps its `lastIndex` between the rounds of the loop.
-/

namespace CorpusRunner

/-- `.`: everything but a line terminator. -/
def isDot (c : UInt16) : Bool := !isLineTerminator c

/-- `/^\/\/ Flags:(.*)$/gm` (`corpus-lib.mjs:33`). -/
def flagsRe : Regex :=
  .seq .lineStart (.seq (.lit (js "// Flags:")) (.seq (.group (.star isDot)) .lineEnd))

/-- The pieces of `split(/\s+/)`; `blank` says that the separator goes on. -/
def splitBlanksFrom : Bool → JsString → List JsString
  | _, [] => [[]]
  | blank, c :: s =>
    if isSpace c then
      if blank then splitBlanksFrom true s else [] :: splitBlanksFrom true s
    else (splitBlanksFrom false s).modifyHead (c :: ·)

/-- `s.split(/\s+/)`. -/
def splitBlanks (s : JsString) : List JsString := splitBlanksFrom false s

/-- What a match adds to the flags (`corpus-lib.mjs:36`). -/
def flagsOf (m : Cursor) : List JsString :=
  (splitBlanks (trim (m.groups.headD []))).filter (fun f => !f.isEmpty)

/-- The loop of `parseFlags` (`corpus-lib.mjs:35-37`); `none` when the rounds run out. -/
def flagsLoop (src : JsString) : Nat → Nat → List JsString → Option (List JsString)
  | 0, _, _ => none
  | rounds + 1, lastIndex, flags =>
    match flagsRe.exec src lastIndex with
    | (some m, lastIndex') => flagsLoop src rounds lastIndex' (flags ++ flagsOf m)
    | (none, _) => some flags

/-- `parseFlags` (`corpus-lib.mjs:31-39`). -/
def parseFlags (src : JsString) : List JsString :=
  (flagsLoop src (src.length + 1) 0 []).getD []

end CorpusRunner
