import CorpusRunner.Misc.Utf8

/-!
# The served matrix

`serve-matrix.mjs`: a child that runs `net-harness.mjs`, and a server whose page shows what has
come from the child so far. Requests come at any time between the events of the child.
-/

namespace CorpusRunner

namespace ServeMatrix

/-- `out` and `done`, and the pages that have been sent. -/
structure Served where
  out : JsString
  done : Bool
  pages : List JsString

def Served.start : Served := { out := [], done := false, pages := [] }

inductive Event where
  | stdout (d : List UInt8)
  | stderr (d : List UInt8)
  /-- `code` is `null` where a signal ended the child. -/
  | close (code : Option Int)
  | error (message : JsString)
  | request
  deriving DecidableEq

/-- `STATUS: ...`, and what is behind it. -/
def page (done : Bool) (out : JsString) : JsString :=
  js "STATUS: " ++ (if done then js "DONE" else js "RUNNING") ++ js "\n\n" ++
    (if out = [] then js "(starting…)" else out)

def codeText : Option Int → JsString
  | some code => intToJs code
  | none => js "null"

/-- A handler runs. -/
def Served.step (s : Served) : Event → Option Served
  | .stdout d => some { s with out := s.out ++ decodeUtf8 d }
  | .stderr d => some { s with out := s.out ++ decodeUtf8 d }
  | .close code =>
    some { s with
      done := true
      out := s.out ++ js "\n[net-harness exited " ++ codeText code ++ js "]\n" }
  | .error message =>
    some { s with done := true, out := s.out ++ js "\n[spawn error: " ++ message ++ js "]\n" }
  | .request => some { s with pages := s.pages ++ [page s.done s.out] }

end ServeMatrix

end CorpusRunner
