import CorpusRunner.Misc.JsString

/-!
# Regular expressions

The part of JavaScript's regular expressions that the parsers of this program use, without the
`u` flag: classes of code units, greedy repetition of a class, `^` and `$` under the `m` flag and
capturing groups. `Regex.ends` lists where a match that begins at a cursor may end, in the order
in which a backtracking matcher tries the ends, so that its head is the match that is found;
`exec` looks for the leftmost place where there is one.
-/

namespace CorpusRunner

inductive Regex where
  | empty
  /-- One code unit of a class. -/
  | unit (p : UInt16 → Bool)
  /-- `p*`, greedy. -/
  | star (p : UInt16 → Bool)
  /-- `^` under the `m` flag. -/
  | lineStart
  /-- `$` under the `m` flag. -/
  | lineEnd
  | seq (r s : Regex)
  /-- A capturing group; groups are not nested. -/
  | group (r : Regex)

/-- A place in a text: what is behind it, the last code unit first, what is ahead of it, and the
groups that were captured on the way. -/
structure Cursor where
  behind : JsString
  ahead : JsString
  groups : List JsString
  deriving DecidableEq, Repr

namespace Cursor

def text (c : Cursor) : JsString := c.behind.reverse ++ c.ahead

/-- Behind the next `n` code units. -/
def skip (c : Cursor) (n : Nat) : Cursor :=
  { c with behind := (c.ahead.take n).reverse ++ c.behind, ahead := c.ahead.drop n }

def atLineStart (c : Cursor) : Bool := c.behind.head?.all isLineTerminator

def atLineEnd (c : Cursor) : Bool := c.ahead.head?.all isLineTerminator

/-- `c'` with what was read since `c` as a further group. -/
def capture (c c' : Cursor) : Cursor :=
  { c' with groups := c'.groups ++ [c.ahead.take (c'.behind.length - c.behind.length)] }

end Cursor

/-- The ends of `p*` behind `n` further code units of the class, the longest first. -/
def starEnds (p : UInt16 → Bool) (c : Cursor) : List Cursor :=
  (List.range ((c.ahead.takeWhile p).length + 1)).reverse.map c.skip

/-- Where a match that begins at the cursor may end, in the order of the backtracking. -/
def Regex.ends : Regex → Cursor → List Cursor
  | .empty, c => [c]
  | .unit p, c => if c.ahead.head?.any p then [c.skip 1] else []
  | .star p, c => starEnds p c
  | .lineStart, c => if c.atLineStart then [c] else []
  | .lineEnd, c => if c.atLineEnd then [c] else []
  | .seq r s, c => (r.ends c).flatMap s.ends
  | .group r, c => (r.ends c).map c.capture

/-- A literal text. -/
def Regex.lit : JsString → Regex
  | [] => .empty
  | c :: s => .seq (.unit (fun x => decide (x = c))) (lit s)

/-- The match that begins at the first place from which there is one. -/
def Regex.find (r : Regex) (behind : JsString) : JsString → Option Cursor
  | [] => (r.ends ⟨behind, [], []⟩).head?
  | x :: ahead =>
    match r.ends ⟨behind, x :: ahead, []⟩ with
    | c :: _ => some c
    | [] => r.find (x :: behind) ahead

/-- `re.exec(s)` under the `g` flag: the end of the match, with its groups, and the `lastIndex`
that is left. -/
def Regex.exec (r : Regex) (s : JsString) (lastIndex : Nat) : Option Cursor × Nat :=
  if s.length < lastIndex then (none, 0)
  else
    match r.find (s.take lastIndex).reverse (s.drop lastIndex) with
    | some c => (some c, c.behind.length)
    | none => (none, 0)

/-! ## The ends of a match -/

namespace Cursor

@[simp] theorem skip_zero (c : Cursor) : c.skip 0 = c := by
  simp [skip]

theorem skip_skip (c : Cursor) (m n : Nat) : (c.skip m).skip n = c.skip (m + n) := by
  simp [skip, List.take_add, List.drop_drop]

end Cursor

theorem ends_lit (w : JsString) (c : Cursor) :
    (Regex.lit w).ends c = if w <+: c.ahead then [c.skip w.length] else [] := by
  induction w generalizing c with
  | nil => simp [Regex.lit, Regex.ends]
  | cons x w ih =>
    cases hahead : c.ahead with
    | nil => simp [Regex.lit, Regex.ends, hahead]
    | cons y ahead =>
      by_cases hxy : y = x
      · have hskip : (c.skip 1).ahead = ahead := by simp [Cursor.skip, hahead]
        simp [Regex.lit, Regex.ends, hahead, hxy, ih, hskip, Cursor.skip_skip, Nat.add_comm]
      · simp [Regex.lit, Regex.ends, hahead, hxy, Ne.symm hxy]

theorem Cursor.skip_takeWhile (p : UInt16 → Bool) (c : Cursor) :
    c.skip (c.ahead.takeWhile p).length =
      { c with behind := (c.ahead.takeWhile p).reverse ++ c.behind
               ahead := c.ahead.dropWhile p } := by
  have htake : c.ahead.take (c.ahead.takeWhile p).length = c.ahead.takeWhile p :=
    (List.prefix_iff_eq_take.mp (List.takeWhile_prefix p)).symm
  have hdrop : (c.ahead.takeWhile p ++ c.ahead.dropWhile p).drop (c.ahead.takeWhile p).length =
      c.ahead.dropWhile p := List.drop_left
  rw [List.takeWhile_append_dropWhile] at hdrop
  rw [Cursor.skip, htake, hdrop]

/-- The first end of `p*` is behind all that the class has. -/
theorem ends_star (p : UInt16 → Bool) (c : Cursor) :
    ∃ rest, (Regex.star p).ends c =
      { c with behind := (c.ahead.takeWhile p).reverse ++ c.behind
               ahead := c.ahead.dropWhile p } :: rest := by
  rw [← Cursor.skip_takeWhile]
  simp [Regex.ends, starEnds, List.range_succ]

/-- The search goes on from the cursor that `lastIndex` stands for. -/
theorem exec_text (r : Regex) (behind ahead : JsString) :
    r.exec (behind.reverse ++ ahead) behind.length =
      match r.find behind ahead with
      | some c => (some c, c.behind.length)
      | none => (none, 0) := by
  have hlength : behind.length = behind.reverse.length := List.length_reverse.symm
  rw [Regex.exec, if_neg (by simp), hlength, List.take_left, List.drop_left,
    List.reverse_reverse]

theorem find_eq_of_ends {r : Regex} {behind ahead : JsString} {c : Cursor} {rest : List Cursor}
    (h : r.ends ⟨behind, ahead, []⟩ = c :: rest) : r.find behind ahead = some c := by
  cases ahead with
  | nil => rw [Regex.find, h, List.head?_cons]
  | cons x ahead => rw [Regex.find, h]

end CorpusRunner
