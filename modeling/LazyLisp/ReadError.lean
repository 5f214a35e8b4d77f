import LazyLisp.Breakdown
import LazyLisp.Text.Quoted

/-!
What can be wrong with program text. Three classes matter to a caller: the input is at its end,
it stops inside a form and more input could complete it, or no further input can mend it.
-/

namespace LazyLisp

inductive ReadIssue where
  | endOfInput
  | unterminatedString
  | unterminatedComment
  | unmatchedOpen
  | unexpectedEnd
  | unexpectedChar (c : Char)
  | unexpectedClose
  | unexpectedDot
  | leadingDot
  | afterDottedTail
  | unknownEscape (c : Char)
  | unknownToken (kind text : String)
  deriving Repr, DecidableEq

namespace ReadIssue

def message : ReadIssue → String
  | endOfInput => "end of input"
  | unterminatedString => "unterminated string"
  | unterminatedComment => "unterminated multi-line comment"
  | unmatchedOpen => "unmatched '('"
  | unexpectedEnd => "unexpected end of input"
  | unexpectedChar c => "unexpected character " ++ Text.quotedSingle c
  | unexpectedClose => "unexpected ')'"
  | unexpectedDot => "unexpected '.'"
  | leadingDot => "dotted list needs an element before '.'"
  | afterDottedTail => "expected ')' after dotted tail"
  | unknownEscape c => "unknown string escape \\" ++ String.singleton c
  | unknownToken kind text => "unknown token: " ++ kind ++ " " ++ text

def isIncomplete : ReadIssue → Bool
  | unterminatedString | unterminatedComment | unmatchedOpen | unexpectedEnd => true
  | _ => false

/-- More input may help: the input is at its end, between forms or inside one. -/
def wantsMore (issue : ReadIssue) : Bool := issue == endOfInput || issue.isIncomplete

end ReadIssue

/-- An issue and where it is, as a count of characters. -/
structure ReadError where
  issue : ReadIssue
  offset : Nat
  deriving Repr, DecidableEq

inductive ReadFailure where
  | error (e : ReadError)
  | breakdown (b : Breakdown)
  deriving Repr, DecidableEq

namespace ReadFailure

def wantsMore : ReadFailure → Bool
  | error e => e.issue.wantsMore
  | breakdown _ => false

end ReadFailure

end LazyLisp
