/-!
Parameter lists of procedures: names for the first arguments and, optionally, one more that
collects the rest.
-/

namespace LazyLisp

structure Signature where
  names : List String
  rest : Option String
  deriving Repr, DecidableEq

namespace Signature

/-- Whether a call with that many arguments fits. -/
def accepts (sig : Signature) (count : Nat) : Bool :=
  match sig.rest with
  | none => count == sig.names.length
  | some _ => sig.names.length ≤ count

/-- The argument counts that fit, as messages put it. -/
def describe (sig : Signature) : String :=
  match sig.rest with
  | none => toString sig.names.length
  | some _ => "at least " ++ toString sig.names.length

/-- The parameter list as it is written in a program. -/
def text (sig : Signature) : String :=
  let inner := " ".intercalate sig.names
  match sig.rest with
  | none => "(" ++ inner ++ ")"
  | some rest => if inner.isEmpty then rest else "(" ++ inner ++ " . " ++ rest ++ ")"

end Signature

end LazyLisp
