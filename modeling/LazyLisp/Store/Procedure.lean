import LazyLisp.Primitive
import LazyLisp.Signature
import LazyLisp.Store.Frame

/-!
Procedures: closures, closures with several parameter lists, expanders and primitives.

An expander is applied to the unevaluated arguments of a form and yields the form to evaluate
instead.
-/

namespace LazyLisp

structure Closure where
  signature : Signature
  body : Value
  /-- The frame that the closure was made in. -/
  frame : FrameId
  name : Option String
  doc : Option String

inductive Procedure where
  | closure (c : Closure)
  /-- The first clause that accepts the number of arguments is run. -/
  | cases (clauses : List Closure) (name doc : Option String)
  | expander (c : Closure)
  | primitive (p : Primitive)

namespace Procedure

def name? : Procedure → Option String
  | closure c => c.name
  | cases _ name _ => name
  | expander c => c.name
  | primitive p => some p.name

def doc? : Procedure → Option String
  | closure c => c.doc
  | cases _ _ doc => doc
  | expander c => c.doc
  | primitive p => some p.doc

/-- What kind of procedure it is, in the words of the printed form. -/
def kind : Procedure → String
  | closure _ => "procedure"
  | cases _ _ _ => "case-lambda"
  | expander _ => "macro"
  | primitive _ => "builtin"

def isExpander : Procedure → Bool
  | expander _ => true
  | _ => false

def text (p : Procedure) : String :=
  match p.name? with
  | none | some "" => "#<" ++ p.kind ++ ">"
  | some name => "#<" ++ p.kind ++ ":" ++ name ++ ">"

/-- Give a name to a procedure made by a lambda form that has none; its clauses take it too. -/
def named (name : String) : Procedure → Procedure
  | closure c => closure { c with name := c.name <|> some name }
  | cases clauses none doc =>
    cases (clauses.map fun c => { c with name := some name }) (some name) doc
  | p => p

end Procedure

end LazyLisp
