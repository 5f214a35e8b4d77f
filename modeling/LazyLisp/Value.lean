import LazyLisp.Datum

/-!
Values: what programs compute with.

Eager pairs are trees and never change; each carries a mark by which two pairs with equal parts
are told apart. All that can change or is shared lives in the store, and the value is a reference
to it. A result of arithmetic that is no number carries a mark as well, since it differs from
every number, itself included, and is still the same object as itself.
-/

namespace LazyLisp

inductive Value where
  | atom (a : Atom)
  | nan (mark : Nat)
  | pair (mark : Nat) (car cdr : Value)
  | lazyPair (ref : Nat)
  | procedure (ref : Nat)
  | error (ref : Nat)
  | input (ref : Nat)
  deriving Inhabited

namespace Value

@[match_pattern] abbrev nil : Value := atom .nil

@[match_pattern] abbrev symbol (name : String) : Value := atom (.symbol name)

@[match_pattern] abbrev string (text : String) : Value := atom (.string text)

def ofBool (b : Bool) : Value := atom (.ofBool b)

def isPair : Value → Bool
  | pair _ _ _ | lazyPair _ => true
  | _ => false

def isNil : Value → Bool
  | nil => true
  | _ => false

def symbol? : Value → Option String
  | symbol name => some name
  | _ => none

def isSymbolNamed (v : Value) (name : String) : Bool := v.symbol? == some name

def number? : Value → Option Number
  | atom a => a.number?
  | nan _ => some (.float (0.0 / 0.0))
  | _ => none

def isTruthy : Value → Bool
  | atom a => a.isTruthy
  | _ => true

/-- The list of the items, given in reverse, in front of `tail`. The pairs take the marks from
`mark` on; the first mark left over is returned as well. -/
def consReversed (mark : Nat) (tail : Value) : List Value → Value × Nat
  | [] => (tail, mark)
  | item :: items => consReversed (mark + 1) (.pair mark item tail) items

mutual

/-- A datum as a value, its pairs marked from `mark` on, and the first mark left over. -/
def ofDatum (mark : Nat) : Datum → Value × Nat
  | .atom a => (.atom a, mark)
  | .pair car cdr =>
    let (head, mark) := ofDatum mark car
    ofSpine mark [head] cdr

/-- The same for the rest of a list of which the items passed are given in reverse. -/
def ofSpine (mark : Nat) (items : List Value) : Datum → Value × Nat
  | .atom a => consReversed mark (.atom a) items
  | .pair car cdr =>
    let (item, mark) := ofDatum mark car
    ofSpine mark (item :: items) cdr

end

end Value

end LazyLisp
