import LazyLisp.Eval.Engine

/-!
Templates: forms that are copied except for the parts marked for evaluation. A quotation of a
template inside a template goes one level up, an evaluated part one level down, and only parts at
the first level are evaluated.
-/

namespace LazyLisp

namespace Template

def quasiquote : String := "quasiquote"
def unquote : String := "unquote"
def unquoteSplicing : String := "unquote-splicing"

/-- The one operand of a form such as `(unquote x)`. -/
def operand (m : Engine) (form : Value) : Run Value := do
  let rest ← m.cdr form
  let single ← if rest.isPair then (!·.isPair) <$> m.cdr rest else pure false
  if single then m.car rest
  else
    let head ← m.plain (← m.car form)
    m.failWith Fault.Kind.malformedForm (head ++ " expects exactly 1 argument: ") form

/-- Whether a value is a pair whose head is the symbol of that name. -/
def isHeadedBy (m : Engine) (name : String) (v : Value) : Run Bool :=
  if v.isPair then return (← m.car v).isSymbolNamed name else return false

/-- Add one item of a template to the items copied so far, which are in reverse. -/
def addItem (m : Engine) (copy : Value → Run Value) (frame : FrameId) (level : Nat)
    (copied : List Value) (item : Value) : Run (List Value) := do
  if (← isHeadedBy m unquoteSplicing item) && level == 1 then
    let spliced ← m.eval (← operand m item) frame none
    let items ← m.items Fault.Kind.typeError "list for unquote-splicing" spliced
    return items.reverse ++ copied
  else return (← copy item) :: copied

/-- Copy a template that stands at the given level. -/
def copyWithin (m : Engine) (frame : FrameId) :
    (fuel : Nat) → (room : Option Nat) → (level : Nat) → Value → Run Value
  | 0, _, _, _ => throw .outOfFuel
  | fuel + 1, room, level, template => do
    if !template.isPair then return template
    match descend room with
    | none => throw .overflow
    | some inner =>
      let copy := copyWithin m frame fuel inner
      let head ← m.car template
      if head.isSymbolNamed quasiquote then
        Run.list [.symbol quasiquote, ← copy (level + 1) (← operand m template)]
      else if head.isSymbolNamed unquote then
        let expr ← operand m template
        if level == 1 then m.eval expr frame none
        else Run.list [.symbol unquote, ← copy (level - 1) expr]
      else if head.isSymbolNamed unquoteSplicing && level == 1 then
        m.failWith Fault.Kind.malformedForm "unquote-splicing outside of a list: " template
      else
        -- A dotted tail `(a . ,b)` is the list `(a unquote b)`: its rest is a template of its own.
        let ((_, copied), rest) ← m.foldSpine (fun (isFirst, copied) head => do
          let item ← head
          if !isFirst && (item.isSymbolNamed unquote || item.isSymbolNamed quasiquote) then
            return none
          return some (false, ← addItem m (copy level) frame level copied item))
          (true, ([] : List Value)) template
        Run.listReversed copied (← copy level rest)

/-- Copy a template, evaluating the marked parts in the given frame. -/
def copy (m : Engine) (frame : FrameId) (template : Value) : Run Value :=
  copyWithin m frame (m.fuel + 1) m.room 1 template

end Template

end LazyLisp
