import LazyLisp.Text.Digit
import LazyLisp.World

/-!
The arguments of the command line: options and operands.

Every argument is first classified by itself. Then they are taken in order: an option that needs a
value and has none attached takes the operand behind it. Operands must stand together.
-/

namespace LazyLisp

inductive Flag where
  | help
  | eval
  | interactive
  | bare
  | logLevel
  | version
  deriving Repr, DecidableEq

namespace Flag

def takesValue : Flag → Bool
  | eval | logLevel => true
  | _ => false

def names : List (String × Flag) :=
  [("-h", help), ("--help", help), ("-e", eval), ("--eval", eval), ("-i", interactive),
    ("--interactive", interactive), ("--no-prelude", bare), ("--log-level", logLevel),
    ("--version", version)]

def ofName? (name : String) : Option Flag := names.lookup name

/-- The option that is written as a minus sign and one character. -/
def ofLetter? (c : Char) : Option Flag := ofName? (String.ofList ['-', c])

def withStart (start : List Char) : List Flag :=
  (names.filter fun (name, _) => start.isPrefixOf name.toList).map (·.2)

end Flag

/-- What the command line asks for. -/
structure Invocation where
  files : List String := []
  exprs : List String := []
  interactive : Bool := false
  /-- Whether to start without the prelude. -/
  bare : Bool := false
  logLevel : Option String := none
  deriving Repr, DecidableEq

namespace Invocation

inductive Exit where
  | misuse
  | help
  | version
  deriving Repr, DecidableEq

namespace Exit

def code : Exit → Nat
  | misuse => 2
  | help | version => 0

def text : Exit → String
  | misuse => ""
  | help => "usage: sloth [-h] [-e EXPR] [-i] [--no-prelude] [--log-level LEVEL] [--version] " ++
      "[files ...]\n"
  | version => "sloth 0.3.0\n"

end Exit

/-- What follows an option inside its argument. -/
inductive Attached where
  | nothing
  /-- Behind an equality sign. -/
  | assigned (text : List Char)
  /-- Directly behind the letter of the option. -/
  | glued (text : List Char)

inductive Argument where
  | operand (text : String)
  /-- The mark behind which everything is an operand. -/
  | divider
  | option (flag : Flag) (attached : Attached)
  /-- An option that does not exist. -/
  | unknown

/-- A minus sign and a number, with or without a point. A newline may follow. -/
def looksNegative (text : List Char) : Bool :=
  let body := if text.getLast? == some '\n' then text.dropLast else text
  match body with
  | '-' :: rest =>
    let whole := rest.takeWhile Text.isDigit
    match rest.dropWhile Text.isDigit with
    | [] => !whole.isEmpty
    | '.' :: fraction => !fraction.isEmpty && fraction.all Text.isDigit
    | _ => false
  | _ => false

/-- Name and value of an argument with an equality sign. -/
def splitAssigned (text : List Char) : List Char × Attached :=
  match text.dropWhile (· != '=') with
  | [] => (text, .nothing)
  | _ :: value => (text.takeWhile (· != '='), .assigned value)

/-- The options that an argument may abbreviate: a long name may be cut short, and a letter may have
text glued to it. -/
def abbreviated (text : List Char) : List Argument :=
  match text with
  | '-' :: '-' :: _ =>
    let (start, attached) := splitAssigned text
    (Flag.withStart start).map (.option · attached)
  | '-' :: c :: rest => ((Flag.ofLetter? c).map (.option · (.glued rest))).toList
  | _ => []

/-- Classify an argument; none if it may be more than one option. -/
def classify (arg : String) : Option Argument :=
  let text := arg.toList
  match text with
  | '-' :: _ :: _ =>
    let (name, attached) := splitAssigned text
    match Flag.ofName? arg, attached, Flag.ofName? (String.ofList name) with
    | some flag, _, _ => some (.option flag .nothing)
    | none, .assigned value, some flag => some (.option flag (.assigned value))
    | none, _, _ =>
      match abbreviated text with
      | [found] => some found
      | [] =>
        if looksNegative text || text.contains ' ' then some (.operand arg) else some .unknown
      | _ => none
  | _ => some (.operand arg)

/-- Classify all arguments; none if one of them may be more than one option. -/
def classifyAll : List String → Option (List Argument)
  | [] => some []
  | "--" :: rest => some (.divider :: rest.map .operand)
  | arg :: rest => do return (← classify arg) :: (← classifyAll rest)

/-- The options that one argument spells. -/
structure Cluster where
  /-- The options without value and the values given. -/
  settled : List (Flag × String)
  /-- An option at the end that still needs its value. -/
  waiting : Option Flag
  /-- Whether letters are left over that are no options. -/
  leftover : Bool

namespace Cluster

def one (flag : Flag) : Cluster :=
  if flag.takesValue then ⟨[], some flag, false⟩ else ⟨[(flag, "")], none, false⟩

/-- An option with a value; none if it takes no value. -/
def assigned (flag : Flag) (value : List Char) : Option Cluster :=
  if flag.takesValue then some ⟨[(flag, String.ofList value)], none, false⟩ else none

/-- An option and the text glued to it: its value, or further letters. -/
def glued (flag : Flag) : List Char → Option Cluster
  | [] => some (one flag)
  | c :: rest =>
    if flag.takesValue then assigned flag (c :: rest)
    else if c == '-' then none
    else do
      let behind ← match Flag.ofLetter? c, rest with
        | none, _ => some ⟨[], none, true⟩
        | some next, '=' :: value => assigned next value
        | some next, rest => glued next rest
      return { behind with settled := (flag, "") :: behind.settled }

def ofOption (flag : Flag) : Attached → Option Cluster
  | .nothing => some (one flag)
  | .assigned value => assigned flag value
  | .glued text => glued flag text

end Cluster

def act (inv : Invocation) (flag : Flag) (value : String) : Except Exit Invocation :=
  match flag with
  | .help => .error .help
  | .version => .error .version
  | .eval => .ok { inv with exprs := inv.exprs ++ [value] }
  | .interactive => .ok { inv with interactive := true }
  | .bare => .ok { inv with bare := true }
  | .logLevel =>
    if LogLevel.all.any (·.name == value) then .ok { inv with logLevel := some value }
    else .error .misuse

/-- Where the operands are: none seen, the last argument was one, or something came behind them. -/
inductive Operands where
  | unseen
  | current
  | past
  deriving Repr, DecidableEq

structure Progress where
  inv : Invocation := {}
  operands : Operands := .unseen
  /-- Whether something was found that belongs nowhere. -/
  stray : Bool := false

namespace Progress

/-- Take an operand, or the divider, which leaves none. -/
def takeOperand (p : Progress) (texts : List String) : Progress :=
  match p.operands with
  | .past => { p with stray := true }
  | _ => { p with inv.files := p.inv.files ++ texts, operands := .current }

def closeOperands (p : Progress) : Progress :=
  if p.operands == .current then { p with operands := .past } else p

def takeCluster (p : Progress) (settled : List (Flag × String)) (leftover : Bool) :
    Except Exit Progress := do
  let inv ← settled.foldlM (fun inv (flag, value) => inv.act flag value) p.inv
  return { p with inv, stray := p.stray || leftover }

end Progress

def takeAll (p : Progress) : List Argument → Except Exit Invocation
  | [] => if p.stray then .error .misuse else .ok p.inv
  | .operand text :: rest => takeAll (p.takeOperand [text]) rest
  | .divider :: rest => takeAll (p.takeOperand []) rest
  | .unknown :: rest => takeAll { p.closeOperands with stray := true } rest
  | .option flag attached :: rest =>
    match Cluster.ofOption flag attached with
    | none => .error .misuse
    | some ⟨settled, none, leftover⟩ => do
      takeAll (← p.closeOperands.takeCluster settled leftover) rest
    | some ⟨settled, some last, leftover⟩ =>
      match rest with
      | .operand value :: rest => do
        takeAll (← p.closeOperands.takeCluster (settled ++ [(last, value)]) leftover) rest
      | _ => .error .misuse

def parse (args : List String) : Except Exit Invocation :=
  match classifyAll args with
  | none => .error .misuse
  | some args => takeAll {} args

end Invocation

end LazyLisp
