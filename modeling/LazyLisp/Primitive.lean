import LazyLisp.Text.Blank

/-!
The primitives of the language: their names in programs and the documentation that goes with them.
What they do is in `LazyLisp.Eval.Primitive`.
-/

namespace LazyLisp

inductive Primitive where
  | add | sub | mul | div | mod | numEq | lt | le | gt | ge | same | equal | not | isCons
  | isPair | isNull | isList | isSymbol | isString | isNumber | isChar | isProcedure | isExpander
  | isError | isBound | cons | car | cdr | list | apply | eval | expand | expandOnce | gensym
  | loadFile | raiseError | errorType | errorValue | errorSource | errorTrace | dumpTraceback
  | stringAppend | symbolToString | stringToSymbol | repr | print | printLine | read
  | openInputString
  deriving Repr, DecidableEq

namespace Primitive

def name : Primitive → String
  | add => "+"
  | sub => "-"
  | mul => "*"
  | div => "/"
  | mod => "mod"
  | numEq => "="
  | lt => "<"
  | le => "<="
  | gt => ">"
  | ge => ">="
  | same => "eq?"
  | equal => "equal?"
  | not => "not"
  | isCons => "cons?"
  | isPair => "pair?"
  | isNull => "null?"
  | isList => "list?"
  | isSymbol => "symbol?"
  | isString => "string?"
  | isNumber => "number?"
  | isChar => "char?"
  | isProcedure => "procedure?"
  | isExpander => "macro?"
  | isError => "error?"
  | isBound => "bound?"
  | cons => "cons"
  | car => "car"
  | cdr => "cdr"
  | list => "list"
  | apply => "apply"
  | eval => "eval"
  | expand => "macro-expand"
  | expandOnce => "macro-expand-1"
  | gensym => "gensym"
  | loadFile => "load-file"
  | raiseError => "throw-error"
  | errorType => "error-type"
  | errorValue => "error-value"
  | errorSource => "error-source"
  | errorTrace => "error-trace"
  | dumpTraceback => "dump-traceback"
  | stringAppend => "string-append"
  | symbolToString => "symbol->string"
  | stringToSymbol => "string->symbol"
  | repr => "repr"
  | print => "print"
  | printLine => "println"
  | read => "read"
  | openInputString => "open-input-string"

def doc : Primitive → String
  | add => "(+ n...) Sum of the arguments; 0 with none."
  | sub => "(- n m...) Subtract the rest from the first; negation with one argument."
  | mul => "(* n...) Product of the arguments; 1 with none."
  | div =>
    "(/ n m...) Divide left to right; reciprocal with one argument.\n\n    Exact integer " ++
      "quotients stay integers.\n    "
  | mod => "(mod n d) Remainder of n divided by d, with the sign of d."
  | numEq => "(= n m...) true if every adjacent pair satisfies =."
  | lt => "(< n m...) true if every adjacent pair satisfies <."
  | le => "(<= n m...) true if every adjacent pair satisfies <=."
  | gt => "(> n m...) true if every adjacent pair satisfies >."
  | ge => "(>= n m...) true if every adjacent pair satisfies >=."
  | same => "(eq? a b) true for the same object, or equal atoms."
  | equal => "(equal? a b) structural equality; lists are compared element by element."
  | not => "(not x) true if x is falsey (false, 0, () or \"\")."
  | isCons => "(cons? x) true for eager and lazy pairs."
  | isPair => "(cons? x) true for eager and lazy pairs."
  | isNull => "(null? x) true for the empty list."
  | isList => "(list? x) true for () and proper lists."
  | isSymbol => "(symbol? x) true for symbols."
  | isString => "(string? x) true for strings."
  | isNumber => "(number? x) true for integers and floats."
  | isChar => "(char? x) true for characters."
  | isProcedure => "(procedure? x) true for closures, case-lambdas and builtins."
  | isExpander => "(macro? x) true for macros."
  | isError => "(error? x) true for error values."
  | isBound => "(bound? 'name) true if name is bound in the calling environment."
  | cons => "(cons x y) A new pair with head x and tail y."
  | car => "(car p) Head of a pair, forcing it if it is deferred."
  | cdr => "(cdr p) Tail of a pair, forcing it if it is deferred."
  | list => "(list x...) A proper list of the arguments."
  | apply => "(apply f args) Call f with the elements of the list args."
  | eval => "(eval form) Evaluate form in the global environment."
  | expand => "(macro-expand form) Expand the head of form until it no longer names a macro."
  | expandOnce => "(macro-expand-1 form) Expand the head macro of form once."
  | gensym => "(gensym [prefix]) A fresh symbol that no code has used yet."
  | loadFile =>
    "(load-file path) Evaluate every form of a file at top level; returns the last value."
  | raiseError =>
    "(throw-error kind value) Raise an error; (throw-error err) re-raises a caught one."
  | errorType => "(error-type err) The kind symbol of an error value."
  | errorValue => "(error-value err) The payload of an error value."
  | errorSource =>
    "(error-source err) The innermost form being evaluated when err was raised, or ()."
  | errorTrace => "(error-trace err) The forms err unwound through, innermost first."
  | dumpTraceback => "(dump-traceback err) Print the kind, value, source and trace of err."
  | stringAppend => "(string-append s...) Concatenation of the given strings."
  | symbolToString => "(symbol->string sym) The name of a symbol."
  | stringToSymbol => "(string->symbol s) The symbol named s."
  | repr => "(repr x) The readable printed form of x, as a string."
  | print => "(print x...) Write the display form of each argument; returns ()."
  | printLine => "(println x...) Like print, followed by a newline."
  | read =>
    "(read [port]) The next form from port (standard input by default).\n\n    Raises an " ++
      "eof error at end of input and read-error on malformed text.\n    "
  | openInputString => "(open-input-string s) An input port reading forms from s."

/-- All primitives, in the order in which they are bound. -/
def all : List Primitive :=
  [add, sub, mul, div, mod, numEq, lt, le, gt, ge, same, equal, not, isCons, isPair, isNull,
    isList, isSymbol, isString, isNumber, isChar, isProcedure, isExpander, isError, isBound,
    cons, car, cdr, list, apply, eval, expand, expandOnce, gensym, loadFile, raiseError,
    errorType, errorValue, errorSource, errorTrace, dumpTraceback, stringAppend, symbolToString,
    stringToSymbol, repr, print, printLine, read, openInputString]

def ofName? (name : String) : Option Primitive := all.find? (·.name == name)

/-- The documentation without blanks at its ends, as editors show it. -/
def summary (p : Primitive) : String :=
  String.ofList (Text.trim p.doc.toList)

end Primitive

end LazyLisp
