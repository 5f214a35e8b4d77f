import LazyLisp.Number

/-!
Endings outside the language. A breakdown is no error value: nothing in a program can catch it,
and whoever runs the program sees it.
-/

namespace LazyLisp

inductive Breakdown where
  /-- An integer with too many digits was to be read or written. -/
  | tooManyDigits
  /-- A word without characters was to be read. -/
  | emptyWord
  /-- A backslash with nothing behind it stood at the end of a text. -/
  | danglingEscape
  /-- A character literal has a name that no character has. -/
  | unknownCharName
  /-- A quotation token has a mark that stands for no quotation. -/
  | unknownQuotation
  /-- The input nests deeper than the reader goes. -/
  | nestedTooDeep
  /-- A primitive was called by itself and its arithmetic has no result. -/
  | arithmetic (error : ArithmeticError)
  /-- A file does not hold text. -/
  | fileNotText
  /-- The system does not say what a path leads to: a name is too long, or a directory on the way may
  not be searched. -/
  | pathRefused
  /-- A text was to be written that the standard output has no code for. -/
  | unencodable
  /-- The search path for the prelude is set and names no directory. -/
  | noPreludePath
  /-- A setting that must be an integer is not. -/
  | settingNotInteger
  /-- The setting for the log level names no level. -/
  | unknownLogLevel
  /-- The recursion limit is set beyond all bounds. -/
  | settingTooLarge
  /-- A pair was looked up as if it were a name. -/
  | pairAsName
  /-- A request asks to evaluate something that is not text. -/
  | codeNotText
  /-- A position lies beyond the end of its line. -/
  | beyondLine
  deriving Repr, DecidableEq

end LazyLisp
