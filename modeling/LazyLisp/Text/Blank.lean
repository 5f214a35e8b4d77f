/-!
Blank characters and line ends.

`isBlank` is the class that separates words in program text. A text is cut into lines in two ways:
`splitLines` knows every line end of the text standard and is used for texts held in memory, and
`splitNewlines` cuts at the newline character alone and is used for the standard input.
Both keep the line ends, so that joining the lines gives the text back.
-/

namespace LazyLisp.Text

/-- Spaces, tabs, line ends and the four separator controls, in every script. -/
def isBlank (c : Char) : Bool :=
  let n := c.toNat
  (0x09 ≤ n && n ≤ 0x0D) || (0x1C ≤ n && n ≤ 0x20) || n == 0x85 || n == 0xA0 || n == 0x1680 ||
    (0x2000 ≤ n && n ≤ 0x200A) || n == 0x2028 || n == 0x2029 || n == 0x202F || n == 0x205F ||
    n == 0x3000

def isLineEnd (c : Char) : Bool :=
  let n := c.toNat
  (0x0A ≤ n && n ≤ 0x0D) || (0x1C ≤ n && n ≤ 0x1E) || n == 0x85 || n == 0x2028 || n == 0x2029

/-- Cut after every line end, `soFar` being the current line in reverse. A carriage return and
the newline behind it are one line end. -/
def splitLinesFrom (soFar : List Char) : List Char → List (List Char)
  | [] => if soFar.isEmpty then [] else [soFar.reverse]
  | '\r' :: '\n' :: rest => ('\n' :: '\r' :: soFar).reverse :: splitLinesFrom [] rest
  | c :: rest =>
    if isLineEnd c then (c :: soFar).reverse :: splitLinesFrom [] rest
    else splitLinesFrom (c :: soFar) rest

def splitLines (text : List Char) : List (List Char) := splitLinesFrom [] text

/-- Cut after every newline character, `soFar` being the current line in reverse. -/
def splitNewlinesFrom (soFar : List Char) : List Char → List (List Char)
  | [] => if soFar.isEmpty then [] else [soFar.reverse]
  | c :: rest =>
    if c == '\n' then (c :: soFar).reverse :: splitNewlinesFrom [] rest
    else splitNewlinesFrom (c :: soFar) rest

/-- The lines of a text, ended by the newline character only. -/
def splitNewlines (text : List Char) : List (List Char) := splitNewlinesFrom [] text

theorem flatten_splitLinesFrom (soFar text : List Char) :
    (splitLinesFrom soFar text).flatten = soFar.reverse ++ text := by
  fun_induction splitLinesFrom soFar text <;> simp_all

@[simp]
theorem flatten_splitLines (text : List Char) : (splitLines text).flatten = text := by
  simp [splitLines, flatten_splitLinesFrom]

theorem flatten_splitNewlinesFrom (soFar text : List Char) :
    (splitNewlinesFrom soFar text).flatten = soFar.reverse ++ text := by
  fun_induction splitNewlinesFrom soFar text <;> simp_all

@[simp]
theorem flatten_splitNewlines (text : List Char) : (splitNewlines text).flatten = text := by
  simp [splitNewlines, flatten_splitNewlinesFrom]

def trim (text : List Char) : List Char :=
  ((text.dropWhile isBlank).reverse.dropWhile isBlank).reverse

end LazyLisp.Text
