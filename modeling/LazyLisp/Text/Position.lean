import LazyLisp.Text.Blank
import LazyLisp.Breakdown

/-!
Places in a text by line and column, both counted from zero, and the word at a place.

Only newline characters count as line ends in a position. To find a word, a text is cut at every
line end that there is.
-/

namespace LazyLisp

structure Position where
  line : Nat
  column : Nat
  deriving Repr, DecidableEq

/-- The place behind the first `offset` characters of a text. -/
def Position.ofOffset (text : List Char) (offset : Nat) : Position :=
  let before := text.take offset
  ⟨before.count '\n', (before.reverse.takeWhile (· != '\n')).length⟩

namespace Text

/-- The characters that separate words for an editor. -/
def isWordBreak (c : Char) : Bool :=
  c == ' ' || c == '\t' || c == '(' || c == ')' || c == '\'' || c == '`' || c == ',' ||
    c == '\n' || c == '\r'

/-- The place in a list that an index means: a negative one counts from the end. -/
def placeOf (size : Nat) (i : Int) : Int := if i < 0 then i + size else i

def itemAt? {α : Type} (items : List α) (i : Int) : Option α :=
  let place := placeOf items.length i
  if place < 0 then none else items[place.toNat]?

/-- The items from one index up to another; indices out of range are taken for the nearest end. -/
def slice {α : Type} (items : List α) (start stop : Int) : List α :=
  let bound (i : Int) : Nat := (placeOf items.length i).toNat
  (items.take (bound stop)).drop (bound start)

/-- Go back from column `n` to the start of the word. -/
def wordStart (chars : List Char) : (n : Nat) → Except Breakdown Nat
  | 0 => .ok 0
  | n + 1 => match chars[n]? with
    | none => .error .beyondLine
    | some c => if isWordBreak c then .ok (n + 1) else wordStart chars n

/-- Go on from column `i` to the end of the word, by at most `count` characters. -/
def wordEnd (chars : List Char) (i : Int) : (count : Nat) → Except Breakdown Int
  | 0 => .ok i
  | count + 1 => match itemAt? chars i with
    | none => .error .beyondLine
    | some c => if isWordBreak c then .ok i else wordEnd chars (i + 1) count

def wordInLine (line : List Char) (column : Int) : Except Breakdown (Option String) := do
  let start : Int ← if 0 < column then Int.ofNat <$> wordStart line column.toNat else .ok column
  let stop ← wordEnd line column (line.length - column).toNat
  let word := slice line start stop
  return if word.isEmpty then none else some (String.ofList word)

/-- The word at a place of a text. There is none beyond the last line; beyond the end of a line the
place makes no sense. Negative numbers count from the end. -/
def wordAt (text : List Char) (line column : Int) : Except Breakdown (Option String) :=
  let lines := splitLines text
  if lines.length ≤ line then .ok none
  else match itemAt? lines line with
    | none => .error .beyondLine
    | some chars => wordInLine chars column

end Text

end LazyLisp
