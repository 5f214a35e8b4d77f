import LazyLisp.ReadError
import LazyLisp.Token
import LazyLisp.Text.Blank

/-!
From characters to tokens.

`Lexeme.next` finds the token or comment at the start of a text and takes as many characters as it
can. `lex` cuts a whole text: blanks and comments between the tokens are dropped, and the first
place where no token can start ends the list.
-/

namespace LazyLisp

namespace Lexeme

def isDelimiter (c : Char) : Bool :=
  c == '(' || c == ')' || c == '\'' || c == '`' || c == '"' || c == ',' || c == ';'

def isWordChar (c : Char) : Bool := !Text.isBlank c && !isDelimiter c

/-- What stands between the quotes of a string literal. -/
inductive Body where
  /-- The characters up to the closing quote, and the rest behind it. -/
  | closed (text rest : List Char)
  | unclosed
  /-- The text ends in a backslash. -/
  | stray

/-- Find the end of a string literal. A backslash takes the character behind it along; `soFar`
holds the characters passed, in reverse. -/
def stringBody (soFar : List Char) : List Char → Body
  | [] => .unclosed
  | '"' :: rest => .closed ('"' :: soFar).reverse rest
  | ['\\'] => .stray
  | '\\' :: c :: rest => stringBody (c :: '\\' :: soFar) rest
  | c :: rest => stringBody (c :: soFar) rest

/-- Find the end of a block comment with `depth + 1` comments open: how many characters it takes
beyond `count`, and the rest. -/
def blockEnd (depth count : Nat) : List Char → Option (Nat × List Char)
  | '#' :: '|' :: rest => blockEnd (depth + 1) (count + 2) rest
  | '|' :: '#' :: rest =>
    match depth with
    | 0 => some (count + 2, rest)
    | depth + 1 => blockEnd depth (count + 2) rest
  | _ :: rest => blockEnd depth (count + 1) rest
  | [] => none

/-- The character literals that are written by name. -/
def namedChars : List (List Char) :=
  [['n', 'e', 'w', 'l', 'i', 'n', 'e'], ['s', 'p', 'a', 'c', 'e'], ['t', 'a', 'b'],
    ['r', 'e', 't', 'u', 'r', 'n']]

/-- The name of the character literal at the start of a text: a known name or one character. -/
def charLength (text : List Char) : Nat :=
  match namedChars.find? (·.isPrefixOf text) with
  | some name => name.length
  | none => 1

end Lexeme

/-- What stands at the start of a text that does not start with a blank. -/
inductive Lexeme where
  | token (kind : Token.Kind) (text rest : List Char)
  | comment (length : Nat) (rest : List Char)
  | openString
  | openComment
  | nothing

namespace Lexeme

def next : List Char → Lexeme
  | ';' :: rest =>
    .comment (1 + (rest.takeWhile (· != '\n')).length) (rest.dropWhile (· != '\n'))
  | '#' :: '|' :: rest =>
    match blockEnd 0 2 rest with
    | some (length, rest) => .comment length rest
    | none => .openComment
  | '\'' :: rest => .token .quote ['\''] rest
  | '`' :: rest => .token .quote ['`'] rest
  | ',' :: '@' :: rest => .token .unquote [',', '@'] rest
  | ',' :: rest => .token .unquote [','] rest
  | '(' :: rest => .token .leftParen ['('] rest
  | ')' :: rest => .token .rightParen [')'] rest
  | '"' :: rest =>
    match stringBody ['"'] rest with
    | .closed text rest => .token .string text rest
    | .unclosed => .openString
    | .stray => .nothing
  | '#' :: '\\' :: c :: rest =>
    let length := charLength (c :: rest)
    .token .char ('#' :: '\\' :: (c :: rest).take length) ((c :: rest).drop length)
  | [] => .nothing
  | c :: rest =>
    .token .word (c :: rest.takeWhile isWordChar) (rest.dropWhile isWordChar)

theorem length_closed_lt {soFar text body rest : List Char}
    (h : stringBody soFar text = .closed body rest) : rest.length < text.length := by
  fun_induction stringBody soFar text <;> grind

theorem length_blockEnd_lt {depth count length : Nat} {text rest : List Char}
    (h : blockEnd depth count text = some (length, rest)) : rest.length < text.length := by
  fun_induction blockEnd depth count text <;> grind

theorem length_dropWhile_le (p : Char → Bool) (text : List Char) :
    (text.dropWhile p).length ≤ text.length :=
  (List.dropWhile_sublist p).length_le

theorem charLength_pos (text : List Char) : 0 < charLength text := by
  unfold charLength
  split
  · next name h =>
    have := List.mem_of_find?_eq_some h
    simp only [namedChars, List.mem_cons, List.not_mem_nil, or_false] at this
    rcases this with rfl | rfl | rfl | rfl <;> simp
  · exact Nat.one_pos

def rest? : Lexeme → Option (List Char)
  | token _ _ rest => some rest
  | comment _ rest => some rest
  | _ => none

theorem length_next_lt {text rest : List Char} (h : (next text).rest? = some rest) :
    rest.length < text.length := by
  have drop (p : Char → Bool) (cs : List Char) := length_dropWhile_le p cs
  have pos := charLength_pos
  unfold next at h
  split at h <;> (try split at h) <;>
    simp only [rest?, Option.some.injEq, reduceCtorEq] at h
  all_goals grind [→ length_closed_lt, → length_blockEnd_lt]

end Lexeme

/-- The tokens of a text up to its end or to the first place where reading cannot go on. -/
structure Lexed where
  tokens : List Token
  failure : Option ReadError
  deriving Repr, DecidableEq

/-- Cut a text that starts at character `pos`; `done` holds the tokens in front of it. Where no
token starts, the complaint is about the first character behind the last token, blank or not. -/
def lexFrom (pos : Nat) (text : List Char) (done : Array Token) : Lexed :=
  let start := pos + (text.takeWhile Text.isBlank).length
  match _h : Lexeme.next (text.dropWhile Text.isBlank) with
  | .token kind chars rest =>
    lexFrom (start + chars.length) rest
      (done.push ⟨kind, String.ofList chars, start, start + chars.length⟩)
  | .comment length rest => lexFrom (start + length) rest done
  | .openComment => ⟨done.toList, some ⟨.unterminatedComment, start⟩⟩
  | .openString => ⟨done.toList, some ⟨.unterminatedString, start⟩⟩
  | .nothing =>
    match text.dropWhile Text.isBlank, text with
    | _ :: _, c :: _ => ⟨done.toList, some ⟨.unexpectedChar c, pos⟩⟩
    | _, _ => ⟨done.toList, none⟩
termination_by text.length
decreasing_by
  all_goals
    have shorter : rest.length < (text.dropWhile Text.isBlank).length :=
      Lexeme.length_next_lt (by rw [_h]; rfl)
    have := Lexeme.length_dropWhile_le Text.isBlank text
    omega

def lex (text : List Char) : Lexed := lexFrom 0 text #[]

end LazyLisp
