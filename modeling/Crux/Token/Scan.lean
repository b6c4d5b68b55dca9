import Crux.Text.Alphabetic
import Crux.Text.Numeric
import Crux.Token.Basic

namespace Crux

def isBlank (c : Char) : Bool := c = ' ' || c = '\t' || c = '\r' || c = '\n'

def isWordStart (c : Char) : Bool := c = '_' || Text.isAlphabetic c

def isWordPart (c : Char) : Bool := c = '_' || Text.isAlphabetic c || Text.isNumeric c

def Kind.ofPair? : Char → Char → Option Kind
  | ':', ':' => some .call
  | '=', '=' => some .equal
  | '!', '=' => some .notEqual
  | '<', '=' => some .lesserEqual
  | '>', '=' => some .greaterEqual
  | _, _ => none

def Kind.ofChar? : Char → Option Kind
  | '+' => some .add
  | '-' => some .sub
  | '*' => some .mul
  | '/' => some .div
  | '>' => some .greaterThan
  | '<' => some .lessThan
  | '=' => some .assign
  | ',' => some .comma
  | ';' => some .semicolon
  | ':' => some .colon
  | '(' => some .openParen
  | ')' => some .closeParen
  | '\x7b' => some .openBrace
  | '\x7d' => some .closeBrace
  | '[' => some .openBracket
  | ']' => some .closeBracket
  | _ => none

def Kind.ofWord (text : String) : Kind := (Kind.keyword? text).getD .identifier

def fraction : List Char → List Char
  | '.' :: rest => '.' :: rest.takeWhile Char.isDigit
  | _ => []

def number (whole rest : List Char) : Kind × List Char :=
  let tail := fraction rest
  (if tail.isEmpty then .integer else .float, whole ++ tail)

/-- The mark at the front of a text, the longer of two; a character that begins no token is an
error token of its own. -/
def mark (c : Char) (rest : List Char) : Kind × List Char :=
  match rest.head?.bind fun d => (Kind.ofPair? c d).map (·, d) with
  | some (kind, d) => (kind, [c, d])
  | none => ((Kind.ofChar? c).getD .error, [c])

def munch (c : Char) (rest : List Char) : Kind × List Char :=
  if isWordStart c then
    let word := c :: rest.takeWhile isWordPart
    (Kind.ofWord (String.ofList word), word)
  else if c.isDigit then
    number (c :: rest.takeWhile Char.isDigit) (rest.dropWhile Char.isDigit)
  else mark c rest

/-- The number of characters before the next token: blanks, and comments from `//` to the end of
the line. `inside` holds within a comment. -/
def gapLength (inside : Bool) : List Char → Nat
  | [] => 0
  | c :: rest =>
    if inside then 1 + gapLength (c ≠ '\n') rest
    else if isBlank c then 1 + gapLength false rest
    else if c = '/' && rest.head? = some '/' then 1 + gapLength true rest
    else 0

structure Cursor where
  rest : List Char
  pos : Position

namespace Cursor

def ofString (source : String) : Cursor := ⟨source.toList, .start⟩

def skip (c : Cursor) (n : Nat) : Cursor := ⟨c.rest.drop n, c.pos.after (c.rest.take n)⟩

def toToken (c : Cursor) : Cursor := c.skip (gapLength false c.rest)

/-- The next token and the cursor after it. At the end of the text this is the end token, and the
cursor stays. -/
def next (c : Cursor) : Token × Cursor :=
  let c := c.toToken
  match c.rest with
  | [] => (.eof c.pos, c)
  | ch :: rest =>
    let (kind, text) := munch ch rest
    (⟨kind, String.ofList text, c.pos⟩, c.skip text.length)

end Cursor

theorem munch_length_pos (c : Char) (rest : List Char) : 0 < (munch c rest).2.length := by
  simp only [munch, number, mark]
  split
  · simp
  · split
    · simp
    · split <;> simp

namespace Cursor

@[simp] theorem skip_rest (c : Cursor) (n : Nat) : (c.skip n).rest = c.rest.drop n := rfl

theorem toToken_rest_length (c : Cursor) : c.toToken.rest.length ≤ c.rest.length := by
  simp [toToken]

theorem next_rest_length (c : Cursor) (h : c.next.1.kind ≠ .eof) :
    c.next.2.rest.length < c.rest.length := by
  have hle := c.toToken_rest_length
  revert h
  simp only [next]
  split
  · simp [Token.eof]
  · rename_i ch rest hr
    intro _
    have := munch_length_pos ch rest
    simp only [hr, skip_rest, List.length_drop, List.length_cons] at hle ⊢
    omega

def scan (c : Cursor) : List Token × Cursor :=
  if c.next.1.kind = .eof then ([c.next.1], c.next.2)
  else
    let (tokens, last) := scan c.next.2
    (c.next.1 :: tokens, last)
termination_by c.rest.length
decreasing_by exact next_rest_length c (by assumption)

def tokens (c : Cursor) : List Token := c.scan.1

end Cursor

end Crux
