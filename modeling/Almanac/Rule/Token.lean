import Almanac.Rule.Error
import Almanac.Text.Letter

set_option autoImplicit false

/-!
The tokens of rule text: words, and the three punctuation marks. Blanks part words and have no
other meaning. The text may start with `RRULE:`, in any case, which is passed over.
-/

namespace Almanac

inductive Lexeme where
  | word (text : String)
  | equals
  | semicolon
  | comma
  deriving DecidableEq, Repr

structure Token where
  lexeme : Lexeme
  span : Span
  deriving DecidableEq, Repr

namespace Token

def isBlank (c : Char) : Bool := c = ' ' || c = '\t' || c = '\n' || c = '\r'

def isWordChar (c : Char) : Bool :=
  Text.isLetterOrDigit c || c = '+' || c = '-' || c = ':' || c = '.' || c = '_' || c = '/'

def punctuation? (c : Char) : Option Lexeme :=
  if c = '=' then some .equals
  else if c = ';' then some .semicolon
  else if c = ',' then some .comma
  else none

/-- A character that starts no token, and its place. -/
structure Stray where
  char : Char
  place : Nat
  deriving DecidableEq, Repr

/-- The tokens of the text from place `n` on. -/
def scan (n : Nat) : List Char → Except Stray (List Token)
  | [] => .ok []
  | c :: rest =>
    if isBlank c then scan (n + 1) rest
    else match punctuation? c with
      | some lexeme => (scan (n + 1) rest).map (⟨lexeme, ⟨n, n + 1⟩⟩ :: ·)
      | none =>
        if isWordChar c then
          let word := c :: rest.takeWhile isWordChar
          let stop := n + word.length
          (scan stop (rest.dropWhile isWordChar)).map
            (⟨.word (String.ofList word), ⟨n, stop⟩⟩ :: ·)
        else .error ⟨c, n⟩
termination_by s => s.length
decreasing_by
  · simp
  · simp
  · exact Nat.lt_succ_of_le (List.dropWhile_suffix isWordChar).length_le

def opening : List Char := "rrule:".toList

/-- The text and its first place, without the blanks and the opening that may lead it. -/
def afterOpening (s : List Char) : Nat × List Char :=
  let body := s.dropWhile isBlank
  let start := s.length - body.length
  if Text.lower (body.take opening.length) = opening then
    (start + opening.length, body.drop opening.length)
  else (start, body)

/-- The tokens of a rule text. -/
def ofChars (s : List Char) : Except Stray (List Token) :=
  let (start, body) := afterOpening s
  scan start body

def ofText (s : String) : Except SpecError (List Token) :=
  match ofChars s.toList with
  | .ok tokens => .ok tokens
  | .error stray =>
    .error (.text (.unexpectedCharacter stray.char) ⟨stray.place, stray.place + 1⟩ s)

end Token

end Almanac
