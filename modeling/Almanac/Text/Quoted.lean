import Almanac.Text.Printable

set_option autoImplicit false

/-!
Quoted text. Single quotes enclose it, or double quotes where it holds a single quote and no
double one. A backslash, the enclosing quote and what cannot be printed are escaped.
-/

namespace Almanac.Text

def hexDigit (n : Nat) : Char := Nat.digitChar (n % 16)

/-- The lowest `width` hexadecimal digits of a number. -/
def hex : Nat → Nat → List Char
  | 0, _ => []
  | width + 1, n => hex width (n / 16) ++ [hexDigit n]

def quoteFor (s : List Char) : Char :=
  if s.contains '\'' && !s.contains '"' then '"' else '\''

/-- The escapes common to text and bytes. -/
def escapeShort? (quote c : Char) : Option (List Char) :=
  if c = quote ∨ c = '\\' then some ['\\', c]
  else if c = '\n' then some ['\\', 'n']
  else if c = '\r' then some ['\\', 'r']
  else if c = '\t' then some ['\\', 't']
  else none

def escapeChar (quote c : Char) : List Char :=
  match escapeShort? quote c with
  | some e => e
  | none =>
    if isPrintable c then [c]
    else if c.toNat < 0x100 then '\\' :: 'x' :: hex 2 c.toNat
    else if c.toNat < 0x10000 then '\\' :: 'u' :: hex 4 c.toNat
    else '\\' :: 'U' :: hex 8 c.toNat

def quoteChars (s : List Char) : List Char :=
  let quote := quoteFor s
  quote :: (s.flatMap (escapeChar quote) ++ [quote])

def quoted (s : String) : String := String.ofList (quoteChars s.toList)

/-- Quoted bytes: those outside printable ASCII are escaped. -/
def quotedBytes (bs : List UInt8) : String :=
  let cs := bs.map (fun b => Char.ofNat b.toNat)
  let quote := quoteFor cs
  let escape (c : Char) : List Char :=
    match escapeShort? quote c with
    | some e => e
    | none => if 32 ≤ c.toNat ∧ c.toNat < 127 then [c] else '\\' :: 'x' :: hex 2 c.toNat
  String.ofList ('b' :: quote :: (cs.flatMap escape ++ [quote]))

end Almanac.Text
