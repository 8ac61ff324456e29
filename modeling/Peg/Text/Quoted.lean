import Peg.Utf8
import Peg.Text.Hex
import Peg.Text.Printable

/-!
Quoted text: byte literals as grammars write them, and strings as descriptions
of values show them.
-/

namespace Peg.Text

/-- The control characters: U+0000 to U+001F and U+007F to U+009F. -/
def isControl (c : Char) : Bool :=
  c.toNat < 0x20 || (0x7F ≤ c.toNat && c.toNat < 0xA0)

/-- A code point in braces, as few digits as it takes. -/
def codePointEscape (c : Char) : List Char :=
  ['\\', 'u', '\x7b'] ++ Hex.short c.toNat ++ ['\x7d']

/-- One character of a byte literal. Backslashes and the first character of the
delimiter take a backslash; control characters get an escape. -/
def literalChar (delimiter : String) (c : Char) : List Char :=
  match c with
  | '\\' => ['\\', '\\']
  | '\n' => ['\\', 'n']
  | '\t' => ['\\', 't']
  | '\r' => ['\\', 'r']
  | _ =>
    if delimiter.toList.head? = some c then ['\\', c]
    else if isControl c then codePointEscape c
    else [c]

/-- A byte outside every character: two hexadecimal digits in capitals. -/
def strayByte (b : UInt8) : List Char :=
  ['\\', 'x'] ++ (Hex.padded 2 b.toNat).map Char.toUpper

/-- One segment of a byte literal. -/
def literalSegment (delimiter : String) (segment : Utf8.Segment) : List Char :=
  match segment.char? with
  | some c => literalChar delimiter c
  | none => segment.bytes.flatMap strayByte

/-- What stands between the delimiters of a byte literal. -/
def literalBody (delimiter : String) (bytes : Bytes) : List Char :=
  (Utf8.segments bytes).flatMap (literalSegment delimiter)

/-- Bytes as a quoted literal: valid UTF-8 stays readable, other bytes are
written in hexadecimal. -/
def quoteBytes (delimiter : String) (bytes : Bytes) : String :=
  delimiter ++ String.ofList (literalBody delimiter bytes) ++ delimiter

/-- One character of a quoted string. Quotes and backslashes take a backslash,
and what is not printable is written by code point. -/
def quotedChar (c : Char) : List Char :=
  match c with
  | '"' => ['\\', '"']
  | '\\' => ['\\', '\\']
  | '\n' => ['\\', 'n']
  | '\t' => ['\\', 't']
  | '\r' => ['\\', 'r']
  | '\x00' => ['\\', '0']
  | _ => if isPrintable c then [c] else codePointEscape c

/-- A string in double quotes. -/
def quote (text : String) : String :=
  "\"" ++ String.ofList (text.toList.flatMap quotedChar) ++ "\""

end Peg.Text
