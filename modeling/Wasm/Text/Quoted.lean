import Wasm.Text.Printable

/-!
# Wasm.Text.Quoted

How names and bytes appear in messages: a name in double quotes with its unreadable characters
escaped, a byte as at least two hexadecimal digits.
-/

namespace Wasm.Text

/-- Lower-case hexadecimal digits, without leading zeros. -/
def hex (n : Nat) : String :=
  String.ofList (Nat.toDigits 16 n)

/-- A byte as `0x` and two hexadecimal digits. -/
def hexByte (b : UInt8) : String :=
  "0x" ++ (if b.toNat < 16 then "0" else "") ++ hex b.toNat

/-- A character inside double quotes. -/
def escape (c : Char) : String :=
  if c = '\x00' then "\\0"
  else if c = '\t' then "\\t"
  else if c = '\r' then "\\r"
  else if c = '\n' then "\\n"
  else if c = '\\' then "\\\\"
  else if c = '"' then "\\\""
  else if isPrintable c then c.toString
  else "\\u\x7b" ++ hex c.toNat ++ "\x7d"

/-- A text in double quotes. -/
def quote (s : String) : String :=
  "\"" ++ String.join (s.toList.map escape) ++ "\""

end Wasm.Text
