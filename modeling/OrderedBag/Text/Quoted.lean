/-!
# Quoted text

Text between double quotes. The quote and the backslash are escaped, and so are line feed, carriage
return, tab and NUL by a letter or digit of their own; any other control character is written by its
code in hexadecimal.
-/

namespace OrderedBag.Quoted

/-- How a character is written between the quotes. -/
def escape (c : Char) : String :=
  match c with
  | '"' => "\\\""
  | '\\' => "\\\\"
  | '\n' => "\\n"
  | '\r' => "\\r"
  | '\t' => "\\t"
  | '\x00' => "\\0"
  | c =>
    if c.toNat < 0x20 || c.toNat = 0x7f then
      "\\u\x7b" ++ String.ofList (Nat.toDigits 16 c.toNat) ++ "\x7d"
    else
      c.toString

/-- The text between quotes. -/
def encode (s : String) : String :=
  "\"" ++ String.join (s.toList.map escape) ++ "\""

end OrderedBag.Quoted
