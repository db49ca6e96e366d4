import RpnMachine.Text.Hidden

/-! Quoted text for messages: in double quotes, with quotes, backslashes and hidden characters
escaped. -/
namespace RpnMachine.Text

def hex (n : Nat) : String := String.ofList (Nat.toDigits 16 n)

def escape (c : Char) : String :=
  match c with
  | '"' => "\\\""
  | '\\' => "\\\\"
  | '\n' => "\\n"
  | '\r' => "\\r"
  | '\t' => "\\t"
  | '\x00' => "\\0"
  | c => if isHidden c then "\\u\x7b" ++ hex c.toNat ++ "\x7d" else c.toString

def quoted (s : String) : String :=
  "\"" ++ String.join (s.toList.map escape) ++ "\""

end RpnMachine.Text
