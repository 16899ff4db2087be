import DecisionGraph.Decimal.Numeral
import DecisionGraph.Json

namespace DecisionGraph.Json

def hexChar (n : Nat) : Char := Char.ofNat (if n < 10 then 48 + n else 87 + n)

def quotedChar (c : Char) : List Char :=
  match c with
  | '"' => ['\\', '"']
  | '\\' => ['\\', '\\']
  | '\n' => ['\\', 'n']
  | '\r' => ['\\', 'r']
  | '\t' => ['\\', 't']
  | c => if c.toNat < 0x20 then ['\\', 'u', '0', '0', hexChar (c.toNat / 16), hexChar (c.toNat % 16)] else [c]

def quoted (s : String) : String := String.ofList ('"' :: s.toList.flatMap quotedChar ++ ['"'])

mutual
def compact : Json → String
  | null => "null"
  | bool b => if b then "true" else "false"
  | integer n => toString n
  | float x => if x.isNaN || x.isInf then "null" else Decimal.ofFloat x
  | string s => quoted s
  | array items => "[" ++ ",".intercalate (compactItems items) ++ "]"
  | object members => "\x7b" ++ ",".intercalate (compactMembers members) ++ "\x7d"
  | unrepresentable => "null"
def compactItems : List Json → List String
  | [] => []
  | j :: js => j.compact :: compactItems js
def compactMembers : List (String × Json) → List String
  | [] => []
  | (n, j) :: ms => (quoted n ++ ":" ++ j.compact) :: compactMembers ms
end

end DecisionGraph.Json
