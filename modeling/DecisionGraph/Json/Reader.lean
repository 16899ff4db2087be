import DecisionGraph.Decimal.Numeral
import DecisionGraph.Json

namespace DecisionGraph.Json

def isBlank (c : Char) : Bool := c == ' ' || c == '\n' || c == '\t' || c == '\r'

def skipBlanks (cs : List Char) : List Char := cs.dropWhile isBlank

def hexDigit? (c : Char) : Option Nat :=
  if c.isDigit then some (c.toNat - '0'.toNat)
  else if 'a' ≤ c && c ≤ 'f' then some (c.toNat - 'a'.toNat + 10)
  else if 'A' ≤ c && c ≤ 'F' then some (c.toNat - 'A'.toNat + 10)
  else none

def escape? : Char → Option Char
  | '"' => some '"'
  | '\\' => some '\\'
  | '/' => some '/'
  | 'b' => some '\x08'
  | 'f' => some '\x0c'
  | 'n' => some '\n'
  | 'r' => some '\r'
  | 't' => some '\t'
  | _ => none

/-- A piece of a string: a character, or a UTF-16 unit written by its number. -/
inductive Piece where
  | char (c : Char)
  | unit (n : Nat)

def pieces? : List Char → Option (List Piece × List Char)
  | [] => none
  | '"' :: cs => some ([], cs)
  | '\\' :: 'u' :: a :: b :: c :: d :: cs => do
    let n := (← hexDigit? a) * 4096 + (← hexDigit? b) * 256 + (← hexDigit? c) * 16 + (← hexDigit? d)
    let (ps, rest) ← pieces? cs
    some (.unit n :: ps, rest)
  | '\\' :: e :: cs => do
    let c ← escape? e
    let (ps, rest) ← pieces? cs
    some (.char c :: ps, rest)
  | c :: cs =>
    if c.toNat < 0x20 || c == '\\' then none
    else do
      let (ps, rest) ← pieces? cs
      some (.char c :: ps, rest)

def isHighSurrogate (n : Nat) : Bool := 0xD800 ≤ n && n < 0xDC00

def isLowSurrogate (n : Nat) : Bool := 0xDC00 ≤ n && n < 0xE000

/-- The characters of the pieces; none if half a surrogate pair stands alone. -/
def characters? : List Piece → Option (List Char)
  | [] => some []
  | .char c :: ps => (characters? ps).map (c :: ·)
  | .unit h :: .unit l :: ps =>
    if isHighSurrogate h then
      if isLowSurrogate l then
        (characters? ps).map (Char.ofNat (0x10000 + (h - 0xD800) * 1024 + (l - 0xDC00)) :: ·)
      else none
    else if isLowSurrogate h then none
    else (characters? (.unit l :: ps)).map (Char.ofNat h :: ·)
  | .unit n :: ps =>
    if isHighSurrogate n || isLowSurrogate n then none
    else (characters? ps).map (Char.ofNat n :: ·)

def string? (cs : List Char) : Option (Option String × List Char) := do
  let (ps, rest) ← pieces? cs
  some ((characters? ps).map String.ofList, rest)

def digits (cs : List Char) : List Nat × List Char :=
  ((cs.takeWhile Char.isDigit).map fun c => c.toNat - '0'.toNat, cs.dropWhile Char.isDigit)

def fraction? : List Char → Option (List Nat × List Char)
  | '.' :: cs =>
    let (ds, rest) := digits cs
    if ds.isEmpty then none else some (ds, rest)
  | cs => some ([], cs)

def exponentDigits? (negative : Bool) (cs : List Char) : Option (Int × List Char) :=
  let (ds, rest) := digits cs
  let n : Nat := ds.foldl (fun n d => n * 10 + d) 0
  if ds.isEmpty then none else some (if negative then -(n : Int) else n, rest)

def exponent? : List Char → Option (Option Int × List Char)
  | c :: cs =>
    if c == 'e' || c == 'E' then do
      let (e, rest) ← match cs with
        | '+' :: r => exponentDigits? false r
        | '-' :: r => exponentDigits? true r
        | r => exponentDigits? false r
      some (some e, rest)
    else some (none, c :: cs)
  | [] => some (none, [])

/-- Whole numbers of 64 bits stay integers, minus zero apart. -/
def ofNumeral (whole : Bool) (n : Decimal.Numeral) : Json :=
  let i := n.whole?
  if whole && Int64.minValue.toInt ≤ i && i < UInt64.size && !(n.negative && i == 0) then integer i
  else (n.toFloat?.map float).getD unrepresentable

def number? (negative : Bool) (cs : List Char) : Option (Json × List Char) := do
  let (whole, rest) := digits cs
  if whole.isEmpty || (whole.head? == some 0 && 1 < whole.length) then none
  let (fraction, rest) ← fraction? rest
  let (exponent, rest) ← exponent? rest
  some (ofNumeral (fraction.isEmpty && exponent.isNone)
    ⟨negative, whole, fraction, exponent.getD 0⟩, rest)

mutual
/-- One value and what follows it; arrays and objects may open `room` levels deep. -/
def value? : Nat → Nat → List Char → Option (Json × List Char)
  | 0, _, _ => none
  | fuel + 1, room, cs =>
    match skipBlanks cs with
    | 'n' :: 'u' :: 'l' :: 'l' :: r => some (null, r)
    | 't' :: 'r' :: 'u' :: 'e' :: r => some (bool true, r)
    | 'f' :: 'a' :: 'l' :: 's' :: 'e' :: r => some (bool false, r)
    | '"' :: r => do
      let (s, r) ← string? r
      some ((s.map string).getD unrepresentable, r)
    | '[' :: r => do
      let (items, r) ← match skipBlanks r with
        | ']' :: r => some ([], r)
        | r => items? fuel (room - 1) r
      some (if room = 0 then unrepresentable else array items, r)
    | '{' :: r => do
      let (members, r) ← match skipBlanks r with
        | '}' :: r => some (some [], r)
        | r => members? fuel (room - 1) r
      some (if room = 0 then unrepresentable else (members.map object).getD unrepresentable, r)
    | '-' :: r => number? true r
    | r => number? false r
def items? : Nat → Nat → List Char → Option (List Json × List Char)
  | 0, _, _ => none
  | fuel + 1, room, cs => do
    let (j, r) ← value? fuel room cs
    match skipBlanks r with
    | ',' :: r => do
      let (js, r) ← items? fuel room r
      some (j :: js, r)
    | ']' :: r => some ([j], r)
    | _ => none
/-- The members of an object up to its end; missing if a name has no value. -/
def members? : Nat → Nat → List Char → Option (Option (List (String × Json)) × List Char)
  | 0, _, _ => none
  | fuel + 1, room, cs =>
    match skipBlanks cs with
    | '"' :: r => do
      let (name, r) ← string? r
      match skipBlanks r with
      | ':' :: r => do
        let (j, r) ← value? fuel room r
        match skipBlanks r with
        | ',' :: r => do
          let (ms, r) ← members? fuel room r
          some (do some ((← name, j) :: (← ms)), r)
        | '}' :: r => some (name.map fun n => [(n, j)], r)
        | _ => none
      | _ => none
    | _ => none
end

def nestingLimit : Nat := 127

/-- The document that the text writes, parts without a value included; arrays and objects may open
`room` levels deep. Each call for a value takes at least one character and is reached by at most
two calls. -/
def parseWithin? (room : Nat) (text : String) : Option Json := do
  let cs := text.toList
  let (j, rest) ← value? (2 * cs.length + 2) room cs
  if (skipBlanks rest).isEmpty then some j else none

def parse? (text : String) : Option Json := parseWithin? nestingLimit text

def ofText? (text : String) : Option Json := do
  let j ← parse? text
  if j.representable then some j else none

end DecisionGraph.Json
