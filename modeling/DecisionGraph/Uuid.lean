namespace DecisionGraph.Uuid

/-- The shape of the text: `x` is a lowercase hexadecimal digit, `y` one of `8`, `9`, `a`, `b`. -/
def shape : List Char := "xxxxxxxx-xxxx-4xxx-yxxx-xxxxxxxxxxxx".toList

def isHex (c : Char) : Bool := c.isDigit || ('a' ≤ c && c ≤ 'f')

def fitsChar : Char → Char → Bool
  | 'x', c => isHex c
  | 'y', c => c == '8' || c == '9' || c == 'a' || c == 'b'
  | p, c => p == c

def fits : List Char → List Char → Bool
  | [], _ => true
  | _ :: _, [] => false
  | p :: ps, c :: cs => fitsChar p c && fits ps cs

/-- `skip` characters still belong to an identifier that was replaced. -/
def blindFrom (cover : List Char) : Nat → List Char → List Char
  | _, [] => []
  | skip + 1, _ :: cs => blindFrom cover skip cs
  | 0, c :: cs =>
    if fits shape (c :: cs) then cover ++ blindFrom cover (shape.length - 1) cs
    else c :: blindFrom cover 0 cs

def blind (cover text : String) : String :=
  String.ofList (blindFrom cover.toList 0 text.toList)

def padded (width : Nat) (digits : List Char) : List Char :=
  List.replicate (width - digits.length) '0' ++ digits

/-- Distinct for distinct numbers below `16 ^ 12`. -/
def ofNat (n : Nat) : String :=
  "5d1c9b7e-3f42-4a86-b0e7-" ++ String.ofList (padded 12 (Nat.toDigits 16 n))

end DecisionGraph.Uuid
