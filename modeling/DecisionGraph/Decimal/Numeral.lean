import DecisionGraph.Decimal.Shortest

namespace DecisionGraph.Decimal

def zeros (n : Nat) : List Char := List.replicate n '0'

/-- The numeral of `digits · 10 ^ e`, without an exponent. -/
def positional (digits : Nat) (e : Int) : List Char :=
  let ds := (toString digits).toList
  let places := (-e).toNat
  if 0 ≤ e then ds ++ zeros e.toNat
  else if places < ds.length then
    ds.take (ds.length - places) ++ '.' :: ds.drop (ds.length - places)
  else '0' :: '.' :: (zeros (places - ds.length) ++ ds)

def signWeight : Nat := 1 <<< 63

def signBit (x : Float) : Bool := signWeight ≤ x.toBits.toNat

/-- The text of a binary64 value: no fraction for a whole number, the sign of zero is kept. -/
def ofFloat (x : Float) : String :=
  if x.isNaN then "NaN"
  else
    let magnitude := x.toBits.toNat % signWeight
    let text :=
      if x.isInf then "inf".toList
      else if magnitude = 0 then ['0']
      else
        let (digits, e) := (Interval.ofBits magnitude).shortest
        positional digits e
    String.ofList (if signBit x then '-' :: text else text)

structure Numeral where
  negative : Bool
  whole : List Nat
  fraction : List Nat
  exponent : Int

/-- Takes digits into the significand as long as it fits 64 bits; the rest stays. -/
def absorb (significand : Nat) : List Nat → Nat × List Nat
  | [] => (significand, [])
  | d :: ds =>
    if significand * 10 + d < UInt64.size then absorb (significand * 10 + d) ds
    else (significand, d :: ds)

/-- The significand of a numeral and its exponent of ten. Whole digits that no longer fit count
into the exponent, fraction digits that no longer fit are dropped. -/
def Numeral.scaled (n : Numeral) : Nat × Int :=
  let (s, kept) := absorb 0 n.whole
  let (t, dropped) := absorb s n.fraction
  (t, n.exponent + kept.length - (n.fraction.length - dropped.length))

def powerOfTen (n : Nat) : Float := Float.ofScientific 1 false n

/-- Scales by one power of ten up to `10 ^ 308`; a smaller value goes down in steps of that
size. There is no result beyond the largest finite value. -/
def scale : Nat → Float → Int → Option Float
  | steps, x, e =>
    if e.natAbs ≤ 308 then
      if 0 ≤ e then
        let y := x * powerOfTen e.toNat
        if y.isInf then none else some y
      else some (x / powerOfTen e.natAbs)
    else if x == 0 then some x
    else if 0 ≤ e then none
    else match steps with
      | 0 => some 0
      | steps + 1 => scale steps (x / powerOfTen 308) (e + 308)

def Numeral.toFloat? (n : Numeral) : Option Float :=
  let (s, e) := n.scaled
  (scale 3 s.toUInt64.toFloat e).map fun x => if n.negative then -x else x

def Numeral.whole? (n : Numeral) : Int :=
  let magnitude : Nat := n.whole.foldl (fun s d => s * 10 + d) 0
  if n.negative then -(magnitude : Int) else magnitude

end DecisionGraph.Decimal
