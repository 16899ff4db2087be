namespace DecisionGraph.Decimal

/-- The reals from `low / unit` to `high / unit` around `mid / unit`. -/
structure Interval where
  low : Nat
  mid : Nat
  high : Nat
  unit : Nat
  closed : Bool

def fractionBits : Nat := 52

/-- The reals that round to the finite nonzero magnitude with these bits. Below a power of two
the neighbour is half as far away; the ends round to the value iff its significand is even. -/
def Interval.ofBits (bits : Nat) : Interval :=
  let exponent := (bits >>> fractionBits) % (1 <<< 11)
  let fraction := bits % (1 <<< fractionBits)
  let m := if exponent = 0 then fraction else fraction + (1 <<< fractionBits)
  let below := if fraction = 0 ∧ 1 < exponent then 1 else 2
  let q : Int := (max exponent 1 : Nat) - 1077
  let scale := 1 <<< q.toNat
  { low := (4 * m - below) * scale
    mid := 4 * m * scale
    high := (4 * m + 2) * scale
    unit := 1 <<< (-q).toNat
    closed := m % 2 == 0 }

def Interval.holds (i : Interval) (scale unit n : Nat) : Bool :=
  let x := n * unit
  if i.closed then i.low * scale ≤ x && x ≤ i.high * scale
  else i.low * scale < x && x < i.high * scale

/-- The multiple of `10 ^ e` in the interval that is nearest to the value; of two equally near
the greater one. -/
def Interval.nearest? (i : Interval) (e : Int) : Option Nat :=
  let scale := Nat.pow 10 (-e).toNat
  let unit := i.unit * Nat.pow 10 e.toNat
  let value := i.mid * scale
  let n := value / unit
  match i.holds scale unit n, i.holds scale unit (n + 1) with
  | false, false => none
  | true, false => some n
  | false, true => some (n + 1)
  | true, true => some (if value - n * unit < (n + 1) * unit - value then n else n + 1)

def grids : List Int := (List.range 660).map fun (i : Nat) => (310 : Int) - i

/-- The digits of the value, as a number, and the exponent of ten of the last one. -/
def Interval.shortest (i : Interval) : Nat × Int :=
  (grids.findSome? fun e => (i.nearest? e).map (·, e)).getD (0, 0)

end DecisionGraph.Decimal
