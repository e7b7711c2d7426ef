/-
  RuleBody.Number.Shortest
  ────────────────────────
  **WRITING DOUBLES.**

  A double is written with the fewest digits that read back as the same
  double, and of those the nearest to it; of two that are equally near, the
  one farther from zero.  The digits are found by exact arithmetic: for one
  digit, two digits and so on, the two neighbours of the value on the decimal
  grid are tested against the interval of reals that round to it.  Values
  from `1e-4` up to `1e16` are written with a point and at least one decimal,
  others with an exponent.
-/

namespace RuleBody.Number

/-! ## §1. The magnitude of a double. -/

/-- A positive magnitude `m · 2^q`. -/
structure Magnitude where
  m : Nat
  q : Int
  deriving DecidableEq, Repr

/-- The magnitude that the bits of a finite double stand for. -/
def Magnitude.ofBits (bits : Nat) : Magnitude :=
  let exponent : Nat := bits / Nat.pow 2 52 % Nat.pow 2 11
  let fraction : Nat := bits % Nat.pow 2 52
  if exponent = 0 then ⟨fraction, -1074⟩
  else ⟨fraction + Nat.pow 2 52, (exponent : Int) - 1075⟩

namespace Magnitude

/-- The sign of `k · 10^u − x · 2^(q−2)`; quarters of the last place of `m`
are the unit of `x`. -/
def compareGrid (v : Magnitude) (x : Nat) (k : Nat) (u : Int) : Ordering :=
  let p := v.q - 2
  compare (k * Nat.pow 10 u.toNat * Nat.pow 2 (-p).toNat)
    (x * Nat.pow 2 p.toNat * Nat.pow 10 (-u).toNat)

/-- Whether `k · 10^u` rounds to the magnitude. -/
def roundsFrom (v : Magnitude) (k : Nat) (u : Int) : Bool :=
  let below := if v.m = Nat.pow 2 52 && decide (-1074 < v.q) then 4 * v.m - 1 else 4 * v.m - 2
  let above := 4 * v.m + 2
  let least := v.compareGrid below k u
  let most := v.compareGrid above k u
  if v.m % 2 = 0 then least != .lt && most != .gt else least == .gt && most == .lt

/-- The number of digits before the decimal point; zero or less for values
below one tenth. -/
def pointPlace (v : Magnitude) : Int :=
  let scaled := v.m * Nat.pow 2 v.q.toNat * Nat.pow 10 400 / Nat.pow 2 (-v.q).toNat
  (Nat.toDigits 10 scaled).length - 400

/-- The value in units of `10^u`, rounded down. -/
def onGrid (v : Magnitude) (u : Int) : Nat :=
  v.m * Nat.pow 2 v.q.toNat * Nat.pow 10 (-u).toNat / (Nat.pow 2 (-v.q).toNat * Nat.pow 10 u.toNat)

/-- The grid point of `n` digits that rounds to the magnitude, the nearer
one if there are two and the larger one of two equally near. -/
def candidate? (v : Magnitude) (n : Nat) : Option (Nat × Int) :=
  let u := v.pointPlace - n
  let k := v.onGrid u
  match v.roundsFrom k u, v.roundsFrom (k + 1) u with
  | true, true =>
      -- the middle between the two neighbours decides
      if v.compareGrid (8 * v.m) (2 * k + 1) u == .gt then some (k, u) else some (k + 1, u)
  | true, false => some (k, u)
  | false, true => some (k + 1, u)
  | false, false => none

/-- The fewest digits that round to the magnitude, and the exponent of the
last one. -/
def shortest (v : Magnitude) : Nat × Int :=
  let n := ((List.range 17).map (· + 1)).findSome? v.candidate?
  n.getD (v.onGrid (v.pointPlace - 17), v.pointPlace - 17)

end Magnitude

/-! ## §2. Texts. -/

/-- Zeros. -/
def zeros (n : Nat) : List Char := List.replicate n '0'

/-- Digits without the zeros at their end. -/
def dropZeros (digits : List Char) : List Char :=
  (digits.reverse.dropWhile (· == '0')).reverse

/-- The value `0.digits · 10^place` with a point or with an exponent. -/
def layout (digits : List Char) (place : Int) : List Char :=
  if -3 ≤ place && place ≤ 0 then '0' :: '.' :: zeros (-place).toNat ++ digits
  else if 0 < place && place ≤ 16 then
    let n := place.toNat
    if digits.length ≤ n then digits ++ zeros (n - digits.length) ++ ['.', '0']
    else digits.take n ++ '.' :: digits.drop n
  else
    digits.take 1 ++ (if digits.length ≤ 1 then [] else '.' :: digits.drop 1)
      ++ 'e' :: (toString (place - 1)).toList

/-- The text of a double. -/
def display (x : Float) : String :=
  let bits := x.toBits.toNat
  let magnitude := bits % Nat.pow 2 63
  let sign := if bits = magnitude then "" else "-"
  if 2047 * Nat.pow 2 52 < magnitude then "NaN"
  else if magnitude = 2047 * Nat.pow 2 52 then sign ++ "inf"
  else if magnitude = 0 then sign ++ "0.0"
  else
    match (Magnitude.ofBits magnitude).shortest with
    | (k, u) =>
        let digits := Nat.toDigits 10 k
        sign ++ String.ofList (layout (dropZeros digits) (digits.length + u))

end RuleBody.Number
