/-
  RuleBody.Number.Read
  ────────────────────
  **READING NUMBERS.**

  Decimal texts are read exactly: an integer within 64 bits, or the double
  that is nearest to the decimal value, with a tie going to the even one.
  A double is handled as its sign and a magnitude `m · 2^q`; `nearestBits`
  finds the magnitude of a quotient of natural numbers.
-/

namespace RuleBody.Number

/-! ## §1. Digits. -/

/-- The value of a list of decimal digits. -/
def ofDigits (digits : List Char) : Nat :=
  digits.foldl (fun n d => 10 * n + (d.toNat - '0'.toNat)) 0

/-- The sign in front of a number, and what follows it. -/
def takeSign : List Char → Bool × List Char
  | '-' :: cs => (true, cs)
  | '+' :: cs => (false, cs)
  | cs => (false, cs)

/-- The least and the greatest integer of 64 bits. -/
def minInt64 : Int := Int64.minValue.toInt

@[inherit_doc minInt64]
def maxInt64 : Int := Int64.maxValue.toInt

/-- Whether an integer fits in 64 bits. -/
def fitsInt64 (n : Int) : Bool :=
  decide (minInt64 ≤ n) && decide (n ≤ maxInt64)

/-- An integer of 64 bits: an optional sign and at least one digit. -/
def readInt64? (s : String) : Option Int :=
  match takeSign s.toList with
  | (negative, digits) =>
      if digits.isEmpty || !digits.all Char.isDigit then none
      else
        let magnitude : Int := ofDigits digits
        let n := if negative then -magnitude else magnitude
        if fitsInt64 n then some n else none

/-! ## §2. The nearest double. -/

/-- The bits of the double nearest to `num / den`, a tie to the even one. -/
def nearestBits (num den : Nat) : Nat :=
  if num = 0 then 0
  else
    let low : Int := max ((num.log2 : Int) - den.log2 - 53) (-1074)
    let q := if Nat.pow 2 53 ≤ quotient low then low + 1 else low
    let d := den * Nat.pow 2 q.toNat
    let n := num * Nat.pow 2 (-q).toNat
    let r := n % d
    let m := n / d + (if d < 2 * r || (2 * r == d && n / d % 2 == 1) then 1 else 0)
    let bits :=
      if m < Nat.pow 2 52 then m else (q + 1075).toNat * Nat.pow 2 52 + (m - Nat.pow 2 52)
    min bits (2047 * Nat.pow 2 52)
where
  /-- The quotient in units of `2^q`. -/
  quotient (q : Int) : Nat := num * Nat.pow 2 (-q).toNat / (den * Nat.pow 2 q.toNat)

/-- The double with a sign and the bits of a magnitude. -/
def ofMagnitude (negative : Bool) (bits : Nat) : Float :=
  Float.ofBits (bits + if negative then Nat.pow 2 63 else 0).toUInt64

/-- The double nearest to `mantissa · 10^exponent`.  Magnitudes far outside
the range of doubles are settled without computing the power. -/
def nearest (negative : Bool) (mantissa : Nat) (exponent : Int) : Float :=
  let size := (Nat.toDigits 10 mantissa).length + exponent
  if mantissa = 0 || size < -400 then ofMagnitude negative 0
  else if 400 < size then ofMagnitude negative (2047 * Nat.pow 2 52)
  else
    ofMagnitude negative
      (nearestBits (mantissa * Nat.pow 10 exponent.toNat) (Nat.pow 10 (-exponent).toNat))

/-! ## §3. Decimal texts. -/

/-- The exponent at the end of a decimal text; none if there is something
else. -/
def readExponent? : List Char → Option Int
  | [] => some 0
  | c :: cs =>
      if c = 'e' || c = 'E' then
        match takeSign cs with
        | (negative, digits) =>
            if digits.isEmpty || !digits.all Char.isDigit then none
            else
              let magnitude : Int := ofDigits digits
              some (if negative then -magnitude else magnitude)
      else none

/-- The digits behind a decimal point, if there is one, and what follows. -/
def takeFraction : List Char → List Char × List Char
  | '.' :: cs => (cs.takeWhile Char.isDigit, cs.dropWhile Char.isDigit)
  | cs => ([], cs)

/-- A decimal number without sign. -/
def readDecimal? (negative : Bool) (cs : List Char) : Option Float :=
  let whole := cs.takeWhile Char.isDigit
  match takeFraction (cs.dropWhile Char.isDigit) with
  | (fraction, rest) =>
      if whole.isEmpty && fraction.isEmpty then none
      else
        (readExponent? rest).map fun exponent =>
          nearest negative (ofDigits (whole ++ fraction)) (exponent - fraction.length)

/-- A double: an optional sign, then digits with an optional point and an
optional exponent, or a name of infinity or of the undefined value in upper
or lower case. -/
def read? (s : String) : Option Float :=
  match takeSign s.toList with
  | (negative, cs) =>
      let word := String.ofList (cs.map Char.toLower)
      if word == "inf" || word == "infinity" then
        some (ofMagnitude negative (2047 * Nat.pow 2 52))
      else if word == "nan" then some (ofMagnitude negative (2047 * Nat.pow 2 52 + Nat.pow 2 51))
      else readDecimal? negative cs

end RuleBody.Number
