namespace Crux

/-- A value of the binary32 format. `finite s m q` is `m * 2 ^ q`, negated when `s` holds. -/
inductive Binary32
  | nan
  | infinite : (negative : Bool) → Binary32
  | finite : (negative : Bool) → (mantissa : Nat) → (exponent : Int) → Binary32
  deriving DecidableEq

namespace Binary32

/-- Powers are those of `Nat` itself, whichever other instances are in scope. -/
scoped instance (priority := 2000) powers : Pow Nat Nat := instPowNat

def minExponent : Int := -149

def maxExponent : Int := 104

/-- Mantissas are below `2 ^ precision`, and from half of that on above the smallest exponent. -/
def precision : Nat := 24

def zero (negative : Bool) : Binary32 := .finite negative 0 minExponent

def roundDiv (num den : Nat) : Nat :=
  let below := num / den
  let rest := num % den
  if 2 * rest < den then below
  else if den < 2 * rest then below + 1
  else below + below % 2

def scaled (num den : Nat) (q : Int) : Nat × Nat :=
  (num * 2 ^ (-q).toNat, den * 2 ^ q.toNat)

def exponentOf (num den : Nat) : Int :=
  let q : Int := (num.log2 : Int) - den.log2 - precision
  let (n, d) := scaled num den q
  max minExponent (if d * 2 ^ precision ≤ n then q + 1 else q)

/-- The binary32 value nearest to `num / den`, ties going to the even mantissa. Beyond the largest
finite value the result is infinite. -/
def ofRatio (negative : Bool) (num den : Nat) : Binary32 :=
  if num = 0 then zero negative
  else
    let q := exponentOf num den
    let (n, d) := scaled num den q
    let m := roundDiv n d
    let (m, q) := if m = 2 ^ precision then (2 ^ (precision - 1), q + 1) else (m, q)
    if maxExponent < q then .infinite negative else .finite negative m q

/-- The value nearest to `digits * 10 ^ exponent`. Magnitudes that lie far outside the format are
settled by their number of digits alone. -/
def ofDecimal (negative : Bool) (digits : Nat) (exponent : Int) : Binary32 :=
  let magnitude := exponent + (Nat.toDigits 10 digits).length
  if digits = 0 || magnitude < -50 then zero negative
  else if 50 < magnitude then .infinite negative
  else ofRatio negative (digits * 10 ^ exponent.toNat) (10 ^ (-exponent).toNat)

end Binary32

/-! Reading decimal text as binary32: an optional sign, then digits with at most one point and at
least one digit, then an optional power of ten; or a word for infinity or for not-a-number. -/

def Text.digitsValue (digits : List Char) : Nat :=
  digits.foldl (fun n c => 10 * n + (c.toNat - 48)) 0

namespace Binary32

open Text (digitsValue)

def splitSign : List Char → Bool × List Char
  | '-' :: rest => (true, rest)
  | '+' :: rest => (false, rest)
  | text => (false, text)

def readExponent? : List Char → Option Int
  | [] => some 0
  | mark :: rest =>
    if mark = 'e' || mark = 'E' then
      let (negative, digits) := splitSign rest
      if digits.isEmpty || !digits.all Char.isDigit then none
      else some (if negative then -(digitsValue digits : Int) else digitsValue digits)
    else none

def splitFraction : List Char → List Char × List Char
  | '.' :: rest => rest.span Char.isDigit
  | text => ([], text)

def readNumber? (negative : Bool) (text : List Char) : Option Binary32 :=
  let (whole, rest) := text.span Char.isDigit
  let (fraction, rest) := splitFraction rest
  let digits := whole ++ fraction
  if digits.isEmpty then none
  else
    (readExponent? rest).map fun e =>
      ofDecimal negative (digitsValue digits) (e - fraction.length)

/-- The value that a text spells, if it spells one. Words are read in either case. -/
def read? (text : String) : Option Binary32 :=
  let (negative, body) := splitSign text.toList
  let word := String.ofList (body.map Char.toLower)
  if word = "nan" then some .nan
  else if word = "inf" || word = "infinity" then some (.infinite negative)
  else readNumber? negative body

/-- The decimals that round to a positive value, scaled to whole numbers: `value / unit` is the
value itself, and the interval from `low` to `high` includes its ends when the mantissa is even. -/
structure Bracket where
  low : Nat
  value : Nat
  high : Nat
  unit : Nat
  closed : Bool

def bracket (m : Nat) (q : Int) : Bracket :=
  let narrow := m = 2 ^ (precision - 1) ∧ minExponent < q
  let up := 2 ^ q.toNat
  { low := (if narrow then 4 * m - 1 else 4 * m - 2) * up
    value := 4 * m * up
    high := (4 * m + 2) * up
    unit := 4 * 2 ^ (-q).toNat
    closed := m % 2 = 0 }

def Bracket.contains (b : Bracket) (num den : Nat) : Bool :=
  if b.closed then b.low * den ≤ num * b.unit && num * b.unit ≤ b.high * den
  else b.low * den < num * b.unit && num * b.unit < b.high * den

/-- The multiple of `10 ^ k` in the bracket that is nearest to its value, as a multiplier of that
power; of two equally near ones the larger. -/
def Bracket.onGrid? (b : Bracket) (k : Int) : Option Nat :=
  let step := 10 ^ k.toNat
  let den := 10 ^ (-k).toNat
  let below := b.value * den / (b.unit * step)
  let inBracket (d : Nat) : Bool := b.contains (d * step) den
  let upper := below + 1
  let nearUpper := (2 * below + 1) * step * b.unit ≤ 2 * b.value * den
  if inBracket below && !(inBracket upper && nearUpper) then some below
  else if inBracket upper then some upper
  else none

/-- The powers of ten tried, coarsest first: the first grid that meets the bracket gives the fewest
digits. -/
def gridExponents : List Int := (List.range 100).map fun i : Nat => 39 - (i : Int)

def shortest (m : Nat) (q : Int) : Nat × Int :=
  let b := bracket m q
  (gridExponents.findSome? fun k => (b.onGrid? k).map fun d => (d, k)).getD (0, 0)

def positional (digits : Nat) (exponent : Int) : List Char :=
  let text := Nat.toDigits 10 digits
  let places := (-exponent).toNat
  if places = 0 then text ++ List.replicate exponent.toNat '0'
  else if text.length ≤ places then
    '0' :: '.' :: List.replicate (places - text.length) '0' ++ text
  else text.take (text.length - places) ++ '.' :: text.drop (text.length - places)

def render : Binary32 → String
  | .nan => "NaN"
  | .infinite negative => if negative then "-inf" else "inf"
  | .finite negative m q =>
    let magnitude :=
      if m = 0 then ['0']
      else
        let (digits, exponent) := shortest m q
        positional digits exponent
    String.ofList (if negative then '-' :: magnitude else magnitude)

end Binary32

end Crux
