import Playbook.Double.Basic
import Playbook.Text.Basic
import Playbook.Text.Digit

/-!
# Decimal text of double-precision numbers

A number is written with the fewest digits that read back as it, the nearest such decimal to
its value, the larger of two as near, and always in positional notation. It is read from a
decimal with an optional point and exponent, rounded to nearest, or from `nan`, `inf` and
`infinity` in any case.
-/
namespace Playbook.Double

/-! ## Writing -/

/-- The lower end of the reals that round to a count of units, in quarter units. Below a power
of two the numbers lie twice as close. -/
def lowerEnd (units : Nat) : Nat :=
  let s := step units
  4 * units - if 0 < gap units && units = Nat.pow 2 52 * s then s else 2 * s

/-- The upper end of the reals that round to a count of units, in quarter units. -/
def upperEnd (units : Nat) : Nat := 4 * units + 2 * step units

/-- Whether `num / den` quarter units round to a count of units; the ends do if the count's
significand is even. -/
def roundsTo (units num den : Nat) : Bool :=
  if units / step units % 2 = 0 then
    lowerEnd units * den ≤ num && num ≤ upperEnd units * den
  else lowerEnd units * den < num && num < upperEnd units * den

/-- The multiple of `10^exponent` nearest to a count of units, among its two neighbours that
round to the count. -/
def onGrid? (units : Nat) (exponent : Int) : Option Nat :=
  let up := Nat.pow 10 (-exponent).toNat
  let down := Nat.pow 10 exponent.toNat
  let num := units * up
  let den := one * down
  let low := num / den
  let fits (n : Nat) := roundsTo units (4 * (n * den)) up
  match fits low, fits (low + 1) with
  | true, true => if 2 * (num % den) < den then some low else some (low + 1)
  | true, false => some low
  | false, true => some (low + 1)
  | false, false => none

/-- The number of decimal places before the point; nothing or a negative number of them for a
number below one. -/
def places (units : Nat) : Int := (Nat.toDigits 10 (units * Nat.pow 10 330 / one)).length - 330

/-- Digits and exponent of the shortest decimal that rounds to a count of units. Seventeen
digits always suffice. -/
def shortest (units : Nat) : Nat × Int :=
  let grids := (List.range 17).map fun (i : Nat) => places units - 1 - (i : Int)
  match grids.findSome? fun k => (onGrid? units k).map (·, k) with
  | some (digits, k) => if digits % 10 = 0 then (digits / 10, k + 1) else (digits, k)
  | none => (0, 0)

/-- `digits * 10^exponent` without an exponent. -/
def positional (digits : Nat) (exponent : Int) : Text :=
  let ds := Text.ofNat digits
  if 0 ≤ exponent then ds ++ List.replicate exponent.toNat '0'
  else
    let behind := (-exponent).toNat
    if ds.length ≤ behind then "0." ++ List.replicate (behind - ds.length) '0' ++ ds
    else ds.take (ds.length - behind) ++ '.' :: ds.drop (ds.length - behind)

def toText : Double → Text
  | nan => "NaN"
  | infinite negative => if negative then "-inf" else "inf"
  | finite negative units =>
    let sign : Text := if negative then "-" else ""
    if units = 0 then sign ++ "0"
    else sign ++ positional (shortest units).1 (shortest units).2

/-- The nearest whole number of a count of units, written out; a tie goes to the even one. -/
def wholeText (units : Nat) : Text := Text.ofNat (roundHalfEven units one)

/-! ## Reading -/

/-- The number that a run of digits writes. -/
def digitsValue (t : Text) : Nat := t.foldl (fun n c => 10 * n + (c.toNat - '0'.toNat)) 0

/-- An exponent with an optional sign, and nothing behind it. -/
def exponent? (t : Text) : Option Int :=
  let (negative, ds) : Bool × Text := match t with
    | '-' :: ds => (true, ds)
    | '+' :: ds => (false, ds)
    | ds => (false, ds)
  if ds.isEmpty || !ds.all Text.isAsciiDigit then none
  else some (if negative then -(digitsValue ds : Int) else digitsValue ds)

/-- A decimal without a sign. -/
def magnitude? (negative : Bool) (t : Text) : Option Double :=
  let whole := t.takeWhile Text.isAsciiDigit
  let rest := t.dropWhile Text.isAsciiDigit
  let (fraction, rest) : Text × Text := match rest with
    | '.' :: rest => (rest.takeWhile Text.isAsciiDigit, rest.dropWhile Text.isAsciiDigit)
    | rest => ([], rest)
  let scaled (exponent : Int) :=
    ofScientific negative (digitsValue (whole ++ fraction)) (exponent - fraction.length)
  if (whole ++ fraction).isEmpty then none
  else match rest with
    | [] => some (scaled 0)
    | c :: rest => if c = 'e' || c = 'E' then (exponent? rest).map scaled else none

def parse? (t : Text) : Option Double :=
  let (negative, rest) : Bool × Text := match t with
    | '-' :: rest => (true, rest)
    | '+' :: rest => (false, rest)
    | rest => (false, rest)
  let word := rest.map Char.toLower
  if word = "nan" then some .nan
  else if word = "inf" || word = "infinity" then some (.infinite negative)
  else magnitude? negative rest

end Playbook.Double
