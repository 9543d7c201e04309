import StrictJson.Binary64.Nearest

/-!
# The Shortest Decimal Number

The decimal number by which a binary64 number is written: among those that round to it, one with
the fewest digits, and among these the nearest.

Every finite number is a whole multiple of ten to the power -1074, so its exact decimal digits are
those of one natural number. The search cuts that number at one digit, at two, and so on, and asks
of the cut value and of its upper neighbour on the same grid whether they round to the number. The
first grid with a hit has the fewest digits, since the points of a grid that round to a number lie
side by side around it.

## Main definitions

* `Tie`: which of two equally near candidates is taken.
* `Decimal.shortest`
-/

namespace StrictJson

/-- Which of two equally near decimal numbers is taken. -/
inductive Tie where
  /-- The greater one. -/
  | up
  /-- The one whose last digit is even. -/
  | even
  deriving DecidableEq, Repr

namespace Decimal

/-- The number of decimal digits. -/
def length (n : Nat) : Nat :=
  if n < 10 then 1 else length (n / 10) + 1
termination_by n
decreasing_by omega

/-- The same number with as few digits as possible: zeros at the end move into the exponent. -/
def trim (d : Decimal) : Decimal :=
  if h : d.digits ≠ 0 ∧ d.digits % 10 = 0 then trim ⟨d.digits / 10, d.exponent + 1⟩ else d
termination_by d.digits
decreasing_by
  show d.digits / 10 < d.digits
  omega

/-- The candidate on one grid. `exact` is the value in units of ten to the power -1074, and the grid
keeps all but its last `cut` digits. Of the two grid points around the value one that rounds to
`magnitude` is taken, and the nearer one if both do. -/
def candidate? (tie : Tie) (magnitude exact cut : Nat) : Option Decimal :=
  let step := Nat.pow 10 cut
  let below := exact / step
  let rest := exact % step
  let low : Decimal := ⟨below, (cut : Int) - 1074⟩
  let high : Decimal := ⟨below + 1, (cut : Int) - 1074⟩
  match low.nearest == magnitude, high.nearest == magnitude with
  | true, false => some low
  | false, true => some high
  | false, false => none
  | true, true =>
    if 2 * rest < step ∨ (2 * rest = step ∧ tie = .even ∧ below % 2 = 0) then some low
    else some high

/-- The first candidate over the grids that leave out at most `cut` digits, from the coarsest on.
The finest grid holds the value itself. -/
def search (tie : Tie) (magnitude exact : Nat) : Nat → Decimal
  | 0 => ⟨exact, -1074⟩
  | cut + 1 =>
    match candidate? tie magnitude exact (cut + 1) with
    | some d => d
    | none => search tie magnitude exact cut

/-- The **shortest decimal number** that rounds to a finite magnitude. -/
def shortest (tie : Tie) (magnitude : Nat) : Decimal :=
  let exact := Binary64.units magnitude * Nat.pow 5 1074
  trim (search tie magnitude exact (length exact - 1))

end Decimal

end StrictJson
