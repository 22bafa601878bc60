import Abacus.Decimal.Basic

/-!
The shortest decimal that reads back as a given double.

A magnitude is a whole number of quanta, and a quantum is `5 ^ 1074` units of `10 ^ -1074`. So
every magnitude is a whole number of these units, and the decimals with the exponent `n - 1074` are
the multiples of `10 ^ n` of them, a grid. The search starts on a grid coarser than the magnitude
itself and refines it by one digit at a time. On each grid the two neighbours of the
magnitude are tried, the nearer one first; if any multiple reads back, one of them does. On the
last grid the magnitude itself is a multiple, so the search always ends with a decimal that reads
back.

* `Decimal.candidate?`: a neighbour on one grid that reads back, the nearer if both do.
* `Decimal.firstHit`: the search from a grid downward.
* `Decimal.shortest`: the shortest decimal of a magnitude.
-/

namespace Abacus

namespace Decimal

/-- The number of units of `10 ^ -1074` in a quantum. -/
def unitsInQuantum : Nat := Nat.pow 5 1074

/-- The size of a magnitude in units of `10 ^ -1074`. -/
def unitsOf (m : Double.Magnitude) : Nat := m.units * unitsInQuantum

/-- The multiple `k` of `10 ^ n` units. -/
def onGrid (k n : Nat) : Decimal := ⟨k, (n : Int) - 1074⟩

/-- Whether a decimal reads back as the magnitude. -/
def readsAs (m : Double.Magnitude) (d : Decimal) : Bool := d.toDouble = .finite false m

/-- The neighbours of `u` units among the multiples of `10 ^ n` units, the nearer one first. If
both are equally near, the upper one comes first. -/
def neighbours (u n : Nat) : Decimal × Decimal :=
  let below := onGrid (u / tenPow n) n
  let above := onGrid (u / tenPow n + 1) n
  if 2 * (u % tenPow n) < tenPow n then (below, above) else (above, below)

/-- The first of two decimals that reads back, if either does. -/
def firstReading? (m : Double.Magnitude) (pair : Decimal × Decimal) : Option Decimal :=
  if readsAs m pair.1 then some pair.1
  else if readsAs m pair.2 then some pair.2
  else none

theorem readsAs_of_firstReading? {m : Double.Magnitude} {pair : Decimal × Decimal} {d : Decimal}
    (h : firstReading? m pair = some d) : readsAs m d = true := by
  unfold firstReading? at h
  split at h
  · cases h; assumption
  · split at h
    · cases h; assumption
    · cases h

/-- The nearest multiple of `10 ^ n` units that reads back as the magnitude, if there is one. -/
def candidate? (m : Double.Magnitude) (n : Nat) : Option Decimal :=
  firstReading? m (neighbours (unitsOf m) n)

/-- The first hit among the places `n`, `n - 1`, …, `1`, else the given answer for place zero. -/
def firstHit (hit? : Nat → Option Decimal) (last : Decimal) : Nat → Decimal
  | 0 => last
  | n + 1 =>
    match hit? (n + 1) with
    | some d => d
    | none => firstHit hit? last n

/-- What holds of every hit and of the last answer holds of the first hit. -/
theorem firstHit_induction {P : Decimal → Prop} {hit? : Nat → Option Decimal} {last : Decimal}
    (hhit : ∀ n d, hit? n = some d → P d) (hlast : P last) (n : Nat) :
    P (firstHit hit? last n) := by
  induction n with
  | zero => exact hlast
  | succ n ih =>
    rw [firstHit]
    split
    · exact hhit _ _ (by assumption)
    · exact ih

/-- A grid coarser than the magnitude: `28 / 93` is just above the common logarithm of two. -/
def coarsest (m : Double.Magnitude) : Nat := ((unitsOf m).log2 + 1) * 28 / 93 + 1

/-- The magnitude itself, as a multiple of the finest grid. -/
def ofMagnitude (m : Double.Magnitude) : Decimal := onGrid (unitsOf m) 0

/-- The decimal with the fewest digits that reads back as the magnitude; of those, the nearest. -/
def shortest (m : Double.Magnitude) : Decimal :=
  if m.rank = 0 then ⟨0, 0⟩ else firstHit (candidate? m) (ofMagnitude m) (coarsest m)

end Decimal

end Abacus
