/-!
# The shortest decimal that reads back

A binary fraction stands for every real that rounds to it: an interval around it, whose ends belong to it
exactly when its mantissa is even. Of the decimals in that interval the shortest is wanted, and of two with
as many digits the nearer one.

All arithmetic is exact, over natural numbers with one common denominator. The grids of tens are tried from
the coarsest that can hold a digit of the value; on each, only the two neighbours of the value can lie in
the interval nearest to it, so two tests settle a grid.
-/

namespace Authoring.Decimal

/-- The reals that round to a positive binary fraction, all three points over one denominator. -/
structure Span where
  low : Nat
  value : Nat
  high : Nat
  den : Nat
  closed : Bool

/-- The span of `m * 2 ^ q`. Below a power of two the grid is twice as fine, so the lower half of the
span is `narrow` there. -/
def Span.ofBinary (m : Nat) (q : Int) (narrow : Bool) : Span :=
  let e := q - 2
  let up := Nat.pow 2 e.toNat
  { low := (4 * m - if narrow then 1 else 2) * up
    value := 4 * m * up
    high := (4 * m + 2) * up
    den := Nat.pow 2 (-e).toNat
    closed := m % 2 == 0 }

/-- Whether `c * 10 ^ k` rounds to the value of the span. -/
def Span.holds (s : Span) (c : Nat) (k : Int) : Bool :=
  let x := c * Nat.pow 10 k.toNat * s.den
  let scale := Nat.pow 10 (-k).toNat
  if s.closed then s.low * scale ≤ x && x ≤ s.high * scale
  else s.low * scale < x && x < s.high * scale

/-- How far `c * 10 ^ k` is from the value of the span, on the scale of that grid. -/
def Span.distance (s : Span) (c : Nat) (k : Int) : Nat :=
  let x := c * Nat.pow 10 k.toNat * s.den
  let v := s.value * Nat.pow 10 (-k).toNat
  (x - v) + (v - x)

/-- The last point of the grid of `10 ^ k` that is not above the value. -/
def Span.floor (s : Span) (k : Int) : Nat :=
  s.value * Nat.pow 10 (-k).toNat / (s.den * Nat.pow 10 k.toNat)

/-- The point of the grid of `10 ^ k` that stands for the value, if the grid has one: the nearer of the two
neighbours that lie in the span, and of two as near the even one. -/
def Span.onGrid (s : Span) (k : Int) : Option Nat :=
  let below := s.floor k
  let above := below + 1
  match 0 < below && s.holds below k, s.holds above k with
  | true, true =>
    let d := s.distance below k
    let u := s.distance above k
    some (if d < u then below else if u < d then above else if below % 2 == 0 then below else above)
  | true, false => some below
  | false, true => some above
  | false, false => none

/-- The first grid, from that of `10 ^ k` down, that has a point for the value. -/
def Span.search (s : Span) : Nat → Int → Nat × Int
  | 0, k => (s.floor k, k)
  | n + 1, k =>
    match s.onGrid k with
    | some c => (c, k)
    | none => s.search n (k - 1)

/-- The number of places by which a value below one has to be raised to reach one. -/
def Span.places (s : Span) : Nat → Nat → Nat
  | 0, j => j
  | n + 1, j => if s.den ≤ s.value * Nat.pow 10 j then j else s.places n (j + 1)

/-- The exponent of the first digit of the value. -/
def Span.leading (s : Span) : Int :=
  if s.den ≤ s.value then ((Nat.toDigits 10 (s.value / s.den)).length : Int) - 1
  else -(s.places 400 1 : Int)

/-- The shortest decimal `c * 10 ^ k` of the span, as the pair `(c, k)`. -/
def Span.shortest (s : Span) : Nat × Int := s.search 20 s.leading

/-- What the search answers is a point of the span, unless no grid it tried has one. -/
theorem Span.search_holds (s : Span) (n : Nat) (k : Int) :
    s.holds (s.search n k).1 (s.search n k).2 = true ∨ ∀ j < n, s.onGrid (k - j) = none := by
  induction n generalizing k with
  | zero => exact .inr fun j hj => absurd hj (Nat.not_lt_zero j)
  | succ n ih =>
    cases hg : s.onGrid k with
    | some c =>
      left
      simp only [Span.search, hg]
      simp only [Span.onGrid] at hg
      split at hg
      all_goals simp_all
      all_goals grind
    | none =>
      simp only [Span.search, hg]
      refine (ih (k - 1)).imp_right fun h j hj => ?_
      cases j with
      | zero => simpa using hg
      | succ j =>
        have := h j (by omega)
        have e : k - 1 - (j : Int) = k - ((j + 1 : Nat) : Int) := by omega
        rwa [e] at this

end Authoring.Decimal
