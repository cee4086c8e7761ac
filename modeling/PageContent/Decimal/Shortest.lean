import PageContent.Decimal.Binary64

/-! # The shortest decimal that reads back

    Among the decimals that round to a given magnitude, the one with the
    fewest digits, and of those the nearest. Which of two equally near ones is
    taken is for the notation to say.

    * **Grids**: the whole multiples of a power of ten. Of the points of a
      grid only the two neighbours of the magnitude can be nearest to it.
    * **Search**: grids are tried from coarse to fine. The first grid with a
      neighbour that rounds back has the fewest digits.
    * **Reads back**: every candidate is rounded before it is taken, and where
      none is found the exact expansion is, so the result always reads back.
-/

namespace PageContent

namespace Shortest

/-- The decimal rounds to the magnitude of rank `rank`. -/
def roundsTo (rank : Nat) (d : Decimal) : Bool :=
  Magnitude.nearest (d.numerator * Magnitude.one) d.denominator == rank

/-- The exact expansion of a magnitude: one half to some power is five to that
    power, as many places behind the point. -/
def expansion (rank : Nat) : Decimal :=
  ⟨Magnitude.units rank * 5 ^ Magnitude.precision, -(Magnitude.precision : Int)⟩

/-- Which of two decimals is taken if the magnitude lies halfway. -/
inductive Halfway where
  | up
  /-- The one with the even last digit. -/
  | even
  deriving DecidableEq, Repr, Inhabited

/-- Whether the lower neighbour comes first, where `r` out of `q` lie above the
    coefficient `n`. -/
def Halfway.prefersBelow (halfway : Halfway) (n r q : Nat) : Bool :=
  2 * r < q || (2 * r == q && halfway == .even && n % 2 == 0)

/-- The grid points next to a magnitude, the nearer one first. -/
def neighbours (halfway : Halfway) (rank : Nat) (exponent : Int) : List Decimal :=
  let p := Magnitude.units rank * 10 ^ (-exponent).toNat
  let q := Magnitude.one * 10 ^ exponent.toNat
  let below : Decimal := ⟨p / q, exponent⟩
  let above : Decimal := ⟨p / q + 1, exponent⟩
  if halfway.prefersBelow (p / q) (p % q) q then [below, above] else [above, below]

/-- The finest grid that is tried; below it every magnitude has been found. -/
def finest : Nat := 345

/-- The shortest decimal of a magnitude that is neither zero nor infinity. The
    search starts one place above the first digit of the whole part. -/
def ofRank (halfway : Halfway) (rank : Nat) : Decimal :=
  let top := (Nat.toDigits 10 (Magnitude.units rank / Magnitude.one)).length
  let found := (List.range (top + finest)).findSome? fun (i : Nat) =>
    (neighbours halfway rank ((top : Int) - i)).find? (roundsTo rank)
  found.getD (expansion rank)

/-! ## Laws -/

/-- The decimal that is chosen rounds to the magnitude, provided that the exact
    expansion does. -/
theorem roundsTo_ofRank (halfway : Halfway) (rank : Nat)
    (h : roundsTo rank (expansion rank) = true) :
    roundsTo rank (ofRank halfway rank) = true := by
  simp only [ofRank]
  generalize hf : List.findSome? _ _ = found
  match found with
  | none => exact h
  | some d =>
    obtain ⟨_, _, hd⟩ := List.exists_of_findSome?_eq_some hf
    exact List.find?_some hd

end Shortest

end PageContent
