import WhenClause.Decimal.Basic

/-!
# The decimal a binary number is written with

A whole number is written exactly, with one place. Any other finite number is written with the
fewest places for which some decimal reads back as it; of two such decimals the nearer is taken,
and the upper one if they are equally near.

For a given count of places only the two decimals on either side of the number have to be
tried: if some decimal with that many places reads back, so does one of these.
-/

namespace WhenClause

namespace Binary64

def readsBack (x : Binary64) (d : Decimal) : Bool :=
  d.nearestBits == x.unsignedBits

def readsBackAt? (x : Binary64) (places : Nat) : Option Decimal :=
  let scaled := x.units * Decimal.scale places
  let below : Decimal := ⟨scaled / unitsPerOne, places⟩
  let above : Decimal := ⟨scaled / unitsPerOne + 1, places⟩
  let nearer := if 2 * (scaled % unitsPerOne) < unitsPerOne then [below, above] else [above, below]
  nearer.find? x.readsBack

theorem readsBack_of_readsBackAt? {x : Binary64} {places : Nat} {d : Decimal}
    (h : x.readsBackAt? places = some d) : x.readsBack d = true :=
  List.find?_some h

/-- All places of a number: every multiple of `2 ^ -1074` ends within 1074 places. -/
def exactDecimal (x : Binary64) : Decimal :=
  ⟨x.units * Decimal.scale 1074 / unitsPerOne, 1074⟩

def shortestDecimal (x : Binary64) : Decimal :=
  ((List.range 1074).findSome? fun i => x.readsBackAt? (i + 1)).getD x.exactDecimal

def wholeDecimal (x : Binary64) : Decimal :=
  ⟨x.units / unitsPerOne * 10, 1⟩

def decimal (x : Binary64) : Decimal :=
  if x.isWhole then x.wholeDecimal else x.shortestDecimal

def print (x : Binary64) : List Char :=
  if x.isNaN then "nan".toList
  else
    let magnitude := if x.isFinite then x.decimal.print else "inf".toList
    if x.negative then '-' :: magnitude else magnitude

end Binary64

end WhenClause
