import TechMap.Cut.Basic
/-! Lists of cuts in which no LUT cut contains another. Multiplexer cuts stand beside them and take
no part in the comparison. -/

namespace TechMap.Cut

/-- Drops the LUT cuts that contain `cut`. The last cut of the list takes a dropped one's place. -/
def sweep (cut : Cut) : List Cut → List Cut
  | [] => []
  | c :: rest =>
    if !c.isMux && cut.subsumes c then
      match rest with
      | [] => []
      | d :: rest => sweep cut ((d :: rest).getLast (by simp) :: (d :: rest).dropLast)
    else c :: sweep cut rest
termination_by cuts => cuts.length
decreasing_by all_goals simp

/-- Places a LUT cut of at least two leaves. The first LUT cut that is comparable decides: a smaller
one keeps `cut` out, a larger one is replaced, and later larger ones are swept. -/
def place (cut : Cut) : List Cut → List Cut
  | [] => [cut]
  | c :: rest =>
    if c.isMux then c :: place cut rest
    else if c.subsumes cut then c :: rest
    else if cut.subsumes c then cut :: sweep cut rest
    else c :: place cut rest

/-- A cut of at most one leaf cannot be improved on: it replaces the list and ends enumeration. -/
def insert (cuts : List Cut) (cut : Cut) : Bool × List Cut :=
  if cut.size ≤ 1 then (false, [cut]) else (true, place cut cuts)

/-- Moves the cut in slot `i` to the front and the front cut into slot `i`. -/
def promote (cuts : List Cut) (i : Nat) : List Cut := (cuts.toArray.swapIfInBounds 0 i).toList

end TechMap.Cut
