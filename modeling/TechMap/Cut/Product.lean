import TechMap.Cut.Antichain
/-! All unions of one candidate per operand, gathered in an antichain. A union of more than six
leaves is passed over; enumeration ends with the first of at most one leaf. -/

namespace TechMap.Cut

/-- Extends `acc` by each candidate in turn, until a step ends enumeration. -/
def extend (step : Cut → List Cut → Bool × List Cut) (acc : Cut) :
    List Cut → List Cut → Bool × List Cut
  | [], out => (true, out)
  | c :: cs, out =>
    match acc.combine c with
    | none => extend step acc cs out
    | some union =>
      match step union out with
      | (true, out) => extend step acc cs out
      | (false, out) => (false, out)

/-- The candidates of the operands, first operand outermost. -/
def product : List (List Cut) → Cut → List Cut → Bool × List Cut
  | [], acc, out => insert out acc
  | candidates :: rest, acc, out => extend (product rest) acc candidates out

end TechMap.Cut
