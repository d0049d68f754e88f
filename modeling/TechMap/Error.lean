import TechMap.Cut.Basic
/-! What can go wrong, by cause, and the words for it. -/

namespace TechMap

inductive Error where
  /-- A removed node where a live one is needed. -/
  | invalidNode (id : NodeId)
  /-- A kind that only mapping produces. -/
  | unmappable (id : NodeId)
  | dangling (id operand : NodeId)
  | cycle (id operand : NodeId)
  | operandMissing
  | notCanonical
  | noRounds
  | noCutsPerNode
  | noCuts (id : NodeId)
  | notExtracted (l : Lit)
  | outsideCone (id : NodeId) (cut : Cut)
  | unreferenced (id : NodeId)
  | instantiated
  | legalizer (reason : String)
  /-- A number that is no index of the table it is used with. -/
  | outOfRange
deriving DecidableEq, Repr

namespace Error

def message : Error → String
  | invalidNode id => s!"invalid node {id.render}"
  | unmappable id => s!"node {id.render} is of an already mapped kind and cannot be mapped again"
  | dangling id operand =>
    s!"node {id.render} has an operand referring to {operand.render} which does not exist"
  | cycle id operand => s!"combinational cycle through {id.render} and {operand.render}"
  | operandMissing => "operand missing from compaction"
  | notCanonical => "`Network::simulate` requires a canonical network"
  | noRounds => "`MapParams::n_rounds` must be at least 1"
  | noCutsPerNode => "`MapParams::cuts_per_node` must be at least 1"
  | noCuts id => s!"logic node {id.render} has no cuts"
  | notExtracted l => s!"function table of {l.render} was not extracted before its consumer"
  | outsideCone id cut =>
    s!"function table extraction reached {id.render} which is not in the cone of {cut.render}"
  | unreferenced id => s!"could not reference the refined winner of {id.render}"
  | instantiated => "the mapping has already been instantiated"
  | legalizer reason => reason
  | outOfRange => "index out of range"

end Error

end TechMap
