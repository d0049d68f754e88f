import TechMap.Mapping.State
/-! Reference counting over the cones of winning cuts. Taking a cut out frees the gates that lose
their last use, and what those use in turn; putting a cut in is the converse. Both stop when the
area exceeds a limit, and every change of a count is logged so that it can be undone. -/

namespace TechMap.Mapping

/-- Why a walk stopped. -/
inductive Refusal where
  | overLimit
  /-- A pass-through whose own cone is not mapped. -/
  | inactiveLeaf (id : NodeId)
  | noCuts (id : NodeId)
  | outOfRange
deriving DecidableEq, Repr

/-- What a walk reads: the network, the winners and the areas. -/
structure Cones (α : Type) where
  net : Network
  cuts : Array (List Cut)
  params : Params α

variable {α : Type}

namespace Cones

def winner? (c : Cones α) (id : NodeId) : Option Cut := (c.cuts.getD id []).head?

def area [Quantity α] (c : Cones α) (cut : Cut) : α := c.params.cutArea cut.size cut.muxDepth

end Cones

namespace Usage

def count (u : Usage) (id : NodeId) : Nat := u.fanouts.getD id 0

/-- Drops one use and logs it. The node is no longer active without uses. -/
def release (u : Usage) (id : NodeId) : Usage :=
  let n := u.count id - 1
  match u with
  | ⟨active, fanouts, undo⟩ =>
    { active := if n = 0 then active.setIfInBounds id false else active
      fanouts := fanouts.setIfInBounds id n
      undo := id :: undo }

/-- Adds one use and logs it. The first use makes the node active. -/
def retain (u : Usage) (id : NodeId) : Usage :=
  let n := u.count id + 1
  match u with
  | ⟨active, fanouts, undo⟩ =>
    { active := if n = 1 then active.setIfInBounds id true else active
      fanouts := fanouts.setIfInBounds id n
      undo := id :: undo }

theorem fanouts_release (u : Usage) (id : NodeId) :
    (u.release id).fanouts = u.fanouts.setIfInBounds id (u.count id - 1) := rfl

theorem fanouts_retain (u : Usage) (id : NodeId) :
    (u.retain id).fanouts = u.fanouts.setIfInBounds id (u.count id + 1) := rfl

/-- All uses together. -/
def uses (u : Usage) : Nat := u.fanouts.toList.foldr (· + ·) 0

/-- How many nodes have no use. -/
def unused (u : Usage) : Nat := u.fanouts.count 0

theorem foldr_set_lt {l : List Nat} {i x : Nat} (h : x < l.getD i 0) :
    (l.set i x).foldr (· + ·) 0 < l.foldr (· + ·) 0 := by
  induction l generalizing i with
  | nil => simp at h
  | cons a l ih =>
    cases i with
    | zero => simp at h ⊢; omega
    | succ i => have := ih (i := i) (by simpa using h); simp; omega

theorem uses_release_lt {u : Usage} {id : NodeId} (h : 0 < u.count id) :
    (u.release id).uses < u.uses := by
  rw [uses, uses, fanouts_release, Array.toList_setIfInBounds]
  refine foldr_set_lt ?_
  simp only [count, Array.getD_eq_getD_getElem?] at h ⊢
  simp only [List.getD_eq_getElem?_getD, Array.getElem?_toList]
  omega

theorem unused_retain_le (u : Usage) (id : NodeId) : (u.retain id).unused ≤ u.unused := by
  rw [unused, unused, fanouts_retain, Array.setIfInBounds]
  split
  · rw [Array.count_set]; simp
  · exact Nat.le_refl _

theorem unused_retain_lt {u : Usage} {id : NodeId} (hi : id < u.fanouts.size)
    (h : u.count id = 0) : (u.retain id).unused < u.unused := by
  have hc : u.fanouts[id] = 0 := by simpa [count, Array.getD_eq_getD_getElem?, hi] using h
  have hp : 0 < u.fanouts.count 0 := Array.count_pos_iff.2 (hc ▸ Array.getElem_mem hi)
  have hne : (u.count id + 1 == 0) = false := rfl
  rw [unused, unused, fanouts_retain, Array.setIfInBounds, dif_pos hi, Array.count_set, hc,
    beq_self_eq_true, hne]
  exact Nat.sub_lt hp Nat.one_pos

/-- Takes back a release. -/
def unrelease (u : Usage) (id : NodeId) : Usage :=
  let n := u.count id
  match u with
  | ⟨active, fanouts, undo⟩ =>
    { active := if n = 0 then active.setIfInBounds id true else active
      fanouts := fanouts.setIfInBounds id (n + 1)
      undo := undo }

/-- Takes back a retain. -/
def unretain (u : Usage) (id : NodeId) : Usage :=
  let n := u.count id - 1
  match u with
  | ⟨active, fanouts, undo⟩ =>
    { active := if n = 0 then active.setIfInBounds id false else active
      fanouts := fanouts.setIfInBounds id n
      undo := undo }

def clearUndo (u : Usage) : Usage := { u with undo := [] }

/-- Takes back all logged releases, latest first. -/
def undoRelease (u : Usage) : Usage := u.undo.foldl unrelease u.clearUndo

/-- Takes back all logged retains, latest first. -/
def undoRetain (u : Usage) : Usage := u.undo.foldl unretain u.clearUndo

end Usage

namespace Cones

variable [Quantity α]

/-- Releases the nodes of the list in turn. The leaves of a freed gate come before the rest. -/
def free (c : Cones α) (limit : α) (pending : List NodeId) (acc : α) (u : Usage) :
    Usage × Except Refusal α :=
  match pending with
  | [] => (u, .ok acc)
  | id :: rest =>
    match c.net.get? id with
    | none => (u, .error .outOfRange)
    | some node =>
      if !node.isLogic then free c limit rest acc u
      else if u.fanouts.size ≤ id then (u, .error .outOfRange)
      else if h : 0 < u.count id then
        have := Usage.uses_release_lt h
        let u := u.release id
        if u.count id = 0 then
          match c.winner? id with
          | none => (u, .error (.noCuts id))
          | some next =>
            let acc := acc + c.area next
            if Quantity.lt limit acc then (u, .error .overLimit)
            else free c limit (next.leaves ++ rest) acc u
        else free c limit rest acc u
      -- without uses there is nothing to release
      else free c limit rest acc u
termination_by (u.uses, pending.length)
decreasing_by
  · exact Prod.Lex.right _ (by simp)
  · exact Prod.Lex.left _ _ (by assumption)
  · exact Prod.Lex.left _ _ (by assumption)
  · exact Prod.Lex.right _ (by simp)

/-- Retains the nodes of the list in turn. The leaves of a new gate come before the rest. -/
def use (c : Cones α) (limit : α) (pending : List NodeId) (acc : α) (u : Usage) :
    Usage × Except Refusal α :=
  match pending with
  | [] => (u, .ok acc)
  | id :: rest =>
    match c.net.get? id with
    | none => (u, .error .outOfRange)
    | some node =>
      if !node.isLogic then
        if node.isPassThrough && !u.active.getD id false then (u, .error (.inactiveLeaf id))
        else use c limit rest acc u
      else if hi : id < u.fanouts.size then
        if h : u.count id = 0 then
          have := Usage.unused_retain_lt hi h
          let u := u.retain id
          match c.winner? id with
          | none => (u, .error (.noCuts id))
          | some next =>
            let acc := acc + c.area next
            if Quantity.lt limit acc then (u, .error .overLimit)
            else use c limit (next.leaves ++ rest) acc u
        else
          have := Usage.unused_retain_le u id
          use c limit rest acc (u.retain id)
      else (u, .error .outOfRange)
termination_by (u.unused, pending.length)
decreasing_by
  · exact Prod.Lex.right _ (by simp)
  · exact Prod.Lex.left _ _ (by assumption)
  · rcases Nat.lt_or_eq_of_le this with h | h
    · exact Prod.Lex.left _ _ h
    · rw [h]; exact Prod.Lex.right _ (by simp)

/-- Takes a cut out. The result is the area that is freed, the cut included. -/
def deref (c : Cones α) (cut : Cut) (limit : α) (u : Usage) : Usage × Except Refusal α :=
  let u := u.clearUndo
  let acc := 0 + c.area cut
  if Quantity.lt limit acc then (u, .error .overLimit) else c.free limit cut.leaves acc u

/-- Puts a cut in. The result is the area that is added, the cut included. -/
def reference (c : Cones α) (cut : Cut) (limit : α) (u : Usage) : Usage × Except Refusal α :=
  let u := u.clearUndo
  let acc := 0 + c.area cut
  if Quantity.lt limit acc then (u, .error .overLimit) else c.use limit cut.leaves acc u

/-- What `reference` would add. -/
def attempt (c : Cones α) (cut : Cut) (limit : α) (u : Usage) : Usage × Except Refusal α :=
  let (u, result) := c.reference cut limit u
  (u.undoRetain, result)

end Cones

end TechMap.Mapping
