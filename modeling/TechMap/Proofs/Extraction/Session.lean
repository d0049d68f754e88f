import Mathlib
import TechMap.Proofs.Extraction.Stack

/-! Queries that share their memory. A query leaves no table and no entry of the stack behind, also
when its walk is aborted, and its answer does not depend on the room that it finds. So each answer
is the one that a memory of its own would give. -/

namespace TechMap

namespace Memo

open Network

variable {net : Network} {cut : Cut} {memo memo' : Memo} {id : NodeId}

/-- Both have room for the network and hold the same tables. -/
structure Alike (net : Network) (memo memo' : Memo) : Prop where
  left : net.size ≤ memo.tables.size
  right : net.size ≤ memo'.tables.size
  tables : ∀ id : NodeId, (memo.tables[id]?).join = (memo'.tables[id]?).join

theorem Clean.alike (h : memo.Clean) (h' : memo'.Clean) :
    Alike net (memo.resize net.size) (memo'.resize net.size) where
  left := size_resize memo net.size
  right := size_resize memo' net.size
  tables id := by rw [(h.resize net.size).tables id, (h'.resize net.size).tables id]

theorem Alike.known (h : Alike net memo memo') (cut : Cut) : memo.known cut = memo'.known cut := by
  funext id
  unfold Memo.known
  rw [h.tables id]

theorem Alike.isKnown (h : Alike net memo memo') (cut : Cut) :
    memo.isKnown cut = memo'.isKnown cut := by
  funext id
  unfold Memo.isKnown
  rw [h.known cut]

theorem Alike.knownLit (h : Alike net memo memo') (cut : Cut) :
    memo.knownLit cut = memo'.knownLit cut := by
  funext l
  unfold Memo.knownLit
  rw [h.known cut]

theorem Alike.record (h : Alike net memo memo') (hid : id < net.size) (t : UInt64) :
    Alike net (memo.record id t) (memo'.record id t) where
  left := by simpa [Memo.record] using h.left
  right := by simpa [Memo.record] using h.right
  tables i := by
    by_cases hi : id = i
    · subst hi
      simp [Memo.record, hid.trans_le h.left, hid.trans_le h.right]
    · simpa [Memo.record, Array.getElem?_setIfInBounds_ne hi] using h.tables i

end Memo

namespace Network

variable {net : Network} {cut : Cut} {memo memo' : Memo} {id : NodeId}

theorem gateTable_congr (h : memo.Alike net memo') (cut : Cut) (id : NodeId) :
    net.gateTable cut memo id = net.gateTable cut memo' id := by
  unfold gateTable
  rw [h.knownLit cut]

theorem lt_size_of_gateTable {t : UInt64} (h : net.gateTable cut memo id = .ok t) :
    id < net.size := by
  obtain ⟨operands, hs, -⟩ := known_of_gateTable h
  exact lt_size_of_support? hs

theorem walkCone_congr (h : memo.Alike net memo') (cut : Cut) (fuel : Nat)
    (path : List (NodeId × List NodeId)) :
    (net.walkCone cut fuel path memo).1.Alike net (net.walkCone cut fuel path memo').1 ∧
      (net.walkCone cut fuel path memo).2 = (net.walkCone cut fuel path memo').2 := by
  induction fuel generalizing path memo memo' with
  | zero => cases path <;> exact ⟨h, rfl⟩
  | succ fuel ih =>
    match path with
    | [] => exact ⟨h, rfl⟩
    | (id, operands) :: path =>
      simp only [walkCone, h.isKnown cut, gateTable_congr h cut id]
      split
      · split
        · exact ⟨h, rfl⟩
        · exact ih h _
      · split
        · exact ⟨h, rfl⟩
        · rename_i t ht
          exact ih (h.record (lt_size_of_gateTable ht) t) path

theorem extract_congr (h : memo.Alike net memo') (l : Lit) (cut : Cut) :
    (net.extract l cut memo).2 = (net.extract l cut memo').2 := by
  unfold extract
  rw [h.isKnown cut, h.knownLit cut]
  split
  · rfl
  · cases hb : net.below cut l.id with
    | error e => rfl
    | ok below =>
      obtain ⟨halike, hresult⟩ := walkCone_congr h cut (2 * net.size) [(l.id, below)]
      rcases hw : net.walkCone cut (2 * net.size) [(l.id, below)] memo with ⟨m, r⟩
      rcases hw' : net.walkCone cut (2 * net.size) [(l.id, below)] memo' with ⟨m', r'⟩
      simp only [hw, hw'] at halike hresult ⊢
      subst hresult
      cases r with
      | error e => rfl
      | ok u => exact congrFun (halike.knownLit cut) l

/-- A memo with no tables in it makes no difference. -/
theorem computeTable_congr (h : memo.Clean) (h' : memo'.Clean) (l : Lit) (cut : Cut) :
    (net.computeTable l cut memo).2 = (net.computeTable l cut memo').2 :=
  extract_congr (h.alike h') l cut

theorem clean_computeTable (hc : net.Canonical) (h : memo.Clean) (l : Lit) (cut : Cut) :
    (net.computeTable l cut memo).1.Clean :=
  ((extracts_extract hc l cut (Memo.size_resize memo net.size)).tracked
    (h.resize net.size).tracked).clear

/- No index leaves its table. -/

theorem bind_eq_error {ε β γ : Type} {x : Except ε β} {f : β → Except ε γ} {e : ε}
    (h : x >>= f = .error e) : x = .error e ∨ ∃ y, x = .ok y ∧ f y = .error e := by
  cases x with
  | error e' =>
    obtain rfl : e' = e := Except.error.inj h
    exact .inl rfl
  | ok y => exact .inr ⟨y, rfl, h⟩

theorem mapM_error {ε β γ : Type} {f : β → Except ε γ} {l : List β} {e : ε}
    (h : l.mapM f = .error e) : ∃ x ∈ l, f x = .error e := by
  induction l with
  | nil => cases h
  | cons x l ih =>
    rw [List.mapM_cons] at h
    rcases bind_eq_error h with hx | ⟨y, -, h⟩
    · exact ⟨x, List.mem_cons_self, hx⟩
    · rcases bind_eq_error h with hl | ⟨ys, -, h⟩
      · obtain ⟨z, hz, hfz⟩ := ih hl
        exact ⟨z, List.mem_cons_of_mem _ hz, hfz⟩
      · cases h

theorem knownLit_ne_outOfRange (l : Lit) : memo.knownLit cut l ≠ .error .outOfRange := by
  unfold Memo.knownLit
  split <;> simp

theorem gateTable_ne_outOfRange : net.gateTable cut memo id ≠ .error .outOfRange := by
  intro h
  unfold gateTable at h
  split at h
  · rename_i a b _
    rcases bind_eq_error h with h | ⟨s, -, h⟩
    · exact knownLit_ne_outOfRange a h
    · rcases bind_eq_error h with h | ⟨s', -, h⟩
      · exact knownLit_ne_outOfRange b h
      · cases h
  · rcases bind_eq_error h with h | ⟨words, -, h⟩
    · obtain ⟨e, -, he⟩ := mapM_error h
      split at he
      · exact knownLit_ne_outOfRange e.1 he
      · cases he
    · cases h
  · cases h

theorem below_ne_outOfRange (hlt : id < net.size) : net.below cut id ≠ .error .outOfRange := by
  rw [below_eq hlt]
  split <;> simp

theorem Walks.ne_outOfRange (hc : net.Canonical) {path : List (NodeId × List NodeId)}
    {r : Memo × Except Error Unit} (h : net.Walks cut path memo r)
    (hdesc : net.Descending cut path memo) : r.2 ≠ .error .outOfRange := by
  induction h with
  | done => simp
  | outside hd hb =>
    have hlt := (hdesc.next_lt hd).trans (hdesc.range _ List.mem_cons_self)
    rintro ⟨⟩
    exact below_ne_outOfRange hlt hb
  | enter hd hb _ ih => exact ih (hdesc.enter hc hd hb)
  | missing _ ht =>
    rintro ⟨⟩
    exact gateTable_ne_outOfRange ht
  | leave _ _ _ ih => exact ih (hdesc.leave _)

theorem Extracts.ne_outOfRange (hc : net.Canonical) {l : Lit} {r : Memo × Except Error UInt64}
    (h : net.Extracts l cut memo r) (hs : net.size ≤ memo.tables.size) (hl : l.id < net.size) :
    r.2 ≠ .error .outOfRange := by
  cases h with
  | known => exact knownLit_ne_outOfRange l
  | outside _ hb =>
    rintro ⟨⟩
    exact below_ne_outOfRange hl hb
  | failed hk hb h =>
    rintro ⟨⟩
    exact h.ne_outOfRange hc (.start hc hs hk hb) rfl
  | finished => exact knownLit_ne_outOfRange l

theorem computeTable_ne_outOfRange (hc : net.Canonical) {l : Lit} (hl : l.id < net.size) (cut : Cut)
    (memo : Memo) : (net.computeTable l cut memo).2 ≠ .error .outOfRange :=
  (extracts_extract hc l cut (Memo.size_resize memo net.size)).ne_outOfRange hc
    (Memo.size_resize memo net.size) hl

end Network

/- Sessions. -/

/-- The network is canonical and has the signal. -/
structure Query.WellPosed (q : Query) : Prop where
  canonical : q.net.isCanonical = true
  range : q.lit.id < q.net.size

namespace Query

variable {q : Query} {memo : Memo}

/-- The answer of a memory of its own. -/
def fresh (q : Query) : Except Error UInt64 := (q.net.computeTable q.lit q.cut (.ofSize 0)).2

theorem ask_of_clean (h : q.WellPosed) (hm : memo.Clean) : ∃ memo', memo'.Clean ∧
    q.net.ask q.lit q.cut ⟨memo, []⟩ = some (⟨memo', []⟩, q.fresh) := by
  have hc := Network.isCanonical_iff.1 h.canonical
  refine ⟨_, Network.clean_computeTable hc hm q.lit q.cut, ?_⟩
  rw [Network.ask_eq hc h.range q.cut memo, fresh,
    Network.computeTable_congr hm (Memo.clean_ofSize 0)]

end Query

theorem Scratch.answers_of_clean {queries : List Query} (h : ∀ q ∈ queries, q.WellPosed)
    {memo : Memo} (hm : memo.Clean) :
    answers queries ⟨memo, []⟩ = some (queries.map Query.fresh) := by
  induction queries generalizing memo with
  | nil => rfl
  | cons q queries ih =>
    obtain ⟨memo', hm', hq⟩ := Query.ask_of_clean (h q List.mem_cons_self) hm
    rw [answers, hq]
    simp only [Option.bind_eq_bind, Option.bind_some]
    rw [ih (fun q hq => h q (List.mem_cons_of_mem _ hq)) hm']
    rfl

/-- Queries that share a memory of any size end, with the answers that each has from a memory of its
own, of any size. An aborted walk changes nothing for those after it. -/
theorem Scratch.answers_fresh (size : Nat) (queries : List Query) (h : ∀ q ∈ queries, q.WellPosed) :
    ∃ results, answers queries (ofSize size) = some results ∧
      ∀ own, List.Forall₂ (fun q r => r ≠ .error .outOfRange ∧
        (q.net.ask q.lit q.cut (ofSize own)).map (·.2) = some r ∧
        (q.net.computeTable q.lit q.cut (.ofSize own)).2 = r) queries results := by
  refine ⟨queries.map Query.fresh, answers_of_clean h (Memo.clean_ofSize size), fun own => ?_⟩
  rw [List.forall₂_map_right_iff, List.forall₂_same]
  intro q hq
  have hc := Network.isCanonical_iff.1 (h q hq).canonical
  have hown := Memo.clean_ofSize own
  obtain ⟨memo', -, hask⟩ := Query.ask_of_clean (h q hq) hown
  have hask : (q.net.ask q.lit q.cut (ofSize own)).map (·.2) = some q.fresh := by
    rw [ofSize, hask]
    rfl
  exact ⟨Network.computeTable_ne_outOfRange hc (h q hq).range q.cut _, hask,
    Network.computeTable_congr hown (Memo.clean_ofSize 0) q.lit q.cut⟩

/-- Node 4 has its table when the first query fails at node 3. -/
def Query.aborted : List Query :=
  let net : Network :=
    ⟨#[.const, .pi, .pi, .pi, .and (.ofNode 1) (.ofNode 2), .and (.ofNode 4) (.ofNode 3)]⟩
  [⟨net, .ofNode 5, .ofSorted [1, 2]⟩, ⟨.nested, .ofNode 4, .ofSorted [1, 3]⟩,
    ⟨net, ⟨5, true⟩, .ofSorted [3, 4]⟩]

theorem Scratch.answers_fresh_aborted :
    Query.aborted.map Query.fresh = [.error (.outsideCone 3 (.ofSorted [1, 2])),
      .ok (Table.proj 1 &&& ~~~ Table.proj 0), .ok (~~~ (Table.proj 1 &&& Table.proj 0))] ∧
    ∃ results, answers Query.aborted (ofSize 2) = some results ∧
      ∀ own, List.Forall₂ (fun q r => r ≠ .error .outOfRange ∧
        (q.net.ask q.lit q.cut (ofSize own)).map (·.2) = some r ∧
        (q.net.computeTable q.lit q.cut (.ofSize own)).2 = r) Query.aborted results := by
  refine ⟨by rfl, answers_fresh 2 Query.aborted fun q hq => ?_⟩
  simp only [Query.aborted, List.mem_cons, List.not_mem_nil, or_false] at hq
  rcases hq with rfl | rfl | rfl <;> exact ⟨by decide, by decide⟩

end TechMap
