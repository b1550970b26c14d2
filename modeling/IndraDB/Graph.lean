import Mathlib.Order.Fin.Basic

/-! The graph value model shared by the two clients and the traversal, and the
range scan that the traversal asks of a datastore. The datastores themselves
are not part of this repository: only what `map` relies on is modelled. -/
namespace IndraDB

instance instDecidableEqExcept {ε α : Type} [DecidableEq ε] [DecidableEq α] :
    DecidableEq (Except ε α)
  | .ok a, .ok b => decidable_of_iff (a = b) (by simp)
  | .error a, .error b => decidable_of_iff (a = b) (by simp)
  | .ok _, .error _ => isFalse (by simp)
  | .error _, .ok _ => isFalse (by simp)

/-- `uuid::Uuid`. Its sixteen bytes compare lexicographically, which is the
order of the big-endian `u128` they spell. -/
structure Uuid where
  asU128 : Fin (Nat.pow 2 128)
  deriving DecidableEq, Repr

instance : LinearOrder Uuid :=
  LinearOrder.lift' Uuid.asU128 fun a b h => by cases a; cases b; cases h; rfl

/-- `indradb::Identifier`, the type label of a vertex. It is validated when it
is built; neither client validates it again. -/
structure Identifier where
  value : String
  deriving DecidableEq, Repr

/-- `indradb::Vertex`. -/
structure Vertex where
  id : Uuid
  t : Identifier
  deriving DecidableEq, Repr

/-- `indradb::RangeVertexQuery`: at most `limit` vertices (a `u32`), of type `t`
when one is given, starting from `start_id` when one is given. -/
structure RangeVertexQuery where
  limit : Nat
  t : Option Identifier
  startId : Option Uuid
  deriving DecidableEq, Repr

/-- Modelled from the spec: the vertices of a datastore, in the ascending id
order of its range scans. Ids are distinct, so the order is strict. -/
structure Graph where
  vertices : List Vertex
  sorted : vertices.Pairwise (·.id < ·.id)

/-- How a range scan reads `start_id`: the ids after it, or the ids from it on. -/
inductive StartBound where
  | exclusive
  | inclusive
  deriving DecidableEq, Repr

def StartBound.admits : StartBound → Uuid → Uuid → Bool
  | .exclusive, start, id => decide (start < id)
  | .inclusive, start, id => decide (start ≤ id)

/-- A vertex is of the queried type; every vertex is when no type is given. -/
def typeMatches (t : Option Identifier) (v : Vertex) : Bool :=
  t.all (· == v.t)

/-- Modelled from the spec: a datastore's answer to a range vertex query, in
ascending id order: the first `limit` vertices of the queried type whose id
the start bound admits. -/
def Graph.getVertices (g : Graph) (b : StartBound) (q : RangeVertexQuery) : List Vertex :=
  (g.vertices.filter fun v => typeMatches q.t v && q.startId.all (b.admits · v.id)).take q.limit

/-- The vertices a traversal filtered by `t` is meant to visit, in id order. -/
def Graph.matching (g : Graph) (t : Option Identifier) : List Vertex :=
  g.vertices.filter (typeMatches t)

section Sorted

variable {pre post : List Vertex} {x : Vertex}

theorem Graph.matching_sorted (g : Graph) (t : Option Identifier) :
    (g.matching t).Pairwise (·.id < ·.id) :=
  g.sorted.filter _

theorem Graph.getVertices_eq (g : Graph) (b : StartBound) (q : RangeVertexQuery) :
    g.getVertices b q =
      ((g.matching q.t).filter fun v => q.startId.all (b.admits · v.id)).take q.limit := by
  simp only [Graph.getVertices, Graph.matching, List.filter_filter, Bool.and_comm]

@[simp] theorem Graph.getVertices_none (g : Graph) (b : StartBound) (n : Nat)
    (t : Option Identifier) :
    g.getVertices b ⟨n, t, none⟩ = (g.matching t).take n := by
  rw [Graph.getVertices_eq]
  exact congrArg _ (List.filter_eq_self.mpr fun _ _ => rfl)

/-- Every vertex of an answer is a vertex of the graph, of the queried type,
and admitted by the start bound. -/
theorem Graph.mem_getVertices (g : Graph) (b : StartBound) (q : RangeVertexQuery)
    (h : x ∈ g.getVertices b q) :
    x ∈ g.vertices ∧ typeMatches q.t x ∧ q.startId.all (b.admits · x.id) := by
  have h' := List.mem_of_mem_take h
  simp only [List.mem_filter, Bool.and_eq_true] at h'
  exact ⟨h'.1, h'.2⟩

theorem Graph.getVertices_sorted (g : Graph) (b : StartBound) (q : RangeVertexQuery) :
    (g.getVertices b q).Pairwise (·.id < ·.id) :=
  g.sorted.sublist ((List.take_sublist _ _).trans (List.filter_sublist _))

/-- In a list sorted by id, the vertices after `x` are those of greater id. -/
theorem filter_gt_of_sorted (h : (pre ++ x :: post).Pairwise (·.id < ·.id)) :
    (pre ++ x :: post).filter (fun v => decide (x.id < v.id)) = post := by
  rw [List.pairwise_append, List.pairwise_cons] at h
  obtain ⟨-, ⟨hx, -⟩, hpre⟩ := h
  rw [List.filter_append, List.filter_cons_of_neg (by simp),
    List.filter_eq_nil_iff.mpr fun v hv => ?_, List.filter_eq_self.mpr fun v hv => by simpa using hx v hv]
  · rfl
  · simpa using (hpre v hv x (List.mem_cons_self _ _)).le

/-- In a list sorted by id, the vertices from `x` on are those of id at least
`x.id`. -/
theorem filter_ge_of_sorted (h : (pre ++ x :: post).Pairwise (·.id < ·.id)) :
    (pre ++ x :: post).filter (fun v => decide (x.id ≤ v.id)) = x :: post := by
  rw [List.pairwise_append, List.pairwise_cons] at h
  obtain ⟨-, ⟨hx, -⟩, hpre⟩ := h
  rw [List.filter_append, List.filter_cons_of_pos (by simp),
    List.filter_eq_nil_iff.mpr fun v hv => ?_, List.filter_eq_self.mpr fun v hv => by simpa using (hx v hv).le]
  · rfl
  · simpa using hpre v hv x (List.mem_cons_self _ _)

end Sorted

end IndraDB
