import IndraDB.Traversal.Pagination

/-! What `map` visits. Over a graph that does not change it ends after
`N / P + 1` queries and hands each matching vertex to the pool once. Over a
graph that changes between queries it still never hands a vertex over twice.
Under an inclusive start bound it hands over the vertex at every page boundary
twice, and with one vertex a page it never ends. -/
namespace IndraDB.Traversal

/-- A datastore whose graph `g` does not change answers every range query with
its scan of `g` under the start bound `b`. -/
def staticAnswer (g : Graph) (b : StartBound) (q : RangeVertexQuery) : Except BoxError (List Vertex) :=
  .ok (g.getVertices b q)

variable {m : Mapper} {tr : List Event} {s : State}
  {answer : RangeVertexQuery → Except BoxError (List Vertex)}

theorem fetch_served (hServed : ∀ e ∈ tr, Served answer e) : ∀ x ∈ fetches tr, x.2 = answer x.1 := by
  intro x hx
  obtain ⟨e, he, hx⟩ := List.mem_filterMap.mp hx
  cases e <;> simp only [Event.fetch?, reduceCtorEq, Option.some.injEq] at hx
  subst hx
  exact hServed _ he

/-- When every answer is a page and no `mapper.map` call fails, nothing is
written into `last_err`. -/
theorem failures_served (hOk : ∀ q, ∃ p, answer q = .ok p) (hServed : ∀ e ∈ tr, Served answer e) :
    failures tr = [] := by
  refine List.filterMap_eq_nil_iff.mpr fun e he => ?_
  have hServedE := hServed e he
  cases e with
  | getVertices q r =>
      obtain ⟨p, hp⟩ := hOk q
      simp only [Served] at hServedE
      simp [hServedE, hp]
  | finish v r =>
      simp only [Served] at hServedE
      simp [hServedE]
  | _ => rfl

theorem answeredBy_served {ok : Graph → Prop} {g : Graph} {b : StartBound} (hg : ok g)
    (hServed : ∀ e ∈ tr, Served (staticAnswer g b) e) : AnsweredBy b ok (fetches tr) := by
  intro x hx p hp
  rw [fetch_served hServed x hx, staticAnswer] at hp
  exact ⟨g, hg, (Except.ok.inj hp).symm⟩

theorem okPages_length {log : FetchLog} (hOk : ∀ x ∈ log, ∃ p, x.2 = .ok p) :
    (okPages log).length = log.length := by
  induction log with
  | nil => rfl
  | cons x log ih =>
      obtain ⟨p, hp⟩ := hOk x (List.mem_cons_self _ _)
      obtain ⟨q, r⟩ := x
      cases hp
      simp [ih fun y hy => hOk y (List.mem_cons_of_mem _ hy)]

theorem okPages_getLast {log : FetchLog} {q : RangeVertexQuery} {p : List Vertex}
    (h : log.getLast? = some (q, .ok p)) : (okPages log).getLast? = some p := by
  obtain ⟨pre, rfl⟩ := List.getLast?_eq_some_iff.mp h
  simp

/-- Once a run in which nothing failed has left the loop, its last answer was
a short page. -/
theorem Reaches.short_last_page (h : Reaches m tr s) (hpc : s.pc = .join ∨ ∃ r, s.pc = .returned r)
    (hNoFail : failures tr = []) (hOk : ∀ x ∈ fetches tr, ∃ p, x.2 = .ok p) :
    ∃ p, (okPages (fetches tr)).getLast? = some p ∧ p.length < m.limit := by
  have hErr : s.lastErr = none := by rw [h.lastErr_eq, hNoFail]; rfl
  have hShape := h.loopInv.shape
  obtain ⟨pre, x, hLog, hNot⟩ : ∃ pre x, fetches tr = pre ++ [x] ∧ ¬ FullPage m x := by
    unfold Shape at hShape
    rcases hpc with hpc | ⟨r, hpc⟩ <;> simp only [hpc, hErr, Option.isSome_none] at hShape <;>
      rcases hShape with ⟨-, hFalse⟩ | ⟨pre, x, hLog, -, hNot⟩
    all_goals first | cases hFalse | exact ⟨pre, x, hLog, hNot⟩
  obtain ⟨p, hp⟩ := hOk x (by simp [hLog])
  obtain ⟨q, r⟩ := x
  cases hp
  exact ⟨p, by simp [hLog], by simpa [FullPage] using hNot⟩

/-- Every vertex handed to the pool is on a page, in page order. -/
theorem LoopInv.dispatched_prefix (hInv : LoopInv m tr s) : dispatched tr <+: (okPages (fetches tr)).flatten :=
  ⟨_, hInv.handed⟩

/-- After the loop every vertex of every page has been handed to the pool. -/
theorem LoopInv.dispatched_eq (hInv : LoopInv m tr s) (hpc : s.pc = .join ∨ ∃ r, s.pc = .returned r) :
    dispatched tr = (okPages (fetches tr)).flatten := by
  have hPending : s.pc.pending = [] := by
    rcases hpc with hpc | ⟨r, hpc⟩ <;> simp [hpc, Pc.pending]
  simpa [hPending] using hInv.handed

/-- Over a static graph with no failing call, every schedule ends within
`3 (N / P + 1) + 3 N + 2` steps. `map` returns `Ok(())` after `N / P + 1` queries,
having handed the `N` matching vertices to the pool once each, in id order, and
seen every job return. -/
theorem map_static_graph_complete (g : Graph) (h : Reaches m tr s)
    (hServed : ∀ e ∈ tr, Served (staticAnswer g .exclusive) e) :
    tr.length ≤ 3 * ((g.matching m.tFilter).length / m.limit + 1) + 3 * (g.matching m.tFilter).length + 2 ∧
    ((∀ r, s.pc ≠ .returned r) → ∃ e s', Served (staticAnswer g .exclusive) e ∧ step m s e = some s') ∧
    (okPages (fetches tr)).flatten.Pairwise (·.id < ·.id) ∧
    ∀ r, s.pc = .returned r →
      r = .ok () ∧ (fetches tr).length = (g.matching m.tFilter).length / m.limit + 1 ∧
      (okPages (fetches tr)).getLast? =
        some ((g.matching m.tFilter).drop ((g.matching m.tFilter).length / m.limit * m.limit)) ∧
      dispatched tr = g.matching m.tFilter ∧ (completed tr).Perm (g.matching m.tFilter) := by
  have hInv := h.loopInv
  have hP : 0 < m.limit := by simp [Mapper.limit]
  have hOk : ∀ x ∈ fetches tr, ∃ p, x.2 = .ok p := fun x hx => ⟨_, fetch_served hServed x hx⟩
  have hAns : AnsweredBy .exclusive (· = g) (fetches tr) := answeredBy_served rfl hServed
  have hPaged := hInv.chained.paged hAns
  obtain ⟨hPre, hLen, hLast⟩ := paged_static g hP _ 0 (by simpa using hPaged) hInv.shape.fullButLast
  simp only [List.drop_zero, Nat.sub_zero, Nat.zero_add] at hPre hLen hLast
  have hFetches := okPages_length hOk
  refine ⟨?_, exists_served_step _, (g.matching_sorted _).sublist hPre.sublist, fun r hr => ?_⟩
  · have hBound := h.length_le
    have hD : (dispatched tr).length ≤ (g.matching m.tFilter).length :=
      hInv.dispatched_prefix.length_le.trans hPre.length_le
    omega
  · obtain ⟨hRet, hq, hRun⟩ := h.returnedInv r hr
    have hNoFail := failures_served (fun _ => ⟨_, rfl⟩) hServed
    obtain ⟨p, hp, hShort⟩ := h.short_last_page (.inr ⟨r, hr⟩) hNoFail hOk
    obtain ⟨hAll, hCount, rfl⟩ := hLast p hp hShort
    have hDisp : dispatched tr = g.matching m.tFilter := (hInv.dispatched_eq (.inr ⟨r, hr⟩)).trans hAll
    have hPool := h.poolInv
    rw [hq, hRun, hDisp] at hPool
    refine ⟨by rw [hRet, h.lastErr_eq, hNoFail]; rfl, hFetches ▸ hCount, hp, hDisp, ?_⟩
    simpa using hPool.symm

/-- Two vertices of one type. -/
def vertexOne : Vertex := ⟨⟨1⟩, ⟨"a"⟩⟩
def vertexTwo : Vertex := ⟨⟨2⟩, ⟨"a"⟩⟩

def oneVertex : Graph := ⟨[vertexOne], List.pairwise_singleton _ _⟩

/-- `mapper.query_limit()` is 1. -/
def pagesOfOne : Mapper := { queryLimit := 1 }

/-- One vertex, one vertex a page: a full page, then an empty one. -/
def onePerPage : List Event :=
  [.checkErr, .getVertices ⟨1, none, none⟩ (.ok [vertexOne]), .execute vertexOne, .endPage,
    .checkErr, .getVertices ⟨1, none, some vertexOne.id⟩ (.ok []), .endPage,
    .take, .finish vertexOne (.ok ()), .join]

def onePerPageEnd : State := ⟨.returned (.ok ()), some vertexOne.id, none, [], []⟩

theorem map_static_graph_complete_of_onePerPage :
    (Reaches pagesOfOne onePerPage onePerPageEnd ∧
      ∀ e ∈ onePerPage, Served (staticAnswer oneVertex .exclusive) e) ∧
    (onePerPage.length ≤ 3 * ((oneVertex.matching pagesOfOne.tFilter).length / pagesOfOne.limit + 1) +
        3 * (oneVertex.matching pagesOfOne.tFilter).length + 2 ∧
      ((∀ r, onePerPageEnd.pc ≠ .returned r) →
        ∃ e s', Served (staticAnswer oneVertex .exclusive) e ∧ step pagesOfOne onePerPageEnd e = some s') ∧
      (okPages (fetches onePerPage)).flatten.Pairwise (·.id < ·.id) ∧
      ∀ r, onePerPageEnd.pc = .returned r →
        r = .ok () ∧
        (fetches onePerPage).length = (oneVertex.matching pagesOfOne.tFilter).length / pagesOfOne.limit + 1 ∧
        (okPages (fetches onePerPage)).getLast? =
          some ((oneVertex.matching pagesOfOne.tFilter).drop
            ((oneVertex.matching pagesOfOne.tFilter).length / pagesOfOne.limit * pagesOfOne.limit)) ∧
        dispatched onePerPage = oneVertex.matching pagesOfOne.tFilter ∧
        (completed onePerPage).Perm (oneVertex.matching pagesOfOne.tFilter)) :=
  have h : Reaches pagesOfOne onePerPage onePerPageEnd := by decide
  have hServed : ∀ e ∈ onePerPage, Served (staticAnswer oneVertex .exclusive) e := by decide
  ⟨⟨h, hServed⟩, map_static_graph_complete oneVertex h hServed⟩

/-- Whatever graph answers each query, `map` hands vertices over in strictly
increasing id order, so never twice; after a short last page it has handed over
every matching vertex that all the answering graphs held. -/
theorem map_changing_graph_dispatch (h : Reaches m tr s)
    (hAns : AnsweredBy .exclusive (fun _ => True) (fetches tr)) :
    (dispatched tr).Pairwise (·.id < ·.id) ∧ (dispatched tr).Nodup ∧
    ∀ x q p, typeMatches m.tFilter x → AnsweredBy .exclusive (x ∈ ·.vertices) (fetches tr) →
      (fetches tr).getLast? = some (q, .ok p) → p.length < m.limit →
      (s.pc = .join ∨ ∃ r, s.pc = .returned r) → x ∈ dispatched tr := by
  have hInv := h.loopInv
  have hSorted := (paged_sorted (hInv.chained.paged hAns)).1.sublist hInv.dispatched_prefix.sublist
  refine ⟨hSorted, hSorted.imp fun hLt hEq => ?_, fun x q p hx hAnsX hLast hShort hpc => ?_⟩
  · subst hEq
    exact lt_irrefl _ hLt
  · rw [hInv.dispatched_eq hpc]
    exact mem_paged hx (hInv.chained.paged hAnsX) hInv.shape.fullButLast (by simp) p
      (okPages_getLast hLast) hShort

def vertexThree : Vertex := ⟨⟨3⟩, ⟨"a"⟩⟩
def vertexFour : Vertex := ⟨⟨4⟩, ⟨"a"⟩⟩

/-- `mapper.query_limit()` is 2. -/
def pagesOfTwo : Mapper := { queryLimit := 2 }

/-- The first page is read from the graph `{1, 3}`; then `2` and `4` are
inserted, and the second query, after `3`, returns `4` alone. -/
def insertedBehind : List Event :=
  [.checkErr, .getVertices ⟨2, none, none⟩ (.ok [vertexOne, vertexThree]),
    .execute vertexOne, .execute vertexThree, .endPage,
    .checkErr, .getVertices ⟨2, none, some vertexThree.id⟩ (.ok [vertexFour]), .execute vertexFour, .endPage,
    .take, .take, .take, .finish vertexOne (.ok ()), .finish vertexThree (.ok ()),
    .finish vertexFour (.ok ()), .join]

def insertedBehindEnd : State := ⟨.returned (.ok ()), some vertexFour.id, none, [], []⟩

theorem map_changing_graph_dispatch_of_insertedBehind :
    (Reaches pagesOfTwo insertedBehind insertedBehindEnd ∧
      AnsweredBy .exclusive (fun _ => True) (fetches insertedBehind)) ∧
    ((dispatched insertedBehind).Pairwise (·.id < ·.id) ∧ (dispatched insertedBehind).Nodup ∧
      ∀ x q p, typeMatches pagesOfTwo.tFilter x →
        AnsweredBy .exclusive (x ∈ ·.vertices) (fetches insertedBehind) →
        (fetches insertedBehind).getLast? = some (q, .ok p) → p.length < pagesOfTwo.limit →
        (insertedBehindEnd.pc = .join ∨ ∃ r, insertedBehindEnd.pc = .returned r) →
        x ∈ dispatched insertedBehind) :=
  have h : Reaches pagesOfTwo insertedBehind insertedBehindEnd := by decide
  have hAns : AnsweredBy .exclusive (fun _ => True) (fetches insertedBehind) := by
    have hLog : fetches insertedBehind = [(⟨2, none, none⟩, .ok [vertexOne, vertexThree]),
        (⟨2, none, some vertexThree.id⟩, .ok [vertexFour])] := rfl
    intro x hx p hp
    simp only [hLog, List.mem_cons, List.mem_singleton, List.not_mem_nil, or_false] at hx
    rcases hx with rfl | rfl <;> cases hp
    · exact ⟨⟨[vertexOne, vertexThree], by decide⟩, trivial, by decide⟩
    · exact ⟨⟨[vertexOne, vertexTwo, vertexThree, vertexFour], by decide⟩, trivial, by decide⟩
  ⟨⟨h, hAns⟩, map_changing_graph_dispatch h hAns⟩

def twoVertices : Graph := ⟨[vertexOne, vertexTwo], by decide⟩

/-- Two vertices, two a page, under an inclusive bound: the second query starts
at `2` and returns it again. -/
def boundaryTwice : List Event :=
  [.checkErr, .getVertices ⟨2, none, none⟩ (.ok [vertexOne, vertexTwo]),
    .execute vertexOne, .execute vertexTwo, .endPage,
    .checkErr, .getVertices ⟨2, none, some vertexTwo.id⟩ (.ok [vertexTwo]), .execute vertexTwo, .endPage,
    .take, .take, .take, .finish vertexOne (.ok ()), .finish vertexTwo (.ok ()),
    .finish vertexTwo (.ok ()), .join]

def boundaryTwiceEnd : State := ⟨.returned (.ok ()), some vertexTwo.id, none, [], []⟩

/-- Under an inclusive bound `map` returns `Ok(())` having handed the vertex at
the page boundary to the pool twice. -/
theorem map_inclusive_dispatches_twice :
    Reaches pagesOfTwo boundaryTwice boundaryTwiceEnd ∧
      (∀ e ∈ boundaryTwice, Served (staticAnswer twoVertices .inclusive) e) ∧
      boundaryTwiceEnd.pc = .returned (.ok ()) ∧ dispatched boundaryTwice = [vertexOne, vertexTwo, vertexTwo] := by
  decide

/-- A vertex that ends one page and starts the next occurs twice in the pages. -/
theorem two_le_count_flatten {pre post : List (List Vertex)} {p p' : List Vertex} {v : Vertex}
    (hv : p.getLast? = some v) (hHead : p'.head? = some v) : 2 ≤ (pre ++ p :: p' :: post).flatten.count v := by
  have hLast := List.count_pos_iff.mpr (List.mem_of_getLast?_eq_some hv)
  have hFirst := List.count_pos_iff.mpr (List.mem_of_mem_head? hHead)
  simp only [List.flatten_append, List.flatten_cons, List.count_append]
  omega

/-- Under an inclusive start bound, over a static graph with no failing call: each page
starts with the vertex ending the one before, which `map` hands over and maps twice.
With one vertex a page it never returns; with two or more it returns `Ok(())` within
`3 (N / (P - 1) + 1) (P + 1) + 2` steps, having handed over exactly the matching vertices. -/
theorem map_inclusive_bound (g : Graph) (h : Reaches m tr s)
    (hServed : ∀ e ∈ tr, Served (staticAnswer g .inclusive) e) :
    ((∀ r, s.pc ≠ .returned r) → ∃ e s', Served (staticAnswer g .inclusive) e ∧ step m s e = some s') ∧
    (∀ pre p p' post, okPages (fetches tr) = pre ++ p :: p' :: post → p'.head? = p.getLast? ∧
      ∀ v, p.getLast? = some v → 2 ≤ (dispatched tr ++ s.pc.pending).count v ∧
        ∀ r, s.pc = .returned r → 2 ≤ (completed tr).count v) ∧
    (m.limit = 1 → g.matching m.tFilter ≠ [] → ∀ r, s.pc ≠ .returned r) ∧
    (2 ≤ m.limit →
      tr.length ≤ 3 * ((g.matching m.tFilter).length / (m.limit - 1) + 1) * (m.limit + 1) + 2 ∧
      ∀ r, s.pc = .returned r → r = .ok () ∧ ∀ v, v ∈ dispatched tr ↔ v ∈ g.matching m.tFilter) := by
  have hInv := h.loopInv
  have hP : 0 < m.limit := by simp [Mapper.limit]
  have hOk : ∀ x ∈ fetches tr, ∃ p, x.2 = .ok p := fun x hx => ⟨_, fetch_served hServed x hx⟩
  have hAns : AnsweredBy .inclusive (· = g) (fetches tr) := answeredBy_served rfl hServed
  have hPaged := hInv.chained.paged hAns
  have hFull := hInv.shape.fullButLast
  have hNoFail := failures_served (fun _ => ⟨_, rfl⟩) hServed
  have hHead : ∀ pre p p' post, okPages (fetches tr) = pre ++ p :: p' :: post → p'.head? = p.getLast? :=
    fun pre p p' post hps => paged_inclusive_head g hP hPaged pre p p' post hps
      (List.ne_nil_of_length_pos (lt_of_lt_of_le hP ((hps ▸ hFull).full pre)))
  have hTwice : ∀ pre p p' post, okPages (fetches tr) = pre ++ p :: p' :: post → ∀ v, p.getLast? = some v →
      2 ≤ (dispatched tr ++ s.pc.pending).count v ∧ ∀ r, s.pc = .returned r → 2 ≤ (completed tr).count v :=
    fun pre p p' post hps v hv => by
      have hCount : 2 ≤ (okPages (fetches tr)).flatten.count v :=
        hps ▸ two_le_count_flatten hv ((hHead pre p p' post hps).trans hv)
      refine ⟨by rw [hInv.handed]; exact hCount, fun r hr => ?_⟩
      -- at the end the pool has run exactly the jobs handed to it
      obtain ⟨-, hq, hRun⟩ := h.returnedInv r hr
      have hPool := h.poolInv
      rw [hq, hRun, hInv.dispatched_eq (.inr ⟨r, hr⟩), List.append_nil, List.append_nil] at hPool
      rwa [hPool.count_eq] at hCount
  refine ⟨exists_served_step _, fun pre p p' post hps => ⟨hHead pre p p' post hps, hTwice pre p p' post hps⟩,
    fun hOne hM r hr => ?_, fun hTwo => ?_⟩
  · obtain ⟨p, hp, hShort⟩ := h.short_last_page (.inr ⟨r, hr⟩) hNoFail hOk
    have hFirst : g.getVertices .inclusive ⟨m.limit, m.tFilter, none⟩ ≠ [] := by
      simpa [List.take_eq_nil_iff, hOne] using hM
    exact paged_inclusive_ne_nil g hP hPaged hFirst p (List.mem_of_getLast?_eq_some hp)
      (List.eq_nil_of_length_eq_zero (by omega))
  · obtain ⟨hSub, hLen, hCover⟩ := paged_inclusive g hTwo _ none 0 (by simp) hPaged hFull
    simp only [List.drop_zero, Nat.sub_zero] at hSub hLen hCover
    have hFetches := okPages_length hOk
    have hD : (dispatched tr).length ≤ (fetches tr).length * m.limit :=
      hFetches ▸ hInv.dispatched_prefix.length_le.trans (length_flatten_le hPaged.length_le)
    have hScale := Nat.mul_le_mul_right m.limit (hFetches ▸ hLen)
    have hBound := h.length_le
    refine ⟨?_, fun r hr => ?_⟩
    · rw [Nat.mul_assoc, Nat.mul_succ, Nat.mul_add]
      omega
    · obtain ⟨hRet, -, -⟩ := h.returnedInv r hr
      obtain ⟨p, hp, hShort⟩ := h.short_last_page (.inr ⟨r, hr⟩) hNoFail hOk
      rw [hInv.dispatched_eq (.inr ⟨r, hr⟩)]
      exact ⟨by rw [hRet, h.lastErr_eq, hNoFail]; rfl, fun v => ⟨hSub v, hCover p hp hShort v⟩⟩

theorem map_inclusive_bound_of_boundaryTwice :
    (Reaches pagesOfTwo boundaryTwice boundaryTwiceEnd ∧
      ∀ e ∈ boundaryTwice, Served (staticAnswer twoVertices .inclusive) e) ∧
    (((∀ r, boundaryTwiceEnd.pc ≠ .returned r) →
        ∃ e s', Served (staticAnswer twoVertices .inclusive) e ∧ step pagesOfTwo boundaryTwiceEnd e = some s') ∧
      (∀ pre p p' post, okPages (fetches boundaryTwice) = pre ++ p :: p' :: post → p'.head? = p.getLast? ∧
        ∀ v, p.getLast? = some v → 2 ≤ (dispatched boundaryTwice ++ boundaryTwiceEnd.pc.pending).count v ∧
          ∀ r, boundaryTwiceEnd.pc = .returned r → 2 ≤ (completed boundaryTwice).count v) ∧
      (pagesOfTwo.limit = 1 → twoVertices.matching pagesOfTwo.tFilter ≠ [] →
        ∀ r, boundaryTwiceEnd.pc ≠ .returned r) ∧
      (2 ≤ pagesOfTwo.limit →
        boundaryTwice.length ≤
          3 * ((twoVertices.matching pagesOfTwo.tFilter).length / (pagesOfTwo.limit - 1) + 1) *
            (pagesOfTwo.limit + 1) + 2 ∧
        ∀ r, boundaryTwiceEnd.pc = .returned r →
          r = .ok () ∧ ∀ v, v ∈ dispatched boundaryTwice ↔ v ∈ twoVertices.matching pagesOfTwo.tFilter)) :=
  have h : Reaches pagesOfTwo boundaryTwice boundaryTwiceEnd := by decide
  have hServed : ∀ e ∈ boundaryTwice, Served (staticAnswer twoVertices .inclusive) e := by decide
  ⟨⟨h, hServed⟩, map_inclusive_bound twoVertices h hServed⟩

end IndraDB.Traversal
