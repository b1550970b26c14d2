import IndraDB.Traversal.Completeness

/-! The orchestrating loop of `map` seen from outside, whatever `get_vertices`
answers and however the workers interleave with it. It issues the queries of
the sequential cursor loop, and goes round again only after a full page. It
hands every vertex it receives to the pool once and in the order received. Its
work is bounded by what it receives: one query per `P` vertices, plus one, and
three steps per query and per vertex. With a datastore that answers each query
the same way and no failing `mapper.map` call, a run that returns is a run of
the loop executed alone (`scan`), whatever the interleaving. -/
namespace IndraDB.Traversal

variable {m : Mapper} {tr : List Event} {s : State}

/-- Each query of a chained log is the range query at the cursor that the
pages before it leave. -/
theorem Chained.query_eq {x : RangeVertexQuery × Except BoxError (List Vertex)} {post : FetchLog}
    (pre : FetchLog) : ∀ {c : Option Uuid}, Chained m c (pre ++ x :: post) →
      x.1 = m.rangeQuery (advance c (okPages pre).flatten) := by
  induction pre with
  | nil =>
      obtain ⟨q, r⟩ := x
      intro c h
      cases r <;> exact h.1
  | cons y pre ih =>
      obtain ⟨q, r⟩ := y
      intro c h
      cases r with
      | error err => exact ih h.2
      | ok p => simpa [advance_append] using ih h.2

/-- Every answer but the last was a full page: the loop goes round again only
after one. -/
theorem Shape.full_of_mem_dropLast {log : FetchLog} (h : Shape m log s) :
    ∀ x ∈ log.dropLast, FullPage m x := by
  have hAll : (∀ y ∈ log, FullPage m y) → ∀ y ∈ log.dropLast, FullPage m y :=
    fun hFull y hy => hFull y (List.dropLast_subset _ hy)
  have hLast : ∀ pre x, (∀ y ∈ pre, FullPage m y) → ∀ y ∈ (pre ++ [x]).dropLast, FullPage m y :=
    fun pre x hFull => by simpa only [List.dropLast_concat] using hFull
  unfold Shape at h
  split at h
  · exact hAll h
  · exact hAll h
  · obtain ⟨pre, q, p, rfl, hFull, -⟩ := h
    exact hLast pre _ hFull
  all_goals
    rcases h with ⟨hFull, -⟩ | ⟨pre, x, rfl, hFull, -⟩
    · exact hAll hFull
    · exact hLast pre x hFull

/-- Whatever `get_vertices` answers, each query of `map` asks for `P` vertices of
type `t_filter` after the last vertex received so far, and a query has a successor
only if its answer was a full page. -/
theorem map_queries_follow_cursor (h : Reaches m tr s) :
    ∀ pre x post, fetches tr = pre ++ x :: post →
      x.1 = ⟨m.limit, m.tFilter, advance none (okPages pre).flatten⟩ ∧
      (post ≠ [] → ∃ p, x.2 = .ok p ∧ m.limit ≤ p.length) := by
  intro pre x post hLog
  have hInv := h.loopInv
  refine ⟨Chained.query_eq pre (hLog ▸ hInv.chained), fun hPost => hInv.shape.full_of_mem_dropLast x ?_⟩
  rw [hLog, List.dropLast_append_of_ne_nil _ (List.cons_ne_nil _ _), List.dropLast_cons_of_ne_nil hPost]
  exact List.mem_append_right _ (List.mem_cons_self _ _)

theorem map_queries_follow_cursor_of_insertedBehind :
    Reaches pagesOfTwo insertedBehind insertedBehindEnd ∧
    ∀ pre x post, fetches insertedBehind = pre ++ x :: post →
      x.1 = ⟨pagesOfTwo.limit, pagesOfTwo.tFilter, advance none (okPages pre).flatten⟩ ∧
      (post ≠ [] → ∃ p, x.2 = .ok p ∧ pagesOfTwo.limit ≤ p.length) :=
  have h : Reaches pagesOfTwo insertedBehind insertedBehindEnd := by decide
  ⟨h, map_queries_follow_cursor h⟩

/-- Whatever `get_vertices` answers, the vertices handed to the pool followed by the
rest of the current page are the vertices received, in order; when `map` returns,
`mapper.map` has returned once for each vertex received. -/
theorem map_hands_over_received (h : Reaches m tr s) :
    dispatched tr ++ s.pc.pending = (okPages (fetches tr)).flatten ∧
    ∀ r, s.pc = .returned r → (completed tr).Perm (okPages (fetches tr)).flatten := by
  refine ⟨h.loopInv.handed, fun r hr => ?_⟩
  obtain ⟨-, hq, hRun⟩ := h.returnedInv r hr
  have hPool := h.poolInv
  rw [hq, hRun, h.loopInv.dispatched_eq (.inr ⟨r, hr⟩)] at hPool
  simpa using hPool.symm

theorem map_hands_over_received_of_boundaryTwice :
    Reaches pagesOfTwo boundaryTwice boundaryTwiceEnd ∧
    (dispatched boundaryTwice ++ boundaryTwiceEnd.pc.pending = (okPages (fetches boundaryTwice)).flatten ∧
      ∀ r, boundaryTwiceEnd.pc = .returned r →
        (completed boundaryTwice).Perm (okPages (fetches boundaryTwice)).flatten) :=
  have h : Reaches pagesOfTwo boundaryTwice boundaryTwiceEnd := by decide
  ⟨h, map_hands_over_received h⟩

/-- A log whose answers are full pages but for the last has at most one query
per `P` vertices received, plus one. -/
theorem length_le_of_full (hP : 0 < m.limit) :
    ∀ {log : FetchLog}, (∀ x ∈ log.dropLast, FullPage m x) →
      log.length ≤ (okPages log).flatten.length / m.limit + 1
  | [], _ => Nat.zero_le _
  | [_], _ => Nat.le_add_left _ _
  | ⟨q, r⟩ :: y :: log, h => by
      rw [List.dropLast_cons₂] at h
      obtain ⟨p, hp, hFull⟩ := h _ (List.mem_cons_self _ _)
      cases hp
      have ih := length_le_of_full hP fun z hz => h z (List.mem_cons_of_mem _ hz)
      have hStep := Nat.add_div_right (okPages (y :: log)).flatten.length hP
      have hMono : ((okPages (y :: log)).flatten.length + m.limit) / m.limit ≤
          (p.length + (okPages (y :: log)).flatten.length) / m.limit :=
        Nat.div_le_div_right (by omega)
      simp only [List.length_cons, okPages_cons_ok, List.flatten_cons, List.length_append] at ih ⊢
      omega

/-- Whatever `get_vertices` answers, `map` queries at most once per `P` vertices
received, plus once; a run takes at most three steps per query and per vertex, plus
two; and until `map` returns some step is enabled. -/
theorem map_work_bound (h : Reaches m tr s) :
    (fetches tr).length ≤ (okPages (fetches tr)).flatten.length / m.limit + 1 ∧
    tr.length ≤ 3 * ((okPages (fetches tr)).flatten.length / m.limit + 1) +
      3 * (okPages (fetches tr)).flatten.length + 2 ∧
    ∀ answer : RangeVertexQuery → Except BoxError (List Vertex), (∀ r, s.pc ≠ .returned r) →
      ∃ e s', Served answer e ∧ step m s e = some s' := by
  have hP : 0 < m.limit := by simp [Mapper.limit]
  have hFetches := length_le_of_full hP h.loopInv.shape.full_of_mem_dropLast
  have hDispatched := h.loopInv.dispatched_prefix.length_le
  have hRun := h.length_le
  exact ⟨hFetches, by omega, fun answer => exists_served_step answer⟩

theorem map_work_bound_of_insertedBehind :
    Reaches pagesOfTwo insertedBehind insertedBehindEnd ∧
    ((fetches insertedBehind).length ≤ (okPages (fetches insertedBehind)).flatten.length / pagesOfTwo.limit + 1 ∧
      insertedBehind.length ≤ 3 * ((okPages (fetches insertedBehind)).flatten.length / pagesOfTwo.limit + 1) +
        3 * (okPages (fetches insertedBehind)).flatten.length + 2 ∧
      ∀ answer : RangeVertexQuery → Except BoxError (List Vertex), (∀ r, insertedBehindEnd.pc ≠ .returned r) →
        ∃ e s', Served answer e ∧ step pagesOfTwo insertedBehindEnd e = some s') :=
  have h : Reaches pagesOfTwo insertedBehind insertedBehindEnd := by decide
  ⟨h, map_work_bound h⟩

/-- The loop of `map` run by one thread, with `get_vertices` answering each
query as `answer` and every `mapper.map` call succeeding: the calls it makes,
with their answers, from the cursor `c`, making `fuel` calls at most. -/
def scan (m : Mapper) (answer : RangeVertexQuery → Except BoxError (List Vertex)) :
    Nat → Option Uuid → FetchLog
  | 0, _ => []
  | fuel + 1, c =>
      match answer (m.rangeQuery c) with
      | .error e => [(m.rangeQuery c, .error e)]
      | .ok p =>
          (m.rangeQuery c, .ok p) :: if p.length < m.limit then [] else scan m answer fuel (advance c p)

/-- The errors of the failed calls of a log. -/
def fetchErrors (log : FetchLog) : List BoxError :=
  log.filterMap fun x => match x.2 with
    | .error e => some e
    | .ok _ => none

@[simp] theorem fetchErrors_append (log log' : FetchLog) :
    fetchErrors (log ++ log') = fetchErrors log ++ fetchErrors log' :=
  List.filterMap_append _ _ _

/-- What the loop returns after the calls `log` when no `mapper.map` call
fails: the error of the last failed call, if any. -/
def scanResult (log : FetchLog) : Except BoxError Unit :=
  slotResult (fetchErrors log).getLast?

variable {answer : RangeVertexQuery → Except BoxError (List Vertex)}

/-- With no failing `mapper.map` call, the errors written into `last_err` are
those of the failed `get_vertices` calls. -/
theorem failures_eq_fetchErrors (hServed : ∀ e ∈ tr, Served answer e) :
    failures tr = fetchErrors (fetches tr) := by
  induction tr with
  | nil => rfl
  | cons e tr ih =>
      have hHead : failures [e] = fetchErrors (fetches [e]) := by
        have hServedE := hServed e (List.mem_cons_self _ _)
        cases e with
        | getVertices q r => cases r <;> rfl
        | finish v r => cases (hServedE : r = .ok ()); rfl
        | _ => rfl
      rw [← List.singleton_append, failures_append, fetches_append, fetchErrors_append, hHead,
        ih fun e' he' => hServed e' (List.mem_cons_of_mem _ he')]

theorem fetchErrors_eq_nil {log : FetchLog} (h : ∀ x ∈ log, FullPage m x) : fetchErrors log = [] := by
  refine List.filterMap_eq_nil_iff.mpr fun x hx => ?_
  obtain ⟨p, hp, -⟩ := h x hx
  simp [hp]

/-- A chained log whose calls are answered as `answer`, in which every answer
but the last was a full page and the last was not, is a whole run of the
sequential loop: with more fuel the loop makes exactly these calls. -/
theorem scan_eq_of_chained : ∀ {c : Option Uuid} {log : FetchLog}, Chained m c log →
    (∀ x ∈ log, x.2 = answer x.1) → (∀ x ∈ log.dropLast, FullPage m x) →
    (∀ x, log.getLast? = some x → ¬ FullPage m x) → log ≠ [] →
    ∀ n, log.length < n → scan m answer n c = log
  | _, [], _, _, _, _, hNe, _, _ => absurd rfl hNe
  | _, _ :: _, _, _, _, _, _, 0, hn => absurd hn (Nat.not_lt_zero _)
  | c, ⟨q, r⟩ :: log, hChain, hAns, hFull, hLast, _, n + 1, hn => by
      have hq : q = m.rangeQuery c := by cases r <;> exact hChain.1
      subst hq
      have hr : answer (m.rangeQuery c) = r := (hAns _ (List.mem_cons_self _ _)).symm
      -- the loop stops after an answer that is not a full page, and only there
      have hEnd : ¬ FullPage m (m.rangeQuery c, r) → log = [] := fun hNot => by
        by_contra hNe
        exact hNot (hFull _ (by rw [List.dropLast_cons_of_ne_nil hNe]; exact List.mem_cons_self _ _))
      cases r with
      | error e =>
          rw [hEnd (by simp [FullPage])]
          simp only [scan, hr]
      | ok p =>
          by_cases hShort : p.length < m.limit
          · rw [hEnd (by simp [FullPage]; omega)]
            simp only [scan, hr, if_pos hShort]
          · obtain ⟨y, log', rfl⟩ : ∃ y log', log = y :: log' := List.exists_cons_of_ne_nil fun hNil =>
              hLast (m.rangeQuery c, .ok p) (by rw [hNil]; rfl) ⟨p, rfl, by omega⟩
            simp only [scan, hr, if_neg hShort, List.cons.injEq, true_and]
            refine scan_eq_of_chained hChain.2 (fun x hx => hAns x (List.mem_cons_of_mem _ hx))
              (fun x hx => hFull x ?_) (fun x hx => hLast x ?_) (List.cons_ne_nil _ _) n (by simpa using hn)
            · rw [List.dropLast_cons₂]
              exact List.mem_cons_of_mem _ hx
            · rwa [List.getLast?_cons_cons]

/-- With `get_vertices` answering as a function of the query and no failing
`mapper.map`, a run that returns made the calls of the loop run alone, which stops
there, and returns what that loop returns, whatever the interleaving. -/
theorem map_refines_scan (h : Reaches m tr s) (hServed : ∀ e ∈ tr, Served answer e)
    {r : Except BoxError Unit} (hr : s.pc = .returned r) :
    (∀ n, (fetches tr).length < n → scan m answer n none = fetches tr) ∧ r = scanResult (fetches tr) := by
  have hInv := h.loopInv
  have hFail := failures_eq_fetchErrors hServed
  have hErr : s.lastErr = (fetchErrors (fetches tr)).getLast? := by rw [h.lastErr_eq, hFail]
  refine ⟨?_, by rw [(h.returnedInv r hr).1, hErr]; rfl⟩
  have hShape := hInv.shape
  simp only [Shape, hr] at hShape
  rcases hShape with ⟨hFull, hSome⟩ | ⟨pre, x, hLog, -, hNot⟩
  · -- the slot holds an error only if a call failed, and a failed call is no full page
    rw [hErr, fetchErrors_eq_nil hFull] at hSome
    cases hSome
  · refine scan_eq_of_chained hInv.chained (fetch_served hServed) hInv.shape.full_of_mem_dropLast
      (fun y hy => ?_) (by simp [hLog])
    rw [hLog, List.getLast?_concat] at hy
    cases hy
    exact hNot

theorem map_refines_scan_of_onePerPage :
    (Reaches pagesOfOne onePerPage onePerPageEnd ∧
      (∀ e ∈ onePerPage, Served (staticAnswer oneVertex .exclusive) e) ∧
      onePerPageEnd.pc = .returned (.ok ())) ∧
    ((∀ n, (fetches onePerPage).length < n →
        scan pagesOfOne (staticAnswer oneVertex .exclusive) n none = fetches onePerPage) ∧
      Except.ok () = scanResult (fetches onePerPage)) :=
  have h : Reaches pagesOfOne onePerPage onePerPageEnd := by decide
  have hServed : ∀ e ∈ onePerPage, Served (staticAnswer oneVertex .exclusive) e := by decide
  ⟨⟨h, hServed, rfl⟩, map_refines_scan h hServed rfl⟩

end IndraDB.Traversal
