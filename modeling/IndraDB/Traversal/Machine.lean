import IndraDB.Graph
import IndraDB.Run

/-! `map` of `plugins/host/src/util.rs` as a labelled transition system: the
orchestrating loop, the thread pool with its workers, and the shared
`last_err` slot. An event is one atomic step of one thread, and it carries what
the environment chose for that step: the answer of a `get_vertices` call, or the
outcome of a `mapper.map` call. -/
namespace IndraDB.Traversal

/-- `DEFAULT_NUM_WORKERS`. -/
def DEFAULT_NUM_WORKERS : Nat := 8

/-- `DEFAULT_QUERY_LIMIT`, that is `u16::max_value() as u32`. -/
def DEFAULT_QUERY_LIMIT : Nat := 65535

/-- `Box<dyn Error>`. The errors of `get_vertices` and of `mapper.map` go into
the same slot. -/
structure BoxError where
  description : String
  deriving DecidableEq, Repr

/-- What `map` reads of its `VertexMapper` before the loop, with the defaults of
the trait's provided methods. `mapper.map` itself belongs to the environment:
each call has its own outcome. -/
structure Mapper where
  numWorkers : Nat := DEFAULT_NUM_WORKERS
  queryLimit : Nat := DEFAULT_QUERY_LIMIT
  tFilter : Option Identifier := none
  deriving DecidableEq, Repr

/-- `max(mapper.num_workers(), 2)`, the size of the pool. -/
def Mapper.workers (m : Mapper) : Nat := max m.numWorkers 2

/-- `max(mapper.query_limit(), 1)`, the page size. -/
def Mapper.limit (m : Mapper) : Nat := max m.queryLimit 1

/-- The `RangeVertexQuery` of an iteration whose cursor is `lastId`. -/
def Mapper.rangeQuery (m : Mapper) (lastId : Option Uuid) : RangeVertexQuery :=
  ⟨m.limit, m.tFilter, lastId⟩

/-- `if let Some(last_vertex) = vertices.last() { last_id = Some(last_vertex.id); }` -/
def advance (lastId : Option Uuid) (vertices : List Vertex) : Option Uuid :=
  match vertices.getLast? with
  | some v => some v.id
  | none => lastId

/-- The control points of the orchestrating thread. -/
inductive Pc where
  /-- `if last_err.lock().unwrap().is_some() { break; }` -/
  | loopHead
  /-- `trans.get_vertices(q.into())` -/
  | query
  /-- `for vertex in vertices { pool.execute(..) }` with the vertices not yet
  handed to the pool, followed by `if is_last_query { break; }` -/
  | dispatch (pending : List Vertex) (isLastQuery : Bool)
  /-- `pool.join()`, then the read of `last_err` -/
  | join
  | returned (result : Except BoxError Unit)
  deriving DecidableEq, Repr

/-- The vertices of the current page not yet handed to the pool. -/
def Pc.pending : Pc → List Vertex
  | .dispatch pending _ => pending
  | _ => []

structure State where
  pc : Pc
  lastId : Option Uuid
  lastErr : Option BoxError
  /-- jobs handed to the pool that no worker has taken yet, oldest first -/
  queued : List Vertex
  /-- jobs a worker has taken: `mapper.map(vertex)`, then the write of its error -/
  running : List Vertex
  deriving DecidableEq, Repr

def State.init : State := ⟨.loopHead, none, none, [], []⟩

inductive Event where
  | checkErr
  | getVertices (q : RangeVertexQuery) (result : Except BoxError (List Vertex))
  | execute (v : Vertex)
  | endPage
  | take
  | finish (v : Vertex) (result : Except BoxError Unit)
  | join
  deriving DecidableEq, Repr

/-- `if let Err(err) = mapper.map(vertex) { *last_err.lock().unwrap() = Some(err); }` -/
def record (lastErr : Option BoxError) : Except BoxError Unit → Option BoxError
  | .error e => some e
  | .ok _ => lastErr

/-- `if last_err.is_some() { Err(last_err.take().unwrap()) } else { Ok(()) }` -/
def slotResult : Option BoxError → Except BoxError Unit
  | some e => .error e
  | none => .ok ()

/-- The orchestrator once `get_vertices` has answered. On `Err` it stores the
error and breaks; on `Ok` it computes `is_last_query`, moves the cursor, and
starts handing the page to the pool. -/
def received (m : Mapper) (s : State) : Except BoxError (List Vertex) → State
  | .error e => { s with pc := .join, lastErr := some e }
  | .ok vertices =>
      { s with pc := .dispatch vertices (decide (vertices.length < m.limit)),
               lastId := advance s.lastId vertices }

/-- One atomic step of one of `map`'s threads, or `none` when the event is not
enabled. A worker takes the oldest queued job when fewer than `workers` jobs
run; running jobs finish in any order. -/
def step (m : Mapper) (s : State) : Event → Option State
  | .checkErr =>
      match s.pc with
      | .loopHead => some { s with pc := if s.lastErr.isSome then .join else .query }
      | _ => none
  | .getVertices q r =>
      if s.pc = .query ∧ q = m.rangeQuery s.lastId then some (received m s r) else none
  | .execute v =>
      match s.pc with
      | .dispatch (w :: pending) isLast =>
          if v = w then some { s with pc := .dispatch pending isLast, queued := s.queued ++ [v] }
          else none
      | _ => none
  | .endPage =>
      match s.pc with
      | .dispatch [] isLast => some { s with pc := if isLast then .join else .loopHead }
      | _ => none
  | .take =>
      match s.queued with
      | v :: queued =>
          if s.running.length < m.workers then
            some { s with queued := queued, running := v :: s.running }
          else none
      | [] => none
  | .finish v r =>
      if v ∈ s.running then
        some { s with running := s.running.erase v, lastErr := record s.lastErr r }
      else none
  | .join =>
      match s.pc with
      | .join =>
          if s.queued = [] ∧ s.running = [] then
            some { s with pc := .returned (slotResult s.lastErr) }
          else none
      | _ => none

/-- The state after the events of `tr`, one `step` each, when all are enabled. -/
def run (m : Mapper) : State → List Event → Option State :=
  runEvents (step m)

/-- `tr` is a run of `map` from its first line, ending in `s`. -/
def Reaches (m : Mapper) (tr : List Event) (s : State) : Prop :=
  run m State.init tr = some s

instance (m : Mapper) (tr : List Event) (s : State) : Decidable (Reaches m tr s) :=
  inferInstanceAs (Decidable (run m State.init tr = some s))

@[simp] def Event.fetch? : Event → Option (RangeVertexQuery × Except BoxError (List Vertex))
  | .getVertices q r => some (q, r)
  | _ => none

@[simp] def Event.dispatched? : Event → Option Vertex
  | .execute v => some v
  | _ => none

@[simp] def Event.completed? : Event → Option Vertex
  | .finish v _ => some v
  | _ => none

/-- The error an event writes into `last_err`, if any. -/
@[simp] def Event.failure? : Event → Option BoxError
  | .getVertices _ (.error e) => some e
  | .finish _ (.error e) => some e
  | _ => none

/-- `get_vertices` calls with their answers. -/
abbrev FetchLog := List (RangeVertexQuery × Except BoxError (List Vertex))

/-- The `get_vertices` calls of a run, with their answers, in order. -/
def fetches (tr : List Event) : FetchLog :=
  tr.filterMap Event.fetch?

/-- The vertices handed to the pool, in the order of `pool.execute`. -/
def dispatched (tr : List Event) : List Vertex := tr.filterMap Event.dispatched?

/-- The vertices whose `mapper.map` call has returned. -/
def completed (tr : List Event) : List Vertex := tr.filterMap Event.completed?

/-- The errors written into `last_err`, in the order of the writes. -/
def failures (tr : List Event) : List BoxError := tr.filterMap Event.failure?

/-- The pages that `get_vertices` returned. -/
def okPages (log : FetchLog) : List (List Vertex) :=
  log.filterMap fun x => x.2.toOption

section Projections

variable (tr tr' : List Event) (e : Event)

@[simp] theorem fetches_append : fetches (tr ++ tr') = fetches tr ++ fetches tr' :=
  List.filterMap_append _ _ _
@[simp] theorem dispatched_append : dispatched (tr ++ tr') = dispatched tr ++ dispatched tr' :=
  List.filterMap_append _ _ _
@[simp] theorem completed_append : completed (tr ++ tr') = completed tr ++ completed tr' :=
  List.filterMap_append _ _ _
@[simp] theorem failures_append : failures (tr ++ tr') = failures tr ++ failures tr' :=
  List.filterMap_append _ _ _
@[simp] theorem fetches_singleton : fetches [e] = e.fetch?.toList := by
  simp only [fetches, List.filterMap_cons, List.filterMap_nil]
  cases e.fetch? <;> rfl
@[simp] theorem dispatched_singleton : dispatched [e] = e.dispatched?.toList := by
  simp only [dispatched, List.filterMap_cons, List.filterMap_nil]
  cases e.dispatched? <;> rfl
@[simp] theorem completed_singleton : completed [e] = e.completed?.toList := by
  simp only [completed, List.filterMap_cons, List.filterMap_nil]
  cases e.completed? <;> rfl
@[simp] theorem failures_singleton : failures [e] = e.failure?.toList := by
  simp only [failures, List.filterMap_cons, List.filterMap_nil]
  cases e.failure? <;> rfl
@[simp] theorem fetches_nil : fetches [] = [] := rfl
@[simp] theorem dispatched_nil : dispatched [] = [] := rfl
@[simp] theorem completed_nil : completed [] = [] := rfl
@[simp] theorem failures_nil : failures [] = [] := rfl

@[simp] theorem okPages_append (log log' : FetchLog) : okPages (log ++ log') = okPages log ++ okPages log' :=
  List.filterMap_append _ _ _
@[simp] theorem okPages_cons_ok (q : RangeVertexQuery) (p : List Vertex) (log : FetchLog) :
    okPages ((q, .ok p) :: log) = p :: okPages log := rfl
@[simp] theorem okPages_cons_error (q : RangeVertexQuery) (err : BoxError) (log : FetchLog) :
    okPages ((q, .error err) :: log) = okPages log := rfl
@[simp] theorem okPages_nil : okPages [] = [] := rfl

end Projections

section Inversion

variable {m : Mapper} {s s' : State}

theorem step_checkErr (h : step m s .checkErr = some s') :
    s.pc = .loopHead ∧ s' = { s with pc := if s.lastErr.isSome then .join else .query } := by
  simp only [step] at h
  split at h <;> simp_all [@eq_comm _ s']

theorem step_getVertices {q : RangeVertexQuery} {r : Except BoxError (List Vertex)}
    (h : step m s (.getVertices q r) = some s') :
    s.pc = .query ∧ q = m.rangeQuery s.lastId ∧ s' = received m s r := by
  simp only [step] at h
  split at h <;> simp_all [@eq_comm _ s']

theorem step_execute {v : Vertex} (h : step m s (.execute v) = some s') :
    ∃ pending isLast, s.pc = .dispatch (v :: pending) isLast ∧
      s' = { s with pc := .dispatch pending isLast, queued := s.queued ++ [v] } := by
  simp only [step] at h
  split at h
  · split at h
    · cases h; subst_vars; exact ⟨_, _, ‹_›, rfl⟩
    · cases h
  · cases h

theorem step_endPage (h : step m s .endPage = some s') :
    ∃ isLast, s.pc = .dispatch [] isLast ∧ s' = { s with pc := if isLast then .join else .loopHead } := by
  simp only [step] at h
  split at h
  · cases h; exact ⟨_, ‹_›, rfl⟩
  · cases h

theorem step_take (h : step m s .take = some s') :
    ∃ v queued, s.queued = v :: queued ∧ s.running.length < m.workers ∧
      s' = { s with queued := queued, running := v :: s.running } := by
  simp only [step] at h
  split at h
  · split at h
    · cases h; exact ⟨_, _, ‹_›, ‹_›, rfl⟩
    · cases h
  · cases h

theorem step_finish {v : Vertex} {r : Except BoxError Unit} (h : step m s (.finish v r) = some s') :
    v ∈ s.running ∧ s' = { s with running := s.running.erase v, lastErr := record s.lastErr r } := by
  simp only [step] at h
  split at h <;> simp_all [@eq_comm _ s']

theorem step_join (h : step m s .join = some s') :
    s.pc = .join ∧ s.queued = [] ∧ s.running = [] ∧
      s' = { s with pc := .returned (slotResult s.lastErr) } := by
  simp only [step] at h
  split at h
  · split at h
    · cases h; exact ⟨‹_›, ‹_ ∧ _›.1, ‹_ ∧ _›.2, rfl⟩
    · cases h
  · cases h

end Inversion

/-- The induction principle of reachability: an invariant true at the start
and kept by every step holds along every run of `map`. -/
theorem Reaches.induction {m : Mapper} (I : List Event → State → Prop) (hInit : I [] State.init)
    (hStep : ∀ tr s e s', I tr s → step m s e = some s' → I (tr ++ [e]) s')
    {tr : List Event} {s : State} (h : Reaches m tr s) : I tr s :=
  runEvents_induction (step m) I hInit hStep h

end IndraDB.Traversal
