import IndraDB.Traversal.Slot

/-! The orchestrating loop of `map` over every interleaving and every answer of
`get_vertices`: its queries follow the cursor, the vertices it hands to the
pool are exactly the pages it received, and every page but the last is full.
A credit argument bounds the length of a run by the pages and vertices it
fetched. -/
namespace IndraDB.Traversal

variable {m : Mapper} {tr : List Event} {s s' : State} {e : Event} {log : FetchLog}

/-- A full page: the loop goes round again after it. -/
def FullPage (m : Mapper) (x : RangeVertexQuery × Except BoxError (List Vertex)) : Prop :=
  ∃ p, x.2 = .ok p ∧ m.limit ≤ p.length

/-- Each query of the log starts at the cursor that the pages before it leave. -/
def Chained (m : Mapper) : Option Uuid → FetchLog → Prop
  | _, [] => True
  | c, (q, .ok p) :: log => q = m.rangeQuery c ∧ Chained m (advance c p) log
  | c, (q, .error _) :: log => q = m.rangeQuery c ∧ Chained m c log

@[simp] theorem advance_nil (c : Option Uuid) : advance c [] = c := rfl

theorem advance_append (c : Option Uuid) (p q : List Vertex) :
    advance c (p ++ q) = advance (advance c p) q := by
  cases hq : q.getLast? with
  | none => simp [List.getLast?_eq_none_iff.mp hq]
  | some v => simp [advance, List.getLast?_append, hq]

theorem chained_append_singleton (c : Option Uuid) (log : FetchLog)
    (x : RangeVertexQuery × Except BoxError (List Vertex)) :
    Chained m c (log ++ [x]) ↔ Chained m c log ∧ x.1 = m.rangeQuery (advance c (okPages log).flatten) := by
  induction log generalizing c with
  | nil => obtain ⟨q, r⟩ := x; cases r <;> simp [Chained]
  | cons y log ih =>
      obtain ⟨q, r⟩ := y
      cases r <;> simp [Chained, ih, advance_append, and_assoc]

/-- Where the orchestrator stands with respect to the pages it fetched: in the
loop body every page so far was full; while handing a page to the pool, it is
the last one and every earlier one was full; after the loop, either the check
found an error, or the last answer was an error or a short page. -/
def Shape (m : Mapper) (log : FetchLog) (s : State) : Prop :=
  match s.pc with
  | .loopHead | .query => ∀ x ∈ log, FullPage m x
  | .dispatch _ isLast => ∃ pre q p, log = pre ++ [(q, .ok p)] ∧ (∀ x ∈ pre, FullPage m x) ∧
      isLast = decide (p.length < m.limit)
  | .join | .returned _ => (∀ x ∈ log, FullPage m x) ∧ s.lastErr.isSome ∨
      ∃ pre x, log = pre ++ [x] ∧ (∀ y ∈ pre, FullPage m y) ∧ ¬ FullPage m x

/-- The cursor discipline of the loop. -/
structure LoopInv (m : Mapper) (tr : List Event) (s : State) : Prop where
  cursor : s.lastId = advance none (okPages (fetches tr)).flatten
  chained : Chained m none (fetches tr)
  handed : dispatched tr ++ s.pc.pending = (okPages (fetches tr)).flatten
  shape : Shape m (fetches tr) s

/-- A worker step leaves the control point alone and can only fill the slot. -/
theorem Shape.of_worker (h : Shape m log s) (hpc : s'.pc = s.pc)
    (hErr : s.lastErr.isSome → s'.lastErr.isSome) : Shape m log s' := by
  unfold Shape at h ⊢
  rw [hpc]
  split at h <;> first | exact h | exact h.imp_left fun h => ⟨h.1, hErr h.2⟩

theorem LoopInv.of_worker (hInv : LoopInv m tr s) (hf : fetches [e] = []) (hd : dispatched [e] = [])
    (hpc : s'.pc = s.pc) (hId : s'.lastId = s.lastId) (hErr : s.lastErr.isSome → s'.lastErr.isSome) :
    LoopInv m (tr ++ [e]) s' where
  cursor := by simpa [hf, hId] using hInv.cursor
  chained := by simpa [hf] using hInv.chained
  handed := by simpa [hf, hd, hpc] using hInv.handed
  shape := by simpa [hf] using hInv.shape.of_worker hpc hErr

theorem loopInv_step (hInv : LoopInv m tr s) (h : step m s e = some s') : LoopInv m (tr ++ [e]) s' := by
  obtain ⟨hCursor, hChained, hHanded, hShape⟩ := hInv
  have hHanded' : dispatched (tr ++ [e]) ++ s'.pc.pending = (okPages (fetches (tr ++ [e]))).flatten := by
    rw [dispatched_append, List.append_assoc, step_pending h, ← List.append_assoc, hHanded,
      fetches_append, okPages_append, List.flatten_append]
  cases e with
  | checkErr =>
      obtain ⟨hpc, rfl⟩ := step_checkErr h
      simp only [Shape, hpc] at hShape
      refine ⟨by simpa using hCursor, by simpa using hChained, hHanded', ?_⟩
      split <;> simp_all [Shape]
  | getVertices q r =>
      obtain ⟨hpc, rfl, rfl⟩ := step_getVertices h
      simp only [Shape, hpc] at hShape
      have hChain : Chained m none (fetches (tr ++ [.getVertices (m.rangeQuery s.lastId) r])) := by
        simpa [chained_append_singleton, hCursor] using hChained
      cases r with
      | error err =>
          refine ⟨by simpa [received] using hCursor, hChain, hHanded', ?_⟩
          exact Or.inr ⟨fetches tr, (m.rangeQuery s.lastId, .error err), by simp, hShape,
            by simp [FullPage]⟩
      | ok p =>
          exact ⟨by simp [received, hCursor, advance_append], hChain, hHanded',
            ⟨fetches tr, m.rangeQuery s.lastId, p, by simp, hShape, rfl⟩⟩
  | execute v =>
      obtain ⟨pending, isLast, hpc, rfl⟩ := step_execute h
      simp only [Shape, hpc] at hShape
      exact ⟨by simpa using hCursor, by simpa using hChained, hHanded', by simpa [Shape] using hShape⟩
  | endPage =>
      obtain ⟨isLast, hpc, rfl⟩ := step_endPage h
      simp only [Shape, hpc] at hShape
      obtain ⟨pre, q, p, hLog, hFull, hLast⟩ := hShape
      refine ⟨by simpa using hCursor, by simpa using hChained, hHanded', ?_⟩
      cases isLast <;> simp only [Shape, fetches_append, fetches_singleton, Event.fetch?,
        Option.toList_none, List.append_nil, hLog, Bool.false_eq_true, if_false, if_true]
      · exact fun x hx => (List.mem_append.mp hx).elim (hFull x)
          fun hx => List.mem_singleton.mp hx ▸ ⟨p, rfl, by simpa using hLast⟩
      · exact Or.inr ⟨pre, _, rfl, hFull, by simpa [FullPage] using hLast⟩
  | take =>
      obtain ⟨_, _, -, -, rfl⟩ := step_take h
      exact LoopInv.of_worker ⟨hCursor, hChained, hHanded, hShape⟩ rfl rfl rfl rfl id
  | finish v r =>
      obtain ⟨-, hs'⟩ := step_finish h
      have hErr := fun hSome => step_lastErr_isSome h hSome
      subst hs'
      exact LoopInv.of_worker ⟨hCursor, hChained, hHanded, hShape⟩ rfl rfl rfl rfl hErr
  | join =>
      obtain ⟨hpc, -, -, rfl⟩ := step_join h
      simp only [Shape, hpc] at hShape
      exact ⟨by simpa using hCursor, by simpa using hChained, hHanded', by simpa [Shape] using hShape⟩

theorem Reaches.loopInv (h : Reaches m tr s) : LoopInv m tr s :=
  Reaches.induction (LoopInv m) ⟨rfl, trivial, rfl, by simp [Shape, State.init]⟩
    (fun _ _ _ _ hInv hs => loopInv_step hInv hs) h

/-- Steps the orchestrator still owes at a control point: the next check, the
`break` after the current page, and the final `pool.join`. -/
def Pc.credit : Pc → Nat
  | .loopHead => 2
  | .query => 1
  | .dispatch _ _ => 3
  | .join => 1
  | .returned _ => 0

/-- What a state still owes: the orchestrator's steps, and the take and the
finish of each queued job and the finish of each running one. -/
def State.credit (s : State) : Nat := s.pc.credit + 2 * s.queued.length + s.running.length

/-- Each query pays for itself, for the end of its page and for the next check;
each vertex handed to the pool pays for its `execute` and for the take and the
finish of its job. -/
theorem step_credit (h : step m s e = some s') :
    1 + s'.credit ≤ s.credit + 3 * (fetches [e]).length + 3 * (dispatched [e]).length := by
  cases e with
  | checkErr =>
      obtain ⟨hpc, rfl⟩ := step_checkErr h
      split <;> simp [State.credit, Pc.credit, hpc] <;> omega
  | getVertices q r =>
      obtain ⟨hpc, -, rfl⟩ := step_getVertices h
      cases r <;> simp [State.credit, Pc.credit, received, hpc] <;> omega
  | execute v =>
      obtain ⟨_, _, hpc, rfl⟩ := step_execute h
      simp [State.credit, Pc.credit, hpc]
      omega
  | endPage =>
      obtain ⟨isLast, hpc, rfl⟩ := step_endPage h
      cases isLast <;> simp [State.credit, Pc.credit, hpc] <;> omega
  | take =>
      obtain ⟨_, _, hq, -, rfl⟩ := step_take h
      simp [State.credit, hq]
      omega
  | finish v r =>
      obtain ⟨hv, rfl⟩ := step_finish h
      have hPos := List.length_pos_of_mem hv
      simp [State.credit, List.length_erase_of_mem hv]
      omega
  | join =>
      obtain ⟨hpc, -, -, rfl⟩ := step_join h
      simp [State.credit, Pc.credit, hpc]
      omega

/-- A run of `map` is at most three steps per query and per vertex it handed to
the pool, plus two. This holds for every answer of `get_vertices`; it bounds
the run once the queries are bounded. -/
theorem Reaches.length_le (h : Reaches m tr s) :
    tr.length + s.credit ≤ 3 * (fetches tr).length + 3 * (dispatched tr).length + 2 := by
  refine Reaches.induction
    (fun tr s => tr.length + s.credit ≤ 3 * (fetches tr).length + 3 * (dispatched tr).length + 2)
    (by simp [State.credit, State.init, Pc.credit]) ?_ h
  intro tr s e s' hLe hs
  have hStep := step_credit hs
  simp only [List.length_append, fetches_append, dispatched_append, List.length_singleton] at hStep ⊢
  omega

/-- An event of an environment that answers each query with `answer` and in
which no `mapper.map` call fails. -/
def Served (answer : RangeVertexQuery → Except BoxError (List Vertex)) : Event → Prop
  | .getVertices q r => r = answer q
  | .finish _ r => r = .ok ()
  | _ => True

instance (answer : RangeVertexQuery → Except BoxError (List Vertex)) : DecidablePred (Served answer)
  | .getVertices q r => inferInstanceAs (Decidable (r = answer q))
  | .finish _ r => inferInstanceAs (Decidable (r = .ok ()))
  | .checkErr | .execute _ | .endPage | .take | .join => isTrue trivial

/-- Until `map` has returned, some step is enabled in which the environment
answers as `answer` and no job fails: the pool always has a free worker or a
running job, and `pool.join` waits only for jobs that can finish. -/
theorem exists_served_step (answer : RangeVertexQuery → Except BoxError (List Vertex))
    (hpc : ∀ r, s.pc ≠ .returned r) : ∃ e s', Served answer e ∧ step m s e = some s' := by
  rcases s with ⟨pc, lastId, lastErr, queued, running⟩
  cases pc with
  | loopHead => exact ⟨.checkErr, _, trivial, rfl⟩
  | query => exact ⟨.getVertices (m.rangeQuery lastId) (answer _), _, rfl, by simp [step]; rfl⟩
  | dispatch pending isLast =>
      cases pending with
      | nil => exact ⟨.endPage, _, trivial, rfl⟩
      | cons v pending => exact ⟨.execute v, _, trivial, by simp [step]; rfl⟩
  | join =>
      cases running with
      | cons v running => exact ⟨.finish v (.ok ()), _, rfl, by simp [step]; rfl⟩
      | nil =>
          cases queued with
          | nil => exact ⟨.join, _, trivial, rfl⟩
          | cons v queued =>
              have hFree : 0 < m.workers := by simp [Mapper.workers]
              exact ⟨.take, ⟨.join, lastId, lastErr, queued, [v]⟩, trivial, by simp [step, hFree]⟩
  | returned r => exact absurd rfl (hpc r)

end IndraDB.Traversal
