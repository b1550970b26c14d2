import IndraDB.Traversal.Machine

/-! The shared `last_err` slot and the thread pool of `map`, over every
interleaving of the orchestrating thread with the workers. The slot always
holds the error written last; no job is lost before `pool.join` returns; and
once the slot holds an error the loop issues at most one more query, and hands
over only the rest of its page and that query's page. -/
namespace IndraDB.Traversal

variable {m : Mapper} {tr tr' : List Event} {s s' : State} {e : Event}

/-- A step writes the slot exactly when its event carries an error, and the
write replaces what the slot held. -/
theorem step_lastErr (h : step m s e = some s') : s'.lastErr = e.failure?.or s.lastErr := by
  cases e with
  | checkErr => obtain ⟨-, rfl⟩ := step_checkErr h; rfl
  | getVertices q r =>
      obtain ⟨-, -, rfl⟩ := step_getVertices h
      cases r <;> rfl
  | execute v => obtain ⟨_, _, -, rfl⟩ := step_execute h; rfl
  | endPage => obtain ⟨_, -, rfl⟩ := step_endPage h; rfl
  | take => obtain ⟨_, _, -, -, rfl⟩ := step_take h; rfl
  | finish v r =>
      obtain ⟨-, rfl⟩ := step_finish h
      cases r <;> rfl
  | join => obtain ⟨-, -, -, rfl⟩ := step_join h; rfl

theorem step_lastErr_isSome (h : step m s e = some s') (hErr : s.lastErr.isSome) :
    s'.lastErr.isSome := by
  rw [step_lastErr h]
  cases e.failure? <;> simp [hErr]

/-- Every job handed to the pool has returned, is running, or is queued. -/
def PoolInv (tr : List Event) (s : State) : Prop :=
  (dispatched tr).Perm (completed tr ++ s.running ++ s.queued)

/-- A step that hands no job to the pool, sees none return, and leaves the
queue and the workers alone keeps the pool invariant. -/
theorem PoolInv.frame (hInv : PoolInv tr s) (hd : dispatched [e] = []) (hc : completed [e] = [])
    (hq : s'.queued = s.queued) (hr : s'.running = s.running) : PoolInv (tr ++ [e]) s' := by
  simpa [PoolInv, hd, hc, hq, hr] using hInv

theorem poolInv_step (hInv : PoolInv tr s) (h : step m s e = some s') :
    PoolInv (tr ++ [e]) s' := by
  cases e with
  | checkErr => obtain ⟨-, rfl⟩ := step_checkErr h; exact hInv.frame rfl rfl rfl rfl
  | getVertices q r =>
      obtain ⟨-, -, rfl⟩ := step_getVertices h
      cases r <;> exact hInv.frame rfl rfl rfl rfl
  | execute v =>
      obtain ⟨_, _, -, rfl⟩ := step_execute h
      simpa [PoolInv] using hInv.append_right [v]
  | endPage => obtain ⟨_, -, rfl⟩ := step_endPage h; exact hInv.frame rfl rfl rfl rfl
  | take =>
      obtain ⟨v, queued, hq, -, rfl⟩ := step_take h
      have hPerm : (dispatched tr).Perm (completed tr ++ s.running ++ s.queued) := hInv
      rw [hq, List.append_assoc] at hPerm
      simpa [PoolInv] using hPerm.trans (List.perm_middle.append_left (completed tr))
  | finish v r =>
      obtain ⟨hv, rfl⟩ := step_finish h
      have hSplit := ((List.perm_cons_erase hv).append_left (completed tr)).append_right s.queued
      simpa [PoolInv] using hInv.trans (hSplit.trans (by simp [List.perm_middle]))
  | join => obtain ⟨-, -, -, rfl⟩ := step_join h; exact hInv.frame rfl rfl rfl rfl

/-- Once `map` has returned, its result is what the slot held and the pool is
empty; no step is enabled any more. -/
def ReturnedInv (s : State) : Prop :=
  ∀ r, s.pc = .returned r → r = slotResult s.lastErr ∧ s.queued = [] ∧ s.running = []

theorem returnedInv_step (hInv : ReturnedInv s) (h : step m s e = some s') : ReturnedInv s' := by
  intro r hr
  cases e with
  | checkErr => obtain ⟨hpc, rfl⟩ := step_checkErr h; split at hr <;> cases hr
  | getVertices q r =>
      obtain ⟨-, -, rfl⟩ := step_getVertices h
      cases r <;> cases hr
  | execute v => obtain ⟨_, _, -, rfl⟩ := step_execute h; cases hr
  | endPage => obtain ⟨_, -, rfl⟩ := step_endPage h; split at hr <;> cases hr
  | take =>
      obtain ⟨v, queued, hq, -, rfl⟩ := step_take h
      simp [(hInv r hr).2.1] at hq
  | finish v r =>
      obtain ⟨hv, rfl⟩ := step_finish h
      simp [(hInv _ hr).2.2] at hv
  | join =>
      obtain ⟨-, hq, hRun, rfl⟩ := step_join h
      cases hr
      exact ⟨rfl, hq, hRun⟩

/-- In every reachable state the slot holds the last error written into it,
and is empty only if no error has been written. -/
theorem Reaches.lastErr_eq (h : Reaches m tr s) : s.lastErr = (failures tr).getLast? := by
  refine Reaches.induction (fun tr s => s.lastErr = (failures tr).getLast?) rfl ?_ h
  intro tr s e s' hInv hs
  rw [step_lastErr hs, hInv, failures_append, failures_singleton, List.getLast?_append]
  cases e.failure? <;> rfl

theorem Reaches.poolInv (h : Reaches m tr s) : (dispatched tr).Perm (completed tr ++ s.running ++ s.queued) :=
  Reaches.induction PoolInv (List.Perm.refl _)
    (fun _ _ _ _ hInv hs => poolInv_step hInv hs) h

theorem Reaches.returnedInv (h : Reaches m tr s) : ReturnedInv s :=
  Reaches.induction (fun _ s => ReturnedInv s) (fun _ hr => by cases hr)
    (fun _ _ _ _ hInv hs => returnedInv_step hInv hs) h

/-- When `map` returns, every job it handed to the pool has returned. It returns
`Ok(())` exactly when no `get_vertices` call and no `mapper.map` call failed,
and an error only if one of those calls returned it. -/
theorem map_result_of_returned {r : Except BoxError Unit} (h : Reaches m tr s)
    (hr : s.pc = .returned r) :
    (dispatched tr).Perm (completed tr) ∧ (r = .ok () ↔ failures tr = []) ∧
      ∀ err, r = .error err → err ∈ failures tr := by
  obtain ⟨rfl, hq, hRun⟩ := h.returnedInv r hr
  refine ⟨by simpa [hq, hRun] using h.poolInv, ?_, ?_⟩
  all_goals rw [h.lastErr_eq]
  · cases hf : (failures tr).getLast? with
    | none => simpa [slotResult] using hf
    | some err =>
        simp only [slotResult, reduceCtorEq, false_iff]
        rintro h0
        simp [h0] at hf
  · intro err hErr
    cases hf : (failures tr).getLast? <;> simp only [hf, slotResult, reduceCtorEq] at hErr
    cases hErr
    exact List.mem_of_getLast?_eq_some hf

/-- One page of two vertices whose `mapper.map` calls both fail, the first one
first. -/
def twoFailingJobs : List Event :=
  [.checkErr, .getVertices ⟨65535, none, none⟩ (.ok [⟨⟨1⟩, ⟨"a"⟩⟩, ⟨⟨2⟩, ⟨"a"⟩⟩]),
    .execute ⟨⟨1⟩, ⟨"a"⟩⟩, .execute ⟨⟨2⟩, ⟨"a"⟩⟩, .endPage, .take, .take,
    .finish ⟨⟨1⟩, ⟨"a"⟩⟩ (.error ⟨"first"⟩), .finish ⟨⟨2⟩, ⟨"a"⟩⟩ (.error ⟨"second"⟩), .join]

/-- Where `twoFailingJobs` ends: `map` has returned the second error. -/
def twoFailingJobsEnd : State := ⟨.returned (.error ⟨"second"⟩), some ⟨2⟩, some ⟨"second"⟩, [], []⟩

theorem map_result_of_twoFailingJobs :
    (Reaches {} twoFailingJobs twoFailingJobsEnd ∧
      twoFailingJobsEnd.pc = .returned (.error ⟨"second"⟩)) ∧
    ((dispatched twoFailingJobs).Perm (completed twoFailingJobs) ∧
      ((.error ⟨"second"⟩ : Except BoxError Unit) = .ok () ↔ failures twoFailingJobs = []) ∧
      ∀ err, (.error ⟨"second"⟩ : Except BoxError Unit) = .error err → err ∈ failures twoFailingJobs) :=
  have h : Reaches {} twoFailingJobs twoFailingJobsEnd := by decide
  ⟨⟨h, rfl⟩, map_result_of_returned h rfl⟩

/-- The error `map` returns is the one written into the slot last: every write
replaces the slot's content, so when several calls fail only the last error
survives. -/
theorem map_returns_last_failure {r : Except BoxError Unit} (h : Reaches m tr s)
    (hr : s.pc = .returned r) : r = slotResult (failures tr).getLast? :=
  h.lastErr_eq ▸ (h.returnedInv r hr).1

theorem map_returns_last_failure_of_twoFailingJobs :
    (Reaches {} twoFailingJobs twoFailingJobsEnd ∧
      twoFailingJobsEnd.pc = .returned (.error ⟨"second"⟩)) ∧
    (.error ⟨"second"⟩ : Except BoxError Unit) = slotResult (failures twoFailingJobs).getLast? :=
  have h : Reaches {} twoFailingJobs twoFailingJobsEnd := by decide
  ⟨⟨h, rfl⟩, map_returns_last_failure h rfl⟩

/-- The first error written is not the one returned: with two failing jobs
`map` returns the second error. -/
theorem map_discards_first_failure :
    (failures twoFailingJobs).head? = some ⟨"first"⟩ ∧
      (run {} State.init twoFailingJobs).map State.pc = some (.returned (.error ⟨"second"⟩)) := by
  decide

/-- With an error in the slot, a step issues a query only from the point
between the loop-head check and `get_vertices`, and never comes back to it. -/
theorem step_fetch_budget (hErr : s.lastErr.isSome) (h : step m s e = some s') :
    (fetches [e]).length + (if s'.pc = .query then 1 else 0) ≤
      if s.pc = .query then 1 else 0 := by
  cases e with
  | checkErr => obtain ⟨hpc, rfl⟩ := step_checkErr h; simp [hpc, hErr]
  | getVertices q r =>
      obtain ⟨hpc, -, rfl⟩ := step_getVertices h
      cases r <;> simp [hpc, received]
  | execute v => obtain ⟨_, _, hpc, rfl⟩ := step_execute h; simp [hpc]
  | endPage =>
      obtain ⟨isLast, hpc, rfl⟩ := step_endPage h
      cases isLast <;> simp [hpc]
  | take => obtain ⟨_, _, -, -, rfl⟩ := step_take h; simp
  | finish v r => obtain ⟨-, rfl⟩ := step_finish h; simp
  | join => obtain ⟨hpc, -, -, rfl⟩ := step_join h; simp [hpc]

/-- A step hands to the pool what it takes off the current page, and a query
makes its page the current one. -/
theorem step_pending (h : step m s e = some s') :
    dispatched [e] ++ s'.pc.pending = s.pc.pending ++ (okPages (fetches [e])).flatten := by
  cases e with
  | checkErr =>
      obtain ⟨hpc, rfl⟩ := step_checkErr h
      simp only [hpc]
      split <;> rfl
  | getVertices q r =>
      obtain ⟨hpc, -, rfl⟩ := step_getVertices h
      cases r <;> simp [received, hpc, Pc.pending]
  | execute v => obtain ⟨_, _, hpc, rfl⟩ := step_execute h; simp [hpc, Pc.pending]
  | endPage =>
      obtain ⟨isLast, hpc, rfl⟩ := step_endPage h
      cases isLast <;> simp [hpc, Pc.pending]
  | take => obtain ⟨_, _, -, -, rfl⟩ := step_take h; simp
  | finish v r => obtain ⟨-, rfl⟩ := step_finish h; simp
  | join => obtain ⟨hpc, -, -, rfl⟩ := step_join h; simp [hpc, Pc.pending]

/-- Over any run, the vertices handed to the pool followed by those still on
the page are the page in hand followed by the pages fetched. -/
theorem run_pending (hr : run m s tr' = some s') :
    dispatched tr' ++ s'.pc.pending = s.pc.pending ++ (okPages (fetches tr')).flatten :=
  runEvents_induction (step m)
    (fun tr s₁ => dispatched tr ++ s₁.pc.pending = s.pc.pending ++ (okPages (fetches tr)).flatten)
    (by simp) (fun tr s₁ _ _ (hInv : dispatched tr ++ s₁.pc.pending = _) hs => by
      show dispatched _ ++ _ = _
      rw [dispatched_append, fetches_append, okPages_append, List.flatten_append, List.append_assoc,
        step_pending hs, ← List.append_assoc, hInv, List.append_assoc]) hr

/-- Once the slot holds an error, the rest of the run issues at most one more
`get_vertices` call, and only if the orchestrator had passed the loop-head
check; it hands to the pool only the rest of the current page and that call's page. -/
theorem fetches_after_failure_le (hErr : s.lastErr.isSome) (hr : run m s tr' = some s') :
    (fetches tr').length ≤ (if s.pc = .query then 1 else 0) ∧
    dispatched tr' <+: s.pc.pending ++ (okPages (fetches tr')).flatten := by
  obtain ⟨-, hLe⟩ := runEvents_induction (step m)
    (fun tr s₁ => s₁.lastErr.isSome ∧
      (fetches tr).length + (if s₁.pc = .query then 1 else 0) ≤ if s.pc = .query then 1 else 0)
    ⟨hErr, by simp⟩ (fun tr _ _ _ ⟨hErr₁, hLe⟩ hs => ⟨step_lastErr_isSome hs hErr₁, by
      have hStep := step_fetch_budget hErr₁ hs
      simp only [fetches_append, List.length_append] at hStep ⊢
      omega⟩) hr
  exact ⟨by omega, _, run_pending hr⟩

/-- A page of one vertex with page size one, so the loop goes round again; the
loop-head check passes, and only then does the vertex's job fail. -/
def failedAtQuery : List Event :=
  [.checkErr, .getVertices ⟨1, none, none⟩ (.ok [⟨⟨1⟩, ⟨"a"⟩⟩]), .execute ⟨⟨1⟩, ⟨"a"⟩⟩, .endPage,
    .checkErr, .take, .finish ⟨⟨1⟩, ⟨"a"⟩⟩ (.error ⟨"first"⟩)]

/-- Where `failedAtQuery` ends: the slot holds the error and the orchestrator is
about to call `get_vertices`. -/
def failedAtQueryEnd : State := ⟨.query, some ⟨1⟩, some ⟨"first"⟩, [], []⟩

/-- After the error has been written, the orchestrator still issues the query
of the iteration whose check it had passed. -/
theorem map_queries_after_failure_written :
    Reaches { queryLimit := 1 } failedAtQuery failedAtQueryEnd ∧ failedAtQueryEnd.lastErr.isSome ∧
      (run { queryLimit := 1 } failedAtQueryEnd [.getVertices ⟨1, none, some ⟨1⟩⟩ (.ok [])]).isSome := by
  decide

/-- After the error: the query of the iteration whose check passed, and its one
vertex handed to the pool. -/
def afterFailure : List Event :=
  [.getVertices ⟨1, none, some ⟨1⟩⟩ (.ok [⟨⟨2⟩, ⟨"a"⟩⟩]), .execute ⟨⟨2⟩, ⟨"a"⟩⟩]

theorem fetches_after_failure_le_of_failedAtQuery :
    (failedAtQueryEnd.lastErr.isSome ∧
      run { queryLimit := 1 } failedAtQueryEnd afterFailure =
        some ⟨.dispatch [] false, some ⟨2⟩, some ⟨"first"⟩, [⟨⟨2⟩, ⟨"a"⟩⟩], []⟩) ∧
    ((fetches afterFailure).length ≤ (if failedAtQueryEnd.pc = .query then 1 else 0) ∧
      dispatched afterFailure <+: failedAtQueryEnd.pc.pending ++ (okPages (fetches afterFailure)).flatten) :=
  have hErr : failedAtQueryEnd.lastErr.isSome := rfl
  have hr : run { queryLimit := 1 } failedAtQueryEnd afterFailure =
      some ⟨.dispatch [] false, some ⟨2⟩, some ⟨"first"⟩, [⟨⟨2⟩, ⟨"a"⟩⟩], []⟩ := by decide
  ⟨⟨hErr, hr⟩, fetches_after_failure_le hErr hr⟩

end IndraDB.Traversal
