import IndraDB.Graph

/-! `ClientTransaction` of `bin/src/common/client_datastore.rs`. Every method goes
through `execute`: a fresh connection for each call, at most five passes one second
apart, a readiness probe on each connection, and the method's future on the first
ready one. What the network answers on each pass is a tape of outcomes; the request
builders of `crate::converters` and the readers of the answers are parameters. The
panics of `Core::new`, of the address lookup and of `set_nodelay` are left out. -/
namespace IndraDB.Legacy

/-- `capnp::Error`, by what its `Debug` prints. -/
structure CapnpError where
  debug : String
  deriving DecidableEq, Repr

/-- `indradb::Error`, built from a message. -/
structure DatastoreError where
  description : String
  deriving DecidableEq, Repr

/-- What one pass of the loop meets. -/
inductive Attempt where
  /-- `TcpStream::connect` failed -/
  | refused
  /-- the ping, or the read of its reply, failed -/
  | probeFailed (err : CapnpError)
  /-- the ping's reply says the server is not ready -/
  | notReady
  /-- the ping's reply says the server is ready -/
  | ready
  deriving DecidableEq, Repr

/-- A pass after which the loop sleeps and goes round again. -/
def Attempt.retries : Attempt → Bool
  | .refused | .notReady => true
  | _ => false

/-- How `execute` ends: it returns, or the process panics. -/
inductive Outcome (G : Type) where
  | returned (result : Except DatastoreError G)
  | panicked (message : String)
  deriving DecidableEq, Repr

/-- One run of `execute`. -/
structure Execution (G : Type) where
  outcome : Outcome G
  /-- the connections it tried -/
  attempts : Nat
  /-- its calls of `sleep(Duration::from_secs(1))` -/
  sleeps : Nat
  deriving DecidableEq, Repr

/-- The `panic!` after the last pass. -/
def exhaustedMessage : String := "Could not connect to the server after a few seconds"

/-- What `unwrap` panics with on an `Err` whose `Debug` prints `debug`. -/
def unwrapMessage (debug : String) : String :=
  "called `Result::unwrap()` on an `Err` value: " ++ debug

/-- What the method's future does under `core.run`: it resolves to a result, or a
closure inside it panics. -/
inductive FutureRun (G : Type) where
  | resolved (result : Except CapnpError G)
  | panicked (message : String)
  deriving DecidableEq, Repr

variable {G : Type} (future : FutureRun G)

/-- `core.run(future).map_err(|err| format!("{:?}", err).into())`. -/
def runFuture : Outcome G :=
  match future with
  | .resolved result => .returned (result.mapError fun err => ⟨err.debug⟩)
  | .panicked message => .panicked message

/-- The loop with `passes` passes left, `env 0` being what the next pass meets. -/
def executeLoop (env : Nat → Attempt) : Nat → Execution G
  | 0 => ⟨.panicked exhaustedMessage, 0, 0⟩
  | passes + 1 =>
      match env 0 with
      | .refused | .notReady =>
          let rest := executeLoop (fun j => env (j + 1)) passes
          { rest with attempts := rest.attempts + 1, sleeps := rest.sleeps + 1 }
      | .probeFailed err => ⟨.panicked (unwrapMessage err.debug), 1, 0⟩
      | .ready => ⟨runFuture future, 1, 0⟩

/-- `ClientTransaction::execute`: `for _ in 0..5 { .. }`, then the panic. -/
def execute (env : Nat → Attempt) : Execution G := executeLoop future env 5

/-- The first pass that does not retry decides: a ready server runs the future once,
a failed probe panics. If no pass decides, the loop panics after all of them. -/
theorem executeLoop_cases (n : Nat) : ∀ env : Nat → Attempt,
    (∃ k < n, (∀ j < k, (env j).retries) ∧
      (env k = .ready ∧ executeLoop future env n = ⟨runFuture future, k + 1, k⟩ ∨
        ∃ err, env k = .probeFailed err ∧
          executeLoop future env n = ⟨.panicked (unwrapMessage err.debug), k + 1, k⟩)) ∨
    ((∀ j < n, (env j).retries) ∧ executeLoop future env n = ⟨.panicked exhaustedMessage, n, n⟩) := by
  induction n with
  | zero => exact fun _ => .inr ⟨fun _ h => absurd h (Nat.not_lt_zero _), rfl⟩
  | succ n ih =>
      intro env
      cases hFirst : env 0 with
      | ready =>
          exact .inl ⟨0, n.succ_pos, fun _ h => absurd h (Nat.not_lt_zero _),
            .inl ⟨hFirst, by simp [executeLoop, hFirst]⟩⟩
      | probeFailed err =>
          exact .inl ⟨0, n.succ_pos, fun _ h => absurd h (Nat.not_lt_zero _),
            .inr ⟨err, hFirst, by simp [executeLoop, hFirst]⟩⟩
      | refused | notReady =>
          have hRetries : (env 0).retries := by simp [hFirst, Attempt.retries]
          have hUnfold : executeLoop future env (n + 1) =
              { executeLoop future (fun j => env (j + 1)) n with
                attempts := (executeLoop future (fun j => env (j + 1)) n).attempts + 1,
                sleeps := (executeLoop future (fun j => env (j + 1)) n).sleeps + 1 } := by
            simp only [executeLoop, hFirst]
          have hShift : ∀ k, (∀ j < k, (env (j + 1)).retries) → ∀ j < k + 1, (env j).retries :=
            fun k h j hj => by
              cases j with
              | zero => exact hRetries
              | succ j => exact h j (by omega)
          rcases ih fun j => env (j + 1) with ⟨k, hk, hRet, ⟨hReady, hRun⟩ | ⟨err, hFail, hRun⟩⟩ | ⟨hRet, hRun⟩
          · exact .inl ⟨k + 1, by omega, hShift k hRet, .inl ⟨hReady, by rw [hUnfold, hRun]⟩⟩
          · exact .inl ⟨k + 1, by omega, hShift k hRet, .inr ⟨err, hFail, by rw [hUnfold, hRun]⟩⟩
          · exact .inr ⟨hShift n hRet, by rw [hUnfold, hRun]⟩

/-- `req.send().promise.and_then(read)`: `promise` is what the request's promise
resolves to, and `read` the closure that reads the answer. -/
def andThen {R : Type} (promise : Except CapnpError R) (read : R → FutureRun G) : FutureRun G :=
  match promise with
  | .error err => .resolved (.error err)
  | .ok res => read res

/-- A method of `ClientTransaction`: `self.execute(..)` with the future that sends the
method's request and reads the answer with `read`. -/
def transactionCall {R : Type} (read : R → FutureRun G) (promise : Except CapnpError R)
    (env : Nat → Attempt) : Execution G :=
  execute (andThen promise read) env

/-- A method returns only on a pass that found the server ready after passes that all
retried, and then returns what its future resolved to. -/
theorem transactionCall_returned {R : Type} {read : R → FutureRun G} {promise : Except CapnpError R}
    {env : Nat → Attempt} {result : Except DatastoreError G}
    (h : (transactionCall read promise env).outcome = .returned result) :
    ∃ k < 5, (∀ j < k, (env j).retries) ∧ env k = .ready ∧
      runFuture (andThen promise read) = .returned result := by
  unfold transactionCall execute at h
  rcases executeLoop_cases (andThen promise read) 5 env with
    ⟨k, hk, hRet, ⟨hReady, hRun⟩ | ⟨err, -, hRun⟩⟩ | ⟨-, hRun⟩ <;> rw [hRun] at h
  · exact ⟨k, hk, hRet, hReady, h⟩
  · cases h
  · cases h

/-- `Ok(res.get()?.get_result())`: `get` is `res.get()`. -/
def readResult {R Results : Type} (get : R → Except CapnpError Results) (getResult : Results → G)
    (res : R) : FutureRun G :=
  .resolved ((get res).map getResult)

/-- `res.get()?; Ok(())`. -/
def readUnit {R Results : Type} (get : R → Except CapnpError Results) (res : R) : FutureRun Unit :=
  .resolved ((get res).map fun _ => ())

/-- `let list = res.get()?.get_result()?; list.into_iter().map(convert).collect()`: the
converted elements, or the first error. -/
def readList {R Results Reader : Type} (get : R → Except CapnpError Results)
    (getResult : Results → Except CapnpError (List Reader)) (convert : Reader → Except CapnpError G)
    (res : R) : FutureRun (List G) :=
  .resolved (get res >>= getResult >>= fun list => list.mapM convert)

/-- The bytes of a UUID, most significant first, as a number. -/
def bytesValue (bytes : List UInt8) : Nat :=
  bytes.foldl (fun acc b => acc * 256 + b.toNat) 0

theorem foldl_bytes_lt (acc : Nat) : ∀ bytes : List UInt8,
    bytes.foldl (fun acc b => acc * 256 + b.toNat) acc < (acc + 1) * Nat.pow 256 bytes.length
  | [] => show acc < (acc + 1) * 1 by omega
  | b :: bytes => by
      have hb : b.toNat < 256 := b.val.isLt
      calc bytes.foldl (fun acc b => acc * 256 + b.toNat) (acc * 256 + b.toNat)
          < (acc * 256 + b.toNat + 1) * Nat.pow 256 bytes.length := foldl_bytes_lt _ bytes
        _ ≤ (acc + 1) * 256 * Nat.pow 256 bytes.length := Nat.mul_le_mul_right _ (by omega)
        _ = (acc + 1) * Nat.pow 256 (b :: bytes).length := by
            rw [Nat.mul_assoc, Nat.mul_comm 256]
            rfl

/-- `Uuid::from_bytes(bytes)` of the `uuid` crate: the UUID of 16 bytes, or the error
`InvalidLength(len)`, by what its `Debug` prints, for any other number of bytes. -/
def uuidFromBytes (bytes : List UInt8) : Except String Uuid :=
  if h : bytes.length = 16 then
    .ok ⟨bytesValue bytes, lt_of_lt_of_eq (foldl_bytes_lt 0 bytes) (by rw [h])⟩
  else .error ("InvalidLength(" ++ toString bytes.length ++ ")")

/-- `let bytes = res.get()?.get_result()?; Ok(Uuid::from_bytes(bytes).unwrap())`. -/
def readUuid {R Results : Type} (get : R → Except CapnpError Results)
    (getResult : Results → Except CapnpError (List UInt8)) (res : R) : FutureRun Uuid :=
  match get res >>= getResult with
  | .error err => .resolved (.error err)
  | .ok bytes =>
      match uuidFromBytes bytes with
      | .ok id => .resolved (.ok id)
      | .error debug => .panicked (unwrapMessage debug)

/-- Unlike the other readers, which always resolve, the reader of
`create_vertex_from_type` panics, exactly on an answer that is not 16 bytes. -/
theorem readUuid_panicked {R Results : Type} {get : R → Except CapnpError Results}
    {getResult : Results → Except CapnpError (List UInt8)} {res : R} :
    (∃ message, readUuid get getResult res = .panicked message) ↔
      ∃ bytes, (get res >>= getResult) = .ok bytes ∧ bytes.length ≠ 16 := by
  unfold readUuid
  cases get res >>= getResult with
  | error err => simp
  | ok bytes =>
      by_cases h : bytes.length = 16 <;> simp [uuidFromBytes, h]

namespace ClientTransaction

variable {R Results : Type} (get : R → Except CapnpError Results) (promise : Except CapnpError R)
  (env : Nat → Attempt)

/-- `Transaction::create_vertex`. -/
def createVertex (getResult : Results → Bool) : Execution Bool :=
  transactionCall (readResult get getResult) promise env

/-- `Transaction::create_vertex_from_type`. -/
def createVertexFromType (getResult : Results → Except CapnpError (List UInt8)) : Execution Uuid :=
  transactionCall (readUuid get getResult) promise env

/-- `Transaction::get_vertices`, with `converters::to_vertex` as `toVertex`. -/
def getVertices {Reader Item : Type} (getResult : Results → Except CapnpError (List Reader))
    (toVertex : Reader → Except CapnpError Item) : Execution (List Item) :=
  transactionCall (readList get getResult toVertex) promise env

/-- `Transaction::delete_vertices`. -/
def deleteVertices : Execution Unit :=
  transactionCall (readUnit get) promise env

/-- `Transaction::get_vertex_count`. -/
def getVertexCount (getResult : Results → UInt64) : Execution UInt64 :=
  transactionCall (readResult get getResult) promise env

/-- `Transaction::create_edge`. -/
def createEdge (getResult : Results → Bool) : Execution Bool :=
  transactionCall (readResult get getResult) promise env

/-- `Transaction::get_edges`, with `converters::to_edge` as `toEdge`. -/
def getEdges {Reader Item : Type} (getResult : Results → Except CapnpError (List Reader))
    (toEdge : Reader → Except CapnpError Item) : Execution (List Item) :=
  transactionCall (readList get getResult toEdge) promise env

/-- `Transaction::delete_edges`. -/
def deleteEdges : Execution Unit :=
  transactionCall (readUnit get) promise env

/-- `Transaction::get_edge_count`. -/
def getEdgeCount (getResult : Results → UInt64) : Execution UInt64 :=
  transactionCall (readResult get getResult) promise env

/-- `Transaction::get_vertex_metadata`, with `converters::to_vertex_metadata` as
`toMetadata`. -/
def getVertexMetadata {Reader Item : Type} (getResult : Results → Except CapnpError (List Reader))
    (toMetadata : Reader → Except CapnpError Item) : Execution (List Item) :=
  transactionCall (readList get getResult toMetadata) promise env

/-- `Transaction::set_vertex_metadata`. -/
def setVertexMetadata : Execution Unit :=
  transactionCall (readUnit get) promise env

/-- `Transaction::delete_vertex_metadata`. -/
def deleteVertexMetadata : Execution Unit :=
  transactionCall (readUnit get) promise env

/-- `Transaction::get_edge_metadata`, with `converters::to_edge_metadata` as
`toMetadata`. -/
def getEdgeMetadata {Reader Item : Type} (getResult : Results → Except CapnpError (List Reader))
    (toMetadata : Reader → Except CapnpError Item) : Execution (List Item) :=
  transactionCall (readList get getResult toMetadata) promise env

/-- `Transaction::set_edge_metadata`. -/
def setEdgeMetadata : Execution Unit :=
  transactionCall (readUnit get) promise env

/-- `Transaction::delete_edge_metadata`. -/
def deleteEdgeMetadata : Execution Unit :=
  transactionCall (readUnit get) promise env

end ClientTransaction

end IndraDB.Legacy
