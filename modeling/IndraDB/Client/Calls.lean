import IndraDB.Client.Error

/-! The calls of `Client` but `bulk_insert`. `get` collects the stream of query
output values the server sends; it keeps the server's order and stops at the
first error, whether the error is in the stream or in a conversion. The other
calls answer with one message, which the method reads: `execute_plugin`, and a
family of calls that differ only in that reading. -/
namespace IndraDB.Client

variable {Proto Value : Type} (tryInto : Proto → Except ConversionError Value)

/-- `while let Some(res) = res.next().await { output.push(res?.try_into()?); }`
over the rest `items` of the stream, with `output` collected so far. -/
def collectOutput : List (Except Status Proto) → List Value → Except ClientError (List Value)
  | [], output => .ok output
  | .error st :: _, _ => .error (.grpc st)
  | .ok p :: items, output =>
      match tryInto p with
      | .error e => .error (.conversion e)
      | .ok v => collectOutput items (output ++ [v])

/-- `Client::get`: `response` is the server's answer to the query, a status or
the stream of output values. -/
def get (response : Except Status (List (Except Status Proto))) : Except ClientError (List Value) :=
  match response with
  | .error st => .error (.grpc st)
  | .ok items => collectOutput tryInto items []

/-- The calls that answer with one message: `self.0.<call>(req).await?`, then
the method's reading of the answer. A failed call is its status as `Grpc`, a
failed reading a `Conversion` error. -/
def unary {Reply T : Type} (read : Reply → Except ConversionError T) (response : Except Status Reply) :
    Except ClientError T :=
  match response with
  | .error st => .error (.grpc st)
  | .ok reply => (read reply).mapError .conversion

/-- The answer to a creation, of which the client reads `created`. -/
structure CreateResponse where
  created : Bool
  deriving DecidableEq, Repr

/-- `Client::ping`. -/
def ping (response : Except Status Unit) : Except ClientError Unit :=
  unary (fun _ => .ok ()) response

/-- `Client::sync`. -/
def sync (response : Except Status Unit) : Except ClientError Unit :=
  unary (fun _ => .ok ()) response

/-- `Client::create_vertex`. -/
def createVertex (response : Except Status CreateResponse) : Except ClientError Bool :=
  unary (fun res => .ok res.created) response

/-- `Client::create_vertex_from_type`: `Ok(res.into_inner().try_into()?)`. -/
def createVertexFromType {ProtoUuid : Type} (tryIntoUuid : ProtoUuid → Except ConversionError Uuid)
    (response : Except Status ProtoUuid) : Except ClientError Uuid :=
  unary tryIntoUuid response

/-- `Client::create_edge`. -/
def createEdge (response : Except Status CreateResponse) : Except ClientError Bool :=
  unary (fun res => .ok res.created) response

/-- `Client::delete`. -/
def delete (response : Except Status Unit) : Except ClientError Unit :=
  unary (fun _ => .ok ()) response

/-- `Client::set_properties`. -/
def setProperties (response : Except Status Unit) : Except ClientError Unit :=
  unary (fun _ => .ok ()) response

/-- `Client::index_property`. -/
def indexProperty (response : Except Status Unit) : Except ClientError Unit :=
  unary (fun _ => .ok ()) response

/-- `Client::execute_plugin`: the plugin's value, or `null` when the answer
holds none. -/
def executePlugin {Json : Type} (tryIntoJson : Proto → Except ConversionError Json) (null : Json)
    (response : Except Status (Option Proto)) : Except ClientError Json :=
  unary (fun value => match value with
    | some value => tryIntoJson value
    | none => .ok null) response

/-- `Client::new`: `ProtoClient::connect(endpoint).await?`. -/
def new {Conn : Type} (connection : Except TransportError Conn) : Except ClientError Conn :=
  connection.mapError .transport

/-- A call that answers with one message fails with `Grpc` exactly when the
call failed, carrying its status unchanged, and otherwise only with the
`Conversion` error of reading the answer. -/
theorem unary_eq_error {Reply T : Type} {read : Reply → Except ConversionError T}
    {response : Except Status Reply} {e : ClientError} :
    unary read response = .error e ↔ (∃ st, response = .error st ∧ e = .grpc st) ∨
      ∃ reply err, response = .ok reply ∧ read reply = .error err ∧ e = .conversion err := by
  rcases response with st | reply
  · simp [unary, eq_comm]
  · cases h : read reply <;> simp [unary, h, Except.mapError, eq_comm]

/-- One item of the stream, as the spec reads it: its value, or the error that
ends the call. -/
def outputValue : Except Status Proto → Except ClientError Value
  | .error st => .error (.grpc st)
  | .ok p => (tryInto p).mapError .conversion

/-- The spec's reading of `get`: the values of the whole stream in the server's
order, or the first error met. -/
def getSpec (response : Except Status (List (Except Status Proto))) : Except ClientError (List Value) :=
  response.mapError .grpc >>= fun items => items.mapM (outputValue tryInto)

theorem collectOutput_eq (items : List (Except Status Proto)) (output : List Value) :
    collectOutput tryInto items output = (items.mapM (outputValue tryInto)).map (output ++ ·) := by
  induction items generalizing output with
  | nil => exact congrArg Except.ok (List.append_nil output).symm
  | cons item items ih =>
      rw [List.mapM_cons]
      rcases item with st | p
      · rfl
      · cases hp : tryInto p with
        | error e => simp only [collectOutput, outputValue, hp]; rfl
        | ok v =>
            simp only [collectOutput, outputValue, hp, ih]
            cases mapM (outputValue tryInto) items with
            | error e => rfl
            | ok values => exact congrArg Except.ok (List.append_assoc output [v] values)

/-- `get` is the spec's reading of it: the loop collects the stream's values
in the server's order and stops at the first error. -/
theorem get_eq_getSpec (response : Except Status (List (Except Status Proto))) :
    get tryInto response = getSpec tryInto response := by
  rcases response with st | items
  · rfl
  · rw [get, collectOutput_eq, show getSpec tryInto (.ok items) = items.mapM (outputValue tryInto) from rfl]
    cases mapM (outputValue tryInto) items <;> rfl

end IndraDB.Client
