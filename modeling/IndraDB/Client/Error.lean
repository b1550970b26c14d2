import IndraDB.Graph

/-! `ClientError` of `proto/src/client.rs`: its four variants, the error each
wraps, what it prints, and the conversions that the client's `?` applies. The
wrapped errors come from other crates; each is modelled by the text it prints. -/
namespace IndraDB.Client

/-- `crate::ConversionError`. -/
structure ConversionError where
  text : String
  deriving DecidableEq, Repr

/-- `tonic::Status`. -/
structure Status where
  text : String
  deriving DecidableEq, Repr

/-- `tonic::transport::Error`. -/
structure TransportError where
  text : String
  deriving DecidableEq, Repr

/-- The error returned if a client operation failed. Each variant but the last
is also the `From` conversion of the error it wraps. -/
inductive ClientError where
  | conversion (inner : ConversionError)
  | grpc (inner : Status)
  | transport (inner : TransportError)
  | channelClosed
  deriving DecidableEq, Repr

namespace ClientError

/-- `StdError::source`, as the text the wrapped error prints. -/
def source : ClientError → Option String
  | conversion inner => some inner.text
  | grpc inner => some inner.text
  | transport inner => some inner.text
  | channelClosed => none

/-- `fmt::Display`. -/
def fmt : ClientError → String
  | conversion inner => inner.text
  | grpc inner => "grpc error: " ++ inner.text
  | transport inner => "transport error: " ++ inner.text
  | channelClosed => "failed to send request: channel closed"

/-- `From<mpsc::error::SendError<T>>`: the value that could not be sent is
dropped with the error. -/
def ofSendError {T : Type} (_value : T) : ClientError := channelClosed

/-- Only a closed channel has no underlying error. -/
theorem source_eq_none_iff (e : ClientError) : e.source = none ↔ e = channelClosed := by
  cases e <;> simp [source]

/-- Every error that wraps another prints it last, so nothing of the wrapped
error is lost from the message. -/
theorem source_suffix_fmt (e : ClientError) {t : String} (h : e.source = some t) :
    t.data <:+ e.fmt.data := by
  cases e with
  | conversion inner => cases h; exact List.suffix_refl _
  | grpc inner => cases h; exact List.suffix_append _ _
  | transport inner => cases h; exact List.suffix_append _ _
  | channelClosed => cases h

end ClientError

end IndraDB.Client
