import IndraDB.Client.Error
import IndraDB.Run

/-! `Client::bulk_insert` as a labelled transition system of three parties: the
producer task it spawns, the server reading the request stream, and the
foreground call. They share the bounded channel and the `last_err` slot. An
event is one atomic step of one party; when the server replies, after reading
any prefix of the stream, and with what, is the environment's choice. -/
namespace IndraDB.Client

/-- `CHANNEL_CAPACITY`. -/
def CHANNEL_CAPACITY : Nat := 100

/-- `bulk_insert` once the producer is spawned. `Item` is
`indradb::BulkInsertItem` and `Msg` its protobuf form; the call only moves
items, so both are parameters. -/
structure BulkState (Item Msg : Type) where
  /-- the items the producer has not handed to `tx.send` yet -/
  unsent : List Item
  /-- the producer has returned, dropping `tx` -/
  producerDone : Bool
  /-- the channel's buffer, oldest first -/
  buffer : List Msg
  /-- the finished call has dropped the request stream, and `rx` with it -/
  rxDropped : Bool
  /-- what the server has read, in order -/
  read : List Msg
  /-- the server has read the end of the stream -/
  sawEnd : Bool
  reply : Option (Except Status Unit)
  lastErr : Option ClientError
  /-- what `bulk_insert` returned -/
  result : Option (Except ClientError Unit)
  deriving DecidableEq, Repr

def BulkState.init {Item Msg : Type} (items : List Item) : BulkState Item Msg :=
  ⟨items, false, [], false, [], false, none, none, none⟩

inductive BulkEvent where
  /-- producer: `tx.send(item.into()).await` for its next item -/
  | send
  /-- producer: the loop is over; the task returns and drops `tx` -/
  | producerEnd
  /-- server: reads the next message of the stream -/
  | recv
  /-- server: reads the end of the stream -/
  | recvEnd
  /-- server: replies -/
  | reply (r : Except Status Unit)
  /-- the finished call drops the request stream -/
  | dropRx
  /-- foreground: `self.0.bulk_insert(..).await?`, then the read of `last_err` -/
  | finish
  deriving DecidableEq, Repr

/-- What the foreground returns once the server has replied `r`: `?` on the
reply, then `if last_err.is_some() { Err(last_err.take().unwrap()) } else { Ok(()) }`. -/
def bulkResult : Except Status Unit → Option ClientError → Except ClientError Unit
  | .error st, _ => .error (.grpc st)
  | .ok (), some e => .error e
  | .ok (), none => .ok ()

/-- The slot after the foreground: `take` empties it when the reply was `Ok`. -/
def slotAfter : Except Status Unit → Option ClientError → Option ClientError
  | .error _, lastErr => lastErr
  | .ok (), _ => none

variable {Item Msg : Type} (convert : Item → Msg)

/-- One atomic step of one party, or `none` when it is not enabled. A send
waits while the buffer is full and fails once `rx` is dropped; then the
producer writes the error into `last_err` and returns. The server reads only
until it replies. -/
def bulkStep (s : BulkState Item Msg) : BulkEvent → Option (BulkState Item Msg)
  | .send =>
      match s.unsent, s.producerDone with
      | item :: unsent, false =>
          if s.rxDropped then
            some { s with producerDone := true, lastErr := some (ClientError.ofSendError (convert item)) }
          else if s.buffer.length < CHANNEL_CAPACITY then
            some { s with unsent := unsent, buffer := s.buffer ++ [convert item] }
          else none
      | _, _ => none
  | .producerEnd =>
      match s.unsent, s.producerDone with
      | [], false => some { s with producerDone := true }
      | _, _ => none
  | .recv =>
      match s.buffer with
      | msg :: buffer =>
          if s.reply = none then some { s with buffer := buffer, read := s.read ++ [msg] } else none
      | [] => none
  | .recvEnd =>
      match s.reply, s.buffer, s.producerDone, s.sawEnd with
      | none, [], true, false => some { s with sawEnd := true }
      | _, _, _, _ => none
  | .reply r => if s.reply = none then some { s with reply := some r } else none
  | .dropRx => if s.reply.isSome ∧ s.rxDropped = false then some { s with rxDropped := true } else none
  | .finish =>
      match s.reply, s.result with
      | some r, none =>
          some { s with result := some (bulkResult r s.lastErr), lastErr := slotAfter r s.lastErr }
      | _, _ => none

/-- `tr` is a run of `bulk_insert items` from the spawn of the producer,
ending in `s`. -/
def BulkReaches (items : List Item) (tr : List BulkEvent) (s : BulkState Item Msg) : Prop :=
  runEvents (bulkStep convert) (BulkState.init items) tr = some s

instance [DecidableEq Item] [DecidableEq Msg] (items : List Item) (tr : List BulkEvent)
    (s : BulkState Item Msg) : Decidable (BulkReaches convert items tr s) :=
  inferInstanceAs (Decidable (runEvents _ _ _ = some s))

variable {convert}

section Inversion

variable {s s' : BulkState Item Msg}

theorem bulkStep_send (h : bulkStep convert s .send = some s') :
    ∃ item unsent, s.unsent = item :: unsent ∧ s.producerDone = false ∧
      (s.rxDropped = true ∧ s' = { s with producerDone := true, lastErr := some .channelClosed } ∨
        s.rxDropped = false ∧ s.buffer.length < CHANNEL_CAPACITY ∧
          s' = { s with unsent := unsent, buffer := s.buffer ++ [convert item] }) := by
  simp only [bulkStep] at h
  split at h
  · refine ⟨_, _, ‹_›, ‹_›, ?_⟩
    split at h
    next hDropped => exact .inl ⟨hDropped, (Option.some.inj h).symm⟩
    next hDropped =>
      split at h
      · exact .inr ⟨(Bool.not_eq_true _).mp hDropped, ‹_›, (Option.some.inj h).symm⟩
      · cases h
  · cases h

theorem bulkStep_producerEnd (h : bulkStep convert s .producerEnd = some s') :
    s.unsent = [] ∧ s.producerDone = false ∧ s' = { s with producerDone := true } := by
  simp only [bulkStep] at h
  split at h
  · exact ⟨‹_›, ‹_›, (Option.some.inj h).symm⟩
  · cases h

theorem bulkStep_recv (h : bulkStep convert s .recv = some s') :
    ∃ msg buffer, s.buffer = msg :: buffer ∧ s.reply = none ∧
      s' = { s with buffer := buffer, read := s.read ++ [msg] } := by
  simp only [bulkStep] at h
  split at h
  · split at h
    · exact ⟨_, _, ‹_›, ‹_›, (Option.some.inj h).symm⟩
    · cases h
  · cases h

theorem bulkStep_recvEnd (h : bulkStep convert s .recvEnd = some s') :
    s.reply = none ∧ s.buffer = [] ∧ s.producerDone = true ∧ s.sawEnd = false ∧
      s' = { s with sawEnd := true } := by
  simp only [bulkStep] at h
  split at h
  · exact ⟨‹_›, ‹_›, ‹_›, ‹_›, (Option.some.inj h).symm⟩
  · cases h

theorem bulkStep_reply {r : Except Status Unit} (h : bulkStep convert s (.reply r) = some s') :
    s.reply = none ∧ s' = { s with reply := some r } := by
  simp only [bulkStep] at h
  split at h <;> simp_all [@eq_comm _ s']

theorem bulkStep_dropRx (h : bulkStep convert s .dropRx = some s') :
    s.reply.isSome ∧ s.rxDropped = false ∧ s' = { s with rxDropped := true } := by
  simp only [bulkStep] at h
  split at h <;> simp_all [@eq_comm _ s']

theorem bulkStep_finish (h : bulkStep convert s .finish = some s') :
    ∃ r, s.reply = some r ∧ s.result = none ∧
      s' = { s with result := some (bulkResult r s.lastErr), lastErr := slotAfter r s.lastErr } := by
  simp only [bulkStep] at h
  split at h
  · exact ⟨_, ‹_›, ‹_›, (Option.some.inj h).symm⟩
  · cases h

end Inversion

variable {items : List Item} {tr : List BulkEvent} {s s' : BulkState Item Msg} {e : BulkEvent}

/-- What holds in every state of `bulk_insert`, whatever the server does. -/
structure BulkInv (convert : Item → Msg) (items : List Item) (tr : List BulkEvent)
    (s : BulkState Item Msg) : Prop where
  /-- no message is lost or duplicated between the producer and the server -/
  conserved : s.read ++ s.buffer ++ s.unsent.map convert = items.map convert
  producer : s.producerDone = true → s.unsent = [] ∨ s.rxDropped = true
  /-- a send fails only on a dropped `rx`, and leaves an item unsent -/
  failed : ∀ err, s.lastErr = some err →
    err = .channelClosed ∧ s.producerDone = true ∧ s.rxDropped = true ∧ s.unsent ≠ []
  dropped : s.rxDropped = true → s.reply.isSome
  atEnd : s.sawEnd = true → s.producerDone = true ∧ s.buffer = [] ∧ s.unsent = []
  endSeen : s.sawEnd = true ↔ .recvEnd ∈ tr
  result : ∀ res, s.result = some res → ∃ r, s.reply = some r ∧ (res = .ok () → r = .ok ()) ∧
    (res = .error .channelClosed → s.read.length < items.length)

theorem read_length_lt (hCons : s.read ++ s.buffer ++ s.unsent.map convert = items.map convert)
    (hUnsent : s.unsent ≠ []) : s.read.length < items.length := by
  have hLen := congrArg List.length hCons
  simp only [List.length_append, List.length_map] at hLen
  have := List.length_pos.mpr hUnsent
  omega

theorem bulkInv_step (hInv : BulkInv convert items tr s) (h : bulkStep convert s e = some s') :
    BulkInv convert items (tr ++ [e]) s' := by
  have hKeep : e ≠ .recvEnd → (s.sawEnd = true ↔ .recvEnd ∈ tr ++ [e]) := fun he => by
    simpa [Ne.symm he] using hInv.endSeen
  obtain ⟨hCons, hProd, hFail, hDrop, hAtEnd, -, hRes⟩ := hInv
  cases e with
  | send =>
      obtain ⟨item, unsent, hu, hpd, ⟨hRx, rfl⟩ | ⟨hRx, -, rfl⟩⟩ := bulkStep_send h
      · refine ⟨hCons, fun _ => .inr hRx, fun err hErr => ?_, hDrop, fun hs => ?_,
          hKeep (by simp), hRes⟩
        · cases hErr
          exact ⟨rfl, rfl, hRx, by simp [hu]⟩
        · simp [(hAtEnd hs).1] at hpd
      · refine ⟨by simpa [hu] using hCons, by simp [hpd], fun err hErr => ?_, hDrop, fun hs => ?_,
          hKeep (by simp), hRes⟩
        · simp [(hFail err hErr).2.1] at hpd
        · simp [(hAtEnd hs).1] at hpd
  | producerEnd =>
      obtain ⟨hu, hpd, rfl⟩ := bulkStep_producerEnd h
      refine ⟨hCons, fun _ => .inl hu, fun err hErr => ?_, hDrop, fun hs => ?_,
        hKeep (by simp), hRes⟩
      · simp [(hFail err hErr).2.1] at hpd
      · simp [(hAtEnd hs).1] at hpd
  | recv =>
      obtain ⟨msg, buffer, hb, hr, rfl⟩ := bulkStep_recv h
      refine ⟨by simpa [hb] using hCons, hProd, hFail, hDrop, fun hs => by simp [(hAtEnd hs).2.1] at hb,
        hKeep (by simp), fun res hres => ?_⟩
      obtain ⟨r, hr', -⟩ := hRes res hres
      simp [hr] at hr'
  | recvEnd =>
      obtain ⟨hr, hb, hpd, -, rfl⟩ := bulkStep_recvEnd h
      have hu : s.unsent = [] := (hProd hpd).resolve_right fun hRx => by simpa [hr] using hDrop hRx
      exact ⟨hCons, hProd, hFail, hDrop, fun _ => ⟨hpd, hb, hu⟩, ⟨fun _ => by simp, fun _ => rfl⟩, hRes⟩
  | reply r =>
      obtain ⟨hr, rfl⟩ := bulkStep_reply h
      refine ⟨hCons, hProd, hFail, fun _ => rfl, hAtEnd, hKeep (by simp),
        fun res hres => ?_⟩
      obtain ⟨r, hr', -⟩ := hRes res hres
      simp [hr] at hr'
  | dropRx =>
      obtain ⟨hr, -, rfl⟩ := bulkStep_dropRx h
      exact ⟨hCons, fun _ => .inr rfl, fun err hErr => ⟨(hFail err hErr).1, (hFail err hErr).2.1, rfl,
        (hFail err hErr).2.2.2⟩, fun _ => hr, hAtEnd, hKeep (by simp), hRes⟩
  | finish =>
      obtain ⟨r, hr, -, rfl⟩ := bulkStep_finish h
      refine ⟨hCons, hProd, fun err hErr => ?_, hDrop, hAtEnd, hKeep (by simp),
        fun res hres => ⟨r, hr, ?_⟩⟩
      · cases r with
        | error st => exact hFail err hErr
        | ok u => cases hErr
      · cases hres
        cases r with
        | error st => simp [bulkResult]
        | ok u =>
            cases hErr : s.lastErr with
            | none => simp [bulkResult]
            | some err => simpa [bulkResult] using fun _ => read_length_lt hCons (hFail err hErr).2.2.2

theorem bulkInv_init : BulkInv convert items [] (BulkState.init items) := by
  constructor <;> simp [BulkState.init]

theorem BulkReaches.inv (h : BulkReaches convert items tr s) : BulkInv convert items tr s :=
  runEvents_induction (bulkStep convert) (BulkInv convert items) bulkInv_init
    (fun _ _ _ _ hInv hs => bulkInv_step hInv hs) h

theorem BulkInv.read_prefix (hInv : BulkInv convert items tr s) : s.read <+: items.map convert :=
  ⟨_, (List.append_assoc _ _ _).symm.trans hInv.conserved⟩

/-- Once the server has read the end of the stream it has read every item. -/
theorem BulkInv.read_eq (hInv : BulkInv convert items tr s) (hs : s.sawEnd = true) :
    s.read = items.map convert := by
  obtain ⟨-, hb, hu⟩ := hInv.atEnd hs
  simpa [hb, hu] using hInv.conserved

/-- Whatever the server does, it reads a prefix of the converted items, each
once and in order, and all of them once it has read the end of the stream.
`bulk_insert` returns `Ok(())` only on an `Ok` reply, and `ChannelClosed` only
when the server read a strict prefix. -/
theorem bulk_insert_result (h : BulkReaches convert items tr s) :
    s.read <+: items.map convert ∧ (s.sawEnd = true → s.read = items.map convert) ∧
    ∀ res, s.result = some res →
      (res = .ok () → s.reply = some (.ok ())) ∧
      (res = .error .channelClosed → s.read.length < items.length) := by
  have hInv := h.inv
  refine ⟨hInv.read_prefix, hInv.read_eq, fun res hres => ?_⟩
  obtain ⟨r, hr, hOk, hClosed⟩ := hInv.result res hres
  exact ⟨fun hres => hOk hres ▸ hr, hClosed⟩

/-- One item: the producer sends it and returns, and the server replies `Ok`
without reading it. -/
def unreadItem : List BulkEvent := [.send, .producerEnd, .reply (.ok ()), .finish]

def unreadItemEnd : BulkState Nat Nat := ⟨[], true, [0], false, [], false, some (.ok ()), none, some (.ok ())⟩

/-- `bulk_insert` returns `Ok(())` although the server read nothing. -/
theorem bulk_insert_ok_unread :
    BulkReaches id [0] unreadItem unreadItemEnd ∧ unreadItemEnd.result = some (.ok ()) ∧
      unreadItemEnd.read = [] := by
  decide

theorem bulk_insert_result_of_unreadItem :
    BulkReaches id [0] unreadItem unreadItemEnd ∧
    (unreadItemEnd.read <+: [0].map id ∧ (unreadItemEnd.sawEnd = true → unreadItemEnd.read = [0].map id) ∧
      ∀ res, unreadItemEnd.result = some res →
        (res = .ok () → unreadItemEnd.reply = some (.ok ())) ∧
        (res = .error .channelClosed → unreadItemEnd.read.length < [0].length)) :=
  have h : BulkReaches id [0] unreadItem unreadItemEnd := by decide
  ⟨h, bulk_insert_result h⟩

def BulkEvent.isReply : BulkEvent → Bool
  | .reply _ => true
  | _ => false

/-- The server does not reply before it has read the end of the stream. -/
def RepliesAtEnd (tr : List BulkEvent) : Prop :=
  ∀ e ∈ tr.takeWhile (· ≠ .recvEnd), e.isReply = false

instance (tr : List BulkEvent) : Decidable (RepliesAtEnd tr) :=
  inferInstanceAs (Decidable (∀ e ∈ _, _))

/-- Two items, both read before the end of the stream and an `Ok` reply. -/
def twoItemsRead : List BulkEvent :=
  [.send, .send, .producerEnd, .recv, .recv, .recvEnd, .reply (.ok ()), .dropRx, .finish]

def twoItemsReadEnd : BulkState Nat Nat :=
  ⟨[], true, [], true, [1, 2], true, some (.ok ()), none, some (.ok ())⟩

/-- The steps a state can still take: a send and a read for each unsent item,
a read for each buffered one, and each of the producer's return, the end of
the stream, the reply, the drop of `rx` and the foreground's return that is
still to come. -/
def BulkState.credit (s : BulkState Item Msg) : Nat :=
  2 * s.unsent.length + s.buffer.length + (!s.producerDone).toNat + (!s.sawEnd).toNat +
    (!s.reply.isSome).toNat + (!s.rxDropped).toNat + (!s.result.isSome).toNat

theorem bulkStep_credit (h : bulkStep convert s e = some s') : s'.credit < s.credit := by
  cases e with
  | send =>
      obtain ⟨_, _, hu, hpd, ⟨-, rfl⟩ | ⟨-, -, rfl⟩⟩ := bulkStep_send h
      · simp [BulkState.credit, hpd]
      · simp [BulkState.credit, hu, hpd]
        omega
  | producerEnd =>
      obtain ⟨-, hpd, rfl⟩ := bulkStep_producerEnd h
      simp [BulkState.credit, hpd]
  | recv =>
      obtain ⟨_, _, hb, -, rfl⟩ := bulkStep_recv h
      simp [BulkState.credit, hb]
  | recvEnd =>
      obtain ⟨-, -, -, hs, rfl⟩ := bulkStep_recvEnd h
      simp [BulkState.credit, hs]
  | reply r =>
      obtain ⟨hr, rfl⟩ := bulkStep_reply h
      simp [BulkState.credit, hr]
  | dropRx =>
      obtain ⟨-, hRx, rfl⟩ := bulkStep_dropRx h
      simp [BulkState.credit, hRx]
  | finish =>
      obtain ⟨_, -, hres, rfl⟩ := bulkStep_finish h
      simp [BulkState.credit, hres]

/-- Whatever the server does, a run of `bulk_insert` with `n` items has at most
`2 n + 5` steps. -/
theorem BulkReaches.length_le (h : BulkReaches convert items tr s) :
    tr.length + s.credit ≤ 2 * items.length + 5 := by
  refine runEvents_induction (bulkStep convert) (fun tr s => tr.length + s.credit ≤ 2 * items.length + 5)
    (by simp [BulkState.credit, BulkState.init]) (fun tr s e s' hLe hs => ?_) h
  have := bulkStep_credit hs
  simp only [List.length_append, List.length_singleton]
  omega

theorem RepliesAtEnd.append (h : RepliesAtEnd tr) (he : e.isReply = false) : RepliesAtEnd (tr ++ [e]) := by
  intro x hx
  rw [List.takeWhile_append] at hx
  split at hx
  next hLen =>
    rcases List.mem_append.mp hx with hx | hx
    · exact h x (((List.takeWhile_prefix _).eq_of_length hLen).symm ▸ hx)
    · rw [List.mem_singleton.mp ((List.takeWhile_prefix _).subset hx)]
      exact he
  next => exact h x hx

theorem RepliesAtEnd.append_of_mem (h : RepliesAtEnd tr) (hEnd : .recvEnd ∈ tr) (e : BulkEvent) :
    RepliesAtEnd (tr ++ [e]) := by
  intro x hx
  rw [List.takeWhile_append] at hx
  split at hx
  next hLen =>
    have hIn : .recvEnd ∈ tr.takeWhile (· ≠ .recvEnd) :=
      ((List.takeWhile_prefix _).eq_of_length hLen).symm ▸ hEnd
    simpa using List.all_eq_true.mp List.all_takeWhile _ hIn
  next => exact h x hx

/-- With a server that reads to the end of the stream, until `bulk_insert` has
returned some step is enabled, and the server still reads to the end. -/
theorem BulkReaches.exists_step (h : BulkReaches convert items tr s) (hServer : RepliesAtEnd tr)
    (hResult : s.result = none) : ∃ e s', bulkStep convert s e = some s' ∧ RepliesAtEnd (tr ++ [e]) := by
  have hInv := h.inv
  rcases s with ⟨unsent, producerDone, buffer, rxDropped, read, sawEnd, reply, lastErr, result⟩
  dsimp only at hResult
  subst hResult
  cases reply with
  | some r => exact ⟨.finish, _, rfl, hServer.append rfl⟩
  | none =>
      cases buffer with
      | cons msg buffer => exact ⟨.recv, _, rfl, hServer.append rfl⟩
      | nil =>
          cases producerDone with
          | false =>
              cases unsent with
              | nil => exact ⟨.producerEnd, _, rfl, hServer.append rfl⟩
              | cons item unsent =>
                  have hRx : rxDropped = false := by simpa using mt hInv.dropped (by simp)
                  subst hRx
                  exact ⟨.send, _, rfl, hServer.append rfl⟩
          | true =>
              cases sawEnd with
              | false => exact ⟨.recvEnd, _, rfl, hServer.append rfl⟩
              | true => exact ⟨.reply (.ok ()), _, rfl, hServer.append_of_mem (hInv.endSeen.mp rfl) _⟩

/-- With a server that reads to the end of the stream, every schedule of
`bulk_insert` returns: a run of it with `n` items has at most `2 n + 5` steps,
and until the call has returned some step is enabled. -/
theorem bulk_insert_terminates (h : BulkReaches convert items tr s) (hServer : RepliesAtEnd tr) :
    tr.length ≤ 2 * items.length + 5 ∧
      (s.result = none → ∃ e s', bulkStep convert s e = some s' ∧ RepliesAtEnd (tr ++ [e])) :=
  ⟨by have := h.length_le; omega, h.exists_step hServer⟩

theorem bulk_insert_terminates_of_twoItemsRead :
    (BulkReaches id [1, 2] twoItemsRead twoItemsReadEnd ∧ RepliesAtEnd twoItemsRead) ∧
    (twoItemsRead.length ≤ 2 * [1, 2].length + 5 ∧
      (twoItemsReadEnd.result = none → ∃ e s', bulkStep id twoItemsReadEnd e = some s' ∧
        RepliesAtEnd (twoItemsRead ++ [e]))) :=
  have h : BulkReaches id [1, 2] twoItemsRead twoItemsReadEnd := by decide
  have hServer : RepliesAtEnd twoItemsRead := by decide
  ⟨⟨h, hServer⟩, bulk_insert_terminates h hServer⟩

end IndraDB.Client
