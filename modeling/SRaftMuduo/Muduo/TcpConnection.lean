import SRaftMuduo.Muduo.Poller
import SRaftMuduo.Math.Words

namespace SRaftMuduo

inductive StateE
  | kDisconnected
  | kConnecting
  | kConnected
  | kDisconnecting
  deriving DecidableEq

/-- The values of `errno` after a failed `write` that the code tells apart. -/
inductive Errno
  | EWOULDBLOCK
  | EPIPE
  | ECONNRESET
  | other
  deriving DecidableEq

/-- What `write` returns. -/
inductive WriteResult
  | wrote (n : Nat)
  | failed (errno : Errno)
  deriving DecidableEq

/-- What `readFd` returns: some bytes, the end of the stream or an error. -/
inductive ReadResult
  | data
  | eof
  | error
  deriving DecidableEq

/-- What a connection does to its surroundings, and the values its `state_` takes. -/
inductive Effect
  | write (bytes : CString)
  | ShutdownWrite
  | setState (s : StateE)
  | connectionCallback (connected : Bool)
  | messageCallback
  | closeCallback
  | queueWriteComplete
  | queueHighWaterMark (len : Nat)
  deriving DecidableEq

/-- The callbacks of a connection that may be missing. -/
structure Callbacks where
  writeComplete : Bool
  highWaterMark : Bool
  highWaterMark_ : Nat

/-- `outputBuffer` holds the readable bytes of the buffer; `trace` the effects so far. -/
structure TcpConnection where
  callbacks : Callbacks
  state : StateE
  channel : Channel
  outputBuffer : CString
  trace : List Effect

namespace TcpConnection

def new (callbacks : Callbacks) : TcpConnection := ⟨callbacks,.kConnecting,.new,[],[]⟩

def connected (conn : TcpConnection) : Bool := conn.state = .kConnected

def emit (conn : TcpConnection) (e : Effect) : TcpConnection :=
  {conn with trace := conn.trace++[e]}

def setState (conn : TcpConnection) (s : StateE) : TcpConnection :=
  {conn.emit (.setState s) with state := s}

/-- The test and the assignment of `shutdown`. -/
def shutdown (conn : TcpConnection) : TcpConnection :=
  if conn.state = .kConnected then conn.setState .kDisconnecting else conn

/-- A change of the channel's events reaches the poller through `update`. -/
def setEvents (conn : TcpConnection) (channel : Channel) : TcpConnection :=
  {conn with channel := channel.update}

def queueWriteComplete (conn : TcpConnection) : TcpConnection :=
  if conn.callbacks.writeComplete then conn.emit .queueWriteComplete else conn

/-- The direct write of `sendInLoop`, with `nwrote` and `faultError`. -/
def writeDirect (conn : TcpConnection) (data : CString) (result : WriteResult) :
    TcpConnection × Nat × Bool :=
  if !conn.channel.IsWriting && conn.outputBuffer.length = 0 then
    match result with
    | .wrote nwrote =>
      let conn := conn.emit (.write (data.take nwrote))
      (if data.length-nwrote = 0 then conn.queueWriteComplete else conn,nwrote,false)
    | .failed errno => (conn,0,errno = .EPIPE || errno = .ECONNRESET)
  else (conn,0,false)

/-- The rest of the data goes to the output buffer. -/
def bufferOutput (conn : TcpConnection) (rest : CString) : TcpConnection :=
  let oldLen := conn.outputBuffer.length
  let mark := conn.callbacks.highWaterMark_
  let conn :=
    if oldLen+rest.length ≥ mark && oldLen < mark && conn.callbacks.highWaterMark then
      conn.emit (.queueHighWaterMark (oldLen+rest.length))
    else conn
  let conn := {conn with outputBuffer := conn.outputBuffer++rest}
  if conn.channel.IsWriting then conn else conn.setEvents conn.channel.EnableWrite

def sendInLoop (conn : TcpConnection) (data : CString) (result : WriteResult) : TcpConnection :=
  if conn.state = .kDisconnected then conn
  else
    let (conn,nwrote,faultError) := conn.writeDirect data result
    if !faultError && data.length-nwrote > 0 then conn.bufferOutput (data.drop nwrote) else conn

def shutdownInLoop (conn : TcpConnection) : TcpConnection :=
  if conn.channel.IsWriting then conn else conn.emit .ShutdownWrite

def connectEstablished (conn : TcpConnection) : TcpConnection :=
  let conn := conn.setState .kConnected
  let conn := conn.setEvents conn.channel.EnableRead
  conn.emit (.connectionCallback conn.connected)

/-- The condition of the first branch is an assignment, and its value is not zero. -/
def connectDestroyed (conn : TcpConnection) : TcpConnection :=
  let conn := conn.setState .kConnected
  let conn := conn.setState .kDisconnected
  let conn := conn.setEvents conn.channel.DisableAll
  let conn := conn.emit (.connectionCallback conn.connected)
  {conn with channel := conn.channel.remove}

def handleClose (conn : TcpConnection) : TcpConnection :=
  let conn := conn.setState .kDisconnected
  let conn := conn.setEvents conn.channel.DisableAll
  (conn.emit (.connectionCallback conn.connected)).emit .closeCallback

/-- An error of the read is only logged. -/
def handleRead (conn : TcpConnection) (result : ReadResult) : TcpConnection :=
  match result with
  | .data => conn.emit .messageCallback
  | .eof => conn.handleClose
  | .error => conn

/-- The output buffer has been written out. -/
def drained (conn : TcpConnection) : TcpConnection :=
  let conn := (conn.setEvents conn.channel.DisableWrite).queueWriteComplete
  if conn.state = .kDisconnecting then conn.shutdownInLoop else conn

def handleWrite (conn : TcpConnection) (result : WriteResult) : TcpConnection :=
  if conn.channel.IsWriting then
    match result with
    | .wrote n =>
      if n > 0 then
        let conn := conn.emit (.write (conn.outputBuffer.take n))
        let conn := {conn with outputBuffer := conn.outputBuffer.drop n}
        if conn.outputBuffer.length = 0 then conn.drained else conn
      else conn
    | .failed _ => conn
  else conn

/-- `HandleEventWithGuard` for the events `revents`. -/
def handleEvent (conn : TcpConnection) (revents : BitVec 32) (read : ReadResult)
    (write : WriteResult) : TcpConnection :=
  let conn :=
    if revents &&& EPOLLHUP ≠ 0 ∧ revents &&& EPOLLIN = 0 then conn.handleClose else conn
  let conn := if revents &&& (EPOLLIN ||| EPOLLPRI) ≠ 0 then conn.handleRead read else conn
  if revents &&& EPOLLOUT ≠ 0 then conn.handleWrite write else conn

variable {conn conn' conn'' : TcpConnection} {p p' : Effect → Bool}

/-- `conn'` comes from `conn` by effects of the kind `p`, and `state_` stays. -/
structure Emits (p : Effect → Bool) (conn conn' : TcpConnection) : Prop where
  state : conn'.state = conn.state
  trace : ∃ es, conn'.trace = conn.trace++es ∧ ∀ e ∈ es, p e = true

theorem Emits.refl (conn : TcpConnection) : Emits p conn conn :=
  ⟨rfl,[],(List.append_nil _).symm,fun _ h => nomatch h⟩

theorem Emits.trans (h : Emits p conn conn') (k : Emits p conn' conn'') : Emits p conn conn'' := by
  obtain ⟨es,ht,he⟩ := h.trace
  obtain ⟨es',ht',he'⟩ := k.trace
  refine ⟨k.state.trans h.state,es++es',?_,?_⟩
  · rw [ht',ht,List.append_assoc]
  · intro e hmem
    cases List.mem_append.mp hmem with
    | inl h1 => exact he e h1
    | inr h2 => exact he' e h2

theorem Emits.mono (h : Emits p conn conn') (hp : ∀ e, p e = true → p' e = true) :
    Emits p' conn conn' := by
  obtain ⟨es,ht,he⟩ := h.trace
  exact ⟨h.state,es,ht,fun e hm => hp e (he e hm)⟩

theorem Emits.emit (conn : TcpConnection) {e : Effect} (he : p e = true) :
    Emits p conn (conn.emit e) :=
  ⟨rfl,[e],rfl,fun _ h => List.mem_singleton.mp h ▸ he⟩

/-- Effects of another kind are as many as before. -/
theorem Emits.count (h : Emits p conn conn') {e : Effect} (he : p e = false) :
    conn'.trace.count e = conn.trace.count e := by
  obtain ⟨es,ht,hes⟩ := h.trace
  have hno : e ∉ es := by
    intro hmem
    rw [hes e hmem] at he
    cases he
  rw [ht,List.count_append,List.count_eq_zero_of_not_mem hno,Nat.add_zero]

end TcpConnection

/-- The effects of sending. -/
def Effect.output : Effect → Bool
  | .write _ | .queueWriteComplete | .queueHighWaterMark _ => true
  | _ => false

/-- An effect that is neither a value of `state_` nor a call about the connection itself. -/
def Effect.silent : Effect → Bool
  | .setState _ | .connectionCallback _ | .closeCallback => false
  | _ => true

theorem Effect.silent_of_output {e : Effect} (h : e.output = true) : e.silent = true := by
  cases e <;> first | rfl | cases h

namespace TcpConnection

variable {conn : TcpConnection} {data rest : CString} {result : WriteResult}

theorem queueWriteComplete_emits (conn : TcpConnection) :
    Emits Effect.output conn conn.queueWriteComplete := by
  unfold queueWriteComplete
  split_ifs
  · exact .emit conn rfl
  · exact .refl conn

theorem bufferOutput_emits (conn : TcpConnection) (rest : CString) :
    Emits Effect.output conn (conn.bufferOutput rest) := by
  unfold bufferOutput
  dsimp only
  split_ifs
  · exact ⟨rfl,_,rfl,fun _ h => List.mem_singleton.mp h ▸ rfl⟩
  · exact ⟨rfl,_,rfl,fun _ h => List.mem_singleton.mp h ▸ rfl⟩
  · exact ⟨rfl,(Emits.refl conn).trace⟩
  · exact ⟨rfl,(Emits.refl conn).trace⟩

theorem writeDirect_emits (conn : TcpConnection) (data : CString) (result : WriteResult) :
    Emits Effect.output conn (conn.writeDirect data result).1 := by
  unfold writeDirect
  split_ifs
  · cases result with
    | wrote n =>
      dsimp only
      have hw : Emits Effect.output conn (conn.emit (.write (data.take n))) := .emit conn rfl
      split_ifs
      · exact hw.trans (queueWriteComplete_emits _)
      · exact hw
    | failed errno => exact .refl conn
  · exact .refl conn

theorem sendInLoop_emits (conn : TcpConnection) (data : CString) (result : WriteResult) :
    Emits Effect.output conn (conn.sendInLoop data result) := by
  unfold sendInLoop
  split_ifs
  · exact .refl conn
  · dsimp only
    split_ifs
    · exact (writeDirect_emits conn data result).trans (bufferOutput_emits _ _)
    · exact writeDirect_emits conn data result

theorem handleClose_trace (conn : TcpConnection) : conn.handleClose.trace =
    conn.trace++[.setState .kDisconnected]++[.connectionCallback false,.closeCallback] := by
  show conn.trace++[_]++[_]++[_] = _
  rw [List.append_assoc,List.append_assoc,List.append_assoc]
  rfl

theorem shutdownInLoop_emits (conn : TcpConnection) :
    Emits Effect.silent conn conn.shutdownInLoop := by
  unfold shutdownInLoop
  split_ifs
  · exact .refl conn
  · exact .emit conn rfl

theorem drained_emits (conn : TcpConnection) : Emits Effect.silent conn conn.drained := by
  have hq : Emits Effect.output conn
      (conn.setEvents conn.channel.DisableWrite).queueWriteComplete := by
    have hw := queueWriteComplete_emits (conn.setEvents conn.channel.DisableWrite)
    exact ⟨hw.state,hw.trace⟩
  have hs := hq.mono fun _ => Effect.silent_of_output
  unfold drained
  dsimp only
  split_ifs
  · exact hs.trans (shutdownInLoop_emits _)
  · exact hs

theorem handleWrite_emits (conn : TcpConnection) (result : WriteResult) :
    Emits Effect.silent conn (conn.handleWrite result) := by
  unfold handleWrite
  split_ifs
  · cases result with
    | failed errno => exact .refl conn
    | wrote n =>
      dsimp only
      have hw : Emits Effect.silent conn (conn.emit (.write (conn.outputBuffer.take n))) :=
        .emit conn rfl
      split_ifs
      · have hd := drained_emits {conn.emit (.write (conn.outputBuffer.take n)) with
          outputBuffer := conn.outputBuffer.drop n}
        exact hw.trans ⟨hd.state,hd.trace⟩
      · exact ⟨hw.state,hw.trace⟩
      · exact .refl conn
  · exact .refl conn

end TcpConnection

end SRaftMuduo
