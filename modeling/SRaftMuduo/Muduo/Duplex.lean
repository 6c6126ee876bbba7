import SRaftMuduo.Muduo.OutputStream
import SRaftMuduo.Muduo.Buffer

namespace SRaftMuduo

namespace Buffer

open Slice

variable {b c : Buffer} {len : Nat} {data : CString}

theorem u64_le (n : Nat) : u64 n ≤ n := by
  unfold u64
  exact Nat.mod_le _ _

/-- No operation moves `writerIndex_` further than the bytes that come in. -/
theorem Bounded.makeSpace_writerIndex (h : b.Bounded) (hc : b.makeSpace len = some c) :
    c.writerIndex ≤ b.writerIndex := by
  unfold Buffer.makeSpace at hc
  split_ifs at hc
  · obtain rfl := Option.some.inj hc
    exact Nat.le_refl _
  · obtain ⟨mem,-,rfl⟩ := Option.map_eq_some_iff.mp hc
    have hle := u64_le (kCheapPrepend+b.readableBytes)
    have hrb := h.readableBytes_eq
    have hprep := h.prepend
    have hreader := h.reader
    show u64 (kCheapPrepend+b.readableBytes) ≤ b.writerIndex
    omega

theorem Bounded.append_writerIndex (h : b.Bounded) (hc : b.append data = some c) :
    c.writerIndex ≤ b.writerIndex+data.length := by
  obtain ⟨b1,hb1,hc⟩ := Option.bind_eq_some_iff.mp hc
  obtain ⟨mem,-,rfl⟩ := Option.map_eq_some_iff.mp hc
  have hle : b1.writerIndex ≤ b.writerIndex := by
    unfold Buffer.ensureWriteableBytes at hb1
    split_ifs at hb1
    · exact h.makeSpace_writerIndex hb1
    · obtain rfl := Option.some.inj hb1
      exact Nat.le_refl _
  have hwrap := u64_le (b1.writerIndex+data.length)
  show u64 (b1.writerIndex+data.length) ≤ b.writerIndex+data.length
  omega

theorem Bounded.retrieve_writerIndex (h : b.Bounded) (len : Nat) :
    (b.retrieve len).writerIndex ≤ b.writerIndex := by
  unfold Buffer.retrieve
  split_ifs
  · exact Nat.le_refl _
  · exact Nat.le_trans h.prepend h.reader

theorem Bounded.readFd_writerIndex (h : b.Bounded) (hc : b.readFd data = some c) :
    c.writerIndex ≤ b.writerIndex+data.length := by
  have hwb := h.writeableBytes_eq
  have hwriter := h.writer
  have hsize := h.size
  obtain ⟨mem,hmem,hc⟩ := Option.bind_eq_some_iff.mp hc
  have htake : (data.take b.writeableBytes).length = min b.writeableBytes data.length :=
    List.length_take
  have hroom : b.writerIndex+(data.take b.writeableBytes).length ≤ b.buffer.length := by omega
  rw [store_eq hroom] at hmem
  obtain rfl := Option.some.inj hmem
  have hlen := overwrite_length hroom
  split_ifs at hc with hle
  · obtain rfl := Option.some.inj hc
    exact u64_le _
  · have hfull : b.writerIndex+(data.take b.writeableBytes).length = b.buffer.length := by omega
    have hbound := (h.written hroom).1
    rw [hfull,← hlen] at hbound
    have hend := hbound.append_writerIndex hc
    have hdrop : (data.drop b.writeableBytes).length = data.length-b.writeableBytes :=
      List.length_drop
    simp only at hend
    omega

end Buffer

/-- What a read of the socket brings: some bytes, the end of the stream or an error. -/
inductive Arrival
  | data (bytes : CString)
  | eof
  | error
  deriving DecidableEq

/-- A connection with its two buffers. -/
structure BufferedConnection where
  callbacks : Callbacks
  state : StateE
  channel : Channel
  inputBuffer : Buffer
  outputBuffer : Buffer
  trace : List Effect

namespace BufferedConnection

def new (callbacks : Callbacks) : BufferedConnection :=
  ⟨callbacks,.kConnecting,.new,.new kInitialSize,.new kInitialSize,[]⟩

/-- The connection with its output buffer as the list of the bytes that wait. -/
def conn (c : BufferedConnection) : TcpConnection :=
  ⟨c.callbacks,c.state,c.channel,c.outputBuffer.readable,c.trace⟩

/-- An operation that does not touch the buffers. -/
def lift (f : TcpConnection → TcpConnection) (c : BufferedConnection) : BufferedConnection :=
  {c with state := (f c.conn).state, channel := (f c.conn).channel, trace := (f c.conn).trace}

/-- The direct write of `sendInLoop`, with `nwrote` and `faultError`. -/
def writeDirect (c : BufferedConnection) (data : CString) (result : WriteResult) :
    BufferedConnection × Nat × Bool :=
  if !c.channel.IsWriting && c.outputBuffer.readableBytes = 0 then
    match result with
    | .wrote nwrote =>
      let c := c.lift (·.emit (.write (data.take nwrote)))
      (if data.length-nwrote = 0 then c.lift .queueWriteComplete else c,nwrote,false)
    | .failed errno => (c,0,errno = .EPIPE || errno = .ECONNRESET)
  else (c,0,false)

/-- The rest of the data goes to `outputBuffer_`. -/
def bufferOutput (c : BufferedConnection) (rest : CString) : Option BufferedConnection :=
  let oldLen := c.outputBuffer.readableBytes
  let mark := c.callbacks.highWaterMark_
  let c :=
    if oldLen+rest.length ≥ mark && oldLen < mark && c.callbacks.highWaterMark then
      c.lift (·.emit (.queueHighWaterMark (oldLen+rest.length)))
    else c
  (c.outputBuffer.append rest).map fun buffer =>
    let c := {c with outputBuffer := buffer}
    if c.channel.IsWriting then c else c.lift fun conn => conn.setEvents conn.channel.EnableWrite

def sendInLoop (c : BufferedConnection) (data : CString) (result : WriteResult) :
    Option BufferedConnection :=
  if c.state = .kDisconnected then some c
  else
    let (c,nwrote,faultError) := c.writeDirect data result
    if !faultError && data.length-nwrote > 0 then c.bufferOutput (data.drop nwrote) else some c

/-- `writeFd` gives the kernel the bytes from `peek()` on. -/
def handleWrite (c : BufferedConnection) (result : WriteResult) : Option BufferedConnection :=
  if c.channel.IsWriting then
    match result with
    | .wrote n =>
      if n > 0 then
        let b := c.outputBuffer
        (Slice.load b.buffer b.readerIndex (b.readerIndex+n)).map fun bytes =>
          let c := c.lift (·.emit (.write bytes))
          let c := {c with outputBuffer := c.outputBuffer.retrieve n}
          if c.outputBuffer.readableBytes = 0 then c.lift .drained else c
      else some c
    | .failed _ => some c
  else some c

/-- `messageCallback_` gets the buffer and takes `len` bytes out of it. -/
def handleRead (c : BufferedConnection) (len : Nat) :
    Arrival → Option (CString × BufferedConnection)
  | .data bytes =>
    (c.inputBuffer.readFd bytes).bind fun buffer =>
      (buffer.retrieveAsString len).map fun r =>
        (r.1,{c.lift (·.emit .messageCallback) with inputBuffer := r.2})
  | .eof => some ([],c.lift .handleClose)
  | .error => some ([],c)

/-- The operation leaves the output buffer and the callbacks alone. -/
def Apart (f : TcpConnection → TcpConnection) : Prop :=
  ∀ conn, (f conn).outputBuffer = conn.outputBuffer ∧ (f conn).callbacks = conn.callbacks

theorem lift_conn {f : TcpConnection → TcpConnection} (hf : Apart f) (c : BufferedConnection) :
    (c.lift f).conn = f c.conn := by
  obtain ⟨hbuffer,hcallbacks⟩ := hf c.conn
  show (⟨c.conn.callbacks,(f c.conn).state,(f c.conn).channel,c.conn.outputBuffer,
    (f c.conn).trace⟩ : TcpConnection) = f c.conn
  rw [← hbuffer,← hcallbacks]

theorem emit_apart (e : Effect) : Apart (·.emit e) := fun _ => ⟨rfl,rfl⟩

theorem enableWrite_apart : Apart fun conn => conn.setEvents conn.channel.EnableWrite :=
  fun _ => ⟨rfl,rfl⟩

theorem connectEstablished_apart : Apart .connectEstablished := fun _ => ⟨rfl,rfl⟩

theorem handleClose_apart : Apart .handleClose := fun _ => ⟨rfl,rfl⟩

theorem connectDestroyed_apart : Apart .connectDestroyed := fun _ => ⟨rfl,rfl⟩

theorem queueWriteComplete_apart : Apart .queueWriteComplete := by
  intro conn
  unfold TcpConnection.queueWriteComplete
  split_ifs <;> exact ⟨rfl,rfl⟩

theorem shutdown_apart : Apart .shutdown := by
  intro conn
  unfold TcpConnection.shutdown
  split_ifs <;> exact ⟨rfl,rfl⟩

theorem shutdownInLoop_apart : Apart .shutdownInLoop := by
  intro conn
  unfold TcpConnection.shutdownInLoop
  split_ifs <;> exact ⟨rfl,rfl⟩

theorem drained_apart : Apart .drained := by
  intro conn
  have hqueue := queueWriteComplete_apart (conn.setEvents conn.channel.DisableWrite)
  have hshut := shutdownInLoop_apart (conn.setEvents conn.channel.DisableWrite).queueWriteComplete
  unfold TcpConnection.drained
  dsimp only
  split_ifs
  · exact ⟨hshut.1.trans hqueue.1,hshut.2.trans hqueue.2⟩
  · exact hqueue

/-- `c'` comes from `c` as `conn` comes from its view: the input buffer stays, and
`writerIndex_` of the other goes on by at most `len`. -/
structure Follows (c c' : BufferedConnection) (conn : TcpConnection) (len : Nat) : Prop where
  conn : c'.conn = conn
  input : c'.inputBuffer = c.inputBuffer
  bounded : c'.outputBuffer.Bounded
  writerIndex : c'.outputBuffer.writerIndex ≤ c.outputBuffer.writerIndex+len

theorem Follows.lift {f : TcpConnection → TcpConnection} (hf : Apart f) {c : BufferedConnection}
    (hb : c.outputBuffer.Bounded) : Follows c (c.lift f) (f c.conn) 0 :=
  ⟨lift_conn hf c,rfl,hb,Nat.le_refl _⟩

variable {c : BufferedConnection} {data rest : CString} {result : WriteResult}

theorem conn_length (hb : c.outputBuffer.Bounded) :
    c.conn.outputBuffer.length = c.outputBuffer.readableBytes := hb.readable_length

theorem writeDirect_follows (hb : c.outputBuffer.Bounded) (data : CString)
    (result : WriteResult) :
    (c.writeDirect data result).1.conn = (c.conn.writeDirect data result).1 ∧
    (c.writeDirect data result).2 = (c.conn.writeDirect data result).2 ∧
    (c.writeDirect data result).1.inputBuffer = c.inputBuffer ∧
    (c.writeDirect data result).1.outputBuffer = c.outputBuffer := by
  unfold writeDirect TcpConnection.writeDirect
  rw [conn_length hb,show c.conn.channel = c.channel from rfl]
  split_ifs with hdirect
  · cases result with
    | failed errno => exact ⟨rfl,rfl,rfl,rfl⟩
    | wrote n =>
      dsimp only
      have hemit := lift_conn (emit_apart (.write (data.take n))) c
      split_ifs
      · refine ⟨?_,rfl,rfl,rfl⟩
        rw [lift_conn queueWriteComplete_apart,hemit]
      · exact ⟨hemit,rfl,rfl,rfl⟩
  · exact ⟨rfl,rfl,rfl,rfl⟩

theorem bufferOutput_follows (hb : c.outputBuffer.Bounded)
    (hfit : c.outputBuffer.writerIndex+rest.length+kCheapPrepend < 2^64) :
    ∃ c', c.bufferOutput rest = some c' ∧ Follows c c' (c.conn.bufferOutput rest) rest.length := by
  unfold bufferOutput TcpConnection.bufferOutput
  rw [conn_length hb,show c.conn.callbacks = c.callbacks from rfl]
  extract_lets oldLen mark c1 conn1 conn2
  have h1 : Follows c c1 conn1 0 := by
    unfold c1 conn1
    split_ifs
    · exact .lift (emit_apart _) hb
    · exact ⟨rfl,rfl,hb,Nat.le_refl _⟩
  have hle := h1.writerIndex
  have hfit1 : c1.outputBuffer.writerIndex+rest.length+kCheapPrepend < 2^64 := by omega
  obtain ⟨b,hb',hbound,hread⟩ := h1.bounded.append hfit1
  have hmove := h1.bounded.append_writerIndex hb'
  rw [hb',Option.map_some]
  refine ⟨_,rfl,?_⟩
  have h2 : Follows c {c1 with outputBuffer := b} conn2 rest.length := by
    refine ⟨?_,h1.input,hbound,?_⟩
    · unfold conn2
      rw [← h1.conn,conn,hread]
      rfl
    · change b.writerIndex ≤ _
      omega
  have hchannel : conn2.channel = c1.channel := by rw [← h2.conn]; rfl
  rw [hchannel]
  change Follows c (if c1.channel.IsWriting = true then {c1 with outputBuffer := b}
    else lift (fun conn => conn.setEvents conn.channel.EnableWrite) {c1 with outputBuffer := b}) _ _
  split_ifs
  · exact h2
  · refine ⟨?_,h2.input,h2.bounded,h2.writerIndex⟩
    rw [lift_conn enableWrite_apart,h2.conn,hchannel]

theorem sendInLoop_follows (data : CString) (result : WriteResult) (hb : c.outputBuffer.Bounded)
    (hfit : c.outputBuffer.writerIndex+data.length+kCheapPrepend < 2^64) :
    ∃ c', c.sendInLoop data result = some c' ∧
      Follows c c' (c.conn.sendInLoop data result) data.length := by
  have hstay : Follows c c c.conn data.length := ⟨rfl,rfl,hb,Nat.le_add_right _ _⟩
  unfold sendInLoop TcpConnection.sendInLoop
  rw [show c.conn.state = c.state from rfl]
  split_ifs with hstate
  · exact ⟨c,rfl,hstay⟩
  · obtain ⟨hconn,hrest,hinput,houtput⟩ := writeDirect_follows hb data result
    have hdirect : c.conn.writeDirect data result
        = ((c.writeDirect data result).1.conn,(c.writeDirect data result).2) :=
      Prod.ext hconn.symm hrest.symm
    rw [hdirect]
    generalize c.writeDirect data result = r at hinput houtput ⊢
    obtain ⟨c1,nwrote,faultError⟩ := r
    dsimp only at hinput houtput ⊢
    split_ifs with hmore
    · have hlen : (data.drop nwrote).length = data.length-nwrote := List.length_drop
      have hbounded : c1.outputBuffer.Bounded := houtput ▸ hb
      have hroom : c1.outputBuffer.writerIndex+(data.drop nwrote).length+kCheapPrepend < 2^64 := by
        rw [houtput]
        omega
      obtain ⟨c2,hc2,hfollows⟩ := bufferOutput_follows hbounded hroom
      have hmove := hfollows.writerIndex
      rw [houtput] at hmove
      exact ⟨c2,hc2,hfollows.conn,hfollows.input.trans hinput,hfollows.bounded,by omega⟩
    · exact ⟨c1,rfl,rfl,hinput,houtput ▸ hb,by rw [houtput]; exact Nat.le_add_right _ _⟩

/-- The kernel has taken `n` of the bytes that `writeFd` gave it. -/
theorem written_follows (hb : c.outputBuffer.Bounded) {n : Nat}
    (hle : n ≤ c.outputBuffer.readableBytes) :
    ∃ bytes, Slice.load c.outputBuffer.buffer c.outputBuffer.readerIndex
        (c.outputBuffer.readerIndex+n) = some bytes ∧
      Follows c {c.lift (·.emit (.write bytes)) with outputBuffer := c.outputBuffer.retrieve n}
        (c.conn.written n) 0 ∧
      (c.conn.written n).outputBuffer.length = (c.outputBuffer.retrieve n).readableBytes := by
  obtain ⟨hbound,hread⟩ := hb.retrieve n
  obtain ⟨bytes,hload,heq⟩ := Option.map_eq_some_iff.mp (hb.retrieveAsString hle)
  obtain rfl : bytes = c.outputBuffer.readable.take n := congrArg Prod.fst heq
  refine ⟨_,hload,⟨?_,rfl,hbound,hb.retrieve_writerIndex n⟩,?_⟩
  · rw [conn,hread]
    rfl
  · rw [← hbound.readable_length,hread]
    rfl

theorem handleWrite_follows (hb : c.outputBuffer.Bounded)
    (hfits : result.fits c.outputBuffer.readableBytes = true) :
    ∃ c', c.handleWrite result = some c' ∧ Follows c c' (c.conn.handleWrite result) 0 := by
  have hstay : Follows c c c.conn 0 := ⟨rfl,rfl,hb,Nat.le_refl _⟩
  unfold handleWrite TcpConnection.handleWrite
  rw [show c.conn.channel = c.channel from rfl]
  split_ifs
  · cases result with
    | failed errno => exact ⟨c,rfl,hstay⟩
    | wrote n =>
      obtain ⟨bytes,hload,hwritten,hlen⟩ := written_follows hb (of_decide_eq_true hfits)
      by_cases hn : n > 0
      · simp only [if_pos hn,hload,Option.map_some]
        refine ⟨_,rfl,?_⟩
        change Follows c (if (c.outputBuffer.retrieve n).readableBytes = 0 then
            lift .drained {c.lift (·.emit (.write bytes)) with
              outputBuffer := c.outputBuffer.retrieve n}
          else {c.lift (·.emit (.write bytes)) with outputBuffer := c.outputBuffer.retrieve n})
          (if (c.conn.written n).outputBuffer.length = 0 then (c.conn.written n).drained
          else c.conn.written n) 0
        rw [hlen]
        split_ifs
        · refine ⟨?_,hwritten.input,hwritten.bounded,hwritten.writerIndex⟩
          rw [lift_conn drained_apart,hwritten.conn]
        · exact hwritten
      · simp only [if_neg hn]
        exact ⟨c,rfl,hstay⟩
  · exact ⟨c,rfl,hstay⟩

/-- A read puts its bytes behind those that wait, and the callback takes from the front. -/
theorem handleRead_data (hb : c.inputBuffer.Bounded) {bytes : CString} {len : Nat}
    (hfit : c.inputBuffer.writerIndex+bytes.length+kCheapPrepend < 2^64)
    (hlen : len ≤ (c.inputBuffer.readable++bytes).length) :
    ∃ b : Buffer, c.handleRead len (.data bytes) = some ((c.inputBuffer.readable++bytes).take len,
        {c.lift (·.emit .messageCallback) with inputBuffer := b}) ∧
      b.Bounded ∧ b.readable = (c.inputBuffer.readable++bytes).drop len ∧
      b.writerIndex ≤ c.inputBuffer.writerIndex+bytes.length := by
  obtain ⟨b,hread,hbound,hbytes⟩ := hb.readFd hfit
  have hmove := hb.readFd_writerIndex hread
  have hle : len ≤ b.readableBytes := by
    rw [← hbound.readable_length,hbytes]
    exact hlen
  obtain ⟨hbound',hrest⟩ := hbound.retrieve len
  have hmove' := hbound.retrieve_writerIndex len
  refine ⟨b.retrieve len,?_,hbound',?_,Nat.le_trans hmove' hmove⟩
  · rw [handleRead,hread,Option.bind_some,hbound.retrieveAsString hle,hbytes,Option.map_some]
  · rw [hrest,hbytes]

end BufferedConnection

/-- A connection with both its streams: what was passed to `sendInLoop`, what the socket
delivered, and what the message callback took. -/
structure Duplex where
  out : Outgoing
  inputBuffer : CString
  received : CString
  delivered : CString

/-- A call on the loop thread; a read comes with how many bytes the message callback takes. -/
inductive DuplexEvent
  | out (e : OutgoingEvent)
  | handleRead (arrival : Arrival) (len : Nat)

namespace Duplex

def new (callbacks : Callbacks) : Duplex := ⟨.new callbacks,[],[],[]⟩

def step (s : Duplex) : DuplexEvent → Option Duplex
  | .out e => (s.out.step e).map fun out => {s with out := out}
  | .handleRead (.data bytes) len =>
    if bytes ≠ [] ∧ len ≤ (s.inputBuffer++bytes).length then
      some {out := {s.out with conn := s.out.conn.emit .messageCallback}
            inputBuffer := (s.inputBuffer++bytes).drop len
            received := s.received++bytes
            delivered := s.delivered++(s.inputBuffer++bytes).take len}
    else none
  | .handleRead .eof _ => some {s with out := {s.out with conn := s.out.conn.handleClose}}
  | .handleRead .error _ => some s

def mild (s : Duplex) : DuplexEvent → Prop
  | .out e => s.out.mild e
  | .handleRead .. => True

instance (s : Duplex) : (e : DuplexEvent) → Decidable (mild s e)
  | .out e => inferInstanceAs (Decidable (s.out.mild e))
  | .handleRead .. => .isTrue trivial

def machine (callbacks : Callbacks) : Machine Duplex DuplexEvent :=
  ⟨fun s => s = .new callbacks,step⟩

variable {s t : Duplex} {e : DuplexEvent}

/-- What was received is what was taken and what waits. -/
theorem step_received (h : s.delivered++s.inputBuffer = s.received) (ht : s.step e = some t) :
    t.delivered++t.inputBuffer = t.received := by
  cases e with
  | out e =>
    obtain ⟨out,-,rfl⟩ := Option.map_eq_some_iff.mp ht
    exact h
  | handleRead arrival len =>
    cases arrival with
    | data bytes =>
      obtain ⟨-,ht⟩ := Option.ite_none_right_eq_some.mp ht
      obtain rfl := Option.some.inj ht
      dsimp only
      rw [List.append_assoc,List.take_append_drop,← List.append_assoc,h]
    | eof | error =>
      obtain rfl := Option.some.inj ht
      exact h

theorem exact_step (h : s.out.Exact) (hm : mild s e) (ht : s.step e = some t) : t.out.Exact := by
  cases e with
  | out e =>
    obtain ⟨out,hout,rfl⟩ := Option.map_eq_some_iff.mp ht
    exact h.step hm hout
  | handleRead arrival len =>
    cases arrival with
    | data bytes =>
      obtain ⟨-,ht⟩ := Option.ite_none_right_eq_some.mp ht
      obtain rfl := Option.some.inj ht
      intro hs
      obtain ⟨hi,q,hq,he⟩ := h hs
      exact ⟨hi,q,hq.emit rfl,he⟩
    | eof =>
      obtain rfl := Option.some.inj ht
      exact fun hs => absurd rfl hs
    | error =>
      obtain rfl := Option.some.inj ht
      exact h

end Duplex

/-- The connection with its real buffers, and the same records. -/
structure BufferedDuplex where
  conn : BufferedConnection
  passed : CString
  received : CString
  delivered : CString

namespace BufferedDuplex

def new (callbacks : Callbacks) : BufferedDuplex := ⟨.new callbacks,[],[],[]⟩

/-- A step that is not possible, or that leaves a vector, gives `none`. -/
def stepOut (s : BufferedDuplex) : OutgoingEvent → Option BufferedDuplex
  | .connectEstablished =>
    if s.conn.state = .kConnecting then
      some {s with conn := s.conn.lift .connectEstablished}
    else none
  | .sendInLoop data result =>
    if result.fits data.length then
      (s.conn.sendInLoop data result).map fun conn =>
        {s with conn := conn, passed := s.passed++data}
    else none
  | .handleWrite result =>
    if result.fits s.conn.outputBuffer.readableBytes then
      (s.conn.handleWrite result).map fun conn => {s with conn := conn}
    else none
  | .shutdown => some {s with conn := s.conn.lift .shutdown}
  | .shutdownInLoop => some {s with conn := s.conn.lift .shutdownInLoop}
  | .handleClose => some {s with conn := s.conn.lift .handleClose}
  | .connectDestroyed => some {s with conn := s.conn.lift .connectDestroyed}

def step (s : BufferedDuplex) : DuplexEvent → Option BufferedDuplex
  | .out e => s.stepOut e
  | .handleRead arrival len =>
    match arrival with
    | .data bytes =>
      if bytes ≠ [] ∧ len ≤ s.conn.inputBuffer.readableBytes+bytes.length then
        (s.conn.handleRead len arrival).map fun r =>
          {s with conn := r.2, received := s.received++bytes, delivered := s.delivered++r.1}
      else none
    | .eof | .error =>
      (s.conn.handleRead len arrival).map fun r => {s with conn := r.2}

/-- Fewer than `2^64-16` bytes go through in each direction. -/
def fits (s : BufferedDuplex) : DuplexEvent → Prop
  | .out (.sendInLoop data _) => s.passed.length+data.length+16 < 2^64
  | .handleRead (.data bytes) _ => s.received.length+bytes.length+16 < 2^64
  | _ => True

instance (s : BufferedDuplex) : (e : DuplexEvent) → Decidable (fits s e)
  | .out (.sendInLoop _ _) => inferInstanceAs (Decidable (_ < _))
  | .handleRead (.data _) _ => inferInstanceAs (Decidable (_ < _))
  | .out .connectEstablished | .out (.handleWrite _) | .out .shutdown | .out .shutdownInLoop
  | .out .handleClose | .out .connectDestroyed | .handleRead .eof _ | .handleRead .error _ =>
    .isTrue trivial

def machine (callbacks : Callbacks) : Machine BufferedDuplex DuplexEvent :=
  ⟨fun s => s = .new callbacks,step⟩

/-- The buffers as the lists of the bytes that wait in them. -/
def view (s : BufferedDuplex) : Duplex :=
  ⟨⟨s.conn.conn,s.passed⟩,s.conn.inputBuffer.readable,s.received,s.delivered⟩

/-- Both buffers have their indices in order, and `writerIndex_` no further than the bytes that
came. -/
structure Sound (s : BufferedDuplex) : Prop where
  input : s.conn.inputBuffer.Bounded
  output : s.conn.outputBuffer.Bounded
  received : s.conn.inputBuffer.writerIndex ≤ kCheapPrepend+s.received.length
  passed : s.conn.outputBuffer.writerIndex ≤ kCheapPrepend+s.passed.length

theorem Sound.new (callbacks : Callbacks) : Sound (new callbacks) where
  input := .new (by decide)
  output := .new (by decide)
  received := Nat.le_refl _
  passed := Nat.le_refl _

variable {s t : BufferedDuplex} {e : DuplexEvent}

/-- The step goes through on the buffers, and as it does on the lists. -/
def Agrees (s : BufferedDuplex) (e : DuplexEvent) : Prop :=
  (s.step e).map view = s.view.step e ∧ ∀ t, s.step e = some t → Sound t

/-- A step that is possible on neither. -/
theorem Agrees.of_none (hs : s.step e = none) (hv : s.view.step e = none) : Agrees s e := by
  refine ⟨by rw [hs,hv]; rfl,fun t ht => ?_⟩
  rw [hs] at ht
  cases ht

theorem Agrees.of_some (ht : s.step e = some t) (hv : s.view.step e = some t.view) (h : Sound t) :
    Agrees s e := by
  refine ⟨by rw [ht,hv]; rfl,fun t' ht' => ?_⟩
  obtain rfl := Option.some.inj (ht.symm.trans ht')
  exact h

/-- The buffers after a call that only sends. -/
theorem Sound.follows (h : Sound s) {c : BufferedConnection} {conn : TcpConnection} {len : Nat}
    {passed : CString} (hc : s.conn.Follows c conn len)
    (hlen : s.passed.length+len ≤ passed.length) :
    Sound {s with conn := c, passed := passed} where
  input := by
    change c.inputBuffer.Bounded
    rw [hc.input]
    exact h.input
  output := hc.bounded
  received := by
    change c.inputBuffer.writerIndex ≤ _
    rw [hc.input]
    exact h.received
  passed := by
    have hmove := hc.writerIndex
    have hpassed := h.passed
    change c.outputBuffer.writerIndex ≤ kCheapPrepend+passed.length
    omega

theorem view_follows {c : BufferedConnection} {conn : TcpConnection} {len : Nat}
    (passed : CString) (hc : s.conn.Follows c conn len) :
    view {s with conn := c, passed := passed} = {s.view with out := ⟨conn,passed⟩} := by
  change (⟨⟨c.conn,passed⟩,c.inputBuffer.readable,s.received,s.delivered⟩ : Duplex) = _
  rw [hc.conn,hc.input]
  rfl

/-- A call that leaves the buffers alone. -/
theorem Agrees.lift (h : Sound s) {f : TcpConnection → TcpConnection}
    (hf : BufferedConnection.Apart f) (hs : s.step e = some {s with conn := s.conn.lift f})
    (hv : s.view.step e = some {s.view with out := ⟨f s.conn.conn,s.passed⟩}) : Agrees s e := by
  have hfollows := BufferedConnection.Follows.lift hf h.output
  refine .of_some hs ?_ (h.follows hfollows (Nat.le_refl _))
  rw [hv,← view_follows _ hfollows]

theorem Sound.agrees_out (h : Sound s) {e : OutgoingEvent} (hf : s.fits (.out e)) :
    Agrees s (.out e) := by
  have hpassed := h.passed
  have hprep : kCheapPrepend = 8 := rfl
  cases e with
  | connectEstablished =>
    by_cases hstate : s.conn.state = .kConnecting
    · refine .lift h BufferedConnection.connectEstablished_apart (if_pos hstate) ?_
      rw [Duplex.step,Outgoing.step,if_pos (show s.view.out.conn.state = .kConnecting from hstate)]
      rfl
    · refine .of_none (if_neg hstate) ?_
      rw [Duplex.step,Outgoing.step,if_neg (show ¬s.view.out.conn.state = .kConnecting from hstate)]
      rfl
  | sendInLoop data result =>
    by_cases hresult : result.fits data.length = true
    · have hroom : s.passed.length+data.length+16 < 2^64 := hf
      have hfit : s.conn.outputBuffer.writerIndex+data.length+kCheapPrepend < 2^64 := by
        omega
      obtain ⟨c,hc,hfollows⟩ := BufferedConnection.sendInLoop_follows data result h.output hfit
      refine .of_some (t := {s with conn := c, passed := s.passed++data}) ?_ ?_
        (h.follows hfollows (by rw [List.length_append]))
      · rw [step,stepOut,if_pos hresult,hc]
        rfl
      · rw [view_follows _ hfollows,Duplex.step,Outgoing.step,if_pos hresult]
        rfl
    · refine .of_none (if_neg hresult) ?_
      rw [Duplex.step,Outgoing.step,if_neg hresult]
      rfl
  | handleWrite result =>
    have hlen : s.view.out.conn.outputBuffer.length = s.conn.outputBuffer.readableBytes :=
      BufferedConnection.conn_length h.output
    by_cases hresult : result.fits s.conn.outputBuffer.readableBytes = true
    · obtain ⟨c,hc,hfollows⟩ := BufferedConnection.handleWrite_follows h.output hresult
      refine .of_some (t := {s with conn := c}) ?_ ?_ (h.follows hfollows (Nat.le_refl _))
      · rw [step,stepOut,if_pos hresult,hc]
        rfl
      · rw [Duplex.step,Outgoing.step,hlen,if_pos hresult]
        exact congrArg Option.some (view_follows s.passed hfollows).symm
    · refine .of_none (if_neg hresult) ?_
      rw [Duplex.step,Outgoing.step,hlen,if_neg hresult]
      rfl
  | shutdown => exact .lift h BufferedConnection.shutdown_apart rfl rfl
  | shutdownInLoop => exact .lift h BufferedConnection.shutdownInLoop_apart rfl rfl
  | handleClose => exact .lift h BufferedConnection.handleClose_apart rfl rfl
  | connectDestroyed => exact .lift h BufferedConnection.connectDestroyed_apart rfl rfl

theorem Sound.agrees (h : Sound s) (hf : s.fits e) : Agrees s e := by
  cases e with
  | out e => exact h.agrees_out hf
  | handleRead arrival len =>
    cases arrival with
    | data bytes =>
      have hlength := h.input.readable_length
      have hreceived := h.received
      have hprep : kCheapPrepend = 8 := rfl
      by_cases hread : bytes ≠ [] ∧ len ≤ s.conn.inputBuffer.readableBytes+bytes.length
      · have hroom : s.received.length+bytes.length+16 < 2^64 := hf
        have hlen : len ≤ (s.conn.inputBuffer.readable++bytes).length := by
          rw [List.length_append,hlength]
          exact hread.2
        obtain ⟨b,hb,hbound,hrest,hmove⟩ := BufferedConnection.handleRead_data h.input
          (by omega) hlen
        let c := {s.conn.lift (·.emit .messageCallback) with inputBuffer := b}
        have hconn : c.conn = s.conn.conn.emit .messageCallback :=
          BufferedConnection.lift_conn (BufferedConnection.emit_apart _) s.conn
        refine .of_some (t := {s with conn := c, received := s.received++bytes, delivered :=
          s.delivered++(s.conn.inputBuffer.readable++bytes).take len}) ?_ ?_
          ⟨hbound,h.output,?_,h.passed⟩
        · rw [step,if_pos hread,hb]
          rfl
        · rw [Duplex.step,if_pos ⟨hread.1,hlen⟩]
          change _ = some (⟨⟨c.conn,s.passed⟩,b.readable,_,_⟩ : Duplex)
          rw [hconn,hrest]
          rfl
        · change b.writerIndex ≤ kCheapPrepend+(s.received++bytes).length
          rw [List.length_append]
          omega
      · refine .of_none (if_neg hread) (if_neg fun hread' => hread ⟨hread'.1,?_⟩)
        have hlen := hread'.2
        rw [List.length_append] at hlen
        rw [← hlength]
        exact hlen
    | eof => exact .lift h BufferedConnection.handleClose_apart rfl rfl
    | error => exact .of_some rfl rfl h

/-- A run with the buffers is a run with the lists. -/
theorem Sound.path {callbacks : Callbacks} {ok : BufferedDuplex → DuplexEvent → Prop}
    (mayOk : Duplex → DuplexEvent → Prop) (hok : ∀ s e, ok s e → s.fits e ∧ mayOk s.view e)
    (hp : (machine callbacks).Path ok (.new callbacks) s) :
    Sound s ∧ (Duplex.machine callbacks).Path mayOk (.new callbacks) s.view := by
  have hstart : view (.new callbacks) = Duplex.new callbacks := by
    have hempty : (Buffer.new kInitialSize).readable = [] := Slice.slice_empty (Nat.le_refl _)
    simp only [view,BufferedDuplex.new,BufferedConnection.new,BufferedConnection.conn,hempty]
    rfl
  have hsim : ∃ a, (Duplex.machine callbacks).Path mayOk (.new callbacks) a ∧
      Sound s ∧ a = s.view := by
    refine hp.simulates (R := fun s a => Sound s ∧ a = s.view) ?_ ⟨.new callbacks,hstart.symm⟩
    rintro s _ e t ⟨hs,rfl⟩ hk ht
    obtain ⟨hfits,hmay⟩ := hok _ _ hk
    obtain ⟨heq,hsound⟩ := hs.agrees hfits
    have hv : s.view.step e = some t.view := by
      rw [← heq,show s.step e = some t from ht]
      rfl
    exact ⟨t.view,(Machine.Path.refl _).tail hmay hv,hsound t ht,rfl⟩
  obtain ⟨a,ha,hs,rfl⟩ := hsim
  exact ⟨hs,ha⟩

def mild (s : BufferedDuplex) (e : DuplexEvent) : Prop := s.fits e ∧ s.view.mild e

instance (s : BufferedDuplex) (e : DuplexEvent) : Decidable (mild s e) :=
  inferInstanceAs (Decidable (_ ∧ _))

end BufferedDuplex

/-- A connection works on its two buffers exactly as on the lists of the bytes in them, in every
run that puts fewer than `2^64-16` bytes through either: whatever happens next, no copy leaves
a vector, and what is possible and what comes out of it are the same. -/
theorem buffers_refine_lists {callbacks : Callbacks} {s : BufferedDuplex}
    (hp : (BufferedDuplex.machine callbacks).Path BufferedDuplex.fits (.new callbacks) s)
    {e : DuplexEvent} (he : s.fits e) :
    (s.step e).map BufferedDuplex.view = s.view.step e := by
  have hs := (BufferedDuplex.Sound.path Machine.always
    (fun _ _ h => ⟨h,trivial⟩) hp).1
  exact (hs.agrees he).1

theorem buffers_refine_lists_wrap : ∃ s : BufferedDuplex,
    s.conn.inputBuffer.readable = ['c'] ∧
    (s.step (.handleRead (.data ['d']) 2)).map BufferedDuplex.view =
      s.view.step (.handleRead (.data ['d']) 2) := by
  obtain ⟨s,hp,ht⟩ := Machine.exec_any (BufferedDuplex.machine ⟨true,false,0⟩)
    BufferedDuplex.fits (.new ⟨true,false,0⟩)
    [.out .connectEstablished,.handleRead (.data ['a','b','c']) 2,
      .out (.sendInLoop ['x','y'] (.wrote 1)),.out (.handleWrite (.wrote 1))]
    (fun s => s.conn.inputBuffer.readable = ['c'] ∧ s.fits (.handleRead (.data ['d']) 2))
    (by decide +kernel)
  obtain ⟨hread,hfits⟩ := of_decide_eq_true ht
  exact ⟨s,hread,buffers_refine_lists hp hfits⟩

/-- Both streams of a connection are exact: what the message callback took is a beginning of what
the socket delivered and the input buffer holds the rest; and while the connection is up, the
socket got a beginning of what was passed to `sendInLoop` and the output buffer holds the
rest. -/
theorem both_streams_exact {callbacks : Callbacks} {s : BufferedDuplex}
    (hp : (BufferedDuplex.machine callbacks).Path BufferedDuplex.mild (.new callbacks) s) :
    s.delivered++s.conn.inputBuffer.readable = s.received ∧
    (s.conn.state ≠ .kDisconnected →
      s.conn.conn.sent++s.conn.outputBuffer.readable = s.passed ∧
      (s.conn.channel.IsWriting = true ↔ s.conn.outputBuffer.readableBytes ≠ 0)) := by
  obtain ⟨hs,hv⟩ := BufferedDuplex.Sound.path Duplex.mild (fun _ _ h => h) hp
  have hinv : s.view.delivered++s.view.inputBuffer = s.view.received ∧ s.view.out.Exact :=
    hv.invariant (I := fun a => a.delivered++a.inputBuffer = a.received ∧ a.out.Exact)
      (fun _ _ _ h hm ht => ⟨Duplex.step_received h.1 ht,Duplex.exact_step h.2 hm ht⟩)
      ⟨rfl,fun _ => ⟨.new callbacks,_,.new callbacks,rfl⟩⟩
  refine ⟨hinv.1,fun hup => ?_⟩
  obtain ⟨hi,q,hq,he⟩ := hinv.2 hup
  constructor
  · have hbalanced := q.balanced
    rw [← hq.left,← hq.waiting,he] at hbalanced
    exact hbalanced
  · rw [← BufferedConnection.conn_length hs.output]
    exact hi.trans (by rw [Ne,Ne,List.length_eq_zero_iff]; rfl)

theorem both_streams_exact_echo : ∃ s : BufferedDuplex, s.conn.state = .kConnected ∧
    s.delivered = ['a','b'] ∧ s.conn.conn.sent = ['a'] ∧
    s.delivered++s.conn.inputBuffer.readable = ['a','b','c'] ∧
    s.conn.conn.sent++s.conn.outputBuffer.readable = ['a','b'] := by
  obtain ⟨s,hp,ht⟩ := Machine.exec_any (BufferedDuplex.machine ⟨true,false,0⟩)
    BufferedDuplex.mild (.new ⟨true,false,0⟩)
    [.out .connectEstablished,.handleRead (.data ['a','b','c']) 2,
      .out (.sendInLoop ['a','b'] (.wrote 1))]
    (fun s => s.conn.state = .kConnected ∧ s.delivered = ['a','b'] ∧ s.conn.conn.sent = ['a'] ∧
      s.received = ['a','b','c'] ∧ s.passed = ['a','b']) (by decide +kernel)
  obtain ⟨hstate,hdelivered,hsent,hreceived,hpassed⟩ := of_decide_eq_true ht
  have h := both_streams_exact hp
  rw [hreceived,hpassed] at h
  exact ⟨s,hstate,hdelivered,hsent,h.1,(h.2 (by rw [hstate]; decide)).1⟩

end SRaftMuduo
