import SRaftMuduo.Muduo.TcpConnection
import SRaftMuduo.Framework.Fifo

namespace SRaftMuduo

/-- The bytes an effect hands to the socket. -/
def Effect.bytes : Effect → CString
  | .write bytes => bytes
  | _ => []

/-- The kernel takes at most the bytes it is given. -/
def WriteResult.fits (len : Nat) : WriteResult → Bool
  | .wrote n => n ≤ len
  | .failed _ => true

/-- No error that makes `sendInLoop` give up its data. -/
def WriteResult.mild : WriteResult → Bool
  | .failed errno => errno ≠ .EPIPE ∧ errno ≠ .ECONNRESET
  | .wrote _ => true

namespace TcpConnection

/-- The bytes handed to the socket so far. -/
def sent (conn : TcpConnection) : CString := conn.trace.flatMap Effect.bytes

variable {conn : TcpConnection} {data rest : CString} {result : WriteResult} {q : Fifo Char}

theorem emit_sent (conn : TcpConnection) (e : Effect) :
    (conn.emit e).sent = conn.sent++e.bytes := by
  simp [sent,emit]

/-- The output buffer holds what waits in the queue `q`. -/
structure Streams (conn : TcpConnection) (q : Fifo Char) : Prop where
  left : conn.sent = q.left
  waiting : conn.outputBuffer = q.waiting

/-- The channel waits for the socket as long as there are bytes for it. -/
def Interest (conn : TcpConnection) : Prop :=
  conn.channel.IsWriting = true ↔ conn.outputBuffer ≠ []

theorem Streams.new (callbacks : Callbacks) : Streams (new callbacks) (.empty Char) := ⟨rfl,rfl⟩

theorem Interest.new (callbacks : Callbacks) : Interest (new callbacks) := by
  simp [Interest,TcpConnection.new,Channel.new,Channel.IsWriting,kNoneEvent]

theorem Streams.emit (h : Streams conn q) {e : Effect} (he : e.bytes = []) :
    Streams (conn.emit e) q :=
  ⟨by rw [emit_sent,he,List.append_nil,h.left],h.waiting⟩

theorem Streams.setState (h : Streams conn q) (s : StateE) : Streams (conn.setState s) q := by
  have he := h.emit (e := .setState s) rfl
  exact ⟨he.left,he.waiting⟩

theorem Streams.setEvents (h : Streams conn q) (channel : Channel) :
    Streams (conn.setEvents channel) q := ⟨h.left,h.waiting⟩

theorem Interest.setEvents (h : Interest conn) {channel : Channel}
    (hw : channel.IsWriting = conn.channel.IsWriting) : Interest (conn.setEvents channel) := by
  show channel.update.IsWriting = true ↔ conn.outputBuffer ≠ []
  rw [Channel.update_IsWriting,hw]
  exact h

theorem Streams.shutdown (h : Streams conn q) : Streams conn.shutdown q := by
  unfold TcpConnection.shutdown
  split_ifs
  · exact h.setState _
  · exact h

/-- A connection that is up after `shutdown` was up before. -/
theorem up_of_shutdown (h : conn.shutdown.state ≠ .kDisconnected) :
    conn.state ≠ .kDisconnected := by
  intro hd
  apply h
  rw [TcpConnection.shutdown,hd]
  exact hd

theorem Interest.shutdown (h : Interest conn) : Interest conn.shutdown := by
  unfold TcpConnection.shutdown
  split_ifs <;> exact h

theorem Streams.shutdownInLoop (h : Streams conn q) : Streams conn.shutdownInLoop q := by
  unfold TcpConnection.shutdownInLoop
  split_ifs
  · exact h
  · exact h.emit rfl

theorem Interest.shutdownInLoop (h : Interest conn) : Interest conn.shutdownInLoop := by
  unfold TcpConnection.shutdownInLoop
  split_ifs <;> exact h

theorem Streams.queueWriteComplete (h : Streams conn q) :
    Streams conn.queueWriteComplete q := by
  unfold TcpConnection.queueWriteComplete
  split_ifs
  · exact h.emit rfl
  · exact h

theorem Interest.queueWriteComplete (h : Interest conn) : Interest conn.queueWriteComplete := by
  unfold TcpConnection.queueWriteComplete
  split_ifs <;> exact h

theorem Streams.connectEstablished (h : Streams conn q) : Streams conn.connectEstablished q :=
  ((h.setState .kConnected).setEvents _).emit rfl

theorem Interest.connectEstablished (h : Interest conn) : Interest conn.connectEstablished := by
  have hs : Interest (conn.setState .kConnected) := h
  exact hs.setEvents (Channel.EnableRead_IsWriting _)

theorem Streams.handleClose (h : Streams conn q) : Streams conn.handleClose q :=
  (((h.setState .kDisconnected).setEvents _).emit rfl).emit rfl

/-- The rest of the data joins the waiting bytes. -/
theorem Streams.bufferOutput (h : Streams conn q) (rest : CString) :
    Streams (conn.bufferOutput rest) (q.push rest) := by
  unfold TcpConnection.bufferOutput
  extract_lets oldLen mark conn1 conn2
  have h1 : Streams conn1 q := by
    unfold conn1
    split_ifs
    · exact h.emit rfl
    · exact h
  have h2 : Streams conn2 (q.push rest) := by
    refine ⟨h1.left,?_⟩
    show conn1.outputBuffer++rest = q.waiting++rest
    rw [h1.waiting]
  split_ifs
  · exact h2
  · exact h2.setEvents _

/-- The socket is waited for from then on. -/
theorem Interest.bufferOutput (hne : rest ≠ []) : Interest (conn.bufferOutput rest) := by
  unfold TcpConnection.bufferOutput
  extract_lets oldLen mark conn1 conn2
  have hbuf : conn2.outputBuffer ≠ [] := fun he => hne (List.append_eq_nil_iff.mp he).2
  split_ifs with hw
  · exact ⟨fun _ => hbuf,fun _ => hw⟩
  · refine ⟨fun _ => hbuf,fun _ => ?_⟩
    show conn2.channel.EnableWrite.update.IsWriting = true
    rw [Channel.update_IsWriting,Channel.EnableWrite_IsWriting]

theorem Streams.writeDirect (h : Streams conn q) (data : CString) (hm : result.mild = true) :
    ∃ q', Streams (conn.writeDirect data result).1 q' ∧
      q'.entered = q.entered++data.take (conn.writeDirect data result).2.1 ∧
      (conn.writeDirect data result).2.2 = false := by
  have hzero : q.entered = q.entered++data.take 0 := (List.append_nil _).symm
  unfold TcpConnection.writeDirect
  split_ifs with hd
  · have hbuf : conn.outputBuffer = [] := by
      have hd' := (Bool.and_eq_true_iff.mp hd).2
      simpa using hd'
    have hq : q.waiting = [] := h.waiting ▸ hbuf
    cases result with
    | wrote n =>
      refine ⟨(q.push (data.take n)).pop n,?_,rfl,rfl⟩
      have hwrite : Streams (conn.emit (.write (data.take n))) ((q.push (data.take n)).pop n) := by
        constructor
        · show (conn.emit _).sent = q.left++(q.waiting++data.take n).take n
          rw [emit_sent,h.left,hq,List.nil_append,List.take_take,Nat.min_self]
          rfl
        · show conn.outputBuffer = (q.waiting++data.take n).drop n
          rw [hbuf,hq,List.nil_append,List.drop_take,Nat.sub_self,List.take_zero]
      dsimp only
      split_ifs
      · exact hwrite.queueWriteComplete
      · exact hwrite
    | failed errno =>
      refine ⟨q,h,hzero,?_⟩
      cases errno <;> simp [WriteResult.mild] at hm ⊢
  · exact ⟨q,h,hzero,rfl⟩

theorem Interest.writeDirect (h : Interest conn) (data : CString) (result : WriteResult) :
    Interest (conn.writeDirect data result).1 := by
  unfold TcpConnection.writeDirect
  split_ifs
  · cases result with
    | wrote n =>
      dsimp only
      have hw : Interest (conn.emit (.write (data.take n))) := h
      split_ifs
      · exact hw.queueWriteComplete
      · exact hw
    | failed errno => exact h
  · exact h

theorem Streams.sendInLoop (h : Streams conn q) (data : CString) (hs : conn.state ≠ .kDisconnected)
    (hm : result.mild = true) :
    ∃ q', Streams (conn.sendInLoop data result) q' ∧ q'.entered = q.entered++data := by
  obtain ⟨q1,h1,hq1,hfault⟩ := h.writeDirect data hm
  unfold TcpConnection.sendInLoop
  rw [if_neg hs]
  generalize conn.writeDirect data result = r at h1 hq1 hfault ⊢
  obtain ⟨conn1,nwrote,faultError⟩ := r
  obtain rfl : faultError = false := hfault
  dsimp only at h1 hq1 ⊢
  split_ifs with hrest
  · refine ⟨q1.push (data.drop nwrote),h1.bufferOutput _,?_⟩
    show q1.entered++data.drop nwrote = q.entered++data
    rw [hq1,List.append_assoc,List.take_append_drop]
  · have hall : data.take nwrote = data := by
      apply List.take_of_length_le
      simp at hrest
      omega
    exact ⟨q1,h1,by rw [hq1,hall]⟩

theorem Interest.sendInLoop (h : Interest conn) : Interest (conn.sendInLoop data result) := by
  have h1 := h.writeDirect data result
  unfold TcpConnection.sendInLoop
  dsimp only
  split_ifs with hs hrest
  · exact h
  · apply Interest.bufferOutput
    intro he
    have hlen := congrArg List.length he
    rw [List.length_drop,List.length_nil] at hlen
    simp [hlen] at hrest
  · exact h1

theorem Streams.drained (h : Streams conn q) : Streams conn.drained q := by
  have hq := (h.setEvents conn.channel.DisableWrite).queueWriteComplete
  unfold TcpConnection.drained
  dsimp only
  split_ifs
  · exact hq.shutdownInLoop
  · exact hq

theorem Interest.drained (he : conn.outputBuffer = []) : Interest conn.drained := by
  have hevents : Interest (conn.setEvents conn.channel.DisableWrite) := by
    show conn.channel.DisableWrite.update.IsWriting = true ↔ conn.outputBuffer ≠ []
    rw [Channel.update_IsWriting,Channel.DisableWrite_IsWriting,he]
    simp
  unfold TcpConnection.drained
  dsimp only
  split_ifs
  · exact hevents.queueWriteComplete.shutdownInLoop
  · exact hevents.queueWriteComplete

/-- The first `n` bytes of the output buffer have been written. -/
def written (conn : TcpConnection) (n : Nat) : TcpConnection :=
  {conn.emit (.write (conn.outputBuffer.take n)) with outputBuffer := conn.outputBuffer.drop n}

theorem Streams.written (h : Streams conn q) (n : Nat) :
    Streams (conn.written n) (q.pop n) := by
  constructor
  · show (conn.emit _).sent = q.left++q.waiting.take n
    rw [emit_sent,h.left,← h.waiting]
    rfl
  · show conn.outputBuffer.drop n = q.waiting.drop n
    rw [h.waiting]

theorem Streams.handleWrite (h : Streams conn q) (result : WriteResult) :
    ∃ q', Streams (conn.handleWrite result) q' ∧ q'.entered = q.entered := by
  unfold TcpConnection.handleWrite
  split_ifs
  · cases result with
    | failed errno => exact ⟨q,h,rfl⟩
    | wrote n =>
      dsimp only
      split_ifs
      · exact ⟨q.pop n,(h.written n).drained,rfl⟩
      · exact ⟨q.pop n,h.written n,rfl⟩
      · exact ⟨q,h,rfl⟩
  · exact ⟨q,h,rfl⟩

theorem Interest.handleWrite (h : Interest conn) : Interest (conn.handleWrite result) := by
  unfold TcpConnection.handleWrite
  split_ifs with hw
  · cases result with
    | failed errno => exact h
    | wrote n =>
      dsimp only
      split_ifs with hn he
      · exact Interest.drained (List.length_eq_zero_iff.mp he)
      · have hne : conn.outputBuffer.drop n ≠ [] := fun h0 => he (by
          show (conn.outputBuffer.drop n).length = 0
          rw [h0]
          rfl)
        exact ⟨fun _ => hne,fun _ => hw⟩
      · exact h
  · exact h

end TcpConnection

/-- A connection with all the data that was passed to `sendInLoop`. -/
structure Outgoing where
  conn : TcpConnection
  passed : CString

/-- A call on the loop thread, with what the kernel answers. -/
inductive OutgoingEvent
  | connectEstablished
  | sendInLoop (data : CString) (result : WriteResult)
  | handleWrite (result : WriteResult)
  | shutdown
  | shutdownInLoop
  | handleClose
  | connectDestroyed

namespace Outgoing

def new (callbacks : Callbacks) : Outgoing := ⟨.new callbacks,[]⟩

def step (s : Outgoing) : OutgoingEvent → Option Outgoing
  | .connectEstablished =>
    if s.conn.state = .kConnecting then some {s with conn := s.conn.connectEstablished} else none
  | .sendInLoop data result =>
    if result.fits data.length then some ⟨s.conn.sendInLoop data result,s.passed++data⟩ else none
  | .handleWrite result =>
    if result.fits s.conn.outputBuffer.length then
      some {s with conn := s.conn.handleWrite result}
    else none
  | .shutdown => some {s with conn := s.conn.shutdown}
  | .shutdownInLoop => some {s with conn := s.conn.shutdownInLoop}
  | .handleClose => some {s with conn := s.conn.handleClose}
  | .connectDestroyed => some {s with conn := s.conn.connectDestroyed}

/-- No write fails with `EPIPE` or `ECONNRESET`. -/
def mild (_ : Outgoing) : OutgoingEvent → Prop
  | .sendInLoop _ result | .handleWrite result => result.mild = true
  | _ => True

instance (s : Outgoing) : (e : OutgoingEvent) → Decidable (mild s e)
  | .sendInLoop _ _ | .handleWrite _ => inferInstanceAs (Decidable (_ = _))
  | .connectEstablished | .shutdown | .shutdownInLoop | .handleClose | .connectDestroyed =>
    .isTrue trivial

def machine (callbacks : Callbacks) : Machine Outgoing OutgoingEvent :=
  ⟨fun s => s = .new callbacks,step⟩

/-- The data passed in has gone out or waits, unless the connection is down. -/
def Exact (s : Outgoing) : Prop :=
  s.conn.state ≠ .kDisconnected →
    s.conn.Interest ∧ ∃ q, s.conn.Streams q ∧ q.entered = s.passed

variable {s t : Outgoing} {e : OutgoingEvent} {callbacks : Callbacks}

/-- While the connection is up, its channel waits for the socket exactly for a backlog. -/
def Waiting (s : Outgoing) : Prop := s.conn.state ≠ .kDisconnected → s.conn.Interest

theorem Waiting.step (h : Waiting s) (ht : s.step e = some t) : Waiting t := by
  intro hs
  cases e with
  | connectEstablished =>
    obtain ⟨hc,ht⟩ := Option.ite_none_right_eq_some.mp ht
    obtain rfl := Option.some.inj ht
    exact (h (by rw [hc]; decide)).connectEstablished
  | sendInLoop data result =>
    obtain ⟨-,ht⟩ := Option.ite_none_right_eq_some.mp ht
    obtain rfl := Option.some.inj ht
    exact (h ((TcpConnection.sendInLoop_emits ..).state ▸ hs)).sendInLoop
  | handleWrite result =>
    obtain ⟨-,ht⟩ := Option.ite_none_right_eq_some.mp ht
    obtain rfl := Option.some.inj ht
    exact (h ((TcpConnection.handleWrite_emits ..).state ▸ hs)).handleWrite
  | shutdown =>
    obtain rfl := Option.some.inj ht
    exact (h (TcpConnection.up_of_shutdown hs)).shutdown
  | shutdownInLoop =>
    obtain rfl := Option.some.inj ht
    exact (h ((TcpConnection.shutdownInLoop_emits _).state ▸ hs)).shutdownInLoop
  | handleClose =>
    obtain rfl := Option.some.inj ht
    exact absurd rfl hs
  | connectDestroyed =>
    obtain rfl := Option.some.inj ht
    exact absurd rfl hs

theorem Waiting.path (hp : (machine callbacks).Path Machine.always (.new callbacks) s) :
    Waiting s :=
  hp.invariant (fun _ _ _ h _ ht => h.step ht) fun _ => .new callbacks

theorem Exact.step (h : Exact s) (hm : mild s e) (ht : s.step e = some t) : Exact t := by
  intro hs
  have hwaiting : Waiting s := fun hs => (h hs).1
  refine ⟨hwaiting.step ht hs,?_⟩
  cases e with
  | connectEstablished =>
    obtain ⟨hc,ht⟩ := Option.ite_none_right_eq_some.mp ht
    obtain rfl := Option.some.inj ht
    obtain ⟨-,q,hq,hp⟩ := h (by rw [hc]; decide)
    exact ⟨q,hq.connectEstablished,hp⟩
  | sendInLoop data result =>
    obtain ⟨-,ht⟩ := Option.ite_none_right_eq_some.mp ht
    obtain rfl := Option.some.inj ht
    have hs' : s.conn.state ≠ .kDisconnected := (TcpConnection.sendInLoop_emits ..).state ▸ hs
    obtain ⟨-,q,hq,hp⟩ := h hs'
    obtain ⟨q',hq',hp'⟩ := hq.sendInLoop data hs' hm
    exact ⟨q',hq',by rw [hp',hp]⟩
  | handleWrite result =>
    obtain ⟨-,ht⟩ := Option.ite_none_right_eq_some.mp ht
    obtain rfl := Option.some.inj ht
    obtain ⟨-,q,hq,hp⟩ := h ((TcpConnection.handleWrite_emits ..).state ▸ hs)
    obtain ⟨q',hq',hp'⟩ := hq.handleWrite result
    exact ⟨q',hq',hp'.trans hp⟩
  | shutdown =>
    obtain rfl := Option.some.inj ht
    obtain ⟨-,q,hq,hp⟩ := h (TcpConnection.up_of_shutdown hs)
    exact ⟨q,hq.shutdown,hp⟩
  | shutdownInLoop =>
    obtain rfl := Option.some.inj ht
    obtain ⟨-,q,hq,hp⟩ := h ((TcpConnection.shutdownInLoop_emits _).state ▸ hs)
    exact ⟨q,hq.shutdownInLoop,hp⟩
  | handleClose =>
    obtain rfl := Option.some.inj ht
    exact absurd rfl hs
  | connectDestroyed =>
    obtain rfl := Option.some.inj ht
    exact absurd rfl hs

theorem Exact.path (hp : (machine callbacks).Path mild (.new callbacks) s) :
    Exact s :=
  hp.invariant (fun _ _ _ h hm ht => h.step hm ht)
    fun _ => ⟨.new callbacks,_,.new callbacks,rfl⟩

end Outgoing

/-- Until the connection is down, the bytes handed to the socket and then those in the
output buffer are all the data passed to `sendInLoop`, and the channel waits for the socket
exactly while the buffer holds bytes. -/
theorem outgoing_stream_exact {callbacks : Callbacks} {s : Outgoing}
    (hp : (Outgoing.machine callbacks).Path Outgoing.mild (.new callbacks) s)
    (hs : s.conn.state ≠ .kDisconnected) :
    s.conn.sent++s.conn.outputBuffer = s.passed ∧
    (s.conn.channel.IsWriting = true ↔ s.conn.outputBuffer ≠ []) := by
  obtain ⟨hi,q,hq,he⟩ := Outgoing.Exact.path hp hs
  refine ⟨?_,hi⟩
  rw [hq.left,hq.waiting,q.balanced,he]

theorem outgoing_stream_exact_partial : ∃ s : Outgoing, s.conn.sent = ['a','b'] ∧
    s.conn.sent++s.conn.outputBuffer = ['a','b','c','d'] := by
  obtain ⟨s,hp,ht⟩ := Machine.exec_any (Outgoing.machine ⟨true,false,0⟩) Outgoing.mild
    (.new ⟨true,false,0⟩)
    [.connectEstablished,.sendInLoop ['a','b','c'] (.wrote 1),.handleWrite (.failed .EWOULDBLOCK),
      .sendInLoop ['d'] (.wrote 1),.handleWrite (.wrote 1)]
    (fun s => s.conn.state = .kConnected ∧ s.conn.sent = ['a','b'] ∧
      s.passed = ['a','b','c','d']) (by decide +kernel)
  have hs : s.conn.state = .kConnected ∧ s.conn.sent = ['a','b'] ∧
      s.passed = ['a','b','c','d'] := by simpa using ht
  refine ⟨s,hs.2.1,?_⟩
  rw [(outgoing_stream_exact hp (by rw [hs.1]; decide)).1,hs.2.2]

end SRaftMuduo
