import SRaftMuduo.Muduo.Duplex

namespace SRaftMuduo

/-- A connection of the `EchoServer` in its loop; `heard` are the strings that `onMessage` took
out of the input buffer. -/
structure EchoConnection where
  conn : TcpConnection
  inputBuffer : CString
  heard : List CString

inductive EchoEvent
  | connectEstablished
  | poll (revents : BitVec 32) (arrival : Arrival) (direct : WriteResult) (write : WriteResult)
  | connectDestroyed

namespace EchoConnection

/-- `send` in the thread of the loop. -/
def send (conn : TcpConnection) (msg : CString) (direct : WriteResult) : TcpConnection :=
  if conn.state = .kConnected then conn.sendInLoop msg direct else conn

/-- `shutdown` in the thread of the loop, where `RunInLoop` runs its functor at once. -/
def shutdown (conn : TcpConnection) : TcpConnection :=
  if conn.state = .kConnected then (conn.setState .kDisconnecting).shutdownInLoop else conn

def onMessage (s : EchoConnection) (direct : WriteResult) : EchoConnection :=
  let msg := s.inputBuffer
  ⟨shutdown (send s.conn msg direct),[],s.heard++[msg]⟩

def handleRead (s : EchoConnection) (direct : WriteResult) : Arrival → EchoConnection
  | .data bytes =>
    onMessage ⟨s.conn.emit .messageCallback,s.inputBuffer++bytes,s.heard⟩ direct
  | .eof => {s with conn := s.conn.handleClose}
  | .error => s

/-- `HandleEventWithGuard` for the events `revents`. -/
def handleEvent (s : EchoConnection) (revents : BitVec 32) (arrival : Arrival)
    (direct write : WriteResult) : EchoConnection :=
  let s :=
    if revents &&& EPOLLHUP ≠ 0 ∧ revents &&& EPOLLIN = 0 then
      {s with conn := s.conn.handleClose}
    else s
  let s := if revents &&& (EPOLLIN ||| EPOLLPRI) ≠ 0 then s.handleRead direct arrival else s
  if revents &&& EPOLLOUT ≠ 0 then {s with conn := s.conn.handleWrite write} else s

def new (callbacks : Callbacks) : EchoConnection := ⟨.new callbacks,[],[]⟩

/-- The poller knows the channel of an event, and a read that brings data brings some. -/
def step (s : EchoConnection) : EchoEvent → Option EchoConnection
  | .connectEstablished =>
    if s.conn.state = .kConnecting then some {s with conn := s.conn.connectEstablished} else none
  | .poll revents arrival direct write =>
    if s.conn.channel.index = kAdded ∧ arrival ≠ .data [] then
      some (s.handleEvent revents arrival direct write)
    else none
  | .connectDestroyed => some {s with conn := s.conn.connectDestroyed}

def machine (callbacks : Callbacks) : Machine EchoConnection EchoEvent :=
  ⟨fun s => s = .new callbacks,step⟩

/-- No write of `send` fails with `EPIPE` or `ECONNRESET`. -/
def mild (_ : EchoConnection) : EchoEvent → Prop
  | .poll _ _ direct _ => direct.mild = true
  | _ => True

instance (s : EchoConnection) : (e : EchoEvent) → Decidable (mild s e)
  | .poll _ _ _ _ => inferInstanceAs (Decidable (_ = _))
  | .connectEstablished | .connectDestroyed => .isTrue trivial

end EchoConnection

namespace TcpConnection

variable {conn : TcpConnection} {heard : List CString} {msg : CString} {direct : WriteResult}

/-- Before the first message nothing is sent. -/
structure Listening (conn : TcpConnection) (heard : List CString) : Prop where
  heard : heard = []
  state : conn.state = .kConnected
  streams : conn.Streams (.empty Char)
  interest : conn.Interest
  unshut : conn.trace.count .ShutdownWrite = 0

/-- After it the message goes out, and then the end of the stream. -/
structure Answering (conn : TcpConnection) (heard : List CString) (msg : CString) : Prop where
  heard : heard.head? = some msg
  state : conn.state = .kDisconnecting
  streams : ∃ q, conn.Streams q ∧ q.entered = msg
  interest : conn.Interest
  shut : conn.trace.count .ShutdownWrite = if conn.outputBuffer = [] then 1 else 0

/-- What can be said of the bytes sent at any time. -/
structure Answered (conn : TcpConnection) (heard : List CString) : Prop where
  sent : conn.sent <+: heard.headD []
  once : conn.trace.count .ShutdownWrite ≤ 1
  whole : .ShutdownWrite ∈ conn.trace → heard.head? = some conn.sent

/-- A connection that is down stays with what was sent. -/
structure Left (conn : TcpConnection) (heard : List CString) : Prop where
  state : conn.state = .kDisconnected
  writing : conn.channel.IsWriting = false
  answered : Answered conn heard

theorem Listening.answered (h : Listening conn heard) : Answered conn heard where
  sent := by
    rw [h.streams.left]
    exact List.nil_prefix
  once := by
    rw [h.unshut]
    exact Nat.zero_le 1
  whole hmem := absurd h.unshut (Nat.ne_of_gt (List.count_pos_iff.mpr hmem))

theorem Answering.answered (h : Answering conn heard msg) : Answered conn heard where
  sent := by
    obtain ⟨q,hq,he⟩ := h.streams
    rw [hq.left,List.headD_eq_head?_getD,h.heard,Option.getD_some,← he,← q.balanced]
    exact List.prefix_append ..
  once := by
    rw [h.shut]
    split <;> omega
  whole hmem := by
    obtain ⟨q,hq,he⟩ := h.streams
    have hcount := List.count_pos_iff.mpr hmem
    rw [h.shut] at hcount
    split at hcount
    · next hempty =>
      have hbalanced := q.balanced
      rw [← hq.waiting,hempty,List.append_nil,← hq.left,he] at hbalanced
      rw [h.heard,hbalanced]
    · exact absurd hcount (by decide)

/-- Effects that send nothing and do not shut down keep what is said of the bytes sent. -/
theorem Answered.quiet {conn' : TcpConnection} (h : Answered conn heard)
    (hs : conn'.sent = conn.sent)
    (hc : conn'.trace.count .ShutdownWrite = conn.trace.count .ShutdownWrite) :
    Answered conn' heard where
  sent := hs ▸ h.sent
  once := hc ▸ h.once
  whole hmem := by
    have hpos := List.count_pos_iff.mpr hmem
    rw [hc] at hpos
    rw [hs]
    exact h.whole (List.count_pos_iff.mp hpos)

theorem Answered.handleClose (h : Answered conn heard) : Left conn.handleClose heard := by
  refine ⟨rfl,?_,h.quiet ?_ ?_⟩
  · change conn.channel.DisableAll.update.IsWriting = false
    rw [Channel.update_IsWriting]
    show decide (kNoneEvent &&& kWriteEvent ≠ 0) = false
    decide
  · rw [TcpConnection.sent,handleClose_trace]
    simp [TcpConnection.sent,Effect.bytes]
  · rw [handleClose_trace,List.count_append,List.count_append]
    simp

theorem Answered.connectDestroyed (h : Answered conn heard) :
    Left conn.connectDestroyed heard := by
  have htrace : conn.connectDestroyed.trace = conn.trace++[.setState .kConnected]++
      [.setState .kDisconnected]++[.connectionCallback false] := rfl
  refine ⟨rfl,?_,h.quiet ?_ ?_⟩
  · change conn.channel.DisableAll.update.IsWriting = false
    rw [Channel.update_IsWriting]
    show decide (kNoneEvent &&& kWriteEvent ≠ 0) = false
    decide
  · rw [TcpConnection.sent,htrace]
    simp [TcpConnection.sent,Effect.bytes]
  · rw [htrace]
    simp

/-- `shutdownInLoop` shuts down now or leaves it to the write that empties the buffer. -/
theorem answering_shutdownInLoop (hheard : heard.head? = some msg)
    (hs : conn.state = .kDisconnecting) (hq : ∃ q, conn.Streams q ∧ q.entered = msg)
    (hi : conn.Interest) (hc : conn.trace.count .ShutdownWrite = 0) :
    Answering conn.shutdownInLoop heard msg := by
  obtain ⟨q,hq,he⟩ := hq
  refine ⟨hheard,(shutdownInLoop_emits conn).state.trans hs,⟨q,hq.shutdownInLoop,he⟩,
    hi.shutdownInLoop,?_⟩
  unfold TcpConnection.shutdownInLoop
  split_ifs with hw hempty hempty
  · exact absurd hempty (hi.mp hw)
  · exact hc
  · change (conn.trace++[_]).count _ = 1
    rw [List.count_append,hc]
    rfl
  · exact absurd (hi.mpr hempty) hw

/-- The first message is sent, and the shutdown waits for what is left of it. -/
theorem Listening.onMessage (h : Listening conn heard) (hm : direct.mild = true) :
    Answering (EchoConnection.shutdown (EchoConnection.send conn msg direct)) (heard++[msg])
      msg := by
  have hup : conn.state ≠ .kDisconnected := by
    rw [h.state]
    nofun
  have hemits := sendInLoop_emits conn msg direct
  obtain ⟨q,hq,he⟩ := h.streams.sendInLoop msg hup hm
  have hinterest : (conn.sendInLoop msg direct).Interest := h.interest.sendInLoop
  have hcount := hemits.count (e := .ShutdownWrite) rfl
  rw [h.unshut] at hcount
  have hstate := hemits.state.trans h.state
  rw [EchoConnection.send,if_pos h.state,EchoConnection.shutdown,if_pos hstate]
  refine answering_shutdownInLoop (by rw [h.heard]; rfl) rfl ⟨q,hq.setState _,he⟩ hinterest ?_
  change ((conn.sendInLoop msg direct).trace++[_]).count _ = 0
  rw [List.count_append,hcount]
  rfl

/-- Any later message is dropped. -/
theorem onMessage_dropped (hs : conn.state ≠ .kConnected) :
    EchoConnection.shutdown (EchoConnection.send conn msg direct) = conn := by
  rw [EchoConnection.send,if_neg hs,EchoConnection.shutdown,if_neg hs]

/-- A write event does nothing, or takes bytes from the buffer, and all of them or not. -/
theorem handleWrite_cases (conn : TcpConnection) (write : WriteResult) :
    conn.handleWrite write = conn ∨ conn.channel.IsWriting = true ∧ ∃ n,
      ((conn.written n).outputBuffer = [] ∧ conn.handleWrite write = (conn.written n).drained ∨
        (conn.written n).outputBuffer ≠ [] ∧ conn.handleWrite write = conn.written n) := by
  unfold TcpConnection.handleWrite
  split_ifs with hw
  · cases write with
    | failed errno => exact .inl rfl
    | wrote n =>
      dsimp only
      split_ifs with hn hempty
      · exact .inr ⟨hw,n,.inl ⟨List.length_eq_zero_iff.mp hempty,rfl⟩⟩
      · exact .inr ⟨hw,n,.inr ⟨fun hnil => hempty (List.length_eq_zero_iff.mpr hnil),rfl⟩⟩
      · exact .inl rfl
  · exact .inl rfl

/-- The write that empties the buffer of a connection in `kDisconnecting` shuts down. -/
theorem drained_shuts (hs : conn.state = .kDisconnecting) :
    conn.drained.trace.count .ShutdownWrite = conn.trace.count .ShutdownWrite+1 := by
  have hq := queueWriteComplete_emits (conn.setEvents conn.channel.DisableWrite)
  have hcount := hq.count (e := .ShutdownWrite) rfl
  have hwriting : (conn.setEvents conn.channel.DisableWrite).queueWriteComplete.channel.IsWriting
      = false := by
    have hchannel : (conn.setEvents conn.channel.DisableWrite).queueWriteComplete.channel
        = conn.channel.DisableWrite.update := by
      unfold queueWriteComplete
      split_ifs <;> rfl
    rw [hchannel,Channel.update_IsWriting,Channel.DisableWrite_IsWriting]
  have hstate := hq.state.trans hs
  unfold drained
  dsimp only
  rw [if_pos hstate,shutdownInLoop,if_neg (by rw [hwriting]; nofun)]
  change (_++[_]).count _ = _
  rw [List.count_append,hcount]
  rfl

theorem Answering.handleWrite (h : Answering conn heard msg) (write : WriteResult) :
    Answering (conn.handleWrite write) heard msg := by
  obtain ⟨q,hq,he⟩ := h.streams
  obtain ⟨q',hq',he'⟩ := hq.handleWrite write
  refine ⟨h.heard,(handleWrite_emits conn write).state.trans h.state,⟨q',hq',he'.trans he⟩,
    h.interest.handleWrite,?_⟩
  obtain heq | ⟨hw,n,hcase⟩ := handleWrite_cases conn write
  · rw [heq]
    exact h.shut
  · have hzero : (conn.written n).trace.count .ShutdownWrite = 0 := by
      have hshut := h.shut
      rw [if_neg (h.interest.mp hw)] at hshut
      change (conn.trace++[_]).count _ = 0
      rw [List.count_append,hshut]
      rfl
    obtain ⟨hempty,heq⟩ | ⟨hmore,heq⟩ := hcase
    · have hbuffer : (conn.written n).drained.outputBuffer = [] := by
        rw [(BufferedConnection.drained_apart _).1,hempty]
      have hshuts : (conn.written n).drained.trace.count .ShutdownWrite =
          (conn.written n).trace.count .ShutdownWrite+1 := drained_shuts h.state
      simp [heq,hbuffer,hshuts,hzero]
    · simp [heq,hmore,hzero]

theorem Listening.handleWrite (h : Listening conn heard) (write : WriteResult) :
    conn.handleWrite write = conn := by
  have hempty : conn.outputBuffer = [] := h.streams.waiting
  have hw : ¬conn.channel.IsWriting = true := fun hw => h.interest.mp hw hempty
  exact if_neg hw

theorem Left.handleWrite (h : Left conn heard) (write : WriteResult) :
    conn.handleWrite write = conn := if_neg (by simp [h.writing])

/-- A string that is heard later does not change which was the first. -/
theorem Answered.hear (h : Answered conn heard) (msg : CString) : Answered conn (heard++[msg]) := by
  cases heard with
  | nil =>
    have hsent : conn.sent = [] := List.prefix_nil.mp h.sent
    refine ⟨?_,h.once,fun hmem => absurd (h.whole hmem) nofun⟩
    rw [hsent]
    exact List.nil_prefix
  | cons m heard => exact ⟨h.sent,h.once,h.whole⟩

/-- A connection that came up. -/
def Live (conn : TcpConnection) (heard : List CString) : Prop :=
  Listening conn heard ∨ (∃ msg, Answering conn heard msg) ∨ Left conn heard

theorem Live.answered (h : Live conn heard) : Answered conn heard := by
  obtain h | ⟨msg,h⟩ | h := h
  · exact h.answered
  · exact h.answered
  · exact h.answered

theorem Live.handleClose (h : Live conn heard) : Live conn.handleClose heard :=
  .inr (.inr h.answered.handleClose)

theorem Live.handleWrite (h : Live conn heard) (write : WriteResult) :
    Live (conn.handleWrite write) heard := by
  obtain h | ⟨msg,h⟩ | h := h
  · rw [h.handleWrite]
    exact .inl h
  · exact .inr (.inl ⟨msg,h.handleWrite write⟩)
  · rw [h.handleWrite]
    exact .inr (.inr h)

theorem Live.message (h : Live conn heard) : Live (conn.emit .messageCallback) heard := by
  have hcount : (conn.emit .messageCallback).trace.count .ShutdownWrite
      = conn.trace.count .ShutdownWrite := by
    change (conn.trace++[_]).count _ = _
    rw [List.count_append]
    rfl
  have hsent : (conn.emit .messageCallback).sent = conn.sent := by
    rw [emit_sent]
    exact List.append_nil _
  obtain h | ⟨msg,h⟩ | h := h
  · exact .inl ⟨h.heard,h.state,h.streams.emit rfl,h.interest,hcount.trans h.unshut⟩
  · obtain ⟨q,hq,he⟩ := h.streams
    exact .inr (.inl ⟨msg,h.heard,h.state,⟨q,hq.emit rfl,he⟩,h.interest,hcount.trans h.shut⟩)
  · exact .inr (.inr ⟨h.state,h.writing,h.answered.quiet hsent hcount⟩)

theorem Live.onMessage (h : Live conn heard) (hm : direct.mild = true) (msg : CString) :
    Live (EchoConnection.shutdown (EchoConnection.send conn msg direct)) (heard++[msg]) := by
  obtain h | ⟨m,h⟩ | h := h
  · exact .inr (.inl ⟨msg,h.onMessage hm⟩)
  · rw [onMessage_dropped (by rw [h.state]; nofun)]
    refine .inr (.inl ⟨m,?_,h.state,h.streams,h.interest,h.shut⟩)
    rw [List.head?_append,h.heard]
    rfl
  · rw [onMessage_dropped (by rw [h.state]; nofun)]
    exact .inr (.inr ⟨h.state,h.writing,h.answered.hear msg⟩)

end TcpConnection

namespace EchoConnection

variable {callbacks : Callbacks} {s t : EchoConnection} {e : EchoEvent}

def Served (callbacks : Callbacks) (s : EchoConnection) : Prop :=
  s = .new callbacks ∨ s.conn.Live s.heard

theorem live_handleRead (h : s.conn.Live s.heard) {direct : WriteResult}
    (hm : direct.mild = true) (arrival : Arrival) :
    (s.handleRead direct arrival).conn.Live (s.handleRead direct arrival).heard := by
  cases arrival with
  | data bytes => exact h.message.onMessage hm _
  | eof => exact h.handleClose
  | error => exact h

theorem live_handleEvent (h : s.conn.Live s.heard) {revents : BitVec 32} {arrival : Arrival}
    {direct write : WriteResult} (hm : direct.mild = true) :
    (s.handleEvent revents arrival direct write).conn.Live
      (s.handleEvent revents arrival direct write).heard := by
  unfold handleEvent
  extract_lets s1 s2
  have h1 : s1.conn.Live s1.heard := by
    unfold s1
    split_ifs
    · exact h.handleClose
    · exact h
  have h2 : s2.conn.Live s2.heard := by
    unfold s2
    split_ifs
    · exact live_handleRead h1 hm arrival
    · exact h1
  split_ifs
  · exact h2.handleWrite write
  · exact h2

theorem served_fresh (callbacks : Callbacks) :
    TcpConnection.Answered (.new callbacks) [] ∧
      (TcpConnection.new callbacks).connectEstablished.Listening [] := by
  refine ⟨⟨List.nil_prefix,Nat.zero_le 1,fun hmem => nomatch hmem⟩,rfl,rfl,?_,?_,rfl⟩
  · exact (TcpConnection.Streams.new callbacks).connectEstablished
  · exact (TcpConnection.Interest.new callbacks).connectEstablished

theorem live_up (h : s.conn.Live s.heard) : s.conn.state ≠ .kConnecting := by
  obtain h | ⟨msg,h⟩ | h := h <;> rw [h.state] <;> nofun

theorem Served.step (h : Served callbacks s) (hm : mild s e) (ht : s.step e = some t) :
    Served callbacks t := by
  obtain ⟨hfresh,hlisten⟩ := served_fresh callbacks
  cases e with
  | connectEstablished =>
    obtain ⟨hstate,ht⟩ := Option.ite_none_right_eq_some.mp ht
    obtain rfl := Option.some.inj ht
    obtain rfl | h := h
    · exact .inr (.inl hlisten)
    · exact absurd hstate (live_up h)
  | poll revents arrival direct write =>
    obtain ⟨⟨hindex,-⟩,ht⟩ := Option.ite_none_right_eq_some.mp ht
    obtain rfl := Option.some.inj ht
    obtain rfl | h := h
    · exact absurd hindex EPollPoller.added_ne_new.symm
    · exact .inr (live_handleEvent h hm)
  | connectDestroyed =>
    obtain rfl := Option.some.inj ht
    obtain rfl | h := h
    · exact .inr (.inr (.inr hfresh.connectDestroyed))
    · exact .inr (.inr (.inr h.answered.connectDestroyed))

end EchoConnection

/-- The `EchoServer` answers the first message of a connection and nothing else: in every run
the bytes sent are a beginning of it, the end of the stream is sent at most once and only
behind all of it, and until the connection is down the rest waits in the output buffer. -/
theorem echo_first_message {callbacks : Callbacks} {s : EchoConnection}
    (hp : (EchoConnection.machine callbacks).Path EchoConnection.mild (.new callbacks) s) :
    s.conn.sent <+: s.heard.headD [] ∧ s.conn.trace.count .ShutdownWrite ≤ 1 ∧
    (.ShutdownWrite ∈ s.conn.trace → s.heard.head? = some s.conn.sent) ∧
    (s.conn.state = .kDisconnecting →
      s.conn.sent++s.conn.outputBuffer = s.heard.headD [] ∧
      (.ShutdownWrite ∈ s.conn.trace ↔ s.conn.outputBuffer = [])) := by
  have hserved : EchoConnection.Served callbacks s :=
    hp.invariant (fun _ _ _ h hm ht => h.step hm ht) (.inl rfl)
  obtain rfl | h := hserved
  · obtain ⟨hsent,honce,hwhole⟩ := (EchoConnection.served_fresh callbacks).1
    exact ⟨hsent,honce,hwhole,nofun⟩
  · refine ⟨h.answered.sent,h.answered.once,h.answered.whole,fun hstate => ?_⟩
    obtain h | ⟨msg,h⟩ | h := h
    · exact nomatch h.state.symm.trans hstate
    · obtain ⟨q,hq,he⟩ := h.streams
      constructor
      · rw [hq.left,hq.waiting,q.balanced,he,List.headD_eq_head?_getD,h.heard,Option.getD_some]
      · rw [← List.count_pos_iff,h.shut]
        split_ifs with hempty
        · simp [hempty]
        · simp [hempty]
    · exact nomatch h.state.symm.trans hstate

theorem echo_first_message_two : ∃ s : EchoConnection, s.heard = [['a','b'],['c']] ∧
    s.conn.sent = ['a','b'] ∧ .ShutdownWrite ∈ s.conn.trace ∧
    s.conn.trace.count .ShutdownWrite ≤ 1 ∧ s.heard.head? = some s.conn.sent := by
  obtain ⟨s,hp,ht⟩ := Machine.exec_any (EchoConnection.machine ⟨false,false,0⟩)
    EchoConnection.mild (.new ⟨false,false,0⟩)
    [.connectEstablished,.poll EPOLLIN (.data ['a','b']) (.wrote 1) (.wrote 0),
      .poll (EPOLLIN ||| EPOLLOUT) (.data ['c']) (.wrote 1) (.wrote 1)]
    (fun s => s.heard = [['a','b'],['c']] ∧ s.conn.sent = ['a','b'] ∧
      .ShutdownWrite ∈ s.conn.trace) (by decide +kernel)
  obtain ⟨hheard,hsent,hshut⟩ := of_decide_eq_true ht
  obtain ⟨-,honce,hwhole,-⟩ := echo_first_message hp
  exact ⟨s,hheard,hsent,hshut,honce,hwhole hshut⟩

end SRaftMuduo
