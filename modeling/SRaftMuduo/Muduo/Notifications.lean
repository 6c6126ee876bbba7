import SRaftMuduo.Muduo.OutputStream

namespace SRaftMuduo

/-- The callbacks that a connection queues about its output. -/
def Effect.notifies : Effect → Bool
  | .queueWriteComplete | .queueHighWaterMark _ => true
  | _ => false

/-- A write that succeeded. -/
def Effect.isWrite : Effect → Bool
  | .write _ => true
  | _ => false

namespace TcpConnection

variable {conn conn' : TcpConnection} {es es' : List Effect} {data rest : CString}
  {result : WriteResult}

/-- What the effects `es`, which lead from `conn` to `conn'`, should queue: the end of the
output after a write that leaves nothing, and a backlog that comes up to the mark. -/
def due (conn conn' : TcpConnection) (es : List Effect) : List Effect :=
  (if es.any Effect.isWrite ∧ conn'.outputBuffer = [] then [.queueWriteComplete] else [])++
  (if conn.outputBuffer.length < conn.callbacks.highWaterMark_ ∧
      conn.callbacks.highWaterMark_ ≤ conn'.outputBuffer.length then
    [.queueHighWaterMark conn'.outputBuffer.length] else [])

/-- The effects from `conn` to `conn'` queue what they should. -/
def Notifies (conn conn' : TcpConnection) : Prop :=
  ∃ es, conn'.trace = conn.trace++es ∧ es.filter Effect.notifies = conn.due conn' es

theorem due_of_shorter (h : conn'.outputBuffer.length ≤ conn.outputBuffer.length) :
    conn.due conn' es =
      if es.any Effect.isWrite ∧ conn'.outputBuffer = [] then [.queueWriteComplete] else [] := by
  have hmark : ¬(conn.outputBuffer.length < conn.callbacks.highWaterMark_ ∧
      conn.callbacks.highWaterMark_ ≤ conn'.outputBuffer.length) := by omega
  rw [due,if_neg hmark,List.append_nil]

theorem due_of_left (h : conn'.outputBuffer ≠ []) : conn.due conn' es =
    if conn.outputBuffer.length < conn.callbacks.highWaterMark_ ∧
        conn.callbacks.highWaterMark_ ≤ conn'.outputBuffer.length then
      [.queueHighWaterMark conn'.outputBuffer.length] else [] := by
  have hwrite : ¬(es.any Effect.isWrite ∧ conn'.outputBuffer = []) := fun he => h he.2
  rw [due,if_neg hwrite,List.nil_append]

/-- Effects that neither write nor notify, with the backlog as it was. -/
theorem Notifies.still (es : List Effect) (ht : conn'.trace = conn.trace++es)
    (hb : conn'.outputBuffer = conn.outputBuffer)
    (hes : ∀ e ∈ es, e.isWrite = false ∧ e.notifies = false) : Notifies conn conn' := by
  refine ⟨es,ht,?_⟩
  have hwrite : es.any Effect.isWrite = false := by
    rw [List.any_eq_false]
    intro e he
    rw [(hes e he).1]
    decide
  have hnone : es.filter Effect.notifies = [] := by
    apply List.filter_eq_nil_iff.mpr
    intro e he
    rw [(hes e he).2]
    decide
  rw [hnone,due_of_shorter (by rw [hb]),hwrite]
  simp

theorem Notifies.refl (conn : TcpConnection) : Notifies conn conn :=
  .still [] (List.append_nil _).symm rfl fun _ h => nomatch h

theorem queueWriteComplete_trace (conn : TcpConnection) (hc : conn.callbacks.writeComplete = true) :
    conn.queueWriteComplete.trace = conn.trace++[.queueWriteComplete] := by
  rw [queueWriteComplete,if_pos hc]
  rfl

theorem queueWriteComplete_outputBuffer (conn : TcpConnection) :
    conn.queueWriteComplete.outputBuffer = conn.outputBuffer := by
  unfold queueWriteComplete
  split_ifs <;> rfl

theorem bufferOutput_outputBuffer (conn : TcpConnection) (rest : CString) :
    (conn.bufferOutput rest).outputBuffer = conn.outputBuffer++rest := by
  unfold bufferOutput
  dsimp only
  split_ifs <;> rfl

/-- The mark is passed when the backlog with the rest reaches it for the first time. -/
theorem bufferOutput_trace (conn : TcpConnection) (hc : conn.callbacks.highWaterMark = true)
    (rest : CString) :
    (conn.bufferOutput rest).trace = conn.trace++
      if conn.outputBuffer.length < conn.callbacks.highWaterMark_ ∧
          conn.callbacks.highWaterMark_ ≤ (conn.outputBuffer++rest).length then
        [.queueHighWaterMark (conn.outputBuffer++rest).length] else [] := by
  have hmark : (conn.outputBuffer.length+rest.length ≥ conn.callbacks.highWaterMark_ &&
      conn.outputBuffer.length < conn.callbacks.highWaterMark_ &&
      conn.callbacks.highWaterMark) = true ↔
      conn.outputBuffer.length < conn.callbacks.highWaterMark_ ∧
        conn.callbacks.highWaterMark_ ≤ (conn.outputBuffer++rest).length := by
    rw [hc,List.length_append]
    simp [and_comm]
  unfold bufferOutput
  dsimp only
  rw [List.length_append] at hmark ⊢
  simp only [hmark]
  split_ifs
  · rfl
  · rfl
  · exact (List.append_nil _).symm
  · exact (List.append_nil _).symm

theorem shutdownInLoop_trace (conn : TcpConnection) : conn.shutdownInLoop.trace =
    conn.trace++if conn.channel.IsWriting then [] else [.ShutdownWrite] := by
  unfold shutdownInLoop
  split_ifs
  · exact (List.append_nil _).symm
  · rfl

theorem shutdownInLoop_outputBuffer (conn : TcpConnection) :
    conn.shutdownInLoop.outputBuffer = conn.outputBuffer := by
  unfold shutdownInLoop
  split_ifs <;> rfl

theorem writeDirect_wrote (hw : conn.channel.IsWriting = false) (hb : conn.outputBuffer = [])
    (data : CString) (n : Nat) : conn.writeDirect data (.wrote n) =
      (if data.length-n = 0 then (conn.emit (.write (data.take n))).queueWriteComplete
        else conn.emit (.write (data.take n)),n,false) := by
  have hdirect : (!conn.channel.IsWriting && conn.outputBuffer.length = 0) = true := by
    rw [hw,hb]
    rfl
  rw [writeDirect,if_pos hdirect]

/-- The write of the whole data. -/
theorem sendInLoop_whole (hs : conn.state ≠ .kDisconnected) (hw : conn.channel.IsWriting = false)
    (hb : conn.outputBuffer = []) {n : Nat} (hn : data.length ≤ n) :
    conn.sendInLoop data (.wrote n) = (conn.emit (.write (data.take n))).queueWriteComplete := by
  have hrest : data.length-n = 0 := by omega
  rw [sendInLoop,if_neg hs,writeDirect_wrote hw hb,if_pos hrest]
  dsimp only
  rw [hrest]
  rfl

theorem sendInLoop_part (hs : conn.state ≠ .kDisconnected) (hw : conn.channel.IsWriting = false)
    (hb : conn.outputBuffer = []) {n : Nat} (hn : n < data.length) :
    conn.sendInLoop data (.wrote n) =
      (conn.emit (.write (data.take n))).bufferOutput (data.drop n) := by
  have hrest : data.length-n > 0 := by omega
  have hne : data.length-n ≠ 0 := by omega
  rw [sendInLoop,if_neg hs,writeDirect_wrote hw hb,if_neg hne]
  dsimp only
  rw [decide_eq_true hrest]
  rfl

theorem sendInLoop_failed (hs : conn.state ≠ .kDisconnected) (errno : Errno) :
    conn.sendInLoop data (.failed errno) = conn ∨
      data ≠ [] ∧ conn.sendInLoop data (.failed errno) = conn.bufferOutput data := by
  have hdirect : ∃ b, conn.writeDirect data (.failed errno) = (conn,0,b) := by
    unfold writeDirect
    split_ifs
    · exact ⟨_,rfl⟩
    · exact ⟨_,rfl⟩
  obtain ⟨b,hb⟩ := hdirect
  rw [sendInLoop,if_neg hs,hb]
  dsimp only
  by_cases hd : data = []
  · simp [hd]
  · have hlen : 0 < data.length := List.length_pos_iff.mpr hd
    cases b <;> simp [hd,hlen]

/-- While the channel waits for the socket, the data joins the backlog. -/
theorem sendInLoop_waiting (hs : conn.state ≠ .kDisconnected)
    (hw : conn.channel.IsWriting = true) :
    conn.sendInLoop data result = conn ∨
      data ≠ [] ∧ conn.sendInLoop data result = conn.bufferOutput data := by
  by_cases hd : data = []
  · simp [sendInLoop,writeDirect,hs,hw,hd]
  · have hlen : 0 < data.length := List.length_pos_iff.mpr hd
    simp [sendInLoop,writeDirect,hs,hw,hd,hlen]

/-- Data joins the backlog, so something is left to send. -/
theorem bufferOutput_left (conn : TcpConnection) (hne : rest ≠ []) :
    (conn.bufferOutput rest).outputBuffer ≠ [] := by
  rw [bufferOutput_outputBuffer]
  intro h
  exact hne (List.append_eq_nil_iff.mp h).2

/-- Data that joins the backlog queues the high-water mark when it is due. -/
theorem Notifies.bufferOutput (conn : TcpConnection) (hc : conn.callbacks.highWaterMark = true)
    (hne : rest ≠ []) : Notifies conn (conn.bufferOutput rest) := by
  refine ⟨_,bufferOutput_trace conn hc rest,?_⟩
  rw [due_of_left (bufferOutput_left conn hne),bufferOutput_outputBuffer]
  split_ifs <;> rfl

/-- The direct write takes everything. -/
theorem Notifies.whole (conn : TcpConnection) (hc : conn.callbacks.writeComplete = true)
    (hb : conn.outputBuffer = []) (sent : CString) :
    Notifies conn (conn.emit (.write sent)).queueWriteComplete := by
  have htrace := queueWriteComplete_trace (conn.emit (.write sent)) hc
  have hout : (conn.emit (.write sent)).queueWriteComplete.outputBuffer = [] :=
    (queueWriteComplete_outputBuffer _).trans hb
  refine ⟨[.write sent,.queueWriteComplete],?trace,?due⟩
  case trace =>
    rw [htrace]
    show conn.trace++_++_ = _
    rw [List.append_assoc]
    rfl
  case due =>
    rw [due_of_shorter (by rw [hout]; exact Nat.zero_le _),hout]
    rfl

/-- The rest of the direct write is the new backlog. -/
theorem Notifies.part (conn : TcpConnection) (hc : conn.callbacks.highWaterMark = true)
    (hne : rest ≠ []) (sent : CString) :
    Notifies conn ((conn.emit (.write sent)).bufferOutput rest) := by
  obtain ⟨es,htrace,hes⟩ := Notifies.bufferOutput (conn.emit (.write sent)) hc hne
  have hleft := bufferOutput_left (conn.emit (.write sent)) hne
  refine ⟨.write sent::es,?trace,?due⟩
  case trace =>
    rw [htrace]
    show conn.trace++_++es = _
    rw [List.append_assoc]
    rfl
  case due =>
    have hfilter : (Effect.write sent::es).filter Effect.notifies =
        es.filter Effect.notifies := rfl
    rw [hfilter,hes,due_of_left hleft,due_of_left hleft]
    rfl

theorem Notifies.sendInLoop (hi : Interest conn) (hs : conn.state ≠ .kDisconnected)
    (hw : conn.callbacks.writeComplete = true) (hh : conn.callbacks.highWaterMark = true) :
    Notifies conn (conn.sendInLoop data result) := by
  have hlater : ∀ conn', (conn' = conn ∨ data ≠ [] ∧ conn' = conn.bufferOutput data) →
      Notifies conn conn' := by
    intro conn' h
    cases h with
    | inl h => exact h ▸ .refl conn
    | inr h => exact h.2 ▸ .bufferOutput conn hh h.1
  by_cases hb : conn.outputBuffer = []
  · have hch : conn.channel.IsWriting = false := by
      have := hi.not.mpr (not_not.mpr hb)
      simpa using this
    cases result with
    | failed errno => exact hlater _ (sendInLoop_failed hs errno)
    | wrote n =>
      by_cases hn : data.length ≤ n
      · rw [sendInLoop_whole hs hch hb hn]
        exact .whole conn hw hb _
      · have hlt := Nat.lt_of_not_le hn
        have hne : data.drop n ≠ [] := by
          intro h
          have := List.drop_eq_nil_iff.mp h
          omega
        rw [sendInLoop_part hs hch hb hlt]
        exact .part conn hh hne _
  · exact hlater _ (sendInLoop_waiting hs (hi.mpr hb))

/-- The end of the drain: the callback is queued, then the socket may be shut down. -/
theorem drained_trace (conn : TcpConnection) (hc : conn.callbacks.writeComplete = true) :
    ∃ es, conn.drained.trace = conn.trace++Effect.queueWriteComplete::es ∧
      ∀ e ∈ es, e.isWrite = false ∧ e.notifies = false := by
  have hq := queueWriteComplete_trace (conn.setEvents conn.channel.DisableWrite) hc
  have hq' : (conn.setEvents conn.channel.DisableWrite).queueWriteComplete.trace =
      conn.trace++[.queueWriteComplete] := hq
  unfold drained
  dsimp only
  split_ifs
  · rw [shutdownInLoop_trace,hq',List.append_assoc]
    refine ⟨_,rfl,?_⟩
    intro e he
    split_ifs at he
    · cases he
    · obtain rfl := List.mem_singleton.mp he
      exact ⟨rfl,rfl⟩
  · exact ⟨[],hq',fun _ h => nomatch h⟩

theorem drained_outputBuffer (conn : TcpConnection) :
    conn.drained.outputBuffer = conn.outputBuffer := by
  have hq := queueWriteComplete_outputBuffer (conn.setEvents conn.channel.DisableWrite)
  unfold drained
  dsimp only
  split_ifs
  · exact (shutdownInLoop_outputBuffer _).trans hq
  · exact hq

/-- The write that empties the buffer. -/
theorem Notifies.drained (hw : conn.callbacks.writeComplete = true) {n : Nat}
    (he : (conn.written n).outputBuffer = []) : Notifies conn (conn.written n).drained := by
  obtain ⟨es,hes,hquiet⟩ := drained_trace (conn.written n) hw
  have hout : (conn.written n).drained.outputBuffer = [] := (drained_outputBuffer _).trans he
  have hnone : es.filter Effect.notifies = [] := by
    apply List.filter_eq_nil_iff.mpr
    intro e hmem
    rw [(hquiet e hmem).2]
    decide
  refine ⟨.write (conn.outputBuffer.take n)::.queueWriteComplete::es,?trace,?due⟩
  case trace =>
    rw [hes]
    show conn.trace++_++_ = _
    rw [List.append_assoc]
    rfl
  case due =>
    rw [due_of_shorter (by rw [hout]; exact Nat.zero_le _),hout]
    show Effect.queueWriteComplete::es.filter Effect.notifies = _
    rw [hnone]
    rfl

/-- A write that leaves some of the buffer. -/
theorem Notifies.written {n : Nat} (he : (conn.written n).outputBuffer ≠ []) :
    Notifies conn (conn.written n) := by
  have hshort : (conn.outputBuffer.drop n).length ≤ conn.outputBuffer.length := by
    rw [List.length_drop]
    exact Nat.sub_le _ _
  refine ⟨[.write (conn.outputBuffer.take n)],rfl,?_⟩
  rw [due_of_shorter hshort,if_neg (fun h : _ ∧ _ => he h.2)]
  rfl

theorem Notifies.handleWrite (hw : conn.callbacks.writeComplete = true) :
    Notifies conn (conn.handleWrite result) := by
  unfold TcpConnection.handleWrite
  split_ifs
  · cases result with
    | failed errno => exact .refl conn
    | wrote n =>
      dsimp only
      split_ifs with hn he
      · exact .drained hw (List.length_eq_zero_iff.mp he)
      · exact .written fun h => he (List.length_eq_zero_iff.mpr h)
      · exact .refl conn
  · exact .refl conn

/-- A step about the state of the connection queues nothing about its output. -/
theorem Notifies.shutdown (conn : TcpConnection) : Notifies conn conn.shutdown := by
  unfold TcpConnection.shutdown
  split_ifs
  · exact .still [.setState .kDisconnecting] rfl rfl
      (by simp [Effect.isWrite,Effect.notifies])
  · exact .refl conn

theorem Notifies.shutdownInLoop (conn : TcpConnection) : Notifies conn conn.shutdownInLoop := by
  refine .still _ (shutdownInLoop_trace conn) (shutdownInLoop_outputBuffer conn) ?_
  split_ifs <;> simp [Effect.isWrite,Effect.notifies]

theorem Notifies.connectEstablished (conn : TcpConnection) :
    Notifies conn conn.connectEstablished := by
  refine .still [.setState .kConnected,.connectionCallback true] ?_ rfl
    (by simp [Effect.isWrite,Effect.notifies])
  show conn.trace++_++_ = _
  rw [List.append_assoc]
  rfl

theorem Notifies.handleClose (conn : TcpConnection) : Notifies conn conn.handleClose := by
  refine .still
    [.setState .kDisconnected,.connectionCallback false,.closeCallback] ?_ rfl
    (by simp [Effect.isWrite,Effect.notifies])
  rw [handleClose_trace,List.append_assoc]
  rfl

theorem Notifies.connectDestroyed (conn : TcpConnection) :
    Notifies conn conn.connectDestroyed := by
  refine .still [.setState .kConnected,.setState .kDisconnected,.connectionCallback false]
    ?_ rfl (by simp [Effect.isWrite,Effect.notifies])
  show conn.trace++_++_++_ = _
  rw [List.append_assoc,List.append_assoc]
  rfl

theorem queueWriteComplete_callbacks (conn : TcpConnection) :
    conn.queueWriteComplete.callbacks = conn.callbacks := by
  unfold queueWriteComplete
  split_ifs <;> rfl

theorem bufferOutput_callbacks (conn : TcpConnection) (rest : CString) :
    (conn.bufferOutput rest).callbacks = conn.callbacks := by
  unfold bufferOutput
  dsimp only
  split_ifs <;> rfl

theorem writeDirect_callbacks (conn : TcpConnection) (data : CString) (result : WriteResult) :
    (conn.writeDirect data result).1.callbacks = conn.callbacks := by
  unfold writeDirect
  split_ifs
  · cases result with
    | failed errno => rfl
    | wrote n =>
      dsimp only
      split_ifs
      · exact queueWriteComplete_callbacks _
      · rfl
  · rfl

theorem sendInLoop_callbacks (conn : TcpConnection) (data : CString) (result : WriteResult) :
    (conn.sendInLoop data result).callbacks = conn.callbacks := by
  unfold sendInLoop
  dsimp only
  split_ifs
  · rfl
  · exact (bufferOutput_callbacks _ _).trans (writeDirect_callbacks conn data result)
  · exact writeDirect_callbacks conn data result

theorem shutdown_callbacks (conn : TcpConnection) :
    conn.shutdown.callbacks = conn.callbacks := by
  unfold shutdown
  split_ifs <;> rfl

theorem shutdownInLoop_callbacks (conn : TcpConnection) :
    conn.shutdownInLoop.callbacks = conn.callbacks := by
  unfold shutdownInLoop
  split_ifs <;> rfl

theorem drained_callbacks (conn : TcpConnection) : conn.drained.callbacks = conn.callbacks := by
  have hq := queueWriteComplete_callbacks (conn.setEvents conn.channel.DisableWrite)
  unfold drained
  dsimp only
  split_ifs
  · exact (shutdownInLoop_callbacks _).trans hq
  · exact hq

theorem handleWrite_callbacks (conn : TcpConnection) (result : WriteResult) :
    (conn.handleWrite result).callbacks = conn.callbacks := by
  unfold handleWrite
  split_ifs
  · cases result with
    | failed errno => rfl
    | wrote n =>
      dsimp only
      split_ifs
      · exact drained_callbacks _
      · rfl
      · rfl
  · rfl

end TcpConnection

namespace Outgoing

variable {s t : Outgoing} {e : OutgoingEvent} {callbacks : Callbacks}

theorem step_callbacks (ht : s.step e = some t) : t.conn.callbacks = s.conn.callbacks := by
  cases e with
  | connectEstablished =>
    obtain ⟨-,ht⟩ := Option.ite_none_right_eq_some.mp ht
    obtain rfl := Option.some.inj ht
    rfl
  | sendInLoop data result =>
    obtain ⟨-,ht⟩ := Option.ite_none_right_eq_some.mp ht
    obtain rfl := Option.some.inj ht
    exact TcpConnection.sendInLoop_callbacks ..
  | handleWrite result =>
    obtain ⟨-,ht⟩ := Option.ite_none_right_eq_some.mp ht
    obtain rfl := Option.some.inj ht
    exact TcpConnection.handleWrite_callbacks ..
  | shutdown =>
    obtain rfl := Option.some.inj ht
    exact TcpConnection.shutdown_callbacks _
  | shutdownInLoop =>
    obtain rfl := Option.some.inj ht
    exact TcpConnection.shutdownInLoop_callbacks _
  | handleClose =>
    obtain rfl := Option.some.inj ht
    rfl
  | connectDestroyed =>
    obtain rfl := Option.some.inj ht
    rfl

theorem path_callbacks (hp : (machine callbacks).Path Machine.always (.new callbacks) s) :
    s.conn.callbacks = callbacks :=
  hp.invariant (I := fun s => s.conn.callbacks = callbacks)
    (fun _ _ _ h _ ht => (step_callbacks ht).trans h) rfl

/-- Each kind of step queues what it should. -/
theorem notifies_step (hi : Waiting s) (hs : s.conn.state ≠ .kDisconnected)
    (hw : s.conn.callbacks.writeComplete = true) (hh : s.conn.callbacks.highWaterMark = true)
    (ht : s.step e = some t) : s.conn.Notifies t.conn := by
  cases e with
  | connectEstablished =>
    obtain ⟨-,ht⟩ := Option.ite_none_right_eq_some.mp ht
    obtain rfl := Option.some.inj ht
    exact .connectEstablished _
  | sendInLoop data result =>
    obtain ⟨-,ht⟩ := Option.ite_none_right_eq_some.mp ht
    obtain rfl := Option.some.inj ht
    exact .sendInLoop (hi hs) hs hw hh
  | handleWrite result =>
    obtain ⟨-,ht⟩ := Option.ite_none_right_eq_some.mp ht
    obtain rfl := Option.some.inj ht
    exact .handleWrite hw
  | shutdown =>
    obtain rfl := Option.some.inj ht
    exact .shutdown _
  | shutdownInLoop =>
    obtain rfl := Option.some.inj ht
    exact .shutdownInLoop _
  | handleClose =>
    obtain rfl := Option.some.inj ht
    exact .handleClose _
  | connectDestroyed =>
    obtain rfl := Option.some.inj ht
    exact .connectDestroyed _

end Outgoing

/-- A connection that is not down and has both callbacks queues the end of its output in
exactly the steps that perform a write and leave no byte, once each, and the high-water
mark with the new backlog in exactly the steps that bring the backlog up to the mark. -/
theorem write_notifications_exact {callbacks : Callbacks} {s t : Outgoing} {e : OutgoingEvent}
    (hw : callbacks.writeComplete = true) (hh : callbacks.highWaterMark = true)
    (hp : (Outgoing.machine callbacks).Path Machine.always (.new callbacks) s)
    (hs : s.conn.state ≠ .kDisconnected) (ht : s.step e = some t) :
    ∃ es, t.conn.trace = s.conn.trace++es ∧ es.filter Effect.notifies = s.conn.due t.conn es := by
  have hc := Outgoing.path_callbacks hp
  exact Outgoing.notifies_step (Outgoing.Waiting.path hp) hs (hc ▸ hw) (hc ▸ hh) ht

/-- Three bytes of which the socket takes one, with the mark at two. -/
theorem write_notifications_exact_mark : ∃ (s t : Outgoing) (es : List Effect),
    s.step (.sendInLoop ['a','b','c'] (.wrote 1)) = some t ∧
    t.conn.trace = s.conn.trace++es ∧ es.filter Effect.notifies = s.conn.due t.conn es ∧
    s.conn.due t.conn es = [.queueHighWaterMark 2] := by
  let s : Outgoing := ⟨(TcpConnection.new ⟨true,true,2⟩).connectEstablished,[]⟩
  have hp : (Outgoing.machine ⟨true,true,2⟩).Path Machine.always (.new ⟨true,true,2⟩) s :=
    (Machine.Path.refl _).tail (e := .connectEstablished) trivial rfl
  have ht : s.step (.sendInLoop ['a','b','c'] (.wrote 1)) =
      some ⟨s.conn.sendInLoop ['a','b','c'] (.wrote 1),['a','b','c']⟩ := rfl
  obtain ⟨es,hes,hdue⟩ := write_notifications_exact rfl rfl hp (by decide) ht
  refine ⟨s,_,es,ht,hes,hdue,?_⟩
  have htrace : (s.conn.sendInLoop ['a','b','c'] (.wrote 1)).trace =
      s.conn.trace++[.write ['a'],.queueHighWaterMark 2] := by decide
  rw [← hdue,← List.append_cancel_left (htrace.symm.trans hes)]
  rfl

end SRaftMuduo
