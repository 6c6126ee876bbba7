import SRaftMuduo.Muduo.Connections

namespace SRaftMuduo

namespace TcpConnection

variable {conn conn' conn'' : TcpConnection}

/-- A connection that has been destroyed: it is down and out of the poller, and has been
reported down. -/
structure Gone (conn : TcpConnection) : Prop where
  state : conn.state = .kDisconnected
  index : conn.channel.index = kNew
  down : 0 < conn.trace.count (.connectionCallback false)

/-- `conn'` comes from `conn` without being reported up. -/
structure StaysUp (conn conn' : TcpConnection) : Prop where
  up : conn'.trace.count (.connectionCallback true) = conn.trace.count (.connectionCallback true)
  state : conn.state ≠ .kConnecting → conn'.state ≠ .kConnecting

theorem StaysUp.refl (conn : TcpConnection) : StaysUp conn conn := ⟨rfl,id⟩

theorem StaysUp.trans (h : StaysUp conn conn') (k : StaysUp conn' conn'') : StaysUp conn conn'' :=
  ⟨k.up.trans h.up,fun hs => k.state (h.state hs)⟩

theorem Emits.staysUp (h : Emits Effect.silent conn conn') : StaysUp conn conn' :=
  ⟨h.count rfl,fun hs => h.state ▸ hs⟩

theorem handleClose_staysUp (conn : TcpConnection) : StaysUp conn conn.handleClose := by
  refine ⟨?_,fun _ => nofun⟩
  rw [handleClose_trace,List.count_append,List.count_append]
  rfl

theorem handleRead_staysUp (conn : TcpConnection) (read : ReadResult) :
    StaysUp conn (conn.handleRead read) := by
  cases read with
  | data => exact (Emits.emit conn rfl).staysUp
  | eof => exact conn.handleClose_staysUp
  | error => exact .refl conn

theorem handleEvent_staysUp (conn : TcpConnection) (revents : BitVec 32) (read : ReadResult)
    (write : WriteResult) : StaysUp conn (conn.handleEvent revents read write) := by
  unfold handleEvent
  extract_lets conn1 conn2
  have h1 : StaysUp conn conn1 := by
    unfold conn1
    split_ifs
    · exact conn.handleClose_staysUp
    · exact .refl conn
  have h2 : StaysUp conn1 conn2 := by
    unfold conn2
    split_ifs
    · exact conn1.handleRead_staysUp read
    · exact .refl conn1
  split_ifs
  · exact (h1.trans h2).trans (handleWrite_emits conn2 write).staysUp
  · exact h1.trans h2

theorem disconnecting_staysUp (conn : TcpConnection) :
    StaysUp conn (conn.setState .kDisconnecting) := by
  refine ⟨?_,fun _ => nofun⟩
  show (conn.trace++[_]).count _ = _
  rw [List.count_append]
  rfl

theorem shutdown_staysUp (conn : TcpConnection) : StaysUp conn conn.shutdown := by
  unfold shutdown
  split_ifs
  · exact conn.disconnecting_staysUp
  · exact .refl conn

theorem connectDestroyed_trace (conn : TcpConnection) : conn.connectDestroyed.trace =
    conn.trace++[.setState .kConnected]++[.setState .kDisconnected]++
      [.connectionCallback false] := rfl

theorem connectDestroyed_staysUp (conn : TcpConnection) : StaysUp conn conn.connectDestroyed := by
  refine ⟨?_,fun _ => nofun⟩
  rw [connectDestroyed_trace,List.count_append,List.count_append,List.count_append]
  rfl

theorem connectDestroyed_gone (conn : TcpConnection) : Gone conn.connectDestroyed := by
  refine ⟨rfl,rfl,?_⟩
  rw [connectDestroyed_trace,List.count_append]
  exact Nat.lt_add_left _ (by decide)

theorem Gone.shutdownInLoop (h : Gone conn) : Gone conn.shutdownInLoop := by
  have hemits := conn.shutdownInLoop_emits
  refine ⟨hemits.state.trans h.state,?_,?_⟩
  · unfold TcpConnection.shutdownInLoop
    split_ifs <;> exact h.index
  · rw [hemits.count rfl]
    exact h.down

end TcpConnection

namespace TcpServer

/-- No thread that has passed the test of `shutdown` assigns to a connection that has gone
down since. -/
def timely (_ : Bool) (s : TcpServer) : TcpServerEvent → Prop
  | .setState => s.conn.state ≠ .kDisconnected
  | _ => True

instance (sameLoop : Bool) (s : TcpServer) : (e : TcpServerEvent) → Decidable (timely sameLoop s e)
  | .setState => inferInstanceAs (Decidable (¬_))
  | .functor | .mainFunctor | .poll _ _ _ | .sendInLoop _ _ | .shutdown _ | .queue
  | .destroyServer => .isTrue trivial

/-- `connectEstablished` waits first in the queue and no thread is in `shutdown`, or the
connection has been reported up once. -/
def Reported (s : TcpServer) : Prop :=
  (s.conn.Fresh ∧ s.stopping = 0 ∧
    ∃ io, s.io = .connectEstablished::io ∧ Task.connectEstablished ∉ io) ∨
  (s.conn.state ≠ .kConnecting ∧ s.conn.trace.count (.connectionCallback true) = 1 ∧
    Task.connectEstablished ∉ s.io)

/-- The server still holds the connection, or it will be destroyed, or it has been. -/
def Owed (s : TcpServer) : Prop :=
  (s.connections = true ∧ s.alive = true) ∨ Task.connectDestroyed ∈ s.io ∨ s.conn.Gone

variable {sameLoop : Bool} {s t : TcpServer} {e : TcpServerEvent} {callbacks : Callbacks}

theorem Reported.stays (h : s.Reported) (hs : s.conn.state ≠ .kConnecting)
    (hconn : s.conn.StaysUp t.conn) {io : List Task} (hio : t.io = s.io++io)
    (hno : Task.connectEstablished ∉ io) : t.Reported := by
  obtain ⟨hf,-⟩ | ⟨-,hup,hmem⟩ := h
  · exact absurd hf.state hs
  · refine .inr ⟨hconn.state hs,hconn.up.trans hup,?_⟩
    rw [hio]
    simp [hmem,hno]

/-- Another functor is queued, and the connection is as it was. -/
theorem Reported.queue (h : s.Reported) (hconn : t.conn = s.conn)
    (hstop : t.stopping = s.stopping) {io : List Task} (hio : t.io = s.io++io)
    (hno : Task.connectEstablished ∉ io) : t.Reported := by
  obtain ⟨hf,hzero,io',heq,hmem⟩ | ⟨hs,hup,hmem⟩ := h
  · refine .inl ⟨hconn ▸ hf,hstop.trans hzero,io'++io,?_,by simp [hmem,hno]⟩
    rw [hio,heq]
    rfl
  · refine .inr ⟨hconn ▸ hs,hconn ▸ hup,?_⟩
    rw [hio]
    simp [hmem,hno]

theorem Reported.removeConnection (h : s.Reported) : (s.removeConnection sameLoop).Reported := by
  unfold TcpServer.removeConnection
  split_ifs
  · exact h.queue rfl rfl rfl (by decide)
  · exact h.queue rfl rfl (List.append_nil _).symm List.not_mem_nil

theorem Owed.removeConnection (h : s.Owed) : (s.removeConnection sameLoop).Owed := by
  unfold TcpServer.removeConnection
  split_ifs
  · exact .inr (.inl (List.mem_append_right _ List.mem_cons_self))
  · exact h

theorem removeConnections_settle (sameLoop : Bool) (n : Nat) (h : s.Reported) (ho : s.Owed) :
    ((TcpServer.removeConnection sameLoop)^[n] s).Reported ∧
      ((TcpServer.removeConnection sameLoop)^[n] s).Owed := by
  induction n generalizing s with
  | zero => exact ⟨h,ho⟩
  | succ n ih => exact ih h.removeConnection ho.removeConnection

theorem settle_functor {task : Task} {io : List Task} (h : s.Reported) (ho : s.Owed)
    (hio : s.io = task::io) :
    Reported {s with conn := run s.conn task, io := io} ∧
      Owed {s with conn := run s.conn task, io := io} := by
  obtain ⟨hf,-,io',heq,hmem⟩ | ⟨hs,hup,hmem⟩ := h
  · obtain ⟨rfl,rfl⟩ := List.cons.inj (hio.symm.trans heq)
    have hopen := hf.connectEstablished
    have hne : s.conn.connectEstablished.state ≠ .kConnecting := nofun
    refine ⟨.inr ⟨hne,hopen.up,hmem⟩,?_⟩
    obtain hheld | hqueued | hgone := ho
    · exact .inl hheld
    · rw [hio] at hqueued
      exact .inr (.inl ((List.mem_cons.mp hqueued).resolve_left nofun))
    · exact absurd (hf.state.symm.trans hgone.state) nofun
  · rw [hio] at hmem
    have hio' : Task.connectEstablished ∉ io := fun hm => hmem (List.mem_cons_of_mem _ hm)
    cases task with
    | connectEstablished => exact absurd List.mem_cons_self hmem
    | connectDestroyed =>
      have hstays := s.conn.connectDestroyed_staysUp
      exact ⟨.inr ⟨hstays.state hs,hstays.up.trans hup,hio'⟩,
        .inr (.inr s.conn.connectDestroyed_gone)⟩
    | shutdownInLoop =>
      have hstays := (TcpConnection.shutdownInLoop_emits s.conn).staysUp
      refine ⟨.inr ⟨hstays.state hs,hstays.up.trans hup,hio'⟩,?_⟩
      obtain hheld | hqueued | hgone := ho
      · exact .inl hheld
      · rw [hio] at hqueued
        exact .inr (.inl ((List.mem_cons.mp hqueued).resolve_left nofun))
      · exact .inr (.inr hgone.shutdownInLoop)

theorem settle_destroy (h : s.Reported) (ho : s.Owed)
    (hs : sameLoop = true → s.conn.state ≠ .kConnecting) :
    (s.destroy sameLoop).Reported ∧ (s.destroy sameLoop).Owed := by
  unfold TcpServer.destroy
  dsimp only
  split_ifs with hconn hsame
  · exact ⟨h.stays (hs hsame) s.conn.connectDestroyed_staysUp (List.append_nil _).symm
      List.not_mem_nil,.inr (.inr s.conn.connectDestroyed_gone)⟩
  · exact ⟨h.queue rfl rfl rfl (by decide),.inr (.inl (List.mem_append_right _ List.mem_cons_self))⟩
  · refine ⟨h.queue rfl rfl (List.append_nil _).symm List.not_mem_nil,?_⟩
    obtain hheld | hqueued | hgone := ho
    · exact absurd hheld.1 hconn
    · exact .inr (.inl hqueued)
    · exact .inr (.inr hgone)

/-- In the loop of the server a connection never waits to be established. -/
def Established (sameLoop : Bool) (s : TcpServer) : Prop :=
  sameLoop = true → s.conn.state ≠ .kConnecting

theorem removeConnections_conn (n : Nat) (s : TcpServer) :
    ((TcpServer.removeConnection sameLoop)^[n] s).conn = s.conn := by
  induction n generalizing s with
  | zero => rfl
  | succ n ih =>
    rw [Function.iterate_succ_apply,ih]
    unfold TcpServer.removeConnection
    split_ifs <;> rfl

/-- What holds of every connection in every run. -/
structure Settles (sameLoop : Bool) (s : TcpServer) : Prop where
  reported : s.Reported
  owed : s.Owed
  established : Established sameLoop s

theorem Settles.accepted : Settles sameLoop (accepted sameLoop callbacks) := by
  have hfresh : TcpConnection.Fresh (.new callbacks) := ⟨rfl,rfl,rfl⟩
  cases sameLoop with
  | true => exact ⟨.inr ⟨nofun,hfresh.connectEstablished.up,List.not_mem_nil⟩,.inl ⟨rfl,rfl⟩,
      fun _ => nofun⟩
  | false => exact ⟨.inl ⟨hfresh,rfl,[],rfl,List.not_mem_nil⟩,.inl ⟨rfl,rfl⟩,nofun⟩

/-- A destroyed connection does not take part in a step that does not destroy it again. -/
theorem Owed.conn (h : s.Owed) {conn : TcpConnection}
    (hgone : s.conn.Gone → conn.Gone) : Owed {s with conn := conn} := by
  obtain hheld | hqueued | hg := h
  · exact .inl hheld
  · exact .inr (.inl hqueued)
  · exact .inr (.inr (hgone hg))

theorem Settles.step (h : Settles sameLoop s) (hc : timely sameLoop s e)
    (ht : s.step sameLoop e = some t) : Settles sameLoop t := by
  obtain ⟨hr,ho,he⟩ := h
  cases e with
  | functor =>
    rw [TcpServer.step] at ht
    split at ht
    · cases ht
    · next task io hio =>
      obtain rfl := Option.some.inj ht
      obtain ⟨hr',ho'⟩ := settle_functor hr ho hio
      refine ⟨hr',ho',fun hsame => ?_⟩
      have hs := he hsame
      cases task with
      | connectEstablished =>
        intro hnone
        cases hnone
      | connectDestroyed =>
        intro hnone
        cases hnone
      | shutdownInLoop => exact (TcpConnection.shutdownInLoop_emits s.conn).staysUp.state hs
  | mainFunctor =>
    obtain ⟨-,ht⟩ := Option.ite_none_right_eq_some.mp ht
    obtain rfl := Option.some.inj ht
    exact ⟨hr.queue rfl rfl rfl (by decide),
      .inr (.inl (List.mem_append_right _ List.mem_cons_self)),he⟩
  | poll revents read write =>
    obtain ⟨⟨hi,-⟩,ht⟩ := Option.ite_none_right_eq_some.mp ht
    obtain rfl := Option.some.inj ht
    have hstays := s.conn.handleEvent_staysUp revents read write
    have hs : s.conn.state ≠ .kConnecting := by
      obtain ⟨hf,-⟩ | ⟨hs,-⟩ := hr
      · exact absurd (hf.index.symm.trans hi) EPollPoller.added_ne_new.symm
      · exact hs
    have hr' : Reported {s with conn := s.conn.handleEvent revents read write} :=
      hr.stays hs hstays (List.append_nil _).symm List.not_mem_nil
    have ho' : Owed {s with conn := s.conn.handleEvent revents read write} :=
      ho.conn fun hg => absurd (hg.index.symm.trans hi) EPollPoller.added_ne_new.symm
    obtain ⟨hrn,hon⟩ := removeConnections_settle sameLoop (closes s.conn revents read write)
      hr' ho'
    refine ⟨hrn,hon,fun _ => ?_⟩
    rw [handleEvent,removeConnections_conn]
    exact hstays.state hs
  | sendInLoop data result =>
    obtain ⟨hs,ht⟩ := Option.ite_none_left_eq_some.mp ht
    obtain rfl := Option.some.inj ht
    have hstays : s.conn.StaysUp (s.conn.sendInLoop data result) :=
      ((TcpConnection.sendInLoop_emits s.conn data result).mono
        fun _ => Effect.silent_of_output).staysUp
    refine ⟨hr.stays hs hstays (List.append_nil _).symm List.not_mem_nil,?_,
      fun _ => hstays.state hs⟩
    refine ho.conn fun hg => ?_
    rw [TcpConnection.sendInLoop,if_pos hg.state]
    exact hg
  | shutdown inLoop =>
    rw [TcpServer.step] at ht
    by_cases hup : s.conn.state = .kConnected
    · have hs : s.conn.state ≠ .kConnecting := by
        rw [hup]
        decide
      rw [if_pos hup] at ht
      obtain rfl := Option.some.inj ht
      cases inLoop with
      | true =>
        have hstays := s.conn.shutdown_staysUp.trans
          (TcpConnection.shutdownInLoop_emits _).staysUp
        refine ⟨hr.stays hs hstays (List.append_nil _).symm List.not_mem_nil,
          ho.conn fun hg => ?_,fun _ => hstays.state hs⟩
        cases hup.symm.trans hg.state
      | false =>
        refine ⟨?_,ho,he⟩
        obtain ⟨hf,-⟩ | hreported := hr
        · exact absurd hf.state hs
        · exact .inr hreported
    · rw [if_neg hup] at ht
      obtain rfl := Option.some.inj ht
      exact ⟨hr,ho,he⟩
  | setState =>
    obtain ⟨hpos,ht⟩ := Option.ite_none_right_eq_some.mp ht
    obtain rfl := Option.some.inj ht
    have hs : s.conn.state ≠ .kConnecting := by
      obtain ⟨-,hzero,-⟩ | ⟨hs,-⟩ := hr
      · omega
      · exact hs
    have hstays := s.conn.disconnecting_staysUp
    refine ⟨hr.stays hs hstays (List.append_nil _).symm List.not_mem_nil,?_,
      fun _ => hstays.state hs⟩
    exact ho.conn fun hg => absurd hg.state hc
  | queue =>
    obtain ⟨-,ht⟩ := Option.ite_none_right_eq_some.mp ht
    obtain rfl := Option.some.inj ht
    refine ⟨hr.queue rfl rfl rfl (by decide),?_,he⟩
    obtain hheld | hqueued | hg := ho
    · exact .inl hheld
    · exact .inr (.inl (List.mem_append_left _ hqueued))
    · exact .inr (.inr hg)
  | destroyServer =>
    obtain ⟨-,ht⟩ := Option.ite_none_right_eq_some.mp ht
    obtain rfl := Option.some.inj ht
    obtain ⟨hr',ho'⟩ := settle_destroy hr ho he
    refine ⟨hr',ho',fun hsame => ?_⟩
    unfold TcpServer.destroy
    dsimp only
    split_ifs
    · intro hnone
      cases hnone
    · exact he hsame

end TcpServer

namespace ServerState

variable {L : Type*} [DecidableEq L] {s : ServerState L} {id : Nat}

/-- Once the server is destroyed and its loop has run what was queued for it, a connection is
down, out of the poller and reported down, after it was reported up once; unless a thread in
`shutdown` has assigned to `state_` after that. -/
theorem destroyed_with_server {baseloop : L} {numThreads : Int} {startloop : Nat → L}
    {name : CString} {listenAddr : InetAddress} {callbacks : Callbacks}
    (h : (machine (.start baseloop numThreads startloop name listenAddr callbacks)).Path
      (each TcpServer.timely) (.start baseloop numThreads startloop name listenAddr callbacks) s)
    (halive : s.alive = false) (hid : s.holds id) (hio : (s.view id).io = []) :
    (s.conns id).Gone ∧ (s.conns id).trace.count (.connectionCallback true) = 1 := by
  obtain ⟨-,-,hruns⟩ := run_views TcpServer.timely h
  have hsettles : TcpServer.Settles (s.sameLoop id) (s.view id) :=
    (hruns id hid).invariant (fun _ _ _ hs hc ht => hs.step hc ht) .accepted
  obtain ⟨-,-,io,heq,-⟩ | ⟨-,hup,-⟩ := hsettles.reported
  · exact nomatch hio.symm.trans heq
  · obtain ⟨-,ha⟩ | hqueued | hgone := hsettles.owed
    · exact nomatch halive.symm.trans ha
    · rw [hio] at hqueued
      cases hqueued
    · exact ⟨hgone,hup⟩

/-- Two connections, of which one is closed by its peer and the other shut down by another
thread. -/
theorem destroyed_with_server_two : ∃ s : ServerState Nat, (s.conns 1).Gone ∧
    (s.conns 2).Gone := by
  let server : ServerState Nat := .start 0 2 (·+1) ['s'] ⟨127,0,0,1,8080⟩ ⟨false,false,0⟩
  obtain ⟨s,hpath,hend⟩ := Machine.exec_any (machine server) (each TcpServer.timely) server
    [.accept,.accept,.functor 2,.functor 1,.poll 1 EPOLLIN .eof (.wrote 0),.shutdown 2 false,
      .setState 2,.functor 0,.queue 2,.destroyServer [2],.functor 1,.functor 2,.functor 2]
    (fun s => decide (s.alive = false ∧ s.holds 1 ∧ (s.view 1).io = [] ∧ s.holds 2 ∧
      (s.view 2).io = [])) (by decide +kernel)
  obtain ⟨halive,hone,hio,htwo,hio'⟩ := of_decide_eq_true hend
  exact ⟨s,(destroyed_with_server hpath halive hone hio).1,
    (destroyed_with_server hpath halive htwo hio').1⟩

end ServerState

end SRaftMuduo
