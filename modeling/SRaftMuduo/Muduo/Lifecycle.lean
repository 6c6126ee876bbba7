import SRaftMuduo.Muduo.OutputStream
import Mathlib.Logic.Function.Iterate

namespace SRaftMuduo

/-- `state_` keeps the value `kDisconnected` once it has it. -/
def Settled (trace : List Effect) : Prop :=
  ∀ before after s, trace = before++Effect.setState .kDisconnected::after →
    Effect.setState s ∈ after → s = .kDisconnected

theorem Settled.snoc {trace : List Effect} {e : Effect} (h : Settled trace)
    (he : ∀ s, e = .setState s → s = .kDisconnected ∨ Effect.setState .kDisconnected ∉ trace) :
    Settled (trace++[e]) := by
  intro before after s heq hs
  cases List.eq_nil_or_concat after with
  | inl hnil =>
    rw [hnil] at hs
    cases hs
  | inr hlast =>
    obtain ⟨after',last,rfl⟩ := hlast
    rw [List.concat_eq_append] at heq hs
    rw [← List.cons_append,← List.append_assoc] at heq
    obtain ⟨htrace,hl⟩ := List.append_inj' heq rfl
    obtain rfl : e = last := List.singleton_inj.mp hl
    cases List.mem_append.mp hs with
    | inl hin => exact h before after' s htrace hin
    | inr hin =>
      obtain rfl := List.mem_singleton.mp hin
      cases he s rfl with
      | inl hd => exact hd
      | inr hno =>
        exfalso
        apply hno
        rw [htrace]
        simp

theorem Settled.append {trace es : List Effect} (h : Settled trace)
    (he : ∀ e ∈ es, e.silent = true) : Settled (trace++es) := by
  induction es generalizing trace with
  | nil => rwa [List.append_nil]
  | cons e es ih =>
    have hone : Settled (trace++[e]) := by
      apply h.snoc
      intro s hs
      have hsil := he e (by simp)
      rw [hs] at hsil
      cases hsil
    have hrest := ih hone fun e' he' => he e' (by simp [he'])
    rwa [List.append_assoc] at hrest

/-- What the claimed life of a connection is, of the effects so far: one call of
`connectionCallback_` when it is up, at most one when it is down, at most one of
`closeCallback_`, and no way back from `kDisconnected`. -/
structure Orderly (conn : TcpConnection) : Prop where
  up : conn.trace.count (.connectionCallback true) = if conn.state = .kConnecting then 0 else 1
  down : conn.trace.count (.connectionCallback false) ≤ 1
  close : conn.trace.count .closeCallback ≤ 1
  settled : Settled conn.trace

namespace TcpConnection

variable {conn conn' : TcpConnection} {data : CString} {result : WriteResult}

/-- A connection that waits for `connectEstablished`. -/
structure Fresh (conn : TcpConnection) : Prop where
  state : conn.state = .kConnecting
  trace : conn.trace = []
  index : conn.channel.index = kNew

/-- A connection that came up and did not go down. -/
structure Open (conn : TcpConnection) : Prop where
  state : conn.state = .kConnected ∨ conn.state = .kDisconnecting
  up : conn.trace.count (.connectionCallback true) = 1
  down : conn.trace.count (.connectionCallback false) = 0
  close : conn.trace.count .closeCallback = 0
  unset : Effect.setState .kDisconnected ∉ conn.trace

/-- A connection that went down. -/
structure Closed (conn : TcpConnection) : Prop where
  state : conn.state = .kDisconnected
  up : conn.trace.count (.connectionCallback true) = 1
  down : conn.trace.count (.connectionCallback false) = 1
  close : conn.trace.count .closeCallback ≤ 1
  settled : Settled conn.trace
  index : conn.channel.index ≠ kAdded
  writing : conn.channel.IsWriting = false

theorem Fresh.orderly (h : Fresh conn) : Orderly conn := by
  have hnil : Settled [] := fun before _ _ he => absurd he (by simp)
  refine ⟨?_,?_,?_,?_⟩
  · rw [h.trace,if_pos h.state,List.count_nil]
  · rw [h.trace,List.count_nil]
    exact Nat.zero_le _
  · rw [h.trace,List.count_nil]
    exact Nat.zero_le _
  · rwa [h.trace]

/-- Nothing follows a value that `state_` never had. -/
theorem settled_of_unset {trace : List Effect} (h : Effect.setState .kDisconnected ∉ trace) :
    Settled trace := by
  intro before after s he
  rw [he] at h
  exact absurd (by simp) h

theorem Open.orderly (h : Open conn) : Orderly conn := by
  have hne : conn.state ≠ .kConnecting := by
    intro hc
    cases h.state with
    | inl hs => cases hs.symm.trans hc
    | inr hs => cases hs.symm.trans hc
  refine ⟨?_,?_,?_,settled_of_unset h.unset⟩
  · rw [if_neg hne,h.up]
  · rw [h.down]
    exact Nat.zero_le _
  · rw [h.close]
    exact Nat.zero_le _

theorem Closed.orderly (h : Closed conn) : Orderly conn := by
  refine ⟨?_,Nat.le_of_eq h.down,h.close,h.settled⟩
  rw [if_neg (by rw [h.state]; decide),h.up]

theorem Open.silent (h : Open conn) (k : Emits Effect.silent conn conn') : Open conn' := by
  obtain ⟨es,ht,hes⟩ := k.trace
  refine ⟨k.state ▸ h.state,?up,?down,?close,?unset⟩
  case up => rw [k.count rfl,h.up]
  case down => rw [k.count rfl,h.down]
  case close => rw [k.count rfl,h.close]
  case unset =>
    rw [ht]
    intro hmem
    cases List.mem_append.mp hmem with
    | inl hin => exact h.unset hin
    | inr hin => cases hes _ hin

theorem Fresh.connectEstablished (h : Fresh conn) : Open conn.connectEstablished := by
  have ht : conn.connectEstablished.trace =
      [.setState .kConnected,.connectionCallback true] := by
    show conn.trace++[_]++[_] = _
    rw [h.trace]
    rfl
  refine ⟨.inl rfl,?_,?_,?_,?_⟩ <;> rw [ht] <;> decide

/-- The assignment of `shutdown`. -/
theorem Open.disconnecting (h : Open conn) : Open (conn.setState .kDisconnecting) := by
  have ht : (conn.setState .kDisconnecting).trace =
      conn.trace++[.setState .kDisconnecting] := rfl
  refine ⟨.inr rfl,?_,?_,?_,?_⟩ <;> rw [ht]
  · rw [List.count_append,h.up]
    rfl
  · rw [List.count_append,h.down]
    rfl
  · rw [List.count_append,h.close]
    rfl
  · simp [h.unset]

theorem Open.shutdown (h : Open conn) : Open conn.shutdown := by
  unfold TcpConnection.shutdown
  split_ifs
  · exact h.disconnecting
  · exact h

/-- A channel without events does not wait for the socket. -/
theorem DisableAll_IsWriting (c : Channel) : c.DisableAll.update.IsWriting = false := by
  rw [Channel.update_IsWriting]
  show decide (kNoneEvent &&& kWriteEvent ≠ 0) = false
  decide

theorem Open.handleClose (h : Open conn) (hi : conn.channel.index = kAdded) :
    Closed conn.handleClose ∧ conn.handleClose.trace.count .closeCallback = 1 := by
  have ht := conn.handleClose_trace
  have hclose : conn.handleClose.trace.count .closeCallback = 1 := by
    rw [ht,List.count_append,List.count_append,h.close]
    rfl
  refine ⟨⟨rfl,?up,?down,Nat.le_of_eq hclose,?settled,?index,DisableAll_IsWriting _⟩,hclose⟩
  case up =>
    rw [ht,List.count_append,List.count_append,h.up]
    rfl
  case down =>
    rw [ht,List.count_append,List.count_append,h.down]
    rfl
  case settled =>
    have hset : Settled (conn.trace++[.setState .kDisconnected]) :=
      (settled_of_unset h.unset).snoc fun s hs => .inr h.unset
    have hcall : Settled (conn.trace++[.setState .kDisconnected]++[.connectionCallback false]) :=
      hset.snoc nofun
    rw [ht,show [Effect.connectionCallback false,.closeCallback] =
      [.connectionCallback false]++[.closeCallback] from rfl,← List.append_assoc]
    exact hcall.snoc nofun
  case index =>
    show conn.channel.DisableAll.update.index ≠ kAdded
    have hnot : ¬(conn.channel.DisableAll.index = kNew ∨
        conn.channel.DisableAll.index = kDeleted) := by
      rw [show conn.channel.DisableAll.index = kAdded from hi]
      decide
    have hnone : conn.channel.DisableAll.IsNoneEvent = true := rfl
    rw [Channel.update,if_neg hnot,if_pos hnone]
    exact EPollPoller.deleted_ne_added

/-- On an open connection the wrong assignment only adds a value that does not matter. -/
theorem Open.connectDestroyed (h : Open conn) : Closed conn.connectDestroyed := by
  have ht : conn.connectDestroyed.trace = conn.trace++[.setState .kConnected]++
      [.setState .kDisconnected]++[.connectionCallback false] := rfl
  have hunset : Effect.setState .kDisconnected ∉ conn.trace++[.setState .kConnected] := by
    simp [h.unset]
  refine ⟨rfl,?up,?down,?close,?settled,?index,?writing⟩
  case up =>
    rw [ht,List.count_append,List.count_append,List.count_append,h.up]
    rfl
  case down =>
    rw [ht,List.count_append,List.count_append,List.count_append,h.down]
    rfl
  case close =>
    rw [ht,List.count_append,List.count_append,List.count_append,h.close]
    decide
  case settled =>
    have hset : Settled (conn.trace++[.setState .kConnected]++[.setState .kDisconnected]) :=
      (settled_of_unset hunset).snoc fun s hs => .inr hunset
    rw [ht]
    exact hset.snoc nofun
  case index => exact EPollPoller.added_ne_new.symm
  case writing => exact DisableAll_IsWriting _

theorem Closed.emit (h : Closed conn) {e : Effect} (he : e.silent = true) :
    Closed (conn.emit e) := by
  have hk : Emits Effect.silent conn (conn.emit e) := .emit conn he
  refine ⟨h.state,?up,?down,?close,?settled,h.index,h.writing⟩
  case up => rw [hk.count rfl,h.up]
  case down => rw [hk.count rfl,h.down]
  case close =>
    rw [hk.count rfl]
    exact h.close
  case settled => exact h.settled.append fun e' hm => List.mem_singleton.mp hm ▸ he

theorem Closed.shutdownInLoop (h : Closed conn) : Closed conn.shutdownInLoop := by
  unfold TcpConnection.shutdownInLoop
  split_ifs
  · exact h
  · exact h.emit rfl

theorem Closed.sendInLoop (h : Closed conn) : conn.sendInLoop data result = conn := if_pos h.state

theorem Closed.handleWrite (h : Closed conn) : conn.handleWrite result = conn :=
  if_neg (by simp [h.writing])

/-- The events on which `handleClose` runs twice: a hang-up without `EPOLLIN` closes the
connection, and the read then finds the end of the stream. -/
def ClosesTwice (revents : BitVec 32) (read : ReadResult) : Prop :=
  (revents &&& EPOLLHUP ≠ 0 ∧ revents &&& EPOLLIN = 0) ∧
    revents &&& (EPOLLIN ||| EPOLLPRI) ≠ 0 ∧ read = .eof

instance (revents : BitVec 32) (read : ReadResult) : Decidable (ClosesTwice revents read) :=
  inferInstanceAs (Decidable (_ ∧ _))

/-- An event leaves the connection open, or closes it and calls `closeCallback_` once. -/
theorem Open.handleEvent (h : Open conn) (hi : conn.channel.index = kAdded)
    {revents : BitVec 32} {read : ReadResult} {write : WriteResult}
    (hc : ¬ClosesTwice revents read) :
    Open (conn.handleEvent revents read write) ∨ Closed (conn.handleEvent revents read write) := by
  unfold TcpConnection.handleEvent
  extract_lets conn1 conn2
  have h2 : Open conn2 ∨ Closed conn2 := by
    unfold conn2 conn1
    by_cases hhup : revents &&& EPOLLHUP ≠ 0 ∧ revents &&& EPOLLIN = 0
    · have hclosed := (h.handleClose hi).1
      rw [if_pos hhup]
      split_ifs with hread
      · cases read with
        | data => exact .inr (hclosed.emit rfl)
        | eof => exact absurd ⟨hhup,hread,rfl⟩ hc
        | error => exact .inr hclosed
      · exact .inr hclosed
    · rw [if_neg hhup]
      split_ifs
      · cases read with
        | data => exact .inl (h.silent (.emit conn rfl))
        | eof => exact .inr (h.handleClose hi).1
        | error => exact .inl h
      · exact .inl h
  split_ifs
  · cases h2 with
    | inl h2 => exact .inl (h2.silent (handleWrite_emits conn2 write))
    | inr h2 =>
      rw [h2.handleWrite]
      exact .inr h2
  · exact h2

end TcpConnection

/-- A functor for the loop of the connection. -/
inductive Task
  | connectEstablished
  | connectDestroyed
  | shutdownInLoop
  deriving DecidableEq

/-- A connection of a `TcpServer`: the functors queued for its loop, how many calls of
`removeConnectionInLoop` are queued for the loop of the server, whether `connections_` holds
it and whether the server exists; and how many other threads are in `shutdown`, past its test
of `state_` or past the assignment. -/
structure TcpServer where
  conn : TcpConnection
  io : List Task
  main : Nat
  connections : Bool
  alive : Bool
  stopping : Nat
  stopped : Nat

/-- `shutdown` outside of the loop is its test only; `setState` and `queue` are the rest. -/
inductive TcpServerEvent
  | functor
  | mainFunctor
  | poll (revents : BitVec 32) (read : ReadResult) (write : WriteResult)
  | sendInLoop (data : CString) (result : WriteResult)
  | shutdown (inLoop : Bool)
  | setState
  | queue
  | destroyServer

namespace TcpServer

/-- After `newConnection`; in one loop `RunInLoop` calls `connectEstablished` at once. -/
def accepted (sameLoop : Bool) (callbacks : Callbacks) : TcpServer :=
  let conn := TcpConnection.new callbacks
  if sameLoop then ⟨conn.connectEstablished,[],0,true,true,0,0⟩
  else ⟨conn,[.connectEstablished],0,true,true,0,0⟩

def run (conn : TcpConnection) : Task → TcpConnection
  | .connectEstablished => conn.connectEstablished
  | .connectDestroyed => conn.connectDestroyed
  | .shutdownInLoop => conn.shutdownInLoop

def removeConnectionInLoop (s : TcpServer) : TcpServer :=
  {s with connections := false, io := s.io++[.connectDestroyed]}

/-- What `closeCallback_` is bound to. -/
def removeConnection (sameLoop : Bool) (s : TcpServer) : TcpServer :=
  if sameLoop then s.removeConnectionInLoop else {s with main := s.main+1}

/-- How often an event calls `closeCallback_`. -/
def closes (conn : TcpConnection) (revents : BitVec 32) (read : ReadResult)
    (write : WriteResult) : Nat :=
  (conn.handleEvent revents read write).trace.count .closeCallback-
    conn.trace.count .closeCallback

/-- The connection handles an event, with a removal for each call of `closeCallback_`. -/
def handleEvent (sameLoop : Bool) (s : TcpServer) (revents : BitVec 32) (read : ReadResult)
    (write : WriteResult) : TcpServer :=
  (removeConnection sameLoop)^[closes s.conn revents read write]
    {s with conn := s.conn.handleEvent revents read write}

/-- `~TcpServer` as far as it concerns the connection. -/
def destroy (sameLoop : Bool) (s : TcpServer) : TcpServer :=
  let s' := {s with connections := false, alive := false}
  if s.connections then
    if sameLoop then {s' with conn := s.conn.connectDestroyed}
    else {s' with io := s.io++[.connectDestroyed]}
  else s'

/-- What is bound to a server that is gone has no meaning: neither `removeConnection` nor
`removeConnectionInLoop` is run then. -/
def step (sameLoop : Bool) (s : TcpServer) : TcpServerEvent → Option TcpServer
  | .functor =>
    match s.io with
    | [] => none
    | task::io => some {s with conn := run s.conn task, io := io}
  | .mainFunctor =>
    if s.alive = true ∧ s.main > 0 then
      some {s with main := s.main-1}.removeConnectionInLoop
    else none
  | .poll revents read write =>
    if s.conn.channel.index = kAdded ∧
        (s.alive = true ∨ closes s.conn revents read write = 0) then
      some (s.handleEvent sameLoop revents read write)
    else none
  | .sendInLoop data result =>
    if s.conn.state = .kConnecting then none
    else some {s with conn := s.conn.sendInLoop data result}
  | .shutdown inLoop =>
    if s.conn.state = .kConnected then
      some (if inLoop then {s with conn := s.conn.shutdown.shutdownInLoop}
        else {s with stopping := s.stopping+1})
    else some s
  | .setState =>
    if s.stopping > 0 then
      some {s with
        conn := s.conn.setState .kDisconnecting
        stopping := s.stopping-1
        stopped := s.stopped+1}
    else none
  | .queue =>
    if s.stopped > 0 then
      some {s with io := s.io++[.shutdownInLoop], stopped := s.stopped-1}
    else none
  | .destroyServer => if s.alive then some (s.destroy sameLoop) else none

def machine (sameLoop : Bool) (callbacks : Callbacks) : Machine TcpServer TcpServerEvent :=
  ⟨fun s => s = accepted sameLoop callbacks,step sameLoop⟩

/-- `connectDestroyed` does not run on a connection that is down, no event closes the
connection twice, and no thread that has passed the test of `shutdown` assigns to a connection
that has gone down since. -/
def clean (sameLoop : Bool) (s : TcpServer) : TcpServerEvent → Prop
  | .functor => s.io.head? = some .connectDestroyed → s.conn.state ≠ .kDisconnected
  | .destroyServer => sameLoop = true → s.connections = true → s.conn.state ≠ .kDisconnected
  | .poll revents read _ => ¬TcpConnection.ClosesTwice revents read
  | .setState => s.conn.state ≠ .kDisconnected
  | _ => True

instance (sameLoop : Bool) (s : TcpServer) : (e : TcpServerEvent) → Decidable (clean sameLoop s e)
  | .functor | .destroyServer => inferInstanceAs (Decidable (_ → _))
  | .poll _ _ _ | .setState => inferInstanceAs (Decidable (¬_))
  | .mainFunctor | .sendInLoop _ _ | .shutdown _ | .queue => .isTrue trivial

/-- `connectEstablished` waits first in the queue until it has run, and no thread is in
`shutdown` before. -/
def Staged (sameLoop : Bool) (s : TcpServer) : Prop :=
  (sameLoop = false ∧ s.conn.Fresh ∧ s.stopping = 0 ∧
    ∃ io, s.io = .connectEstablished::io ∧ Task.connectEstablished ∉ io) ∨
  ((s.conn.Open ∨ s.conn.Closed) ∧ Task.connectEstablished ∉ s.io)

variable {sameLoop : Bool} {s t : TcpServer} {e : TcpServerEvent} {callbacks : Callbacks}

theorem Staged.accepted : Staged sameLoop (accepted sameLoop callbacks) := by
  have hfresh : TcpConnection.Fresh (.new callbacks) := ⟨rfl,rfl,rfl⟩
  cases sameLoop with
  | true => exact .inr ⟨.inl hfresh.connectEstablished,List.not_mem_nil⟩
  | false => exact .inl ⟨rfl,hfresh,rfl,[],rfl,List.not_mem_nil⟩

theorem Staged.orderly (h : Staged sameLoop s) : Orderly s.conn := by
  obtain ⟨-,hf,-⟩ | ⟨ho | hc,-⟩ := h
  · exact hf.orderly
  · exact ho.orderly
  · exact hc.orderly

/-- Another functor than `connectEstablished` may be queued. -/
theorem Staged.enqueue (h : Staged sameLoop s) {task : Task} (hconn : t.conn = s.conn)
    (hio : t.io = s.io++[task]) (hstop : t.stopping = s.stopping)
    (hne : .connectEstablished ≠ task) : Staged sameLoop t := by
  obtain ⟨hsame,hf,hzero,io,heq,hio'⟩ | ⟨hoc,hio'⟩ := h
  · refine .inl ⟨hsame,hconn ▸ hf,hstop.trans hzero,io++[task],?_,?_⟩
    · rw [hio,heq]
      rfl
    · simp [hio',hne]
  · refine .inr ⟨hconn ▸ hoc,?_⟩
    rw [hio]
    simp [hio',hne]

theorem Staged.congr (h : Staged sameLoop s) (hconn : t.conn = s.conn) (hio : t.io = s.io)
    (hstop : t.stopping = s.stopping) : Staged sameLoop t := by
  obtain ⟨hsame,hf,hzero,io,heq,hio'⟩ | ⟨hoc,hio'⟩ := h
  · exact .inl ⟨hsame,hconn ▸ hf,hstop.trans hzero,io,hio.trans heq,hio'⟩
  · exact .inr ⟨hconn ▸ hoc,hio ▸ hio'⟩

theorem Staged.removeConnection (h : Staged sameLoop s) :
    Staged sameLoop (s.removeConnection sameLoop) := by
  unfold TcpServer.removeConnection
  split_ifs
  · exact h.enqueue rfl rfl rfl nofun
  · exact h.congr rfl rfl rfl

theorem Staged.removeConnections (h : Staged sameLoop s) (n : Nat) :
    Staged sameLoop ((TcpServer.removeConnection sameLoop)^[n] s) := by
  induction n generalizing s with
  | zero => exact h
  | succ n ih => exact ih h.removeConnection

/-- A channel that the poller knows belongs to an open connection. -/
theorem Staged.opened (h : Staged sameLoop s) (hi : s.conn.channel.index = kAdded) :
    s.conn.Open ∧ Task.connectEstablished ∉ s.io := by
  obtain ⟨-,hf,-⟩ | ⟨ho | hc,hio⟩ := h
  · exact absurd (hf.index.symm.trans hi) EPollPoller.added_ne_new.symm
  · exact ⟨ho,hio⟩
  · exact absurd hi hc.index

theorem Staged.functor {task : Task} {io : List Task} (h : Staged sameLoop s)
    (hio : s.io = task::io) (hc : task = .connectDestroyed → s.conn.state ≠ .kDisconnected) :
    Staged sameLoop {s with conn := run s.conn task, io := io} := by
  obtain ⟨-,hf,-,io',heq,hio'⟩ | ⟨hoc,hno⟩ := h
  · obtain ⟨rfl,rfl⟩ := List.cons.inj (hio.symm.trans heq)
    exact .inr ⟨.inl hf.connectEstablished,hio'⟩
  · rw [hio] at hno
    have hno' : Task.connectEstablished ∉ io := fun hm => hno (List.mem_cons_of_mem _ hm)
    refine .inr ⟨?_,hno'⟩
    cases task with
    | connectEstablished => exact absurd List.mem_cons_self hno
    | connectDestroyed =>
      cases hoc with
      | inl ho => exact .inr ho.connectDestroyed
      | inr hcl => exact absurd hcl.state (hc rfl)
    | shutdownInLoop =>
      cases hoc with
      | inl ho => exact .inl (ho.silent (TcpConnection.shutdownInLoop_emits s.conn))
      | inr hcl => exact .inr hcl.shutdownInLoop

theorem Staged.shutdown (h : Staged sameLoop s) (hs : s.conn.state = .kConnected) :
    s.conn.shutdown.Open ∧ Task.connectEstablished ∉ s.io := by
  obtain ⟨-,hf,-⟩ | ⟨ho | hc,hio⟩ := h
  · exact absurd (hf.state.symm.trans hs) nofun
  · exact ⟨ho.shutdown,hio⟩
  · exact absurd (hc.state.symm.trans hs) nofun

theorem Staged.destroy (h : Staged sameLoop s)
    (hc : sameLoop = true → s.connections = true → s.conn.state ≠ .kDisconnected) :
    Staged sameLoop (s.destroy sameLoop) := by
  unfold TcpServer.destroy
  dsimp only
  split_ifs with hconn hsame
  · obtain ⟨hother,-,-⟩ | ⟨ho | hcl,hio⟩ := h
    · exact absurd (hother.symm.trans hsame) nofun
    · exact .inr ⟨.inr ho.connectDestroyed,hio⟩
    · exact absurd hcl.state (hc hsame hconn)
  · exact h.enqueue rfl rfl rfl nofun
  · exact h.congr rfl rfl rfl

theorem Staged.step (h : Staged sameLoop s) (hc : clean sameLoop s e)
    (ht : s.step sameLoop e = some t) : Staged sameLoop t := by
  cases e with
  | functor =>
    rw [TcpServer.step] at ht
    split at ht
    · cases ht
    · next task io hio =>
      obtain rfl := Option.some.inj ht
      refine h.functor hio fun htask => hc ?_
      rw [hio,htask]
      rfl
  | mainFunctor =>
    obtain ⟨-,ht⟩ := Option.ite_none_right_eq_some.mp ht
    obtain rfl := Option.some.inj ht
    exact h.enqueue rfl rfl rfl nofun
  | poll revents read write =>
    obtain ⟨⟨hi,-⟩,ht⟩ := Option.ite_none_right_eq_some.mp ht
    obtain rfl := Option.some.inj ht
    obtain ⟨ho,hio⟩ := h.opened hi
    have hs : Staged sameLoop {s with conn := s.conn.handleEvent revents read write} :=
      .inr ⟨ho.handleEvent hi hc,hio⟩
    exact hs.removeConnections _
  | sendInLoop data result =>
    obtain ⟨hs,ht⟩ := Option.ite_none_left_eq_some.mp ht
    obtain rfl := Option.some.inj ht
    obtain ⟨-,hf,-⟩ | ⟨ho | hcl,hio⟩ := h
    · exact absurd hf.state hs
    · exact .inr ⟨.inl (ho.silent ((TcpConnection.sendInLoop_emits s.conn data result).mono
        fun _ => Effect.silent_of_output)),hio⟩
    · refine .inr ⟨.inr ?_,hio⟩
      show (s.conn.sendInLoop data result).Closed
      rw [hcl.sendInLoop]
      exact hcl
  | shutdown inLoop =>
    rw [TcpServer.step] at ht
    split_ifs at ht with hs
    · obtain ⟨ho,hio⟩ := h.shutdown hs
      obtain rfl := Option.some.inj ht
      exact .inr ⟨.inl (ho.silent (TcpConnection.shutdownInLoop_emits _)),hio⟩
    · obtain rfl := Option.some.inj ht
      obtain ⟨-,hf,-⟩ | hup := h
      · exact absurd (hf.state.symm.trans hs) (by decide)
      · exact .inr hup
    · obtain rfl := Option.some.inj ht
      exact h
  | setState =>
    obtain ⟨hpos,ht⟩ := Option.ite_none_right_eq_some.mp ht
    obtain rfl := Option.some.inj ht
    obtain ⟨-,-,hzero,-⟩ | ⟨ho | hcl,hio⟩ := h
    · omega
    · exact .inr ⟨.inl ho.disconnecting,hio⟩
    · exact absurd hcl.state hc
  | queue =>
    obtain ⟨-,ht⟩ := Option.ite_none_right_eq_some.mp ht
    obtain rfl := Option.some.inj ht
    exact h.enqueue rfl rfl rfl (by decide)
  | destroyServer =>
    obtain ⟨-,ht⟩ := Option.ite_none_right_eq_some.mp ht
    obtain rfl := Option.some.inj ht
    exact h.destroy hc

end TcpServer

/-- In every run where neither `connectDestroyed` nor the assignment of a `shutdown` meets a
connection that is down already and no event closes it twice, the connection is up once, down
at most once, closed at most once, and stays down. -/
theorem connection_lifecycle {sameLoop : Bool} {callbacks : Callbacks} {s : TcpServer}
    (hp : (TcpServer.machine sameLoop callbacks).Path (TcpServer.clean sameLoop)
      (.accepted sameLoop callbacks) s) : Orderly s.conn := by
  have h : TcpServer.Staged sameLoop s :=
    hp.invariant (fun _ _ _ h hc ht => h.step hc ht) TcpServer.Staged.accepted
  exact h.orderly

theorem connection_lifecycle_shutdown : ∃ s : TcpServer, s.conn.state = .kDisconnected ∧
    Orderly s.conn := by
  obtain ⟨s,hp,ht⟩ := Machine.exec_any (TcpServer.machine false ⟨false,false,0⟩)
    (TcpServer.clean false) (.accepted false ⟨false,false,0⟩)
    [.functor,.poll EPOLLIN .data (.wrote 0),.shutdown false,.setState,.queue,.functor,
      .destroyServer,.functor]
    (fun s => s.conn.state = .kDisconnected) (by decide +kernel)
  exact ⟨s,by simpa using ht,connection_lifecycle hp⟩

/-- A peer closes its end and the server then removes the connection: it is reported down
twice, and `state_` leaves `kDisconnected`. -/
theorem connection_lifecycle_close : ¬ ∀ (sameLoop : Bool) (callbacks : Callbacks) (s : TcpServer),
    (TcpServer.machine sameLoop callbacks).Path Machine.always (.accepted sameLoop callbacks) s →
    Orderly s.conn := by
  intro h
  obtain ⟨s,hp,ht⟩ := Machine.exec_any (TcpServer.machine true ⟨false,false,0⟩)
    Machine.always (.accepted true ⟨false,false,0⟩)
    [.poll EPOLLIN .eof (.wrote 0),.functor]
    (fun s => s.conn.trace.count (.connectionCallback false) = 2) (by decide +kernel)
  have htwo : s.conn.trace.count (.connectionCallback false) = 2 := by simpa using ht
  have hone := (h _ _ s hp).down
  omega

end SRaftMuduo
