import SRaftMuduo.Muduo.Lifecycle
import SRaftMuduo.Muduo.ThreadPool

namespace SRaftMuduo

/-- The bytes of an IPv4 address and a port. -/
structure InetAddress where
  a : Fin 256
  b : Fin 256
  c : Fin 256
  d : Fin 256
  port : Fin 65536
  deriving DecidableEq

/-- `%d` and `%u` of a number that is not negative. -/
def decimal (n : Nat) : CString := Nat.toDigits 10 n

def InetAddress.ToIpPort (addr : InetAddress) : CString :=
  decimal addr.a++['.']++decimal addr.b++['.']++decimal addr.c++['.']++decimal addr.d++[':']++
    decimal addr.port

/-- A functor in the queue of a loop, for the connection with the given number. -/
inductive Functor
  | task (id : Nat) (task : Task)
  | removeConnectionInLoop (id : Nat)
  deriving DecidableEq

/-- A `TcpServer` with all the connections it has accepted. A connection goes by the value of
`nextConnId_` at its `newConnection`; `connections` are the entries of the map. `stopping` and
`stopped` count the other threads in the `shutdown` of a connection, past its test of `state_`
and past the assignment. -/
structure ServerState (L : Type*) where
  pool : EventLoopThreadPool L
  name : CString
  ipPort : CString
  callbacks : Callbacks
  nextConnId : Nat
  conns : Nat → TcpConnection
  loops : Nat → L
  names : Nat → CString
  connections : List (CString × Nat)
  queue : L → List Functor
  alive : Bool
  stopping : Nat → Nat
  stopped : Nat → Nat

/-- `functor` is a turn of the loop `l`; `destroyServer` goes over `connections_` in the given
order. -/
inductive ServerEvent (L : Type*)
  | accept
  | functor (l : L)
  | poll (id : Nat) (revents : BitVec 32) (read : ReadResult) (write : WriteResult)
  | sendInLoop (id : Nat) (data : CString) (result : WriteResult)
  | shutdown (id : Nat) (inLoop : Bool)
  | setState (id : Nat)
  | queue (id : Nat)
  | destroyServer (order : List Nat)

namespace Functor

def taskOf (id : Nat) : Functor → Option Task
  | .task id' t => if id' = id then some t else none
  | .removeConnectionInLoop _ => none

end Functor

namespace ServerState

variable {L : Type*} [DecidableEq L]

/-- After `start`; `startloop i` is the loop of the thread number `i`. -/
def start (baseloop : L) (numThreads : Int) (startloop : Nat → L) (name : CString)
    (listenAddr : InetAddress) (callbacks : Callbacks) : ServerState L where
  pool := ((EventLoopThreadPool.new baseloop).SetThreadNum numThreads).Start startloop
  name := name
  ipPort := listenAddr.ToIpPort
  callbacks := callbacks
  nextConnId := 1
  conns := fun _ => .new callbacks
  loops := fun _ => baseloop
  names := fun _ => []
  connections := []
  queue := fun _ => []
  alive := true
  stopping := fun _ => 0
  stopped := fun _ => 0

/-- `snprintf` keeps what fits in the buffer of 64 bytes. -/
def connName (s : ServerState L) (id : Nat) : CString :=
  s.name++(['-']++s.ipPort++decimal id).take 63

def QueueInLoop (s : ServerState L) (l : L) (f : Functor) : ServerState L :=
  {s with queue := Function.update s.queue l (s.queue l++[f])}

def setConn (s : ServerState L) (id : Nat) (conn : TcpConnection) : ServerState L :=
  {s with conns := Function.update s.conns id conn}

/-- How many threads are in the `shutdown` of a connection. -/
def setCallers (s : ServerState L) (id : Nat) (stopping stopped : Nat) : ServerState L :=
  {s with
    stopping := Function.update s.stopping id stopping
    stopped := Function.update s.stopped id stopped}

/-- The map without the entry of the name. -/
def erased (s : ServerState L) (name : CString) : List (CString × Nat) :=
  s.connections.filter fun c => c.1 ≠ name

/-- `erase` takes the name of the connection. -/
def removeConnectionInLoop (s : ServerState L) (id : Nat) : ServerState L :=
  {s with connections := s.erased (s.names id)}.QueueInLoop (s.loops id)
    (.task id .connectDestroyed)

def run (s : ServerState L) : Functor → ServerState L
  | .task id task => s.setConn id (TcpServer.run (s.conns id) task)
  | .removeConnectionInLoop id => s.removeConnectionInLoop id

/-- `RunInLoop` in the thread of the server's loop. -/
def RunInLoop (s : ServerState L) (l : L) (f : Functor) : ServerState L :=
  if l = s.pool.baseloop then s.run f else s.QueueInLoop l f

/-- The object for a connection on the loop `r.1`, and its entry in the map. -/
def registered (s : ServerState L) (r : L × EventLoopThreadPool L) : ServerState L :=
  let id := s.nextConnId
  let connName := s.connName id
  {s with
    pool := r.2
    nextConnId := id+1
    conns := Function.update s.conns id (.new s.callbacks)
    loops := Function.update s.loops id r.1
    names := Function.update s.names id connName
    connections := s.erased connName++[(connName,id)]
    stopping := Function.update s.stopping id 0
    stopped := Function.update s.stopped id 0}

def newConnection (s : ServerState L) : Option (ServerState L) :=
  s.pool.GetNextLoop.bind fun r =>
    if s.nextConnId+1 < 2^31 then
      some ((s.registered r).RunInLoop r.1 (.task s.nextConnId .connectEstablished))
    else none

/-- What `closeCallback_` is bound to, called in the loop of the connection. -/
def removeConnection (id : Nat) (s : ServerState L) : ServerState L :=
  if s.loops id = s.pool.baseloop then s.removeConnectionInLoop id
  else s.QueueInLoop s.pool.baseloop (.removeConnectionInLoop id)

def handleEvent (s : ServerState L) (id : Nat) (revents : BitVec 32) (read : ReadResult)
    (write : WriteResult) : ServerState L :=
  (removeConnection id)^[TcpServer.closes (s.conns id) revents read write]
    (s.setConn id ((s.conns id).handleEvent revents read write))

/-- One turn of the loop of `~TcpServer`. -/
def destroyOne (s : ServerState L) (id : Nat) : ServerState L :=
  s.RunInLoop (s.loops id) (.task id .connectDestroyed)

def destroy (s : ServerState L) (order : List Nat) : ServerState L :=
  {order.foldl destroyOne s with connections := [], alive := false}

/-- The connection with the number has been accepted. -/
def holds (s : ServerState L) (id : Nat) : Prop := 0 < id ∧ id < s.nextConnId

instance (s : ServerState L) (id : Nat) : Decidable (s.holds id) :=
  inferInstanceAs (Decidable (_ ∧ _))

/-- What is bound to a server that is gone has no meaning, and is not run. -/
def step (s : ServerState L) : ServerEvent L → Option (ServerState L)
  | .accept => if s.alive then s.newConnection else none
  | .functor l =>
    match s.queue l with
    | [] => none
    | .task id task::fs => some ({s with queue := Function.update s.queue l fs}.run (.task id task))
    | .removeConnectionInLoop id::fs =>
      if s.alive then
        some ({s with queue := Function.update s.queue l fs}.removeConnectionInLoop id)
      else none
  | .poll id revents read write =>
    if s.holds id ∧ (s.conns id).channel.index = kAdded ∧
        (s.alive = true ∨ TcpServer.closes (s.conns id) revents read write = 0) then
      some (s.handleEvent id revents read write)
    else none
  | .sendInLoop id data result =>
    if s.holds id ∧ (s.conns id).state ≠ .kConnecting then
      some (s.setConn id ((s.conns id).sendInLoop data result))
    else none
  | .shutdown id inLoop =>
    if s.holds id then
      if (s.conns id).state = .kConnected then
        some (if inLoop then s.setConn id (s.conns id).shutdown.shutdownInLoop
          else s.setCallers id (s.stopping id+1) (s.stopped id))
      else some s
    else none
  | .setState id =>
    if s.holds id ∧ s.stopping id > 0 then
      some ((s.setConn id ((s.conns id).setState .kDisconnecting)).setCallers id
        (s.stopping id-1) (s.stopped id+1))
    else none
  | .queue id =>
    if s.holds id ∧ s.stopped id > 0 then
      some ((s.QueueInLoop (s.loops id) (.task id .shutdownInLoop)).setCallers id
        (s.stopping id) (s.stopped id-1))
    else none
  | .destroyServer order =>
    if s.alive = true ∧ order.Perm (s.connections.map Prod.snd) then some (s.destroy order)
    else none

def machine (s : ServerState L) : Machine (ServerState L) (ServerEvent L) :=
  ⟨fun t => t = s,step⟩

def sameLoop (s : ServerState L) (id : Nat) : Bool := s.loops id = s.pool.baseloop

/-- What concerns one connection. -/
def view (s : ServerState L) (id : Nat) : TcpServer where
  conn := s.conns id
  io := (s.queue (s.loops id)).filterMap (Functor.taskOf id)
  main := (s.queue s.pool.baseloop).count (.removeConnectionInLoop id)
  connections := s.connections.contains (s.names id,id)
  alive := s.alive
  stopping := s.stopping id
  stopped := s.stopped id

/-- What an event is for one connection. -/
def viewEvent (s : ServerState L) (id : Nat) : ServerEvent L → Option TcpServerEvent
  | .accept => none
  | .functor l =>
    match s.queue l with
    | .task id' _::_ => if id' = id then some .functor else none
    | .removeConnectionInLoop id'::_ => if id' = id then some .mainFunctor else none
    | [] => none
  | .poll id' revents read write => if id' = id then some (.poll revents read write) else none
  | .sendInLoop id' data result => if id' = id then some (.sendInLoop data result) else none
  | .shutdown id' inLoop => if id' = id then some (.shutdown inLoop) else none
  | .setState id' => if id' = id then some .setState else none
  | .queue id' => if id' = id then some .queue else none
  | .destroyServer _ => some .destroyServer

/-- The step is a good one for each connection. -/
def each (good : Bool → TcpServer → TcpServerEvent → Prop) (s : ServerState L)
    (e : ServerEvent L) : Prop :=
  ∀ id < s.nextConnId, 0 < id → ∀ e' ∈ s.viewEvent id e, good (s.sameLoop id) (s.view id) e'

instance (good : Bool → TcpServer → TcpServerEvent → Prop)
    [∀ b s e, Decidable (good b s e)] (s : ServerState L) (e : ServerEvent L) :
    Decidable (s.each good e) :=
  inferInstanceAs (Decidable (∀ id < s.nextConnId, 0 < id → ∀ e' ∈ s.viewEvent id e,
    good (s.sameLoop id) (s.view id) e'))

/-- What every server keeps: names tell the connections apart, the map holds accepted ones
only, and a functor is in the queue it is for. -/
structure Proper (s : ServerState L) : Prop where
  next : 0 < s.nextConnId ∧ s.nextConnId < 2^31
  ipPort : s.ipPort.length ≤ 21
  names : ∀ id, s.holds id → s.names id = s.connName id
  connections : ∀ c ∈ s.connections, s.holds c.2 ∧ c.1 = s.names c.2
  ids : (s.connections.map Prod.snd).Nodup
  tasks : ∀ l id task, .task id task ∈ s.queue l → s.holds id ∧ l = s.loops id
  removals : ∀ l id, .removeConnectionInLoop id ∈ s.queue l →
    s.holds id ∧ l = s.pool.baseloop ∧ s.loops id ≠ s.pool.baseloop

end ServerState

attribute [ext] TcpServer

theorem decimal_inj {m n : Nat} (h : decimal m = decimal n) : m = n := by
  have hm := Nat.ofDigitChars_ten_toDigits (n := m)
  rw [show Nat.toDigits 10 m = Nat.toDigits 10 n from h,Nat.ofDigitChars_ten_toDigits] at hm
  exact hm.symm

theorem decimal_length {n k : Nat} (hk : 0 < k) (h : n < 10^k) : (decimal n).length ≤ k :=
  (Nat.length_toDigits_le_iff (by decide) hk).mpr h

theorem InetAddress.ToIpPort_length (addr : InetAddress) : addr.ToIpPort.length ≤ 21 := by
  have hbyte (x : Fin 256) : (decimal x).length ≤ 3 :=
    decimal_length (by decide) (by have := x.isLt; omega)
  have hport : (decimal addr.port).length ≤ 5 :=
    decimal_length (by decide) (by have := addr.port.isLt; omega)
  have ha := hbyte addr.a
  have hb := hbyte addr.b
  have hc := hbyte addr.c
  have hd := hbyte addr.d
  simp only [ToIpPort,List.length_append,List.length_singleton]
  omega

namespace ServerState

variable {L : Type*} [DecidableEq L] {s t : ServerState L} {id id' : Nat} {l : L}
  {f : Functor} {task : Task}

omit [DecidableEq L] in
/-- No name is cut, and so no two connections share one. -/
theorem connName_inj (hs : s.ipPort.length ≤ 21) (h : id < 2^31) (h' : id' < 2^31)
    (heq : s.connName id = s.connName id') : id = id' := by
  have hshort (n : Nat) (hn : n < 2^31) :
      (['-']++s.ipPort++decimal n).take 63 = ['-']++s.ipPort++decimal n := by
    have hlen : (decimal n).length ≤ 10 := decimal_length (by decide) (by omega)
    refine List.take_of_length_le ?_
    simp only [List.length_append,List.length_singleton]
    omega
  rw [connName,connName,hshort id h,hshort id' h'] at heq
  exact decimal_inj (List.append_cancel_left (List.append_cancel_left heq))

omit [DecidableEq L] in
theorem Proper.names_inj (h : s.Proper) (hid : s.holds id) (hid' : s.holds id')
    (heq : s.names id = s.names id') : id = id' := by
  rw [h.names id hid,h.names id' hid'] at heq
  exact connName_inj h.ipPort (lt_trans hid.2 h.next.2) (lt_trans hid'.2 h.next.2) heq

omit [DecidableEq L] in
theorem view_setConn (s : ServerState L) (id id' : Nat) (conn : TcpConnection) :
    (s.setConn id' conn).view id =
      if id = id' then {s.view id with conn := conn} else s.view id := by
  by_cases h : id = id'
  · subst h
    rw [if_pos rfl]
    simp [view,setConn]
  · rw [if_neg h]
    simp [view,setConn,h]

omit [DecidableEq L] in
theorem view_setCallers (s : ServerState L) (id id' : Nat) (stopping stopped : Nat) :
    (s.setCallers id' stopping stopped).view id =
      if id = id' then {s.view id with stopping := stopping, stopped := stopped}
      else s.view id := by
  by_cases h : id = id'
  · subst h
    rw [if_pos rfl]
    simp [view,setCallers]
  · rw [if_neg h]
    simp [view,setCallers,h]

theorem view_task (h : l = s.loops id') (t : Task) :
    (s.QueueInLoop l (.task id' t)).view id =
      if id = id' then {s.view id with io := (s.view id).io++[t]} else s.view id := by
  have hmain : ((s.QueueInLoop l (.task id' t)).view id).main = (s.view id).main := by
    by_cases hl : s.pool.baseloop = l <;> simp [view,QueueInLoop,Function.update_apply,hl]
  have hio : ((s.QueueInLoop l (.task id' t)).view id).io =
      (s.view id).io++if id = id' then [t] else [] := by
    by_cases hid : id' = id
    · subst hid
      simp [view,QueueInLoop,h,Functor.taskOf]
    · by_cases hl : s.loops id = l <;>
        simp [view,QueueInLoop,Function.update_apply,hl,Functor.taskOf,hid,Ne.symm hid]
  by_cases hid : id = id'
  · rw [if_pos hid] at hio ⊢
    exact TcpServer.ext rfl hio hmain rfl rfl rfl rfl
  · rw [if_neg hid,List.append_nil] at hio
    rw [if_neg hid]
    exact TcpServer.ext rfl hio hmain rfl rfl rfl rfl

theorem view_removal (s : ServerState L) (id id' : Nat) :
    (s.QueueInLoop s.pool.baseloop (.removeConnectionInLoop id')).view id =
      if id = id' then {s.view id with main := (s.view id).main+1} else s.view id := by
  have hio : ((s.QueueInLoop s.pool.baseloop (.removeConnectionInLoop id')).view id).io =
      (s.view id).io := by
    by_cases hl : s.loops id = s.pool.baseloop <;>
      simp [view,QueueInLoop,hl,Functor.taskOf]
  have hmain : ((s.QueueInLoop s.pool.baseloop (.removeConnectionInLoop id')).view id).main =
      (s.view id).main+if id = id' then 1 else 0 := by
    by_cases hid : id = id' <;> simp [view,QueueInLoop,List.count_append,hid,Ne.symm]
  by_cases hid : id = id'
  · rw [if_pos hid] at hmain ⊢
    exact TcpServer.ext rfl hio hmain rfl rfl rfl rfl
  · rw [if_neg hid] at hmain ⊢
    exact TcpServer.ext rfl hio hmain rfl rfl rfl rfl

theorem view_popped_task (id : Nat) {t : Task} {fs : List Functor} (h : s.queue l = .task id' t::fs)
    (hl : l = s.loops id') :
    s.view id =
      let popped := {s with queue := Function.update s.queue l fs}
      if id = id' then {popped.view id with io := t::(popped.view id).io}
      else popped.view id := by
  subst hl
  by_cases hid : id = id'
  · subst hid
    have hmain : (s.queue s.pool.baseloop).count (.removeConnectionInLoop id) =
        (Function.update s.queue (s.loops id) fs s.pool.baseloop).count
          (.removeConnectionInLoop id) := by
      by_cases hb : s.pool.baseloop = s.loops id
      · rw [hb,Function.update_self,h]
        simp
      · rw [Function.update_of_ne hb]
    have hio : (s.queue (s.loops id)).filterMap (Functor.taskOf id) =
        t::(Function.update s.queue (s.loops id) fs (s.loops id)).filterMap
          (Functor.taskOf id) := by
      rw [h,Function.update_self]
      simp [Functor.taskOf]
    simp only [↓reduceIte]
    exact TcpServer.ext rfl hio hmain rfl rfl rfl rfl
  · have hmain : (s.queue s.pool.baseloop).count (.removeConnectionInLoop id) =
        (Function.update s.queue (s.loops id') fs s.pool.baseloop).count
          (.removeConnectionInLoop id) := by
      by_cases hb : s.pool.baseloop = s.loops id'
      · rw [hb,Function.update_self,h]
        simp
      · rw [Function.update_of_ne hb]
    have hio : (s.queue (s.loops id)).filterMap (Functor.taskOf id) =
        (Function.update s.queue (s.loops id') fs (s.loops id)).filterMap (Functor.taskOf id) := by
      by_cases hb : s.loops id = s.loops id'
      · rw [hb,Function.update_self,h]
        simp [Functor.taskOf,Ne.symm hid]
      · rw [Function.update_of_ne hb]
    simp only [hid,↓reduceIte]
    exact TcpServer.ext rfl hio hmain rfl rfl rfl rfl

theorem view_popped_removal (id : Nat) {fs : List Functor}
    (h : s.queue s.pool.baseloop = .removeConnectionInLoop id'::fs) :
    s.view id =
      let popped := {s with queue := Function.update s.queue s.pool.baseloop fs}
      if id = id' then {popped.view id with main := (popped.view id).main+1}
      else popped.view id := by
  have hio : (s.queue (s.loops id)).filterMap (Functor.taskOf id) =
      (Function.update s.queue s.pool.baseloop fs (s.loops id)).filterMap
        (Functor.taskOf id) := by
    by_cases hb : s.loops id = s.pool.baseloop
    · rw [hb,Function.update_self,h,List.filterMap_cons]
      rfl
    · rw [Function.update_of_ne hb]
  have hmain : (s.queue s.pool.baseloop).count (.removeConnectionInLoop id) =
      (Function.update s.queue s.pool.baseloop fs s.pool.baseloop).count
        (.removeConnectionInLoop id)+if id = id' then 1 else 0 := by
    rw [Function.update_self,h]
    by_cases hid : id = id' <;> simp [hid,Ne.symm]
  by_cases hid : id = id'
  · rw [if_pos hid] at hmain
    simp only [hid,↓reduceIte] at hio hmain ⊢
    exact TcpServer.ext rfl hio hmain rfl rfl rfl rfl
  · rw [if_neg hid] at hmain
    simp only [hid,↓reduceIte]
    exact TcpServer.ext rfl hio hmain rfl rfl rfl rfl

omit [DecidableEq L] in
/-- Erasing the name of one connection leaves the others in the map. -/
theorem view_erased (h : s.Proper) (hid : s.holds id) (hid' : s.holds id') :
    view {s with connections := s.erased (s.names id')} id =
      if id = id' then {s.view id with connections := false} else s.view id := by
  have hmem : (s.erased (s.names id')).contains (s.names id,id) =
      if id = id' then false else s.connections.contains (s.names id,id) := by
    by_cases heq : id = id'
    · simp [erased,heq]
    · have hne : s.names id ≠ s.names id' := fun hn => heq (h.names_inj hid hid' hn)
      simp [erased,heq,hne]
  by_cases heq : id = id'
  · rw [if_pos heq] at hmem ⊢
    exact TcpServer.ext rfl rfl rfl hmem rfl rfl rfl
  · rw [if_neg heq] at hmem ⊢
    exact TcpServer.ext rfl rfl rfl hmem rfl rfl rfl

theorem view_removeConnectionInLoop (h : s.Proper) (hid : s.holds id) (hid' : s.holds id') :
    (s.removeConnectionInLoop id').view id =
      if id = id' then (s.view id).removeConnectionInLoop else s.view id := by
  rw [removeConnectionInLoop,view_task rfl,view_erased h hid hid']
  split_ifs <;> rfl

theorem view_removeConnection (h : s.Proper) (hid : s.holds id) (hid' : s.holds id') :
    (s.removeConnection id').view id =
      if id = id' then (s.view id).removeConnection (s.sameLoop id) else s.view id := by
  rw [removeConnection,TcpServer.removeConnection]
  by_cases heq : id = id'
  · subst heq
    rw [if_pos rfl]
    by_cases hl : s.loops id = s.pool.baseloop
    · have hsame : s.sameLoop id = true := decide_eq_true hl
      rw [if_pos hl,view_removeConnectionInLoop h hid hid,if_pos rfl,if_pos hsame]
    · have hsame : s.sameLoop id ≠ true := fun hsame => hl (of_decide_eq_true hsame)
      rw [if_neg hl,view_removal,if_pos rfl,if_neg hsame]
  · rw [if_neg heq]
    split_ifs
    · rw [view_removeConnectionInLoop h hid hid',if_neg heq]
    · rw [view_removal,if_neg heq]

theorem Proper.queue_task (h : s.Proper) (hid : s.holds id) (t : Task) :
    (s.QueueInLoop (s.loops id) (.task id t)).Proper := by
  refine ⟨h.next,h.ipPort,h.names,h.connections,h.ids,fun l id' t' hmem => ?_,
    fun l id' hmem => ?_⟩
  · simp only [QueueInLoop,Function.update_apply] at hmem
    split_ifs at hmem with hl
    · rw [hl]
      cases List.mem_append.mp hmem with
      | inl hmem => exact h.tasks _ id' t' hmem
      | inr hmem =>
        obtain ⟨rfl,-⟩ := Functor.task.inj (List.mem_singleton.mp hmem)
        exact ⟨hid,rfl⟩
    · exact h.tasks l id' t' hmem
  · simp only [QueueInLoop,Function.update_apply] at hmem
    split_ifs at hmem with hl
    · rw [hl]
      cases List.mem_append.mp hmem with
      | inl hmem => exact h.removals _ id' hmem
      | inr hmem => exact nomatch List.mem_singleton.mp hmem
    · exact h.removals l id' hmem

theorem Proper.queue_removal (h : s.Proper) (hid : s.holds id)
    (hl : s.loops id ≠ s.pool.baseloop) :
    (s.QueueInLoop s.pool.baseloop (.removeConnectionInLoop id)).Proper := by
  refine ⟨h.next,h.ipPort,h.names,h.connections,h.ids,fun l id' t' hmem => ?_,
    fun l id' hmem => ?_⟩
  · simp only [QueueInLoop,Function.update_apply] at hmem
    split_ifs at hmem with hb
    · rw [hb]
      cases List.mem_append.mp hmem with
      | inl hmem => exact h.tasks _ id' t' hmem
      | inr hmem => exact nomatch List.mem_singleton.mp hmem
    · exact h.tasks l id' t' hmem
  · simp only [QueueInLoop,Function.update_apply] at hmem
    split_ifs at hmem with hb
    · rw [hb]
      cases List.mem_append.mp hmem with
      | inl hmem => exact h.removals _ id' hmem
      | inr hmem =>
        obtain rfl := Functor.removeConnectionInLoop.inj (List.mem_singleton.mp hmem)
        exact ⟨hid,rfl,hl⟩
    · exact h.removals l id' hmem

theorem Proper.popped (h : s.Proper) {fs : List Functor} (hl : s.queue l = f::fs) :
    Proper {s with queue := Function.update s.queue l fs} := by
  have hsub (l' : L) : ∀ f' ∈ Function.update s.queue l fs l', f' ∈ s.queue l' := by
    intro f' hf'
    rw [Function.update_apply] at hf'
    split_ifs at hf' with heq
    · rw [heq,hl]
      exact List.mem_cons_of_mem _ hf'
    · exact hf'
  exact ⟨h.next,h.ipPort,h.names,h.connections,h.ids,
    fun l' id t hmem => h.tasks l' id t (hsub l' _ hmem),
    fun l' id hmem => h.removals l' id (hsub l' _ hmem)⟩

omit [DecidableEq L] in
theorem Proper.setConn (h : s.Proper) (id : Nat) (conn : TcpConnection) :
    (s.setConn id conn).Proper :=
  ⟨h.next,h.ipPort,h.names,h.connections,h.ids,h.tasks,h.removals⟩

omit [DecidableEq L] in
theorem Proper.erased (h : s.Proper) (name : CString) :
    Proper {s with connections := s.erased name} :=
  ⟨h.next,h.ipPort,h.names,fun c hc => h.connections c (List.mem_filter.mp hc).1,
    h.ids.sublist (List.filter_sublist.map _),h.tasks,h.removals⟩

theorem Proper.removeConnectionInLoop (h : s.Proper) (hid : s.holds id) :
    (s.removeConnectionInLoop id).Proper :=
  (h.erased (s.names id)).queue_task (s := {s with connections := s.erased (s.names id)}) hid _

theorem Proper.removeConnection (h : s.Proper) (hid : s.holds id) :
    (s.removeConnection id).Proper := by
  unfold ServerState.removeConnection
  split_ifs with hl
  · exact h.removeConnectionInLoop hid
  · exact h.queue_removal hid hl

/-- Nothing that says which connections there are and where they run has changed. -/
structure Kept (s t : ServerState L) : Prop where
  callbacks : t.callbacks = s.callbacks
  next : t.nextConnId = s.nextConnId
  loops : t.loops = s.loops
  pool : t.pool = s.pool

omit [DecidableEq L] in
theorem Kept.refl (s : ServerState L) : Kept s s := ⟨rfl,rfl,rfl,rfl⟩

omit [DecidableEq L] in
theorem Kept.trans {u : ServerState L} (h : Kept s t) (k : Kept t u) : Kept s u :=
  ⟨k.callbacks.trans h.callbacks,k.next.trans h.next,k.loops.trans h.loops,
    k.pool.trans h.pool⟩

omit [DecidableEq L] in
theorem Kept.holds (h : Kept s t) (hid : t.holds id ∨ s.holds id) : s.holds id ∧ t.holds id := by
  have hnext := h.next
  cases hid with
  | inl hid => exact ⟨⟨hid.1,by have := hid.2; omega⟩,hid⟩
  | inr hid => exact ⟨hid,hid.1,by have := hid.2; omega⟩

theorem Kept.sameLoop (h : Kept s t) (id : Nat) : t.sameLoop id = s.sameLoop id := by
  rw [ServerState.sameLoop,ServerState.sameLoop,h.loops,h.pool]

theorem Kept.removeConnection (s : ServerState L) (id : Nat) :
    Kept s (s.removeConnection id) := by
  unfold ServerState.removeConnection
  split_ifs <;> exact ⟨rfl,rfl,rfl,rfl⟩

theorem removeConnections (h : s.Proper) (hid' : s.holds id') (n : Nat) :
    ((removeConnection id')^[n] s).Proper ∧ Kept s ((removeConnection id')^[n] s) ∧
      ∀ id, s.holds id → ((removeConnection id')^[n] s).view id =
        if id = id' then (TcpServer.removeConnection (s.sameLoop id))^[n] (s.view id)
        else s.view id := by
  induction n generalizing s with
  | zero => exact ⟨h,.refl s,fun id _ => (ite_self _).symm⟩
  | succ n ih =>
    have hkept : Kept s (s.removeConnection id') := .removeConnection s id'
    obtain ⟨hproper,hkept',hview⟩ := ih (h.removeConnection hid') (hkept.holds (.inr hid')).2
    refine ⟨hproper,hkept.trans hkept',fun id hid => ?_⟩
    rw [Function.iterate_succ_apply,hview id (hkept.holds (.inr hid)).2,hkept.sameLoop,
      view_removeConnection h hid hid',Function.iterate_succ_apply]
    by_cases heq : id = id'
    · simp only [if_pos heq]
    · simp only [if_neg heq]

/-- A connection is destroyed in its loop. -/
def destroyed (sameLoop : Bool) (v : TcpServer) : TcpServer :=
  if sameLoop then {v with conn := v.conn.connectDestroyed}
  else {v with io := v.io++[.connectDestroyed]}

theorem view_destroyOne (s : ServerState L) (id id' : Nat) :
    (s.destroyOne id').view id =
      if id = id' then destroyed (s.sameLoop id) (s.view id) else s.view id := by
  rw [destroyOne,RunInLoop]
  by_cases hl : s.loops id' = s.pool.baseloop
  · rw [if_pos hl,run,view_setConn]
    by_cases hid : id = id'
    · subst hid
      have hsame : s.sameLoop id = true := decide_eq_true hl
      rw [if_pos rfl,if_pos rfl,destroyed,if_pos hsame]
      rfl
    · rw [if_neg hid,if_neg hid]
  · rw [if_neg hl,view_task rfl]
    by_cases hid : id = id'
    · subst hid
      have hsame : s.sameLoop id ≠ true := fun hsame => hl (of_decide_eq_true hsame)
      rw [if_pos rfl,if_pos rfl,destroyed,if_neg hsame]
    · rw [if_neg hid,if_neg hid]

theorem Kept.destroyOne (s : ServerState L) (id : Nat) : Kept s (s.destroyOne id) := by
  unfold ServerState.destroyOne RunInLoop
  split_ifs <;> exact ⟨rfl,rfl,rfl,rfl⟩

theorem Proper.destroyOne (h : s.Proper) (hid : s.holds id) : (s.destroyOne id).Proper := by
  unfold ServerState.destroyOne RunInLoop
  split_ifs
  · exact h.setConn _ _
  · exact h.queue_task hid _

/-- Every connection that is in the list is destroyed once. -/
theorem destroyAll {order : List Nat} (h : s.Proper) (hnodup : order.Nodup)
    (hmem : ∀ id ∈ order, s.holds id) :
    (order.foldl destroyOne s).Proper ∧ Kept s (order.foldl destroyOne s) ∧
      (order.foldl destroyOne s).connections = s.connections ∧
      ∀ id, (order.foldl destroyOne s).view id =
        if id ∈ order then destroyed (s.sameLoop id) (s.view id) else s.view id := by
  induction order generalizing s with
  | nil => exact ⟨h,.refl s,rfl,fun id => (if_neg List.not_mem_nil).symm⟩
  | cons id' order ih =>
    rw [List.nodup_cons] at hnodup
    have hkept : Kept s (s.destroyOne id') := .destroyOne s id'
    have hconn : (s.destroyOne id').connections = s.connections := by
      unfold destroyOne RunInLoop
      split_ifs <;> rfl
    obtain ⟨hproper,hkept',hconn',hview⟩ := ih (h.destroyOne (hmem id' List.mem_cons_self))
      hnodup.2 fun id hid => (hkept.holds (.inr (hmem id (List.mem_cons_of_mem _ hid)))).2
    refine ⟨hproper,hkept.trans hkept',hconn'.trans hconn,fun id => ?_⟩
    rw [List.foldl_cons,hview id,view_destroyOne,hkept.sameLoop]
    by_cases heq : id = id'
    · subst heq
      rw [if_neg hnodup.1,if_pos rfl,if_pos List.mem_cons_self]
    · simp only [List.mem_cons,heq,false_or,if_false]

/-- A step as the connections see it: each takes the event that it is for it, and a new one
starts as accepted. -/
structure Seen (s t : ServerState L) (e : ServerEvent L) : Prop where
  proper : t.Proper
  callbacks : t.callbacks = s.callbacks
  holds : ∀ id, s.holds id → t.holds id
  sameLoop : ∀ id, s.holds id → t.sameLoop id = s.sameLoop id
  quiet : ∀ id, s.holds id → s.viewEvent id e = none → t.view id = s.view id
  event : ∀ id, s.holds id → ∀ e' ∈ s.viewEvent id e,
    (s.view id).step (s.sameLoop id) e' = some (t.view id)
  new : ∀ id, t.holds id → s.holds id ∨
    t.view id = TcpServer.accepted (t.sameLoop id) s.callbacks

variable {e : ServerEvent L} {e' : TcpServerEvent}

/-- An event of one connection. -/
theorem Seen.one (id' : Nat) (e' : TcpServerEvent) (hproper : t.Proper) (hkept : Kept s t)
    (he : ∀ id, s.viewEvent id e = if id' = id then some e' else none)
    (hself : (s.view id').step (s.sameLoop id') e' = some (t.view id'))
    (hother : ∀ id, s.holds id → id ≠ id' → t.view id = s.view id) : Seen s t e where
  proper := hproper
  callbacks := hkept.callbacks
  holds := fun id hid => (hkept.holds (.inr hid)).2
  sameLoop := fun id _ => hkept.sameLoop id
  quiet := fun id hid hnone => by
    refine hother id hid fun heq => ?_
    rw [he,if_pos heq.symm] at hnone
    cases hnone
  event := fun id _ x hx => by
    rw [he,Option.mem_def] at hx
    split_ifs at hx with heq
    obtain rfl := Option.some.inj hx
    rw [← heq]
    exact hself
  new := fun id hid => .inl (hkept.holds (.inl hid)).1

theorem seen_task {t : Task} {fs : List Functor} (h : s.Proper)
    (hl : s.queue l = .task id' t::fs) :
    Seen s (run {s with queue := Function.update s.queue l fs} (.task id' t)) (.functor l) := by
  have hloop : l = s.loops id' := (h.tasks l id' t (by rw [hl]; exact List.mem_cons_self)).2
  have hview (id : Nat) := view_popped_task id hl hloop
  refine .one id' .functor ((h.popped hl).setConn _ _) ⟨rfl,rfl,rfl,rfl⟩
    (fun id => by rw [viewEvent,hl]) ?_ fun id _ hne => ?_
  · rw [run,view_setConn,if_pos rfl,hview id',if_pos rfl]
    rfl
  · rw [run,view_setConn,if_neg hne,hview id,if_neg hne]

theorem seen_removal {fs : List Functor} (h : s.Proper) (halive : s.alive = true)
    (hl : s.queue l = .removeConnectionInLoop id'::fs) :
    Seen s (removeConnectionInLoop {s with queue := Function.update s.queue l fs} id')
      (.functor l) := by
  obtain ⟨hid',rfl,-⟩ := h.removals l id' (by rw [hl]; exact List.mem_cons_self)
  have hview (id : Nat) := view_popped_removal id hl
  have hproper := h.popped hl
  refine .one id' .mainFunctor (hproper.removeConnectionInLoop hid')
    ⟨rfl,rfl,rfl,rfl⟩ (fun id => by rw [viewEvent,hl]) ?_ fun id hid hne => ?_
  · rw [view_removeConnectionInLoop hproper hid' hid',if_pos rfl,hview id',if_pos rfl,
      TcpServer.step,if_pos ⟨halive,Nat.succ_pos _⟩]
    rfl
  · rw [view_removeConnectionInLoop hproper hid hid',if_neg hne,hview id,if_neg hne]

theorem seen_poll {revents : BitVec 32} {read : ReadResult} {write : WriteResult}
    (h : s.Proper) (hid' : s.holds id') (hi : (s.conns id').channel.index = kAdded ∧
      (s.alive = true ∨ TcpServer.closes (s.conns id') revents read write = 0)) :
    Seen s (s.handleEvent id' revents read write) (.poll id' revents read write) := by
  have hset := h.setConn id' ((s.conns id').handleEvent revents read write)
  obtain ⟨hproper,hkept,hview⟩ := removeConnections hset hid'
    (TcpServer.closes (s.conns id') revents read write)
  refine .one id' (.poll revents read write) hproper
    ⟨hkept.callbacks,hkept.next,hkept.loops,hkept.pool⟩ (fun id => rfl) ?_ fun id hid hne => ?_
  · rw [handleEvent,hview id' hid',if_pos rfl,view_setConn,if_pos rfl]
    exact if_pos hi
  · rw [handleEvent,hview id hid,if_neg hne,view_setConn,if_neg hne]

theorem seen_setConn (e' : TcpServerEvent) {conn : TcpConnection} (h : s.Proper)
    (he : ∀ id, s.viewEvent id e = if id' = id then some e' else none)
    (hstep : (s.view id').step (s.sameLoop id') e' = some {s.view id' with conn := conn}) :
    Seen s (s.setConn id' conn) e := by
  refine .one id' e' (h.setConn _ _) ⟨rfl,rfl,rfl,rfl⟩ he ?_ fun id _ hne => ?_
  · rw [hstep,view_setConn,if_pos rfl]
  · rw [view_setConn,if_neg hne]

omit [DecidableEq L] in
theorem Proper.setCallers (h : s.Proper) (id stopping stopped : Nat) :
    (s.setCallers id stopping stopped).Proper :=
  ⟨h.next,h.ipPort,h.names,h.connections,h.ids,h.tasks,h.removals⟩

theorem seen_shutdown {inLoop : Bool} (h : s.Proper)
    (ht : s.step (.shutdown id' inLoop) = some t) : Seen s t (.shutdown id' inLoop) := by
  have hstep : (s.view id').step (s.sameLoop id') (.shutdown inLoop) =
      if (s.conns id').state = .kConnected then
        some (if inLoop then {s.view id' with conn := (s.conns id').shutdown.shutdownInLoop}
          else {s.view id' with stopping := s.stopping id'+1})
      else some (s.view id') := rfl
  obtain ⟨-,ht⟩ := Option.ite_none_right_eq_some.mp ht
  split_ifs at ht hstep with hc hin
  · obtain rfl := Option.some.inj ht
    exact seen_setConn (.shutdown inLoop) h (fun id => rfl) hstep
  · obtain rfl := Option.some.inj ht
    refine .one id' (.shutdown inLoop) (h.setCallers _ _ _) ⟨rfl,rfl,rfl,rfl⟩ (fun id => rfl) ?_
      fun id _ hne => ?_
    · rw [hstep,view_setCallers,if_pos rfl]
      rfl
    · rw [view_setCallers,if_neg hne]
  · obtain rfl := Option.some.inj ht
    exact .one id' (.shutdown inLoop) h (.refl s) (fun id => rfl) hstep fun _ _ _ => rfl

theorem seen_setState (h : s.Proper) (ht : s.step (.setState id') = some t) :
    Seen s t (.setState id') := by
  obtain ⟨⟨-,hpos⟩,ht⟩ := Option.ite_none_right_eq_some.mp ht
  obtain rfl := Option.some.inj ht
  refine .one id' .setState ((h.setConn _ _).setCallers _ _ _) ⟨rfl,rfl,rfl,rfl⟩
    (fun id => rfl) ?_ fun id _ hne => ?_
  · rw [view_setCallers,if_pos rfl,view_setConn,if_pos rfl]
    exact if_pos hpos
  · rw [view_setCallers,if_neg hne,view_setConn,if_neg hne]

theorem seen_queue (h : s.Proper) (ht : s.step (.queue id') = some t) :
    Seen s t (.queue id') := by
  obtain ⟨⟨hid',hpos⟩,ht⟩ := Option.ite_none_right_eq_some.mp ht
  obtain rfl := Option.some.inj ht
  refine .one id' .queue ((h.queue_task hid' _).setCallers _ _ _) ⟨rfl,rfl,rfl,rfl⟩
    (fun id => rfl) ?_ fun id _ hne => ?_
  · rw [view_setCallers,if_pos rfl,view_task rfl,if_pos rfl]
    exact if_pos hpos
  · rw [view_setCallers,if_neg hne,view_task rfl,if_neg hne]

theorem seen_destroy {order : List Nat} (h : s.Proper) (halive : s.alive = true)
    (hperm : order.Perm (s.connections.map Prod.snd)) :
    Seen s (s.destroy order) (.destroyServer order) := by
  have hmem (id : Nat) (hid : s.holds id) :
      id ∈ order ↔ s.connections.contains (s.names id,id) = true := by
    rw [hperm.mem_iff,List.contains_iff_mem,List.mem_map]
    constructor
    · rintro ⟨c,hc,rfl⟩
      obtain ⟨-,hname⟩ := h.connections c hc
      rw [← hname]
      exact hc
    · exact fun hc => ⟨_,hc,rfl⟩
  have hheld (id : Nat) (hid : id ∈ order) : s.holds id := by
    obtain ⟨c,hc,rfl⟩ := List.mem_map.mp (hperm.mem_iff.mp hid)
    exact (h.connections c hc).1
  obtain ⟨hproper,hkept,-,hview⟩ := destroyAll h (hperm.nodup_iff.mpr h.ids) hheld
  refine ⟨⟨hproper.next,hproper.ipPort,hproper.names,nofun,List.nodup_nil,hproper.tasks,
    hproper.removals⟩,hkept.callbacks,fun id hid => (hkept.holds (.inr hid)).2,
    fun id _ => hkept.sameLoop id,fun id _ => nofun,fun id hid e' he => ?_,
    fun id hid => .inl (hkept.holds (.inl hid)).1⟩
  obtain rfl := Option.some.inj he
  have hdestroy : (s.destroy order).view id =
      {(order.foldl destroyOne s).view id with connections := false, alive := false} := rfl
  rw [TcpServer.step,if_pos (show (s.view id).alive = true from halive),hdestroy,hview id,
    TcpServer.destroy]
  by_cases hin : id ∈ order
  · have hc : (s.view id).connections = true := (hmem id hid).mp hin
    rw [if_pos hin]
    simp only [hc,↓reduceIte,destroyed]
    split_ifs <;> rfl
  · have hc : (s.view id).connections ≠ true := fun hc => hin ((hmem id hid).mpr hc)
    rw [if_neg hin]
    simp only [hc,Bool.false_eq_true,↓reduceIte]

omit [DecidableEq L] in
theorem GetNextLoop_baseloop {p : EventLoopThreadPool L} {r : L × EventLoopThreadPool L}
    (h : p.GetNextLoop = some r) : r.2.baseloop = p.baseloop := by
  rw [EventLoopThreadPool.GetNextLoop] at h
  split_ifs at h
  · obtain rfl := Option.some.inj h
    rfl
  · obtain ⟨loop,-,h⟩ := Option.bind_eq_some_iff.mp h
    dsimp only at h
    split_ifs at h <;> obtain rfl := Option.some.inj h <;> rfl

variable {r : L × EventLoopThreadPool L}

omit [DecidableEq L] in
theorem Proper.registered (h : s.Proper) (hbase : r.2.baseloop = s.pool.baseloop)
    (hnext : s.nextConnId+1 < 2^31) : (s.registered r).Proper := by
  have hne {id : Nat} (hid : s.holds id) : id ≠ s.nextConnId := fun heq => by
    have := hid.2
    omega
  have hgrow {id : Nat} (hid : s.holds id) : (s.registered r).holds id :=
    ⟨hid.1,Nat.lt_succ_of_lt hid.2⟩
  have hnames {id : Nat} (hid : s.holds id) : (s.registered r).names id = s.names id :=
    Function.update_of_ne (hne hid) _ _
  have hloops {id : Nat} (hid : s.holds id) : (s.registered r).loops id = s.loops id :=
    Function.update_of_ne (hne hid) _ _
  refine ⟨⟨Nat.succ_pos _,hnext⟩,h.ipPort,fun id hid => ?_,fun c hc => ?_,?_,
    fun l id t hmem => ?_,fun l id hmem => ?_⟩
  · by_cases heq : id = s.nextConnId
    · rw [heq]
      exact Function.update_self _ _ _
    · have hold : s.holds id := by
        have hlt : id < s.nextConnId+1 := hid.2
        exact ⟨hid.1,by omega⟩
      rw [hnames hold,h.names id hold]
      rfl
  · cases List.mem_append.mp hc with
    | inl hc =>
      obtain ⟨hheld,hname⟩ := h.connections c (List.mem_filter.mp hc).1
      exact ⟨hgrow hheld,hname.trans (hnames hheld).symm⟩
    | inr hc =>
      obtain rfl := List.mem_singleton.mp hc
      have hname : (s.registered r).names s.nextConnId = s.connName s.nextConnId :=
        Function.update_self _ _ _
      exact ⟨⟨h.next.1,Nat.lt_succ_self _⟩,hname.symm⟩
  · show ((s.erased _++[_]).map Prod.snd).Nodup
    rw [List.map_append,List.nodup_append]
    refine ⟨h.ids.sublist (List.filter_sublist.map _),List.pairwise_singleton _ _,?_⟩
    intro x hx y hy heq
    obtain ⟨c,hc,rfl⟩ := List.mem_map.mp hx
    obtain rfl := List.mem_singleton.mp hy
    exact hne (h.connections c (List.mem_filter.mp hc).1).1 heq
  · obtain ⟨hid,hl⟩ := h.tasks l id t hmem
    exact ⟨hgrow hid,hl.trans (hloops hid).symm⟩
  · obtain ⟨hid,hl,hb⟩ := h.removals l id hmem
    rw [← hbase] at hl hb
    exact ⟨hgrow hid,hl,by rw [hloops hid]; exact hb⟩

omit [DecidableEq L] in
/-- The other connections do not notice. -/
theorem view_registered (h : s.Proper) (hbase : r.2.baseloop = s.pool.baseloop)
    (hnext : s.nextConnId+1 < 2^31) (hid : s.holds id) :
    (s.registered r).view id = s.view id := by
  have hne : id ≠ s.nextConnId := fun heq => by
    have := hid.2
    omega
  have hnames : (s.registered r).names id = s.names id := Function.update_of_ne hne _ _
  have hloops : (s.registered r).loops id = s.loops id := Function.update_of_ne hne _ _
  have hother : s.names id ≠ s.connName s.nextConnId := by
    rw [h.names id hid]
    intro heq
    exact hne (connName_inj h.ipPort (lt_trans hid.2 h.next.2) (by omega) heq)
  refine TcpServer.ext (Function.update_of_ne hne _ _) ?_ ?_ ?_ rfl
    (Function.update_of_ne hne _ _) (Function.update_of_ne hne _ _)
  · show ((s.registered r).queue ((s.registered r).loops id)).filterMap _ = _
    rw [hloops]
    rfl
  · show ((s.registered r).queue r.2.baseloop).count _ = _
    rw [hbase]
    rfl
  · show (s.erased _++[_]).contains ((s.registered r).names id,id) = _
    rw [hnames]
    simp [view,erased,hother]

omit [DecidableEq L] in
/-- Nothing is queued for a connection that is not there yet. -/
theorem view_fresh (h : s.Proper) (halive : s.alive = true) :
    (s.registered r).view s.nextConnId = ⟨.new s.callbacks,[],0,true,true,0,0⟩ := by
  have hno : ¬s.holds s.nextConnId := fun hid => Nat.lt_irrefl _ hid.2
  refine TcpServer.ext (Function.update_self _ _ _) ?_ ?_ ?_ halive
    (Function.update_self _ _ _) (Function.update_self _ _ _)
  · refine List.filterMap_eq_nil_iff.mpr fun f hf => ?_
    cases f with
    | removeConnectionInLoop id => rfl
    | task id t =>
      refine if_neg fun heq => hno ?_
      rw [← heq]
      exact (h.tasks _ id t hf).1
  · exact List.count_eq_zero_of_not_mem fun hmem => hno (h.removals _ _ hmem).1
  · show (s.erased _++[_]).contains ((s.registered r).names s.nextConnId,s.nextConnId) = true
    have hname : (s.registered r).names s.nextConnId = s.connName s.nextConnId :=
      Function.update_self _ _ _
    rw [hname]
    simp

theorem seen_accept (h : s.Proper) (halive : s.alive = true) (ht : s.newConnection = some t) :
    Seen s t .accept := by
  obtain ⟨r,hr,ht⟩ := Option.bind_eq_some_iff.mp ht
  obtain ⟨hnext,ht⟩ := Option.ite_none_right_eq_some.mp ht
  obtain rfl := Option.some.inj ht
  have hbase : r.2.baseloop = s.pool.baseloop := GetNextLoop_baseloop hr
  have hproper : (s.registered r).Proper := h.registered hbase hnext
  have hnew : (s.registered r).holds s.nextConnId := ⟨h.next.1,Nat.lt_succ_self _⟩
  have hloop : (s.registered r).loops s.nextConnId = r.1 := Function.update_self _ _ _
  have hne {id : Nat} (hid : s.holds id) : id ≠ s.nextConnId := fun heq => by
    have := hid.2
    omega
  have hkept : Kept (s.registered r)
      ((s.registered r).RunInLoop r.1 (.task s.nextConnId .connectEstablished)) := by
    unfold RunInLoop
    split_ifs <;> exact ⟨rfl,rfl,rfl,rfl⟩
  have hview (id : Nat) :
      ((s.registered r).RunInLoop r.1 (.task s.nextConnId .connectEstablished)).view id =
        if id = s.nextConnId then
          TcpServer.accepted ((s.registered r).sameLoop s.nextConnId) s.callbacks
        else (s.registered r).view id := by
    have hfresh := view_fresh (r := r) h halive
    unfold RunInLoop TcpServer.accepted
    by_cases hl : r.1 = (s.registered r).pool.baseloop
    · have hsame : (s.registered r).sameLoop s.nextConnId = true :=
        decide_eq_true (hloop.trans hl)
      rw [if_pos hl,run,view_setConn,hsame]
      by_cases heq : id = s.nextConnId
      · have hconn : (s.registered r).conns s.nextConnId = .new s.callbacks :=
          Function.update_self _ _ _
        rw [if_pos heq,if_pos heq,heq,hfresh,hconn]
        rfl
      · rw [if_neg heq,if_neg heq]
    · have hsame : (s.registered r).sameLoop s.nextConnId = false :=
        decide_eq_false (by rw [hloop]; exact hl)
      rw [if_neg hl,view_task hloop.symm,hsame]
      by_cases heq : id = s.nextConnId
      · rw [if_pos heq,if_pos heq,heq,hfresh]
        rfl
      · rw [if_neg heq,if_neg heq]
  refine ⟨?_,hkept.callbacks,fun id hid => ?_,fun id hid => ?_,fun id hid _ => ?_,
    fun id _ => nofun,fun id hid => ?_⟩
  · unfold RunInLoop
    split_ifs
    · exact hproper.setConn _ _
    · rw [← hloop]
      exact hproper.queue_task hnew _
  · exact (hkept.holds (.inr ⟨hid.1,Nat.lt_succ_of_lt hid.2⟩)).2
  · rw [hkept.sameLoop]
    have hloops : (s.registered r).loops id = s.loops id := Function.update_of_ne (hne hid) _ _
    have hpool : (s.registered r).pool.baseloop = s.pool.baseloop := hbase
    rw [sameLoop,sameLoop,hloops,hpool]
  · rw [hview id,if_neg (hne hid),view_registered h hbase hnext hid]
  · have hid' := (hkept.holds (.inl hid)).1
    by_cases heq : id = s.nextConnId
    · right
      rw [hview id,if_pos heq,hkept.sameLoop,heq]
    · left
      have hlt : id < s.nextConnId+1 := hid'.2
      exact ⟨hid'.1,by omega⟩

/-- Every step. -/
theorem seen_step (h : s.Proper) (ht : s.step e = some t) : Seen s t e := by
  cases e with
  | accept =>
    obtain ⟨halive,ht⟩ := Option.ite_none_right_eq_some.mp ht
    exact seen_accept h halive ht
  | functor l =>
    rw [step] at ht
    split at ht
    · cases ht
    · next hl =>
      obtain rfl := Option.some.inj ht
      exact seen_task h hl
    · next hl =>
      obtain ⟨halive,ht⟩ := Option.ite_none_right_eq_some.mp ht
      obtain rfl := Option.some.inj ht
      exact seen_removal h halive hl
  | poll id revents read write =>
    obtain ⟨⟨hid,hi⟩,ht⟩ := Option.ite_none_right_eq_some.mp ht
    obtain rfl := Option.some.inj ht
    exact seen_poll h hid hi
  | sendInLoop id data result =>
    obtain ⟨⟨hid,hs⟩,ht⟩ := Option.ite_none_right_eq_some.mp ht
    obtain rfl := Option.some.inj ht
    refine seen_setConn (.sendInLoop data result) h (fun id => rfl) ?_
    rw [TcpServer.step,if_neg (show (s.view id).conn.state ≠ .kConnecting from hs)]
    rfl
  | shutdown id inLoop => exact seen_shutdown h ht
  | setState id => exact seen_setState h ht
  | queue id => exact seen_queue h ht
  | destroyServer order =>
    obtain ⟨⟨halive,hperm⟩,ht⟩ := Option.ite_none_right_eq_some.mp ht
    obtain rfl := Option.some.inj ht
    exact seen_destroy h halive hperm

omit [DecidableEq L] in
theorem Proper.start {baseloop : L} {numThreads : Int} {startloop : Nat → L} {name : CString}
    {listenAddr : InetAddress} {callbacks : Callbacks} :
    (start baseloop numThreads startloop name listenAddr callbacks).Proper where
  next := ⟨Nat.one_pos,show 1 < 2^31 by decide⟩
  ipPort := listenAddr.ToIpPort_length
  names := fun id hid => absurd hid.2 (Nat.not_lt_of_le hid.1)
  connections := nofun
  ids := List.nodup_nil
  tasks := fun _ _ _ hmem => absurd hmem List.not_mem_nil
  removals := fun _ _ hmem => absurd hmem List.not_mem_nil

section Runs

variable {baseloop : L} {numThreads : Int} {startloop : Nat → L} {name : CString}
  {listenAddr : InetAddress} {callbacks : Callbacks}
  {good : Bool → TcpServer → TcpServerEvent → Prop}

variable (good) in
theorem run_views
    (h : (machine (.start baseloop numThreads startloop name listenAddr callbacks)).Path
      (each good) (.start baseloop numThreads startloop name listenAddr callbacks) s) :
    s.Proper ∧ s.callbacks = callbacks ∧ ∀ id, s.holds id →
      (TcpServer.machine (s.sameLoop id) callbacks).Path (good (s.sameLoop id))
        (.accepted (s.sameLoop id) callbacks) (s.view id) := by
  refine h.invariant (I := fun s => s.Proper ∧ s.callbacks = callbacks ∧ ∀ id,
    s.holds id → (TcpServer.machine (s.sameLoop id) callbacks).Path (good (s.sameLoop id))
      (.accepted (s.sameLoop id) callbacks) (s.view id)) ?step
    ⟨.start,rfl,fun id hid => absurd hid.2 (Nat.not_lt_of_le hid.1)⟩
  rintro s e t ⟨hproper,hcallbacks,hruns⟩ hgood ht
  have hseen := seen_step hproper ht
  refine ⟨hseen.proper,hseen.callbacks.trans hcallbacks,fun id hid => ?_⟩
  by_cases hold : s.holds id
  · have hrun := hruns id hold
    rw [hseen.sameLoop id hold]
    cases he : s.viewEvent id e with
    | none =>
      rw [hseen.quiet id hold he]
      exact hrun
    | some e' => exact hrun.tail (hgood id hold.2 hold.1 e' he) (hseen.event id hold e' he)
  · rw [(hseen.new id hid).resolve_left hold,hcallbacks]
    exact .refl _

/-- In every run of the server each connection has its own name and goes through a run of its
own, whatever the others do in the same loops; its steps are good where all are. -/
theorem connection_runs
    (h : (machine (.start baseloop numThreads startloop name listenAddr callbacks)).Path
      (each good) (.start baseloop numThreads startloop name listenAddr callbacks) s)
    (hid : s.holds id) :
    (TcpServer.machine (s.sameLoop id) callbacks).Path (good (s.sameLoop id))
        (.accepted (s.sameLoop id) callbacks) (s.view id) ∧
      ∀ id', s.holds id' → s.names id' = s.names id → id' = id := by
  obtain ⟨hproper,-,hruns⟩ := run_views good h
  exact ⟨hruns id hid,fun id' hid' heq => hproper.names_inj hid' hid heq⟩

/-- Two connections share the loop of the server: one is shut down by another thread while the
other sends, and both are destroyed with the server. -/
theorem connection_runs_two : ∃ s : ServerState Nat, s.loops 1 = s.loops 2 ∧
    (s.view 1).conn.state = .kDisconnected ∧
    (TcpServer.machine (s.sameLoop 1) ⟨false,false,0⟩).Path (TcpServer.clean (s.sameLoop 1))
      (.accepted (s.sameLoop 1) ⟨false,false,0⟩) (s.view 1) ∧
    (TcpServer.machine (s.sameLoop 2) ⟨false,false,0⟩).Path (TcpServer.clean (s.sameLoop 2))
      (.accepted (s.sameLoop 2) ⟨false,false,0⟩) (s.view 2) := by
  let server : ServerState Nat := .start 0 0 (·+1) ['s'] ⟨127,0,0,1,8080⟩ ⟨false,false,0⟩
  obtain ⟨s,hpath,hend⟩ := Machine.exec_any (machine server) (each TcpServer.clean) server
    [.accept,.accept,.poll 1 EPOLLIN .data (.wrote 0),.shutdown 1 false,
      .sendInLoop 2 ['x'] (.wrote 1),.setState 1,.shutdown 2 false,.queue 1,.setState 2,.queue 2,
      .functor 0,.functor 0,.destroyServer [2,1]]
    (fun s => decide (s.loops 1 = s.loops 2 ∧ s.holds 1 ∧ s.holds 2 ∧
      (s.view 1).conn.state = .kDisconnected)) (by decide +kernel)
  obtain ⟨hloop,hone,htwo,hstate⟩ := of_decide_eq_true hend
  exact ⟨s,hloop,hstate,(connection_runs hpath hone).1,(connection_runs hpath htwo).1⟩

end Runs

end ServerState

end SRaftMuduo
