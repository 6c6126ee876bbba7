import SRaftMuduo.Cluster.Pipeline

namespace SRaftMuduo

/-- Where `recieveMsgThread` stands: before the end of `popData`, with the command it has taken,
or at an assignment to `kvDB_`. -/
inductive Turn
  | waiting
  | popped (cmd : CString)
  | writing (cmd : CString)
  deriving DecidableEq

/-- The command that is taken and not in `kvDB_` yet. -/
def Turn.hand : Turn → List CString
  | .waiting => []
  | .popped cmd => [cmd]
  | .writing cmd => [cmd]

/-- The command makes `recieveMsgThread` assign to `kvDB_`. -/
def writes (cmd : CString) : Bool :=
  match parse cmd with
  | some (op,_,_) => op = opPut || op = opAppend
  | none => false

theorem Store.execute_logged (db : Store) {cmd : CString} (h : writes cmd = false) :
    db.execute cmd = db := by
  unfold writes at h
  unfold Store.execute
  cases hp : parse cmd with
  | none => rfl
  | some o =>
    rw [hp] at h
    obtain ⟨hput,happend⟩ := Bool.or_eq_false_iff.mp h
    dsimp only
    rw [Store.apply,if_neg (of_decide_eq_false hput),if_neg (of_decide_eq_false happend)]

theorem Store.executeAll_concat (db : Store) (cmds : List CString) (cmd : CString) :
    db.executeAll (cmds++[cmd]) = (db.executeAll cmds).execute cmd :=
  List.foldl_concat _ _ _ _

/-- The cluster with the turns of its threads `recieveMsgThread`, which take no lock between
`popData` and the end of an assignment. -/
structure Threaded where
  cluster : Cluster
  turn : CString → Turn

/-- `handler` is any step of the cluster but `receive`, a whole turn. -/
inductive TurnEvent
  | handler (e : Event)
  | popData (i : CString)
  | beginWrite (i : CString)
  | endWrite (i : CString)
  deriving DecidableEq

namespace Threaded

def initial (cfg : Config) : Threaded := ⟨.initial cfg,fun _ => .waiting⟩

/-- Puts a server back, the thread there at `turn`. -/
def put (s : Threaded) (i : CString) (server : Server) (turn : Turn) : Threaded :=
  ⟨{s.cluster with servers := Function.update s.cluster.servers i server},
    Function.update s.turn i turn⟩

/-- `popData` returns the first command. -/
def popData (s : Threaded) (i : CString) : Option Threaded :=
  match (s.cluster.servers i).node.channel,s.turn i with
  | some (cmd::que),.waiting =>
    let server := s.cluster.servers i
    let server := {server with
      node := {server.node with channel := some que}
      popped := server.popped++[cmd]}
    some (s.put i server (.popped cmd))
  | _,_ => none

/-- The streams have read the command: an assignment begins, or a line is logged. -/
def beginWrite (s : Threaded) (i : CString) : Option Threaded :=
  match s.turn i with
  | .popped cmd =>
    some (s.put i (s.cluster.servers i) (if writes cmd then .writing cmd else .waiting))
  | _ => none

def endWrite (s : Threaded) (i : CString) : Option Threaded :=
  match s.turn i with
  | .writing cmd =>
    let server := s.cluster.servers i
    some (s.put i {server with kvDB := server.kvDB.execute cmd} .waiting)
  | _ => none

/-- The thread of a process that has died is gone with it. -/
def turnAfter (s : Threaded) : Event → CString → Turn
  | .crash i => Function.update s.turn i .waiting
  | _ => s.turn

def handler (cfg : Config) (s : Threaded) : Event → Option Threaded
  | .receive _ => none
  | e => (s.cluster.step cfg e).map fun c => ⟨c,s.turnAfter e⟩

def step (cfg : Config) (s : Threaded) : TurnEvent → Option Threaded
  | .handler e => s.handler cfg e
  | .popData i => if s.cluster.live cfg i then s.popData i else none
  | .beginWrite i => if s.cluster.live cfg i then s.beginWrite i else none
  | .endWrite i => if s.cluster.live cfg i then s.endWrite i else none

/-- `Skvserver::get` at `i`, to which `GetState` has given `state`. The lock it holds is not one
of the thread's: a read of `kvDB_` during an assignment gives nothing. -/
def get (s : Threaded) (i : CString) (state : State) (key : CString) : Option GetResponse :=
  if state ≠ .leader then some ⟨true,errWrongLeader,valueError⟩
  else
    match s.turn i with
    | .writing _ => none
    | _ => some ((s.cluster.servers i).kvDB.answer key)

/-- The cluster in which every thread has ended its turn. -/
def settled (s : Threaded) : Cluster where
  servers := fun i =>
    {s.cluster.servers i with
      kvDB := (s.cluster.servers i).kvDB.executeAll (s.turn i).hand}
  net := s.cluster.net
  acks := s.cluster.acks
  commits := s.cluster.commits

end Threaded

/-- The cluster with its threads as a machine. -/
def threaded (cfg : Config) : Machine Threaded TurnEvent :=
  ⟨fun s => s = Threaded.initial cfg,Threaded.step cfg⟩

namespace Cluster

/-- The cluster with other stores. -/
def withStores (c : Cluster) (dbs : CString → Store) : Cluster :=
  {c with servers := fun i => {c.servers i with kvDB := dbs i}}

variable {cfg : Config} {c c' : Cluster} {dbs : CString → Store}

/-- One server put back. -/
theorem update_withStores (servers : CString → Server) (dbs : CString → Store) (i : CString)
    (server : Server) : Function.update (fun j => {servers j with kvDB := dbs j}) i
        {server with kvDB := dbs i} =
      fun j => {Function.update servers i server j with kvDB := dbs j} := by
  funext j
  by_cases hj : j = i
  · subst hj
    simp
  · simp [hj]

theorem put_withStores (c : Cluster) (dbs : CString → Store) (i : CString) (server : Server)
    (net : List Rpc) : (c.withStores dbs).put i {server with kvDB := dbs i} net =
      (c.put i server net).withStores dbs := by
  simp only [put,withStores,Cluster.mk.injEq]
  exact ⟨update_withStores c.servers dbs i {server with
    node := {server.node with calls := []}},trivial,trivial,rfl⟩

/-- A handler of a node, where it can run. -/
theorem onNode_withStores (c : Cluster) (dbs : CString → Store) (p : Prop) [Decidable p]
    (i : CString) (n : Node) (net : List Rpc) :
    (if p then some ((c.withStores dbs).onNode i n net) else none) =
      (if p then some (c.onNode i n net) else none).map (fun c => c.withStores dbs) := by
  have hput : (c.withStores dbs).onNode i n net = (c.onNode i n net).withStores dbs :=
    put_withStores c dbs i {c.servers i with node := n} net
  rw [hput]
  split_ifs <;> rfl

theorem deliverCall_withStores (c : Cluster) (dbs : CString → Store) (k : Nat) (r : Readings)
    (rpc : Rpc) : (c.withStores dbs).deliverCall cfg k r rpc =
      (c.deliverCall cfg k r rpc).map (fun c => c.withStores dbs) := by
  cases rpc with
  | voteCall src dst life request => exact onNode_withStores c dbs _ dst _ _
  | appendCall src dst life request isHeartbeat => exact onNode_withStores c dbs _ dst _ _
  | voteReply | appendReply => rfl

theorem respondCall_withStores (c : Cluster) (dbs : CString → Store) (k : Nat) (rpc : Rpc) :
    (c.withStores dbs).respondCall cfg k rpc =
      (c.respondCall cfg k rpc).map (fun c => c.withStores dbs) := by
  cases rpc with
  | voteReply src dst life request response => exact onNode_withStores c dbs _ src _ _
  | appendReply src dst life request isHeartbeat response =>
    exact onNode_withStores c dbs _ src _ _
  | voteCall | appendCall => rfl

theorem checkPut_withStores (c : Cluster) (dbs : CString → Store) (i : CString)
    (request : PutAppendRequest) :
    (c.withStores dbs).checkPut i request = (c.checkPut i request).withStores dbs := by
  unfold checkPut
  by_cases hlead : (c.raft i).state = .leader
  · rw [if_pos hlead]
    refine (if_pos hlead).trans ?_
    simp only [withStores,Cluster.mk.injEq]
    exact ⟨update_withStores c.servers dbs i {c.servers i with pending := some request},
      trivial,trivial,trivial⟩
  · rw [if_neg hlead]
    exact if_neg hlead

theorem logPut_withStores (c : Cluster) (dbs : CString → Store) (i : CString)
    (request : PutAppendRequest) :
    (c.withStores dbs).logPut i request = (c.logPut i request).withStores dbs := by
  have hput := put_withStores c dbs i
    {c.servers i with
      node := ((c.servers i).node.doLog request.command).1
      pending := none} c.net
  let node := ((c.servers i).node.doLog request.command).1
  let ack : Ack := ⟨i,node.raft.currentTerm,node.raft.lastLogIndex,request.command⟩
  unfold logPut
  by_cases hstop : node.stopped = true
  · exact (if_pos hstop).trans (hput.trans (congrArg (withStores · dbs) (if_pos hstop).symm))
  · refine (if_neg hstop).trans (Eq.trans ?_ (congrArg (withStores · dbs) (if_neg hstop).symm))
    exact congrArg (fun c' : Cluster => {c' with acks := c.acks++[ack]}) hput

/-- No handler reads or writes a store. -/
theorem step_withStores {e : Event} (hreceive : ∀ i, e ≠ .receive i)
    (hcrash : ∀ i, e ≠ .crash i) : (c.withStores dbs).step cfg e =
      (c.step cfg e).map (fun c => c.withStores dbs) := by
  cases e with
  | run i r => exact onNode_withStores c dbs _ i _ _
  | timer i r => exact onNode_withStores c dbs _ i _ _
  | doLog i cmd => exact onNode_withStores c dbs _ i _ _
  | deliver k r =>
    change c.net[k]?.bind _ = (c.net[k]?.bind _).map _
    cases c.net[k]? with
    | none => rfl
    | some rpc => exact deliverCall_withStores c dbs k r rpc
  | respond k =>
    change c.net[k]?.bind _ = (c.net[k]?.bind _).map _
    cases c.net[k]? with
    | none => rfl
    | some rpc => exact respondCall_withStores c dbs k rpc
  | fail k =>
    change c.net[k]?.map _ = (c.net[k]?.map _).map _
    cases c.net[k]? with
    | none => rfl
    | some rpc => rfl
  | crash i => exact absurd rfl (hcrash i)
  | receive i => exact absurd rfl (hreceive i)
  | putCheck i request =>
    by_cases hcheck : c.live cfg i ∧ (c.servers i).pending = none
    · rw [step,step,if_pos hcheck]
      exact (if_pos hcheck).trans (congrArg some (checkPut_withStores c dbs i request))
    · rw [step,step,if_neg hcheck]
      exact if_neg hcheck
  | putLog i =>
    by_cases hlive : c.live cfg i
    · rw [step,step,if_pos hlive]
      refine (if_pos hlive).trans ?_
      change (c.servers i).pending.map _ = _
      cases (c.servers i).pending with
      | none => rfl
      | some request => exact congrArg some (logPut_withStores c dbs i request)
    · rw [step,step,if_neg hlive]
      exact if_neg hlive

/-- Outside the turns of its thread a process that does not die keeps its store. -/
theorem step_keeps {e : Event} (hreceive : ∀ i, e ≠ .receive i) (hcrash : ∀ i, e ≠ .crash i)
    (hs : (machine cfg).step c e = some c') (i : CString) :
    (c'.servers i).kvDB = (c.servers i).kvDB ∧ (c'.servers i).popped = (c.servers i).popped := by
  rcases step_cases hs with
    ⟨j,n,net,-,-,hmoved⟩ | ⟨k,rpc,-,-,rfl⟩ | ⟨j,-,rfl,-⟩ | ⟨hout,-⟩
  · exact hmoved.each (P := fun j server => server.kvDB = (c.servers j).kvDB ∧
      server.popped = (c.servers j).popped) ⟨hmoved.kvDB,hmoved.popped⟩ (fun _ _ => ⟨rfl,rfl⟩) i
  · exact ⟨rfl,rfl⟩
  · exact absurd rfl (hcrash j)
  · cases e with
    | receive j => exact absurd rfl (hreceive j)
    | putCheck j request =>
      obtain ⟨-,⟨⟩⟩ := Option.ite_none_right_eq_some.mp hs
      unfold checkPut
      split_ifs
      · by_cases hj : i = j
        · subst hj
          simp
        · simp [hj]
      · exact ⟨rfl,rfl⟩
    | _ => exact absurd hout Bool.false_ne_true

end Cluster

/-- The step of the cluster that a step with threads is: a turn counts from `popData` on. -/
def TurnEvent.base : TurnEvent → Option Event
  | .handler e => some e
  | .popData i => some (.receive i)
  | .beginWrite _ => none
  | .endWrite _ => none

namespace Threaded

variable {cfg : Config} {s t : Threaded} {e : TurnEvent}

/-- A step runs a handler, or is one of the three that make a turn. -/
theorem step_cases (hs : (threaded cfg).step s e = some t) :
    (∃ b c, e = .handler b ∧ (∀ i, b ≠ .receive i) ∧ (machine cfg).step s.cluster b = some c ∧
      t = ⟨c,s.turnAfter b⟩) ∨
    (∃ i cmd que, e = .popData i ∧ s.cluster.live cfg i ∧
      (s.cluster.servers i).node.channel = some (cmd::que) ∧ s.turn i = .waiting ∧
      t = s.put i {s.cluster.servers i with
        node := {(s.cluster.servers i).node with channel := some que}
        popped := (s.cluster.servers i).popped++[cmd]} (.popped cmd)) ∨
    (∃ i cmd, e = .beginWrite i ∧ s.turn i = .popped cmd ∧
      t = s.put i (s.cluster.servers i) (if writes cmd then .writing cmd else .waiting)) ∨
    (∃ i cmd, e = .endWrite i ∧ s.turn i = .writing cmd ∧
      t = s.put i {s.cluster.servers i with
        kvDB := (s.cluster.servers i).kvDB.execute cmd} .waiting) := by
  cases e with
  | handler b =>
    refine .inl ⟨b,?_⟩
    cases b with
    | receive i => exact absurd hs (by simp [threaded,step,handler])
    | _ =>
      obtain ⟨c,hc,rfl⟩ := Option.map_eq_some_iff.mp hs
      exact ⟨c,rfl,by simp,hc,rfl⟩
  | popData i =>
    obtain ⟨hlive,hpop⟩ := Option.ite_none_right_eq_some.mp hs
    unfold popData at hpop
    split at hpop
    · next cmd que hch hturn =>
      exact .inr (.inl ⟨i,cmd,que,rfl,hlive,hch,hturn,(Option.some.inj hpop).symm⟩)
    · exact absurd hpop (by simp)
  | beginWrite i =>
    obtain ⟨-,hbegin⟩ := Option.ite_none_right_eq_some.mp hs
    unfold beginWrite at hbegin
    split at hbegin
    · next cmd hturn =>
      exact .inr (.inr (.inl ⟨i,cmd,rfl,hturn,(Option.some.inj hbegin).symm⟩))
    · exact absurd hbegin (by simp)
  | endWrite i =>
    obtain ⟨-,hend⟩ := Option.ite_none_right_eq_some.mp hs
    unfold endWrite at hend
    split at hend
    · next cmd hturn =>
      exact .inr (.inr (.inr ⟨i,cmd,rfl,hturn,(Option.some.inj hend).symm⟩))
    · exact absurd hend (by simp)

theorem turnAfter_of_lives (s : Threaded) {b : Event} (hcrash : ∀ i, b ≠ .crash i) :
    s.turnAfter b = s.turn := by
  unfold turnAfter
  split
  · exact absurd rfl (hcrash _)
  · rfl

theorem settled_put (s : Threaded) (i : CString) (server : Server) (turn : Turn) :
    (s.put i server turn).settled = {s.settled with
      servers := Function.update s.settled.servers i
        {server with kvDB := server.kvDB.executeAll turn.hand}} := by
  simp only [put,settled,Cluster.mk.injEq]
  refine ⟨?_,trivial,trivial,trivial⟩
  funext j
  by_cases hj : j = i
  · subst hj
    simp
  · simp [hj]

/-- A part of a turn that leaves what the store will be. -/
theorem settled_same {i : CString} {db : Store} {turn : Turn}
    (h : db.executeAll turn.hand = (s.cluster.servers i).kvDB.executeAll (s.turn i).hand) :
    (s.put i {s.cluster.servers i with kvDB := db} turn).settled = s.settled := by
  rw [settled_put]
  dsimp only
  rw [h]
  exact congrArg (fun servers => {s.settled with servers := servers})
    (Function.update_eq_self i s.settled.servers)

/-- With the threads taken for settled, a step is one of the cluster, or none. -/
theorem step_settled (hs : (threaded cfg).step s e = some t) :
    (∃ b, e.base = some b ∧ (machine cfg).step s.settled b = some t.settled) ∨
    (e.base = none ∧ t.settled = s.settled) := by
  rcases step_cases hs with ⟨b,c,rfl,hreceive,hc,rfl⟩ |
    ⟨i,cmd,que,rfl,hlive,hch,hturn,rfl⟩ | ⟨i,cmd,rfl,hturn,rfl⟩ | ⟨i,cmd,rfl,hturn,rfl⟩
  · refine .inl ⟨b,rfl,?_⟩
    by_cases hcrash : ∃ i, b = .crash i
    · obtain ⟨i,rfl⟩ := hcrash
      obtain ⟨hi,⟨⟩⟩ := Option.ite_none_right_eq_some.mp hc
      refine (if_pos hi).trans (congrArg some ?_)
      exact (settled_put s i (Server.boot cfg i (s.cluster.servers i).node.persist
        ((s.cluster.servers i).life+1)) .waiting).symm
    -- any other handler neither reads the stores nor moves a thread
    · replace hcrash : ∀ i, b ≠ .crash i := fun i hb => hcrash ⟨i,hb⟩
      have hstep : (s.cluster.withStores fun i => (s.cluster.servers i).kvDB.executeAll
          (s.turn i).hand).step cfg b = _ := Cluster.step_withStores hreceive hcrash
      refine hstep.trans ?_
      rw [show s.cluster.step cfg b = some c from hc]
      refine congrArg some ?_
      simp only [Cluster.withStores,settled,turnAfter_of_lives s hcrash,Cluster.mk.injEq]
      refine ⟨?_,trivial,trivial,trivial⟩
      funext i
      rw [(Cluster.step_keeps hreceive hcrash hc i).1]
  -- the whole turn of the cluster is `popData`: the store that the command makes counts from it
  · have hset : s.settled.servers i = s.cluster.servers i := by
      simp [settled,hturn,Turn.hand,Store.executeAll]
    refine .inl ⟨.receive i,rfl,(if_pos hlive).trans ?_⟩
    rw [Cluster.receiveOne,hset,hch,settled_put]
    rfl
  -- a command that is only logged leaves the store that it was going to be
  · refine .inr ⟨rfl,settled_same (s := s) ?_⟩
    rw [hturn]
    by_cases hw : writes cmd = true
    · rw [if_pos hw]
      rfl
    · rw [if_neg hw]
      exact ((s.cluster.servers i).kvDB.execute_logged (by simpa using hw)).symm
  · refine .inr ⟨rfl,settled_same ?_⟩
    rw [hturn]
    rfl

/-- What the thread of a process has taken is in the store, but for the command in its hand. -/
def Turned (server : Server) (turn : Turn) : Prop :=
  ∃ executed, server.popped = executed++turn.hand ∧
    server.kvDB = Store.initial.executeAll executed

theorem turned_put {i : CString} {server : Server} {turn : Turn} (hi : Turned server turn)
    (h : ∀ j, Turned (s.cluster.servers j) (s.turn j)) (j : CString) :
    Turned ((s.put i server turn).cluster.servers j) ((s.put i server turn).turn j) := by
  by_cases hj : j = i
  · subst hj
    simpa [put] using hi
  · simpa [put,hj] using h j

theorem turned_step (h : ∀ i, Turned (s.cluster.servers i) (s.turn i))
    (hs : (threaded cfg).step s e = some t) (i : CString) :
    Turned (t.cluster.servers i) (t.turn i) := by
  rcases step_cases hs with ⟨b,c,-,hreceive,hc,rfl⟩ |
    ⟨j,cmd,que,-,-,-,hturn,rfl⟩ | ⟨j,cmd,-,hturn,rfl⟩ | ⟨j,cmd,-,hturn,rfl⟩
  · by_cases hcrash : ∃ j, b = .crash j
    · obtain ⟨j,rfl⟩ := hcrash
      obtain ⟨-,⟨⟩⟩ := Option.ite_none_right_eq_some.mp hc
      have hboot : Turned (Server.boot cfg j (s.cluster.servers j).node.persist
          ((s.cluster.servers j).life+1)) .waiting := ⟨[],rfl,rfl⟩
      exact turned_put hboot h i
    · replace hcrash : ∀ j, b ≠ .crash j := fun j hb => hcrash ⟨j,hb⟩
      obtain ⟨hdb,hpopped⟩ := Cluster.step_keeps hreceive hcrash hc i
      rw [turnAfter_of_lives s hcrash]
      unfold Turned
      rw [hdb,hpopped]
      exact h i
  · refine turned_put ?_ h i
    obtain ⟨executed,hpopped,hdb⟩ := h j
    rw [hturn,Turn.hand,List.append_nil] at hpopped
    exact ⟨executed,congrArg (·++[cmd]) hpopped,hdb⟩
  · refine turned_put ?_ h i
    obtain ⟨executed,hpopped,hdb⟩ := h j
    rw [hturn] at hpopped
    by_cases hw : writes cmd = true
    · rw [if_pos hw]
      exact ⟨executed,hpopped,hdb⟩
    · rw [if_neg hw]
      refine ⟨executed++[cmd],by rw [hpopped]; simp [Turn.hand],?_⟩
      rw [Store.executeAll_concat,Store.execute_logged _ (by simpa using hw)]
      exact hdb
  · refine turned_put ?_ h i
    obtain ⟨executed,hpopped,hdb⟩ := h j
    rw [hturn] at hpopped
    refine ⟨executed++[cmd],by simpa [Turn.hand] using hpopped,?_⟩
    rw [Store.executeAll_concat,← hdb]

theorem turned_reachable {ok : Threaded → TurnEvent → Prop}
    (h : (threaded cfg).Path ok (.initial cfg) s) (i : CString) :
    Turned (s.cluster.servers i) (s.turn i) :=
  h.invariant (I := fun s => ∀ i, Turned (s.cluster.servers i) (s.turn i))
    (fun _ _ _ hi _ hs => turned_step hi hs) (fun _ => ⟨[],rfl,rfl⟩) i

/-- All that was pushed is in the store, in the hand of the thread, or waits, in order. -/
theorem Turned.split {i : CString} (h : Turned (s.cluster.servers i) (s.turn i))
    (hp : Piped (s.settled.servers i)) :
    ∃ executed que, (s.cluster.servers i).popped = executed++(s.turn i).hand ∧
      (s.cluster.servers i).kvDB = Store.initial.executeAll executed ∧
      (s.cluster.servers i).node.channel = some que ∧
      executed++(s.turn i).hand++que =
        ((s.cluster.servers i).node.applied.map Prod.snd).filter (fun cmd => cmd ≠ []) := by
  obtain ⟨executed,hpopped,hdb⟩ := h
  obtain ⟨que,hque,hall⟩ := hp.queue
  refine ⟨executed,que,hpopped,hdb,hque,?_⟩
  rw [← hpopped,List.filter_map]
  exact hall.trans (congrArg (List.map Prod.snd) hp.pushes)

/-- An answer that is not for the wrong leader is read off the store. -/
theorem get_right {i key : CString} {state : State} {response : GetResponse}
    (h : s.get i state key = some response) (hright : response.wrongLeader = false) :
    response = (s.cluster.servers i).kvDB.answer key := by
  unfold get at h
  split_ifs at h with hstate
  · obtain rfl := Option.some.inj h
    exact absurd hright (by simp)
  · split at h
    · exact absurd h (by simp)
    · exact (Option.some.inj h).symm

end Threaded

end SRaftMuduo
