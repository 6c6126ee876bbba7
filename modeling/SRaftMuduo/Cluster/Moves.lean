import SRaftMuduo.Cluster.System
import SRaftMuduo.Raft.Effects

namespace SRaftMuduo

/-- The events that run no handler of Raft. -/
def Event.outside : Event → Bool
  | .receive _ => true
  | .putCheck _ _ => true
  | _ => false

namespace Cluster

/-- The event runs a handler of the node at `i`. It leaves the node `n`, and the calls in
flight, before the new ones of `n` join them, are `net`. -/
inductive Move (c : Cluster) (i : CString) : Event → Node → List Rpc → Prop
  | run (r : Readings) : (c.raft i).running = false →
      Move c i (.run i r) ((c.servers i).node.run r) c.net
  | timer (r : Readings) : Move c i (.timer i r) ((c.servers i).node.onTimer r) c.net
  | doLog (cmd : CString) : Move c i (.doLog i cmd) ((c.servers i).node.doLog cmd).1 c.net
  | putLog (request : PutAppendRequest) : (c.servers i).pending = some request →
      Move c i (.putLog i) ((c.servers i).node.doLog request.command).1 c.net
  | voteCall (k : Nat) (r : Readings) (src : CString) (life : Nat)
      (request : RequestVoteRequest) (response : RequestVoteResponse) :
      c.net[k]? = some (.voteCall src i life request) →
      (response = ((c.servers i).node.onRequestVoteRequest request).2 ∨
        response = RequestVoteResponse.empty) →
      Move c i (.deliver k r) ((c.servers i).node.onRequestVoteRequest request).1
        (c.net.set k (.voteReply src i life request response))
  | appendCall (k : Nat) (r : Readings) (src : CString) (life : Nat)
      (request : AppendEntriesRequest) (isHeartbeat : Bool) :
      c.net[k]? = some (.appendCall src i life request isHeartbeat) → request.parses = true →
      Move c i (.deliver k r) ((c.servers i).node.onAppendEntriesRequest request r).1
        (c.net.set k (.appendReply src i life request isHeartbeat
          ((c.servers i).node.onAppendEntriesRequest request r).2))
  | voteReply (k : Nat) (dst : CString) (request : RequestVoteRequest)
      (response : RequestVoteResponse) :
      c.net[k]? = some (.voteReply i dst (c.servers i).life request response) →
      Move c i (.respond k) ((c.servers i).node.onRequestVoteResponse response)
        (c.net.eraseIdx k)
  | appendReply (k : Nat) (dst : CString) (request : AppendEntriesRequest)
      (isHeartbeat : Bool) (response : AppendEntriesResponse) :
      c.net[k]? = some (.appendReply i dst (c.servers i).life request isHeartbeat response) →
      Move c i (.respond k)
        ((c.servers i).node.onAppendEntriesReponse response isHeartbeat) (c.net.eraseIdx k)

/-- What changes when the node at `i` becomes `n`. -/
structure Moved (c c' : Cluster) (i : CString) (n : Node) (net : List Rpc) : Prop where
  node : (c'.servers i).node = {n with calls := []}
  life : (c'.servers i).life = (c.servers i).life
  kvDB : (c'.servers i).kvDB = (c.servers i).kvDB
  popped : (c'.servers i).popped = (c.servers i).popped
  other : ∀ j, j ≠ i → c'.servers j = c.servers j
  net : c'.net = net++n.calls.map (Call.rpc i (c.servers i).life)
  commits : c'.commits = c.commits++
    if n.raft.commitIndex = (c.raft i).commitIndex then []
    else [⟨i,n.raft.currentTerm,n.raft.commitIndex⟩]

/-- Two nodes that differ at most in what waits in their channel. -/
def SameNode (n m : Node) : Prop :=
  n.raft = m.raft ∧ n.persist = m.persist ∧ n.calls = m.calls ∧ n.applied = m.applied ∧
    n.pushes = m.pushes ∧ n.stopped = m.stopped

theorem SameNode.refl (n : Node) : SameNode n n := ⟨rfl,rfl,rfl,rfl,rfl,rfl⟩

/-- The thread of a server popped the first command of the queue, or did nothing. -/
def Received (old new : Server) : Prop :=
  (new.node.channel = old.node.channel ∧ new.popped = old.popped ∧ new.kvDB = old.kvDB) ∨
  ∃ cmd que, old.node.channel = some (cmd::que) ∧ new.node.channel = some que ∧
    new.popped = old.popped++[cmd] ∧ new.kvDB = old.kvDB.execute cmd

/-- A step outside Raft: no call in flight and, but for its queue, no node changes. -/
structure Quiet (c c' : Cluster) : Prop where
  node : ∀ j, SameNode (c'.servers j).node (c.servers j).node
  life : ∀ j, (c'.servers j).life = (c.servers j).life
  received : ∀ j, Received (c.servers j) (c'.servers j)
  net : c'.net = c.net
  commits : c'.commits = c.commits

/-- The cluster after the process at `i` has died and a new one has been started. -/
def crashed (cfg : Config) (c : Cluster) (i : CString) : Cluster :=
  let server := Server.boot cfg i (c.servers i).node.persist ((c.servers i).life+1)
  {c with servers := Function.update c.servers i server}

def failed (c : Cluster) (k : Nat) (rpc : Rpc) : Cluster :=
  {c with net := c.net.set k (failCall rpc)}

section Each

variable {cfg : Config} {c c' : Cluster} {i : CString} {n : Node} {net : List Rpc}
  {P : CString → Server → Prop} {Q : Rpc → Prop}

/-- What holds of the server that ran a handler and of all the others. -/
theorem Moved.each (hm : Moved c c' i n net) (hi : P i (c'.servers i))
    (hother : ∀ j, j ≠ i → P j (c.servers j)) (j : CString) : P j (c'.servers j) := by
  by_cases hj : j = i
  · rw [hj]
    exact hi
  · rw [hm.other j hj]
    exact hother j hj

/-- The calls in flight after a handler are the old ones and those it started. -/
theorem Moved.each_rpc (hm : Moved c c' i n net) (hnet : ∀ rpc ∈ net, Q rpc)
    (hcalls : ∀ call ∈ n.calls, Q (call.rpc i (c.servers i).life)) :
    ∀ rpc ∈ c'.net, Q rpc := by
  intro rpc hrpc
  rw [hm.net] at hrpc
  rcases List.mem_append.mp hrpc with hrpc | hrpc
  · exact hnet rpc hrpc
  · obtain ⟨call,hcall,rfl⟩ := List.mem_map.mp hrpc
    exact hcalls call hcall

theorem crashed_each
    (hi : P i (Server.boot cfg i (c.servers i).node.persist ((c.servers i).life+1)))
    (hother : ∀ j, j ≠ i → P j (c.servers j)) (j : CString) :
    P j ((c.crashed cfg i).servers j) := by
  by_cases hj : j = i
  · subst hj
    simpa [crashed] using hi
  · simpa [crashed,hj] using hother j hj

theorem failed_each {k : Nat} {rpc : Rpc} (hk : c.net[k]? = some rpc) (h : ∀ x ∈ c.net, Q x)
    (hfail : Q rpc → Q (failCall rpc)) : ∀ x ∈ (c.failed k rpc).net, Q x := by
  intro x hx
  rcases List.mem_or_eq_of_mem_set hx with hx | rfl
  · exact h x hx
  · exact hfail (h rpc (List.mem_of_getElem? hk))

end Each

theorem moved_put (c : Cluster) (i : CString) (server : Server) (net : List Rpc)
    (hl : server.life = (c.servers i).life) (hk : server.kvDB = (c.servers i).kvDB)
    (hp : server.popped = (c.servers i).popped) :
    Moved c (c.put i server net) i server.node net := by
  refine ⟨?node,?life,?kvDB,?popped,?other,?net,?commits⟩
  case node => simp [put]
  case life => simp [put,hl]
  case kvDB => simp [put,hk]
  case popped => simp [put,hp]
  case other =>
    intro j hj
    simp [put,hj]
  case net => simp [put,hl]
  case commits => rfl

theorem moved_onNode (c : Cluster) (i : CString) (n : Node) (net : List Rpc) :
    Moved c (c.onNode i n net) i n net :=
  moved_put c i {c.servers i with node := n} net rfl rfl rfl

theorem moved_logPut (c : Cluster) (i : CString) (request : PutAppendRequest) :
    Moved c (c.logPut i request) i ((c.servers i).node.doLog request.command).1 c.net := by
  have hm := moved_put c i {c.servers i with
    node := ((c.servers i).node.doLog request.command).1, pending := none} c.net rfl rfl rfl
  unfold logPut
  dsimp only
  split_ifs
  · exact hm
  · exact ⟨hm.node,hm.life,hm.kvDB,hm.popped,hm.other,hm.net,hm.commits⟩

theorem quiet_receiveOne {c c' : Cluster} {i : CString} (h : c.receiveOne i = some c') :
    Quiet c c' := by
  unfold receiveOne at h
  split at h
  · next cmd que hch =>
    obtain rfl := Option.some.inj h
    refine ⟨fun j => ?_,fun j => ?_,fun j => ?_,rfl,rfl⟩
    all_goals
      by_cases hj : j = i
      · subst hj
        simp [SameNode,Received,hch]
      · simp [hj,SameNode,Received]
  · exact absurd h (by simp)

theorem quiet_checkPut (c : Cluster) (i : CString) (request : PutAppendRequest) :
    Quiet c (c.checkPut i request) := by
  unfold checkPut
  split_ifs
  · refine ⟨fun j => ?_,fun j => ?_,fun j => ?_,rfl,rfl⟩
    all_goals
      by_cases hj : j = i
      · subst hj
        simp [SameNode,Received]
      · simp [hj,SameNode,Received]
  · exact ⟨fun j => .refl _,fun _ => rfl,fun _ => .inl ⟨rfl,rfl,rfl⟩,rfl,rfl⟩

theorem deliverCall_move {cfg : Config} {c c' : Cluster} {k : Nat} {r : Readings} {rpc : Rpc}
    (hk : c.net[k]? = some rpc) (h : c.deliverCall cfg k r rpc = some c') :
    ∃ i n net, c.live cfg i ∧ Move c i (.deliver k r) n net ∧ Moved c c' i n net := by
  cases rpc with
  | voteCall src dst life request =>
    obtain ⟨hl,⟨⟩⟩ := Option.ite_none_right_eq_some.mp h
    refine ⟨dst,_,_,hl,.voteCall k r src life request _ hk ?_,moved_onNode _ _ _ _⟩
    split_ifs
    · exact .inl rfl
    · exact .inr rfl
  | appendCall src dst life request isHeartbeat =>
    obtain ⟨⟨hl,hp⟩,⟨⟩⟩ := Option.ite_none_right_eq_some.mp h
    exact ⟨dst,_,_,hl,.appendCall k r src life request isHeartbeat hk hp,moved_onNode _ _ _ _⟩
  | voteReply src dst life request response => exact absurd h (by simp [deliverCall])
  | appendReply src dst life request isHeartbeat response =>
    exact absurd h (by simp [deliverCall])

theorem respondCall_move {cfg : Config} {c c' : Cluster} {k : Nat} {rpc : Rpc}
    (hk : c.net[k]? = some rpc) (h : c.respondCall cfg k rpc = some c') :
    ∃ i n net, c.live cfg i ∧ Move c i (.respond k) n net ∧ Moved c c' i n net := by
  cases rpc with
  | voteReply src dst life request response =>
    obtain ⟨⟨hl,rfl⟩,⟨⟩⟩ := Option.ite_none_right_eq_some.mp h
    exact ⟨src,_,_,hl,.voteReply k dst request response hk,moved_onNode _ _ _ _⟩
  | appendReply src dst life request isHeartbeat response =>
    obtain ⟨⟨hl,rfl⟩,⟨⟩⟩ := Option.ite_none_right_eq_some.mp h
    exact ⟨src,_,_,hl,.appendReply k dst request isHeartbeat response hk,moved_onNode _ _ _ _⟩
  | voteCall src dst life request => exact absurd h (by simp [respondCall])
  | appendCall src dst life request isHeartbeat => exact absurd h (by simp [respondCall])

/-- Every step runs one handler, fails a call, restarts a process, or is outside Raft. -/
theorem step_cases {cfg : Config} {c c' : Cluster} {e : Event}
    (h : (machine cfg).step c e = some c') :
    (∃ i n net, c.live cfg i ∧ Move c i e n net ∧ Moved c c' i n net) ∨
    (∃ k rpc, e = .fail k ∧ c.net[k]? = some rpc ∧ c' = c.failed k rpc) ∨
    (∃ i, i ∈ cfg.names ∧ e = .crash i ∧ c' = c.crashed cfg i) ∨
    (e.outside = true ∧ Quiet c c') := by
  cases e with
  | run i r =>
    obtain ⟨⟨hl,hr⟩,⟨⟩⟩ := Option.ite_none_right_eq_some.mp h
    exact .inl ⟨i,_,_,hl,.run r hr,moved_onNode _ _ _ _⟩
  | timer i r =>
    obtain ⟨hl,⟨⟩⟩ := Option.ite_none_right_eq_some.mp h
    exact .inl ⟨i,_,_,hl,.timer r,moved_onNode _ _ _ _⟩
  | doLog i cmd =>
    obtain ⟨hl,⟨⟩⟩ := Option.ite_none_right_eq_some.mp h
    exact .inl ⟨i,_,_,hl,.doLog cmd,moved_onNode _ _ _ _⟩
  | deliver k r =>
    obtain ⟨rpc,hk,hd⟩ := Option.bind_eq_some_iff.mp h
    exact .inl (deliverCall_move hk hd)
  | respond k =>
    obtain ⟨rpc,hk,hd⟩ := Option.bind_eq_some_iff.mp h
    exact .inl (respondCall_move hk hd)
  | fail k =>
    obtain ⟨rpc,hk,rfl⟩ := Option.map_eq_some_iff.mp h
    exact .inr (.inl ⟨k,rpc,rfl,hk,rfl⟩)
  | crash i =>
    obtain ⟨hi,⟨⟩⟩ := Option.ite_none_right_eq_some.mp h
    exact .inr (.inr (.inl ⟨i,hi,rfl,rfl⟩))
  | receive i =>
    obtain ⟨hl,hr⟩ := Option.ite_none_right_eq_some.mp h
    exact .inr (.inr (.inr ⟨rfl,quiet_receiveOne hr⟩))
  | putCheck i request =>
    obtain ⟨hl,⟨⟩⟩ := Option.ite_none_right_eq_some.mp h
    exact .inr (.inr (.inr ⟨rfl,quiet_checkPut c i request⟩))
  | putLog i =>
    obtain ⟨hl,hm⟩ := Option.ite_none_right_eq_some.mp h
    obtain ⟨request,hp,rfl⟩ := Option.map_eq_some_iff.mp hm
    exact .inl ⟨i,_,_,hl,.putLog request hp,moved_logPut c i request⟩

end Cluster

/-- A property of each node and one of each call in flight that the steps around the
handlers keep: a new process, a send, a failure, and what happens outside Raft. -/
structure LocalClosed (cfg : Config) (P : CString → Node → Prop) (Q : Rpc → Prop) :
    Prop where
  boot : ∀ i persist life, (persist = none ∨ ∃ n, P i n ∧ n.persist = persist) →
    P i (Server.boot cfg i persist life).node
  same : ∀ i n m, P i n → Cluster.SameNode m n → P i m
  sent : ∀ i n, P i n → P i {n with calls := []}
  rpc : ∀ i n life call, i ∈ cfg.names → P i n → call ∈ n.calls → Q (call.rpc i life)
  fail : ∀ rpc, Q rpc → Q (Cluster.failCall rpc)

/-- Every handler keeps it too. -/
structure LocalInvariant (cfg : Config) (P : CString → Node → Prop) (Q : Rpc → Prop) : Prop
    extends LocalClosed cfg P Q where
  move : ∀ (c : Cluster) i e n net, c.live cfg i → P i (c.servers i).node →
    (∀ rpc ∈ c.net, Q rpc) → c.Move i e n net → P i n ∧ ∀ rpc ∈ net, Q rpc

variable {cfg : Config} {P : CString → Node → Prop} {Q : Rpc → Prop} {c c' : Cluster}

theorem LocalClosed.initial (hI : LocalClosed cfg P Q) :
    (∀ i, P i ((Cluster.initial cfg).servers i).node) ∧
      ∀ rpc ∈ (Cluster.initial cfg).net, Q rpc := by
  refine ⟨fun i => hI.boot i none 0 (.inl rfl),?_⟩
  intro rpc hrpc
  exact absurd hrpc (by simp [Cluster.initial])

/-- A step keeps both when its handler, if it runs one, does. -/
theorem LocalClosed.step {e : Event} (hI : LocalClosed cfg P Q)
    (hmove : ∀ i n net, c.live cfg i → c.Move i e n net → P i n ∧ ∀ rpc ∈ net, Q rpc)
    (h : (∀ i, P i (c.servers i).node) ∧ ∀ rpc ∈ c.net, Q rpc)
    (hs : (machine cfg).step c e = some c') :
    (∀ i, P i (c'.servers i).node) ∧ ∀ rpc ∈ c'.net, Q rpc := by
  obtain ⟨hnode,hnet⟩ := h
  rcases Cluster.step_cases hs with
    ⟨i,n,net,hlive,hm,hmoved⟩ | ⟨k,rpc,-,hk,rfl⟩ | ⟨i,-,-,rfl⟩ | ⟨-,hq⟩
  · obtain ⟨hn,hnet'⟩ := hmove i n net hlive hm
    have hself : P i (c'.servers i).node := by
      rw [hmoved.node]
      exact hI.sent i n hn
    exact ⟨hmoved.each (P := fun j s => P j s.node) hself (fun j _ => hnode j),
      hmoved.each_rpc hnet' (fun call hcall => hI.rpc i n _ call hlive.1 hn hcall)⟩
  · exact ⟨hnode,Cluster.failed_each hk hnet (hI.fail rpc)⟩
  · refine ⟨?_,hnet⟩
    exact Cluster.crashed_each (P := fun j s => P j s.node)
      (hI.boot i _ _ (.inr ⟨_,hnode i,rfl⟩)) (fun j _ => hnode j)
  · refine ⟨fun j => hI.same j _ _ (hnode j) (hq.node j),?_⟩
    rw [hq.net]
    exact hnet

theorem LocalInvariant.step {e : Event} (hI : LocalInvariant cfg P Q)
    (h : (∀ i, P i (c.servers i).node) ∧ ∀ rpc ∈ c.net, Q rpc)
    (hs : (machine cfg).step c e = some c') :
    (∀ i, P i (c'.servers i).node) ∧ ∀ rpc ∈ c'.net, Q rpc :=
  hI.toLocalClosed.step (fun i n net hl hm => hI.move c i e n net hl (h.1 i) h.2 hm) h hs

theorem LocalInvariant.reachable {ok : Cluster → Event → Prop} (hI : LocalInvariant cfg P Q)
    (h : (machine cfg).Path ok (.initial cfg) c) :
    (∀ i, P i (c.servers i).node) ∧ ∀ rpc ∈ c.net, Q rpc :=
  Machine.Path.invariant (I := fun c =>
    (∀ i, P i (c.servers i).node) ∧ ∀ rpc ∈ c.net, Q rpc)
    (fun _ _ _ hi _ hs => hI.step hi hs) h hI.initial

end SRaftMuduo
