import SRaftMuduo.Framework.Machine
import SRaftMuduo.Raft.Node
import SRaftMuduo.Store.Command
import Mathlib.Data.List.Nodup

namespace SRaftMuduo

/-- The addresses of a cluster. `peersOf` lists the nodes given to `AddPeer` at an
address, in the order in which the node there iterates over `peers_`. -/
structure Config where
  names : List CString
  peersOf : CString → List CString
  peers_nodup : ∀ i, (peersOf i).Nodup

/-- Every node has all the others as peers. -/
structure Config.Symmetric (cfg : Config) : Prop where
  nodup : cfg.names.Nodup
  named : [] ∉ cfg.names
  peers_perm : ∀ i ∈ cfg.names, (cfg.peersOf i).Perm (cfg.names.erase i)

/-- The cluster in which `AddPeer` gets every other address, in one order everywhere. -/
def Config.full (names : List CString) (h : names.Nodup) : Config :=
  ⟨names,names.erase,fun i => h.erase i⟩

theorem Config.full_symmetric {names : List CString} (h : names.Nodup) (hn : [] ∉ names) :
    (Config.full names h).Symmetric :=
  ⟨h,hn,fun _ _ => .refl _⟩

def Config.two : Config := .full [['a'],['b']] (by decide)

def Config.three : Config := .full [['a'],['b'],['c']] (by decide)

def Config.five : Config := .full [['a'],['b'],['c'],['d'],['e']] (by decide)

theorem Config.two_symmetric : Config.two.Symmetric := full_symmetric _ (by decide)

/-- A `Skvserver` process with its disk. `life` counts the processes started at
this address, `popped` the commands `recieveMsgThread` has taken so far, and
`pending` is the request of a `putAppend` between its check and its `DoLog`. -/
structure Server where
  node : Node
  kvDB : Store
  popped : List CString
  pending : Option PutAppendRequest
  life : Nat

/-- A new process at address `i`, before `Run`, on the given disk. -/
def Server.boot (cfg : Config) (i : CString) (persist : Option PersistRecord) (life : Nat) :
    Server :=
  ⟨Node.create i (cfg.peersOf i) (some []) persist,Store.initial,[],none,life⟩

/-- A call in flight from `src` to `dst`, made by process number `life` of `src`:
its request before delivery, or its response on the way back. -/
inductive Rpc
  | voteCall (src dst : CString) (life : Nat) (request : RequestVoteRequest)
  | voteReply (src dst : CString) (life : Nat) (request : RequestVoteRequest)
      (response : RequestVoteResponse)
  | appendCall (src dst : CString) (life : Nat) (request : AppendEntriesRequest)
      (isHeartbeat : Bool)
  | appendReply (src dst : CString) (life : Nat) (request : AppendEntriesRequest)
      (isHeartbeat : Bool) (response : AppendEntriesResponse)

def Call.rpc (src : CString) (life : Nat) : Call → Rpc
  | .requestVote peer request => .voteCall src peer life request
  | .appendEntries peer request isHeartbeat => .appendCall src peer life request isHeartbeat

/-- A write that `putAppend` has answered with `WrongLeader = false` and `Err = "none"`:
by whom, in which term, and the command with the last index after its `DoLog`. -/
structure Ack where
  server : CString
  term : Nat
  index : Int
  cmd : CString
  deriving DecidableEq

/-- A value given to `commitIndex_`, with the node and its term. -/
structure Commit where
  server : CString
  term : Nat
  index : Int
  deriving DecidableEq

/-- `acks` and `commits` observe the run; no step reads them. -/
structure Cluster where
  servers : CString → Server
  net : List Rpc
  acks : List Ack
  commits : List Commit

def Cluster.initial (cfg : Config) : Cluster :=
  ⟨fun i => Server.boot cfg i none 0,[],[],[]⟩

/-- `deliver`, `respond` and `fail` act on the call at a position of `net`. -/
inductive Event
  | run (i : CString) (r : Readings)
  | timer (i : CString) (r : Readings)
  | doLog (i : CString) (cmd : CString)
  | deliver (k : Nat) (r : Readings)
  | respond (k : Nat)
  | fail (k : Nat)
  | crash (i : CString)
  | receive (i : CString)
  | putCheck (i : CString) (request : PutAppendRequest)
  | putLog (i : CString)
  deriving DecidableEq

namespace Cluster

def raft (c : Cluster) (i : CString) : SRaft := (c.servers i).node.raft

/-- Handlers run on processes of the cluster that have not stopped. -/
def live (cfg : Config) (c : Cluster) (i : CString) : Prop :=
  i ∈ cfg.names ∧ (c.servers i).node.stopped = false

instance (cfg : Config) (c : Cluster) (i : CString) : Decidable (c.live cfg i) :=
  inferInstanceAs (Decidable (_ ∧ _))

/-- Puts a server back after a handler: its calls join the others in flight, and a new
value of `commitIndex_` is noted. -/
def put (c : Cluster) (i : CString) (server : Server) (net : List Rpc) : Cluster where
  servers := Function.update c.servers i
    {server with node := {server.node with calls := []}}
  net := net++server.node.calls.map (Call.rpc i server.life)
  acks := c.acks
  commits := c.commits++
    if server.node.raft.commitIndex = (c.raft i).commitIndex then []
    else [⟨i,server.node.raft.currentTerm,server.node.raft.commitIndex⟩]

/-- A handler that only touches the node. -/
def onNode (c : Cluster) (i : CString) (node : Node) (net : List Rpc) : Cluster :=
  c.put i {c.servers i with node := node} net

/-- A response that was never set does not serialize, and its call fails. -/
def deliverCall (cfg : Config) (c : Cluster) (k : Nat) (r : Readings) : Rpc → Option Cluster
  | .voteCall src dst life request =>
    if c.live cfg dst then
      let answer := (c.servers dst).node.onRequestVoteRequest request
      let response := if answer.2.hasRequired then answer.2 else RequestVoteResponse.empty
      some (c.onNode dst answer.1 (c.net.set k (.voteReply src dst life request response)))
    else none
  | .appendCall src dst life request isHeartbeat =>
    if c.live cfg dst ∧ request.parses then
      let answer := (c.servers dst).node.onAppendEntriesRequest request r
      some (c.onNode dst answer.1
        (c.net.set k (.appendReply src dst life request isHeartbeat answer.2)))
    else none
  | .voteReply .. => none
  | .appendReply .. => none

/-- A response only reaches the process that made the call. -/
def respondCall (cfg : Config) (c : Cluster) (k : Nat) : Rpc → Option Cluster
  | .voteReply src _ life _ response =>
    if c.live cfg src ∧ (c.servers src).life = life then
      some (c.onNode src ((c.servers src).node.onRequestVoteResponse response)
        (c.net.eraseIdx k))
    else none
  | .appendReply src _ life _ isHeartbeat response =>
    if c.live cfg src ∧ (c.servers src).life = life then
      some (c.onNode src
        ((c.servers src).node.onAppendEntriesReponse response isHeartbeat) (c.net.eraseIdx k))
    else none
  | .voteCall .. => none
  | .appendCall .. => none

/-- The status is not OK: the caller will get a default-constructed response. -/
def failCall : Rpc → Rpc
  | .voteCall src dst life request =>
    .voteReply src dst life request RequestVoteResponse.empty
  | .voteReply src dst life request _ =>
    .voteReply src dst life request RequestVoteResponse.empty
  | .appendCall src dst life request isHeartbeat =>
    .appendReply src dst life request isHeartbeat AppendEntriesResponse.empty
  | .appendReply src dst life request isHeartbeat _ =>
    .appendReply src dst life request isHeartbeat AppendEntriesResponse.empty

/-- One turn of `recieveMsgThread` as one step. `Threaded` has its parts, and `get`. -/
def receiveOne (c : Cluster) (i : CString) : Option Cluster :=
  match (c.servers i).node.channel with
  | some (cmd::que) =>
    let server := c.servers i
    let server := {server with
      node := {server.node with channel := some que}
      kvDB := server.kvDB.execute cmd
      popped := server.popped++[cmd]}
    some {c with servers := Function.update c.servers i server}
  | _ => none

/-- `putAppend` up to its call of `DoLog`; a node that is not the leader answers at once. -/
def checkPut (c : Cluster) (i : CString) (request : PutAppendRequest) : Cluster :=
  if (c.raft i).state = .leader then
    let server := {c.servers i with pending := some request}
    {c with servers := Function.update c.servers i server}
  else c

/-- The rest of `putAppend`: the answer was set before the call and ignores its result. -/
def logPut (c : Cluster) (i : CString) (request : PutAppendRequest) : Cluster :=
  let node := ((c.servers i).node.doLog request.command).1
  let ack : Ack := ⟨i,node.raft.currentTerm,node.raft.lastLogIndex,request.command⟩
  let c' := c.put i {c.servers i with node := node, pending := none} c.net
  if node.stopped then c' else {c' with acks := c.acks++[ack]}

def step (cfg : Config) (c : Cluster) : Event → Option Cluster
  | .run i r =>
    if c.live cfg i ∧ (c.raft i).running = false then
      some (c.onNode i ((c.servers i).node.run r) c.net)
    else none
  | .timer i r =>
    if c.live cfg i then some (c.onNode i ((c.servers i).node.onTimer r) c.net) else none
  | .doLog i cmd =>
    if c.live cfg i then some (c.onNode i ((c.servers i).node.doLog cmd).1 c.net) else none
  | .deliver k r => c.net[k]?.bind (c.deliverCall cfg k r)
  | .respond k => c.net[k]?.bind (c.respondCall cfg k)
  | .fail k => c.net[k]?.map (fun rpc => {c with net := c.net.set k (failCall rpc)})
  | .crash i =>
    if i ∈ cfg.names then
      let server := Server.boot cfg i (c.servers i).node.persist ((c.servers i).life+1)
      some {c with servers := Function.update c.servers i server}
    else none
  | .receive i => if c.live cfg i then c.receiveOne i else none
  | .putCheck i request =>
    if c.live cfg i ∧ (c.servers i).pending = none then some (c.checkPut i request) else none
  | .putLog i =>
    if c.live cfg i then (c.servers i).pending.map (c.logPut i) else none

end Cluster

/-- The cluster as a machine. -/
def machine (cfg : Config) : Machine Cluster Event :=
  ⟨fun c => c = Cluster.initial cfg,Cluster.step cfg⟩

end SRaftMuduo
