import SRaftMuduo.Raft.SRaft

namespace SRaftMuduo

/-- A node with everything its handlers touch. `persist` is the file
`addrStr_ + ".persist"`, `channel` the queue behind `channel_`, `calls` the
calls started so far by the running handler. `applied` and `pushes` observe
`DoApply`: every index it looked up with the data found, and every index whose
data it pushed. A `stopped` node has dereferenced a null peer, or has computed an
index beyond `int64_t`; it runs no further handler. -/
structure Node where
  raft : SRaft
  persist : Option PersistRecord
  channel : Option (List CString)
  calls : List Call
  applied : List (Int × CString)
  pushes : List (Int × CString)
  stopped : Bool

namespace Node

def create (addrStr : CString) (peerAddrs : List CString)
    (channel : Option (List CString)) (persist : Option PersistRecord) : Node :=
  ⟨SRaft.create addrStr peerAddrs,persist,channel,[],[],[],false⟩

def stop (n : Node) : Node := {n with stopped := true}

def dump (n : Node) : Node :=
  {n with persist := some ⟨n.raft.currentTerm,n.raft.addrStr,n.raft.votedFor,n.raft.logs⟩}

def load (n : Node) : Node :=
  match n.persist with
  | none => n
  | some record => {n with raft := {n.raft with
      currentTerm := record.term
      votedFor := record.voteFor
      logs := record.entries}}

def run (r : Readings) (n : Node) : Node :=
  {n.load with raft := {n.load.raft with
    running := true
    dueElection := u64 (r.dueMs+r.random)}}

/-- `channel_->pushData(cmd)`, for the entry at index `k`; a null channel only logs. -/
def pushData (k : Int) (cmd : CString) (n : Node) : Node :=
  match n.channel with
  | none => n
  | some que => {n with channel := some (que++[cmd]), pushes := n.pushes++[(k,cmd)]}

/-- One turn of the `while` loop of `DoApply`. -/
def applyOne (n : Node) : Node :=
  let k := n.raft.lastApplied+1
  let cmd := (n.raft.getLogByIndex (toU64 k)).data
  let m : Node := {n with
    raft := {n.raft with lastApplied := k}
    applied := n.applied++[(k,cmd)]}
  if cmd = [] then m else m.pushData k cmd

def applyLoop : Nat → Node → Node
  | 0, n => n
  | i+1, n => applyLoop i n.applyOne

/-- Each turn raises `lastApplied_` by one until it meets `commitIndex_`. -/
def doApply (n : Node) : Node :=
  applyLoop (n.raft.commitIndex-n.raft.lastApplied).toNat n

/-- The loops over `peers_` that start one call for each peer: the calls made before
the first null pointer, and whether one was met. -/
def callPeers (call : SRaftPeer → Call) : List (CString × Option SRaftPeer) → List Call × Bool
  | [] => ([],false)
  | (_,none)::_ => ([],true)
  | (_,some peer)::pp => (call peer::(callPeers call pp).1,(callPeers call pp).2)

def startCalls (call : SRaftPeer → Call) (n : Node) : Node :=
  {n with
    calls := n.calls++(callPeers call n.raft.peers).1
    stopped := n.stopped || (callPeers call n.raft.peers).2}

def doAppendEntries (isHeartbeat : Bool) (n : Node) : Node :=
  let m :=
    if n.raft.peers = [] ∧ isHeartbeat = false then
      doApply {n with raft := {n.raft with commitIndex := n.raft.lastLogIndex}}
    else n
  m.startCalls (fun peer =>
    .appendEntries peer.name (m.raft.appendRequest isHeartbeat peer) isHeartbeat)

def sendHeartbeat (n : Node) : Node := n.doAppendEntries true

/-- The fields `DoElection` sets before it calls `Dump`. -/
def beginElection (r : Readings) (n : Node) : Node :=
  {n with raft := {n.raft with
    state := .candidate
    currentTerm := u64 (n.raft.currentTerm+1)
    votesRecieved := 1
    votedFor := n.raft.addrStr
    dueElectionFail := u64 (r.electionMs+intervalElectionFail)}}

def doElection (r : Readings) (n : Node) : Node :=
  let m := (n.beginElection r).dump
  let m := if m.raft.peers = [] then {m with raft := {m.raft with state := .leader}} else m
  m.startCalls (fun peer => .requestVote peer.name m.raft.voteRequest)

def heartbeatDue (r : Readings) (n : Node) : Prop :=
  n.raft.state = .leader ∧ n.raft.dueHeartBeat < r.currentMs ∧ n.raft.peers ≠ []

def electionDue (r : Readings) (n : Node) : Prop :=
  n.raft.state = .follower ∧ n.raft.dueElection < r.currentMs

def electionFailed (r : Readings) (n : Node) : Prop :=
  n.stopped = false ∧ n.raft.state = .candidate ∧ n.raft.dueElectionFail < r.currentMs

instance (r : Readings) (n : Node) : Decidable (n.heartbeatDue r) :=
  inferInstanceAs (Decidable (_ ∧ _ ∧ _))

instance (r : Readings) (n : Node) : Decidable (n.electionDue r) :=
  inferInstanceAs (Decidable (_ ∧ _))

instance (r : Readings) (n : Node) : Decidable (n.electionFailed r) :=
  inferInstanceAs (Decidable (_ ∧ _ ∧ _))

/-- The three `if` statements of `OnTimer`, each on the node the one before left. -/
def timerHeartbeat (r : Readings) (n : Node) : Node :=
  if n.heartbeatDue r then
    sendHeartbeat {n with raft := {n.raft with
      dueHeartBeat := u64 (r.currentMs+intervalHeartBeat)}}
  else n

def timerElection (r : Readings) (n : Node) : Node :=
  if n.electionDue r then n.doElection r else n

def timerFail (r : Readings) (n : Node) : Node :=
  if n.electionFailed r then
    {n with raft := {n.raft with
      state := .follower
      dueElection := u64 (r.dueMs+r.random)}}
  else n

def onTimer (r : Readings) (n : Node) : Node :=
  if n.raft.running then ((n.timerHeartbeat r).timerElection r).timerFail r else n

def newEntry (cmd : CString) (s : SRaft) : LogEntry :=
  ⟨s.lastLogIndex+1,s.currentTerm,0,cmd,true⟩

/-- The body of `DoLog` on a running leader. -/
def logEntry (cmd : CString) (n : Node) : Node :=
  doAppendEntries false
    (dump {n with raft := {n.raft with logs := n.raft.logs++[newEntry cmd n.raft]}})

/-- The result is missing when the call does not return: an index past `int64_t` is
undefined, and the loop over `peers_` can meet a null pointer. -/
def doLog (cmd : CString) (n : Node) : Node × Option Int :=
  if n.raft.running = false then (n,some (-1))
  else if n.raft.state ≠ .leader then (n,some (-2))
  else if 2^63 ≤ n.raft.lastLogIndex+1 then (n.stop,none)
  else (n.logEntry cmd,if (n.logEntry cmd).stopped then none else some 1)

/-- `erase` from `logStartIndex+1` on; the not-found value wraps to the first entry. -/
def splice (s : SRaft) (request : AppendEntriesRequest) : List LogEntry :=
  let logStartIndex := s.findLog request.prevLogTerm (toU64 request.prevLogIndex)
  s.logs.take (u64 (logStartIndex+1))++request.entries

def appendResponse (s : SRaft) (request : AppendEntriesRequest) : AppendEntriesResponse :=
  ⟨s.addrStr,s.currentTerm,false,s.lastLogIndex,s.lastLogTerm,request.seq⟩

def onAppendEntriesRequest (request : AppendEntriesRequest) (r : Readings) (n : Node) :
    Node × AppendEntriesResponse :=
  let response := appendResponse n.raft request
  if n.raft.running = false then (n,response)
  else if request.term < n.raft.currentTerm then (n,response)
  else if request.entries = [] then
    ({n with raft := {n.raft with
      dueElection := u64 (r.dueMs+r.random)
      state := .follower
      currentTerm := request.term}},response)
  else if n.raft.baseLogIndex ≤ request.prevLogIndex then
    let m : Node := {n with raft := {n.raft with logs := splice n.raft request}}
    (m.dump,{response with
      success := true
      lastLogIndex := m.raft.lastLogIndex
      lastLogTerm := m.raft.lastLogTerm})
  else (n.dump,response)

def touchPeer (name : CString) (n : Node) : Node := {n with raft := n.raft.touchPeer name}

def setPeer (name : CString) (peer : SRaftPeer) (n : Node) : Node :=
  {n with raft := n.raft.setPeer name peer}

/-- The step from `newCommit<=commitIndex_` on, for the peer that answered. -/
def countCommit (peer : SRaftPeer) (response : AppendEntriesResponse) (n : Node) : Node :=
  let newCommit := response.lastLogIndex
  if newCommit ≤ n.raft.commitIndex then n
  else
    let m := n.setPeer response.name ⟨peer.name,newCommit+1,newCommit⟩
    if m.raft.anyNullPeer then m.stop
    else if m.raft.peers.length/2 ≤ m.raft.commitVote newCommit then
      doApply {m with raft := {m.raft with commitIndex := newCommit}}
    else m

def stepDown (n : Node) : Node := dump {n with raft := {n.raft with state := .follower}}

def checkTerm (term : Nat) (n : Node) : Node :=
  if n.raft.currentTerm < term then n.stepDown else n

/-- `OnAppendEntriesReponse` past the two checks on the leader and its term. -/
def countResponse (response : AppendEntriesResponse) (n : Node) : Node :=
  match n.raft.findPeer response.name with
  | none => if response.success = true ∧ response.lastLogIndex ≤ n.raft.commitIndex then n
      else n.stop
  | some peer =>
    if response.success = false then
      n.setPeer response.name ⟨peer.name,response.lastLogIndex+1,peer.matchIndex⟩
    else n.countCommit peer response

def onAppendEntriesReponse (response : AppendEntriesResponse) (isHeartbeat : Bool)
    (n : Node) : Node :=
  let n := n.touchPeer response.name
  if n.raft.state ≠ .leader then n
  else
    let m := n.checkTerm response.term
    if isHeartbeat then m else m.countResponse response

def voteResponse (s : SRaft) (request : RequestVoteRequest) (voteGranted : Bool) :
    RequestVoteResponse :=
  ⟨s.addrStr,s.currentTerm,voteGranted,request.seq,true⟩

def onRequestVoteRequest (request : RequestVoteRequest) (n : Node) :
    Node × RequestVoteResponse :=
  if n.raft.running = false then (n,RequestVoteResponse.empty)
  else if request.term ≤ n.raft.currentTerm then (n,voteResponse n.raft request false)
  else
    let m : Node := {n with raft := {n.raft with currentTerm := request.term}}
    if n.raft.candidateLogIndexOld request || n.raft.candidateLogTermOld request then
      (m,voteResponse n.raft request false)
    else
      let m : Node := if m.raft.state = .leader
        then {m with raft := {m.raft with state := .follower}} else m
      (m.dump,voteResponse n.raft request true)

/-- The first `if` of `OnRequestVoteResponse`: the file gets the term before the raise. -/
def yieldTerm (term : Nat) (n : Node) : Node :=
  {n.stepDown with raft := {n.stepDown.raft with currentTerm := term}}

def countVote (n : Node) : Node :=
  let votes := n.raft.votesRecieved+1
  {n with raft := {n.raft with
    votesRecieved := votes
    state := if n.raft.peers.length/2 < votes then .leader else n.raft.state}}

def onRequestVoteResponse (response : RequestVoteResponse) (n : Node) : Node :=
  let m := if n.raft.currentTerm < response.term then n.yieldTerm response.term else n
  if m.raft.state ≠ .candidate then m
  else if response.voteGranted then m.countVote else m

end Node

end SRaftMuduo
