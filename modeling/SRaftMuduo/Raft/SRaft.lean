import SRaftMuduo.Raft.Messages

namespace SRaftMuduo

inductive State
  | follower
  | candidate
  | leader
  deriving DecidableEq

structure SRaftPeer where
  name : CString
  nextIndex : Int
  matchIndex : Int
  deriving DecidableEq

def intervalHeartBeat : Nat := 30
def intervalElectionLow : Nat := 450
def intervalElectionHigh : Nat := 600
def intervalElectionFail : Nat := 500

/-- `peers` is `peers_`; a `none` is the null pointer that `operator[]` inserts. -/
structure SRaft where
  state : State
  logs : List LogEntry
  votedFor : CString
  votesRecieved : Nat
  commitIndex : Int
  lastApplied : Int
  currentTerm : Nat
  lastIncludeTerm : Nat
  lastIncludeIndex : Int
  dueHeartBeat : Nat
  dueElection : Nat
  dueElectionFail : Nat
  peers : List (CString × Option SRaftPeer)
  addrStr : CString
  running : Bool

/-- What one handler execution reads from the clock and the random source:
the `currentMs` of `OnTimer`, the reading inside `DoElection`, and the reading
and the random value a new `dueElection_` is made of. -/
structure Readings where
  currentMs : Nat
  electionMs : Nat
  dueMs : Nat
  random : Nat
  deriving DecidableEq

/-- A handler that runs at the time `ms`, with the least value that `get_ranged_random` gives. -/
def Readings.now (ms : Nat) : Readings := ⟨ms,ms,ms,intervalElectionLow⟩

/-- The random value is one of `get_ranged_random`, and `uint64_t` holds the sum. -/
def Readings.drawn (r : Readings) : Prop :=
  intervalElectionLow ≤ r.random ∧ r.random ≤ intervalElectionHigh ∧ r.dueMs+r.random < 2^64

instance (r : Readings) : Decidable r.drawn := inferInstanceAs (Decidable (_ ∧ _ ∧ _))

namespace SRaft

def baseLogIndex (s : SRaft) : Int :=
  match s.logs with
  | [] => -1
  | e::_ => e.index

def lastLogIndex (s : SRaft) : Int :=
  match s.logs.getLast? with
  | none => -1
  | some e => e.index

def lastLogTerm (s : SRaft) : Nat :=
  match s.logs.getLast? with
  | none => 0
  | some e => e.term

/-- The loop of `FindLog` from position `i-1` down to `0`. -/
def findLogFrom (logs : List LogEntry) (term index : Nat) : Nat → Option Nat
  | 0 => none
  | i+1 =>
    match logs[i]? with
    | some e => if e.term = term ∧ toU64 e.index = index then some i
        else findLogFrom logs term index i
    | none => findLogFrom logs term index i

/-- The number of turns of that loop, which starts from `int i = logs.size()-1`. -/
def findTurns (s : SRaft) : Nat := (toI32 (u64 (s.logs.length+(2^64-1)))+1).toNat

/-- `-1` as `uint64_t` means not found. -/
def findLog (s : SRaft) (term index : Nat) : Nat :=
  (findLogFrom s.logs term index s.findTurns).getD (2^64-1)

/-- `index-baseIndex` is the unsigned difference, so it is never below zero. -/
def getLogByIndex (s : SRaft) (index : Nat) : LogEntry :=
  let baseIndex := toU64 s.baseLogIndex
  (s.logs[u64 (index+(2^64-baseIndex))]?).getD LogEntry.empty

/-- `SRaft::SRaft` followed by `AddPeer` for each name. -/
def create (addrStr : CString) (peerAddrs : List CString) : SRaft where
  state := .follower
  logs := []
  votedFor := []
  votesRecieved := 0
  commitIndex := -1
  lastApplied := -1
  currentTerm := 0
  lastIncludeTerm := 0
  lastIncludeIndex := -1
  dueHeartBeat := 0
  dueElection := 0
  dueElectionFail := 0
  peers := peerAddrs.map (fun name => (name,some ⟨name,0,-1⟩))
  addrStr := addrStr
  running := false

/-- The request `DoElection` sends to every peer; `-1` stands for an empty log. -/
def voteRequest (s : SRaft) : RequestVoteRequest where
  name := s.addrStr
  term := s.currentTerm
  lastLogIndex := s.logs.length-1
  lastLogTerm :=
    match s.logs.getLast? with
    | some e => e.term
    | none => 2^64-1
  seq := 2^64-1

/-- The `for` loop over `i<=LastLogIndex()`. Its bound is compared unsigned; `DoLog` has
just pushed an entry, so it is not the `-1` of an empty log. -/
def entriesFrom (s : SRaft) (nextIndex : Int) : List LogEntry :=
  let i := toU64 (max 0 nextIndex)
  (List.range' i (toU64 s.lastLogIndex+1-i)).map s.getLogByIndex

/-- The request `DoAppendEntries` builds for one peer. -/
def appendRequest (s : SRaft) (isHeartbeat : Bool) (peer : SRaftPeer) : AppendEntriesRequest :=
  if isHeartbeat then
    ⟨s.addrStr,s.currentTerm,-1,toU64 (-1),s.commitIndex,[],0⟩
  else
    let prevLogIndex := peer.nextIndex-1
    let prevLogTerm :=
      if prevLogIndex > -1 then (s.getLogByIndex (toU64 prevLogIndex)).term else 0
    ⟨s.addrStr,s.currentTerm,prevLogIndex,prevLogTerm,s.commitIndex,
      s.entriesFrom peer.nextIndex,0⟩

/-- `peers_[name]`, which inserts a null pointer under an unknown name. Where that stands in
the iteration order is up to the map; here it comes last. -/
def touchPeer (s : SRaft) (name : CString) : SRaft :=
  if name ∈ s.peers.map Prod.fst then s else {s with peers := s.peers++[(name,none)]}

def findPeer (s : SRaft) (name : CString) : Option SRaftPeer :=
  (s.peers.find? (fun pp => pp.1 = name)).bind Prod.snd

def setPeer (s : SRaft) (name : CString) (peer : SRaftPeer) : SRaft :=
  {s with peers := s.peers.map (fun pp => if pp.1 = name then (name,some peer) else pp)}

def anyNullPeer (s : SRaft) : Bool := s.peers.any (fun pp => pp.2.isNone)

def commitVote (s : SRaft) (newCommit : Int) : Nat :=
  1+s.peers.countP (fun pp => pp.2.any (fun peer2 => newCommit ≤ peer2.matchIndex))

def candidateLogTermOld (s : SRaft) (request : RequestVoteRequest) : Bool :=
  request.lastLogTerm < s.lastIncludeTerm ||
    match s.logs.getLast? with
    | some e => request.lastLogTerm < e.term
    | none => false

/-- The second bound adds `logs.size()` and the `int64_t` as unsigned values. -/
def candidateLogIndexOld (s : SRaft) (request : RequestVoteRequest) : Bool :=
  request.lastLogIndex < s.lastIncludeIndex ||
    match s.logs.getLast? with
    | some e => request.lastLogTerm = e.term &&
        toU64 request.lastLogIndex < u64 (s.logs.length+toU64 s.lastIncludeIndex)
    | none => false

end SRaft

end SRaftMuduo
