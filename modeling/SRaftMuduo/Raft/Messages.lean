import SRaftMuduo.Math.Words

namespace SRaftMuduo

/-- `hasRequired` is the presence bit of `index`, `term` and `command`, which
`DoLog` sets together; a default entry has none of the three. -/
structure LogEntry where
  index : Int
  term : Nat
  command : Int
  data : CString
  hasRequired : Bool
  deriving DecidableEq

/-- The `LogEntry{}` that `GetLogByIndex` returns out of range. -/
def LogEntry.empty : LogEntry := ⟨0,0,0,[],false⟩

structure AppendEntriesRequest where
  name : CString
  term : Nat
  prevLogIndex : Int
  prevLogTerm : Nat
  leaderCommit : Int
  entries : List LogEntry
  seq : Nat
  deriving DecidableEq

/-- A request that holds an entry without its required fields does not parse. -/
def AppendEntriesRequest.parses (request : AppendEntriesRequest) : Bool :=
  request.entries.all LogEntry.hasRequired

structure AppendEntriesResponse where
  name : CString
  term : Nat
  success : Bool
  lastLogIndex : Int
  lastLogTerm : Nat
  seq : Nat
  deriving DecidableEq

/-- The default-constructed response left by a failed call. -/
def AppendEntriesResponse.empty : AppendEntriesResponse := ⟨[],0,false,0,0,0⟩

structure RequestVoteRequest where
  name : CString
  term : Nat
  lastLogIndex : Int
  lastLogTerm : Nat
  seq : Nat
  deriving DecidableEq

/-- `hasRequired`: the handler has set the required fields. -/
structure RequestVoteResponse where
  name : CString
  term : Nat
  voteGranted : Bool
  seq : Nat
  hasRequired : Bool
  deriving DecidableEq

/-- The default-constructed response left by a failed call. -/
def RequestVoteResponse.empty : RequestVoteResponse := ⟨[],0,false,0,false⟩

structure PersistRecord where
  term : Nat
  name : CString
  voteFor : CString
  entries : List LogEntry
  deriving DecidableEq

/-- A call started on its own thread by `SRaftClient`, with the address it goes to. -/
inductive Call
  | requestVote (peer : CString) (request : RequestVoteRequest)
  | appendEntries (peer : CString) (request : AppendEntriesRequest) (isHeartbeat : Bool)
  deriving DecidableEq

end SRaftMuduo
