import SRaftMuduo.Framework.Schema
import SRaftMuduo.Raft.Crash
import SRaftMuduo.Store.Skvclient

namespace SRaftMuduo

open Wire

namespace LogEntry

def schema : Schema :=
  [⟨1,.int64,.required⟩,⟨2,.uint64,.required⟩,⟨3,.int32,.required⟩,⟨4,.bytes,.optional⟩]

def values (e : LogEntry) : Values :=
  if e.hasRequired then [[.int e.index],[.uint e.term],[.int e.command],[.bytes e.data]]
  else [[],[],[],[]]

def ofValues : Values → Option LogEntry
  | [[.int index],[.uint term],[.int command],[.bytes data]] =>
    some ⟨index,term,command,data,true⟩
  | [[.int index],[.uint term],[.int command],[]] => some ⟨index,term,command,[],true⟩
  | _ => none

def scalar (e : LogEntry) : Scalar := .bytes (Wire.serialize schema e.values)

/-- The entry in a field of the message around it. -/
def ofScalar : Scalar → Option LogEntry
  | .bytes cs => (Wire.parse schema cs).bind ofValues
  | _ => none

variable {e : LogEntry}

/-- The bytes are those that an entry has in the record on disk. -/
theorem serialize_values (e : LogEntry) :
    Wire.serialize schema e.values = e.message.serialize := by
  rw [values,message]
  split_ifs <;> rfl

theorem ofScalar_scalar (h : Typed schema e.values) :
    ofScalar e.scalar = if e.hasRequired then some e else none := by
  obtain ⟨index,term,command,data,hasRequired⟩ := e
  cases hasRequired with
  | true =>
    have hfits : Fits schema (values ⟨index,term,command,data,true⟩) :=
      ⟨h.lines rfl (by decide),by decide⟩
    rw [scalar,ofScalar,parse_serialize hfits]
    rfl
  | false => rfl

theorem mapM_ofScalar {es : List LogEntry} (h : ∀ e ∈ es, Typed schema e.values) :
    (es.map scalar).mapM ofScalar = if es.all hasRequired then some es else none := by
  induction es with
  | nil => rfl
  | cons e es ih =>
    rw [List.map_cons,List.mapM_cons,ofScalar_scalar (h e List.mem_cons_self),
      ih fun e' he' => h e' (List.mem_cons_of_mem _ he'),List.all_cons]
    cases e.hasRequired <;> cases es.all hasRequired <;> rfl

end LogEntry

structure InstallSnapshotRequest where
  term : Nat
  name : CString
  lastIncludedIndex : Int
  lastIncludedTerm : Int
  data : CString
  seq : Nat
  initial : Bool
  deriving DecidableEq

/-- `InstallSnapshot` leaves its response as it was constructed, with no field set. -/
structure InstallSnapshotResponse where
  term : Nat
  name : CString
  lastIncludedIndex : Int
  lastIncludedTerm : Int
  success : Bool
  seq : Nat
  hasRequired : Bool
  deriving DecidableEq

/-- A message of the three services, with its `time` where it has one. -/
inductive RpcMessage
  | appendEntriesRequest (time : Nat) (request : AppendEntriesRequest)
  | appendEntriesResponse (time : Nat) (response : AppendEntriesResponse)
  | requestVoteRequest (time : Nat) (request : RequestVoteRequest)
  | requestVoteResponse (time : Nat) (response : RequestVoteResponse)
  | installSnapshotRequest (time : Nat) (request : InstallSnapshotRequest)
  | installSnapshotResponse (time : Nat) (response : InstallSnapshotResponse)
  | putAppendRequest (request : PutAppendRequest)
  | putAppendResponse (response : PutAppendResponse)
  | getRequest (request : GetRequest)
  | getResponse (response : GetResponse)

inductive RpcKind
  | appendEntriesRequest
  | appendEntriesResponse
  | requestVoteRequest
  | requestVoteResponse
  | installSnapshotRequest
  | installSnapshotResponse
  | putAppendRequest
  | putAppendResponse
  | getRequest
  | getResponse
  deriving DecidableEq

namespace RpcKind

/-- The message definitions of `raft_messages.proto`. -/
def schema : RpcKind → Schema
  | appendEntriesRequest =>
    [⟨1,.bytes,.required⟩,⟨2,.uint64,.required⟩,⟨3,.int64,.required⟩,⟨4,.uint64,.required⟩,
      ⟨5,.int64,.required⟩,⟨6,.bytes,.repeated⟩,⟨7,.uint64,.required⟩,⟨8,.uint64,.required⟩,
      ⟨9,.bool,.required⟩]
  | appendEntriesResponse =>
    [⟨1,.bytes,.required⟩,⟨2,.uint64,.required⟩,⟨3,.bool,.required⟩,⟨4,.int64,.required⟩,
      ⟨5,.uint64,.required⟩,⟨6,.uint64,.required⟩,⟨7,.uint64,.required⟩]
  | requestVoteRequest =>
    [⟨1,.bytes,.required⟩,⟨2,.uint64,.required⟩,⟨3,.int64,.required⟩,⟨4,.uint64,.required⟩,
      ⟨5,.uint64,.required⟩,⟨6,.uint64,.required⟩,⟨7,.bool,.required⟩]
  | requestVoteResponse =>
    [⟨1,.bytes,.required⟩,⟨2,.uint64,.required⟩,⟨3,.bool,.required⟩,⟨4,.uint64,.required⟩,
      ⟨5,.uint64,.required⟩]
  | installSnapshotRequest =>
    [⟨1,.uint64,.required⟩,⟨2,.bytes,.required⟩,⟨3,.int64,.required⟩,⟨4,.int64,.required⟩,
      ⟨6,.bytes,.required⟩,⟨7,.uint64,.required⟩,⟨8,.uint64,.required⟩,⟨9,.bool,.required⟩]
  | installSnapshotResponse =>
    [⟨1,.uint64,.required⟩,⟨2,.bytes,.required⟩,⟨3,.int64,.required⟩,⟨4,.int64,.required⟩,
      ⟨5,.bool,.required⟩,⟨6,.uint64,.required⟩,⟨7,.uint64,.required⟩]
  | putAppendRequest =>
    [⟨1,.bytes,.required⟩,⟨2,.bytes,.required⟩,⟨3,.bytes,.required⟩,⟨4,.int64,.required⟩,
      ⟨5,.int64,.required⟩]
  | putAppendResponse => [⟨1,.bool,.required⟩,⟨2,.bytes,.required⟩]
  | getRequest => [⟨1,.bytes,.required⟩,⟨2,.int64,.required⟩,⟨3,.int64,.required⟩]
  | getResponse => [⟨1,.bool,.required⟩,⟨2,.bytes,.required⟩,⟨3,.bytes,.required⟩]

/-- The message that the values of its fields make up. -/
def ofValues : RpcKind → Values → Option RpcMessage
  | appendEntriesRequest, [[.bytes name],[.uint term],[.int prevLogIndex],[.uint prevLogTerm],
      [.int leaderCommit],entries,[.uint time],[.uint seq],[.bool _]] =>
    (entries.mapM LogEntry.ofScalar).map fun entries => .appendEntriesRequest time
      ⟨name,term,prevLogIndex,prevLogTerm,leaderCommit,entries,seq⟩
  | appendEntriesResponse, [[.bytes name],[.uint term],[.bool success],[.int lastLogIndex],
      [.uint lastLogTerm],[.uint time],[.uint seq]] =>
    some (.appendEntriesResponse time ⟨name,term,success,lastLogIndex,lastLogTerm,seq⟩)
  | requestVoteRequest, [[.bytes name],[.uint term],[.int lastLogIndex],[.uint lastLogTerm],
      [.uint time],[.uint seq],[.bool _]] =>
    some (.requestVoteRequest time ⟨name,term,lastLogIndex,lastLogTerm,seq⟩)
  | requestVoteResponse, [[.bytes name],[.uint term],[.bool voteGranted],[.uint time],
      [.uint seq]] =>
    some (.requestVoteResponse time ⟨name,term,voteGranted,seq,true⟩)
  | installSnapshotRequest, [[.uint term],[.bytes name],[.int lastIncludedIndex],
      [.int lastIncludedTerm],[.bytes data],[.uint time],[.uint seq],[.bool initial]] =>
    some (.installSnapshotRequest time
      ⟨term,name,lastIncludedIndex,lastIncludedTerm,data,seq,initial⟩)
  | installSnapshotResponse, [[.uint term],[.bytes name],[.int lastIncludedIndex],
      [.int lastIncludedTerm],[.bool success],[.uint time],[.uint seq]] =>
    some (.installSnapshotResponse time
      ⟨term,name,lastIncludedIndex,lastIncludedTerm,success,seq,true⟩)
  | putAppendRequest, [[.bytes key],[.bytes value],[.bytes op],[.int _],[.int _]] =>
    some (.putAppendRequest ⟨key,value,op⟩)
  | putAppendResponse, [[.bool wrongLeader],[.bytes err]] =>
    some (.putAppendResponse ⟨wrongLeader,err⟩)
  | getRequest, [[.bytes key],[.int clerkId],[.int cmdIndex]] =>
    some (.getRequest ⟨key,clerkId,cmdIndex⟩)
  | getResponse, [[.bool wrongLeader],[.bytes err],[.bytes value]] =>
    some (.getResponse ⟨wrongLeader,err,value⟩)
  | _, _ => none

/-- `ParseFromString`; the messages inside are parsed and checked with it. -/
def parse (kind : RpcKind) (cs : CString) : Option RpcMessage :=
  (Wire.parse kind.schema cs).bind kind.ofValues

theorem closed (kind : RpcKind) : Closed kind.schema := by
  cases kind <;> exact ⟨by decide,by decide,rfl⟩

end RpcKind

namespace RpcMessage

def kind : RpcMessage → RpcKind
  | appendEntriesRequest .. => .appendEntriesRequest
  | appendEntriesResponse .. => .appendEntriesResponse
  | requestVoteRequest .. => .requestVoteRequest
  | requestVoteResponse .. => .requestVoteResponse
  | installSnapshotRequest .. => .installSnapshotRequest
  | installSnapshotResponse .. => .installSnapshotResponse
  | putAppendRequest .. => .putAppendRequest
  | putAppendResponse .. => .putAppendResponse
  | getRequest .. => .getRequest
  | getResponse .. => .getResponse

/-- The values that the senders set. `initial` is true in the requests of a node, and a client
gives every write the same `ClerkID` and `cmdIndex`; a response that the handler has not touched
has none. -/
def values : RpcMessage → Values
  | appendEntriesRequest time r =>
    [[.bytes r.name],[.uint r.term],[.int r.prevLogIndex],[.uint r.prevLogTerm],
      [.int r.leaderCommit],r.entries.map LogEntry.scalar,[.uint time],[.uint r.seq],[.bool true]]
  | appendEntriesResponse time r =>
    [[.bytes r.name],[.uint r.term],[.bool r.success],[.int r.lastLogIndex],
      [.uint r.lastLogTerm],[.uint time],[.uint r.seq]]
  | requestVoteRequest time r =>
    [[.bytes r.name],[.uint r.term],[.int r.lastLogIndex],[.uint r.lastLogTerm],[.uint time],
      [.uint r.seq],[.bool true]]
  | requestVoteResponse time r =>
    if r.hasRequired then
      [[.bytes r.name],[.uint r.term],[.bool r.voteGranted],[.uint time],[.uint r.seq]]
    else [[],[],[],[],[]]
  | installSnapshotRequest time r =>
    [[.uint r.term],[.bytes r.name],[.int r.lastIncludedIndex],[.int r.lastIncludedTerm],
      [.bytes r.data],[.uint time],[.uint r.seq],[.bool r.initial]]
  | installSnapshotResponse time r =>
    if r.hasRequired then
      [[.uint r.term],[.bytes r.name],[.int r.lastIncludedIndex],[.int r.lastIncludedTerm],
        [.bool r.success],[.uint time],[.uint r.seq]]
    else [[],[],[],[],[],[],[]]
  | putAppendRequest r => [[.bytes r.key],[.bytes r.value],[.bytes r.op],[.int 1],[.int 1]]
  | putAppendResponse r => [[.bool r.wrongLeader],[.bytes r.err]]
  | getRequest r => [[.bytes r.key],[.int r.clerkId],[.int r.cmdIndex]]
  | getResponse r => [[.bool r.wrongLeader],[.bytes r.err],[.bytes r.value]]

def serialize (m : RpcMessage) : CString := Wire.serialize m.kind.schema m.values

def entries : RpcMessage → List LogEntry
  | appendEntriesRequest _ r => r.entries
  | _ => []

/-- The handler has set the message. -/
def isSet : RpcMessage → Bool
  | requestVoteResponse _ r => r.hasRequired
  | installSnapshotResponse _ r => r.hasRequired
  | _ => true

/-- Every required field of the message and of the messages in it is set. -/
def isInitialized (m : RpcMessage) : Bool := m.isSet && m.entries.all LogEntry.hasRequired

/-- The values are of the types of their fields, and the message is below the limit of the
format. -/
structure InRange (m : RpcMessage) : Prop where
  values : Typed m.kind.schema m.values
  entries : ∀ e ∈ m.entries, Typed LogEntry.schema e.values
  size : m.serialize.length < 2^31

instance (m : RpcMessage) : Decidable m.InRange :=
  decidable_of_iff (Typed m.kind.schema m.values ∧
    (∀ e ∈ m.entries, Typed LogEntry.schema e.values) ∧ m.serialize.length < 2^31)
    ⟨fun h => ⟨h.1,h.2.1,h.2.2⟩,fun h => ⟨h.values,h.entries,h.size⟩⟩

variable {m : RpcMessage}

theorem ofValues_values (h : m.InRange) (hset : m.isSet = true) :
    m.kind.ofValues m.values = if m.isInitialized then some m else none := by
  rw [isInitialized,hset,Bool.true_and]
  cases m with
  | appendEntriesRequest time r =>
    show ((r.entries.map LogEntry.scalar).mapM LogEntry.ofScalar).map _ =
      if r.entries.all LogEntry.hasRequired then _ else _
    have hentries : ∀ e ∈ r.entries, Typed LogEntry.schema e.values := h.entries
    rw [LogEntry.mapM_ofScalar hentries]
    split_ifs <;> rfl
  | requestVoteResponse time r =>
    obtain ⟨name,term,voteGranted,seq,hasRequired⟩ := r
    obtain rfl : hasRequired = true := hset
    rfl
  | installSnapshotResponse time r =>
    obtain ⟨term,name,lastIncludedIndex,lastIncludedTerm,success,seq,hasRequired⟩ := r
    obtain rfl : hasRequired = true := hset
    rfl
  | appendEntriesResponse time r => rfl
  | requestVoteRequest time r => rfl
  | installSnapshotRequest time r => rfl
  | putAppendRequest r => rfl
  | putAppendResponse r => rfl
  | getRequest r => rfl
  | getResponse r => rfl

theorem complete_values (hset : m.isSet = true) : complete m.kind.schema m.values = true := by
  cases m with
  | requestVoteResponse time r =>
    obtain ⟨name,term,voteGranted,seq,hasRequired⟩ := r
    obtain rfl : hasRequired = true := hset
    rfl
  | installSnapshotResponse time r =>
    obtain ⟨term,name,lastIncludedIndex,lastIncludedTerm,success,seq,hasRequired⟩ := r
    obtain rfl : hasRequired = true := hset
    rfl
  | appendEntriesRequest time r => rfl
  | appendEntriesResponse time r => rfl
  | requestVoteRequest time r => rfl
  | installSnapshotRequest time r => rfl
  | putAppendRequest r => rfl
  | putAppendResponse r => rfl
  | getRequest r => rfl
  | getResponse r => rfl

/-- A message that was never set is empty, and does not parse. -/
theorem parse_unset (hunset : m.isSet = false) (k : Nat) :
    m.kind.parse (m.serialize.take k) = none := by
  have hempty : m.serialize = [] ∧ m.kind.parse [] = none := by
    cases m with
    | requestVoteResponse time r =>
      obtain ⟨name,term,voteGranted,seq,hasRequired⟩ := r
      obtain rfl : hasRequired = false := hunset
      exact ⟨rfl,rfl⟩
    | installSnapshotResponse time r =>
      obtain ⟨term,name,lastIncludedIndex,lastIncludedTerm,success,seq,hasRequired⟩ := r
      obtain rfl : hasRequired = false := hunset
      exact ⟨rfl,rfl⟩
    | _ => exact absurd hunset (by simp [isSet])
  rw [hempty.1,List.take_nil,hempty.2]

theorem parse_whole (h : m.InRange) :
    m.kind.parse m.serialize = if m.isInitialized then some m else none := by
  by_cases hset : m.isSet = true
  · have hwhole := m.kind.closed.parse_take h.values (complete_values hset)
      (Wire.serialize m.kind.schema m.values).length
    rw [List.take_length,if_pos (Nat.le_refl _)] at hwhole
    rw [RpcKind.parse,serialize,hwhole,Option.bind_some,ofValues_values h hset]
  · have hunset := (Bool.not_eq_true _).mp hset
    have hnone := parse_unset hunset m.serialize.length
    rw [List.take_length] at hnone
    rw [hnone,if_neg (by simp [isInitialized,hunset])]

theorem parse_cut (h : m.InRange) {k : Nat} (hk : k < m.serialize.length) :
    m.kind.parse (m.serialize.take k) = none := by
  by_cases hset : m.isSet = true
  · rw [serialize] at hk ⊢
    rw [RpcKind.parse,m.kind.closed.parse_take h.values (complete_values hset),
      if_neg (Nat.not_le_of_lt hk)]
    rfl
  · exact parse_unset ((Bool.not_eq_true _).mp hset) k

/-- The bytes of a message make it up again when they are all there and it was
initialized, and otherwise they do not parse. -/
theorem all_or_nothing (h : m.InRange) (k : Nat) :
    m.kind.parse (m.serialize.take k) =
      if m.serialize.length ≤ k ∧ m.isInitialized = true then some m else none := by
  by_cases hk : m.serialize.length ≤ k
  · rw [List.take_of_length_le hk,parse_whole h]
    simp [hk]
  · rw [parse_cut h (Nat.lt_of_not_le hk),if_neg fun hall => hk hall.1]

/-- A request with an entry of the log, with its last byte missing. -/
theorem all_or_nothing_cut :
    RpcKind.parse .appendEntriesRequest ((serialize (.appendEntriesRequest 5
      ⟨['a'],2,0,1,0,[⟨1,2,0,['x'],true⟩],0⟩)).take 27) = none := by
  have h : (appendEntriesRequest 5 ⟨['a'],2,0,1,0,[⟨1,2,0,['x'],true⟩],0⟩).InRange := by
    decide +kernel
  have hcut := all_or_nothing h 27
  exact hcut.trans (if_neg (by decide +kernel))

end RpcMessage

end SRaftMuduo
