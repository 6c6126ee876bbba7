import SRaftMuduo.Raft.Record
import SRaftMuduo.Raft.Node

namespace SRaftMuduo

/-- What `Dump` writes and `Load` restores. -/
structure Persistent where
  currentTerm : Nat
  votedFor : CString
  logs : List LogEntryMessage
  deriving DecidableEq

/-- Where in `Dump` the process dies: before the file is opened, or with so many bytes of the
record written. -/
inductive CrashPoint
  | beforeOpen
  | written (k : Nat)
  deriving DecidableEq

namespace Persistent

/-- The members of a new process. -/
def initial : Persistent := ⟨0,[],[]⟩

def record (s : Persistent) (addrStr : CString) : PersistRecordMessage :=
  ⟨s.currentTerm,addrStr,s.votedFor,s.logs⟩

def ofRecord (r : PersistRecordMessage) : Persistent := ⟨r.term,r.voteFor,r.entries⟩

/-- The file that is left of `Dump`: opening it with `out` empties it first. -/
def Dump (s : Persistent) (addrStr : CString) (file : Option CString) :
    CrashPoint → Option CString
  | .beforeOpen => file
  | .written k => some ((s.record addrStr).serialize.take k)

/-- `Load` ignores what `ParseFromIstream` returns. -/
def Load (file : Option CString) (s : Persistent) : Persistent :=
  match file with
  | none => s
  | some cs => ofRecord (.parse cs)

/-- What is found after the process has died at `p` while it replaced the record `old`. -/
def afterCrash (old : Option PersistRecordMessage) (new : Persistent) (addrStr : CString)
    (p : CrashPoint) : Persistent :=
  Load (new.Dump addrStr (old.map PersistRecordMessage.serialize) p) initial

/-- The state in the record that was there before. -/
def stored (old : Option PersistRecordMessage) : Persistent := old.elim initial ofRecord

/-- The written bytes of `new` make up the old state or the new one: without the whole term
one of the two is the initial state; without the whole vote the old state is the new term
alone, or the new one has nothing more; and otherwise the entries that are there are all of
the new log, or the old log under the new term and vote. -/
def Harmless (old new : Persistent) (addrStr : CString) : CrashPoint → Prop
  | .beforeOpen => True
  | .written k =>
    let r := new.record addrStr
    let entries := PersistRecordMessage.cutEntries new.logs (k-r.voteEnd)
    if k < r.termEnd then old = initial ∨ new = initial
    else if k < r.voteEnd then
      old = ⟨new.currentTerm,[],[]⟩ ∨ new.votedFor = [] ∧ new.logs = []
    else old = ⟨new.currentTerm,new.votedFor,entries⟩ ∨ entries = new.logs

variable {old : Option PersistRecordMessage} {new : Persistent} {addrStr : CString}
  {p : CrashPoint} {k : Nat}

theorem afterCrash_beforeOpen (h : ∀ r ∈ old, r.InRange) :
    afterCrash old new addrStr .beforeOpen = stored old := by
  cases old with
  | none => rfl
  | some r =>
    show ofRecord (.parse r.serialize) = ofRecord r
    rw [PersistRecordMessage.parse_serialize (h r rfl)]

/-- The state left by `k` bytes of the new record does not depend on the old one. -/
theorem afterCrash_written (h : (new.record addrStr).InRange) (k : Nat) :
    afterCrash old new addrStr (.written k) =
      if k < (new.record addrStr).termEnd then initial
      else if k < (new.record addrStr).voteEnd then ⟨new.currentTerm,[],[]⟩
      else ⟨new.currentTerm,new.votedFor,
        PersistRecordMessage.cutEntries new.logs (k-(new.record addrStr).voteEnd)⟩ := by
  have hname : (new.record addrStr).nameEnd ≤ (new.record addrStr).voteEnd :=
    Nat.le_add_right _ _
  show ofRecord (.parse ((new.record addrStr).serialize.take k)) = _
  rw [PersistRecordMessage.parse_take h]
  split_ifs <;> first | rfl | omega

/-- After a crash in `Dump` the next `Load` finds the old state or the new one exactly when
the crash is harmless. -/
theorem crash_atomic_iff (hold : ∀ r ∈ old, r.InRange) (hnew : (new.record addrStr).InRange)
    (p : CrashPoint) :
    (afterCrash old new addrStr p = stored old ∨ afterCrash old new addrStr p = new) ↔
      Harmless (stored old) new addrStr p := by
  cases p with
  | beforeOpen => exact ⟨fun _ => trivial,fun _ => .inl (afterCrash_beforeOpen hold)⟩
  | written k =>
    rw [afterCrash_written hnew,Harmless]
    split_ifs
    · exact or_congr eq_comm eq_comm
    · refine or_congr eq_comm ?_
      obtain ⟨term,vote,logs⟩ := new
      simp [eq_comm]
    · refine or_congr eq_comm ?_
      obtain ⟨term,vote,logs⟩ := new
      simp

/-- An entry is added to the log, and the process dies when all but the entry is written. -/
theorem crash_atomic_appended :
    afterCrash (some ⟨1,['a'],['a'],[]⟩) ⟨1,['a'],[⟨some 0,some 1,some 0,some ['x']⟩]⟩ ['a']
      (.written 8) = stored (some ⟨1,['a'],['a'],[]⟩) := by
  have hold : ∀ r ∈ some (PersistRecordMessage.mk 1 ['a'] ['a'] []), r.InRange := by
    intro r hr
    obtain rfl := Option.some.inj hr
    exact ⟨by decide,by decide,by decide,nofun⟩
  have hnew : (record ⟨1,['a'],[⟨some 0,some 1,some 0,some ['x']⟩]⟩ ['a']).InRange := by
    refine ⟨by decide,by decide,by decide,?_⟩
    intro e he
    obtain rfl := List.mem_singleton.mp he
    exact ⟨by simp,by simp,by simp,by simp,by decide +kernel⟩
  have hsafe := (crash_atomic_iff hold hnew (.written 8)).mpr (.inl (by decide +kernel))
  cases hsafe with
  | inl h => exact h
  | inr h => exact absurd h (by decide +kernel)

/-- The file has just been opened: term, vote and log are lost. -/
theorem crash_atomic_emptied :
    afterCrash (some ⟨1,['a'],['a'],[]⟩) ⟨2,['b'],[]⟩ ['a'] (.written 0) = initial ∧
    stored (some ⟨1,['a'],['a'],[]⟩) ≠ initial ∧ (⟨2,['b'],[]⟩ : Persistent) ≠ initial := by
  decide +kernel

end Persistent

/-- An entry of the model as a message. -/
def LogEntry.message (e : LogEntry) : LogEntryMessage :=
  if e.hasRequired then ⟨some e.index,some e.term,some e.command,some e.data⟩ else .empty

def PersistRecord.message (r : PersistRecord) : PersistRecordMessage :=
  ⟨r.term,r.name,r.voteFor,r.entries.map LogEntry.message⟩

namespace Node

def persistent (n : Node) : Persistent :=
  ⟨n.raft.currentTerm,n.raft.votedFor,n.raft.logs.map LogEntry.message⟩

/-- The record that `dump` keeps stands for the bytes that `Dump` writes when it lives on. -/
theorem dump_bytes (n : Node) (file : Option CString) :
    n.dump.persist.map (fun r => r.message.serialize) = n.persistent.Dump n.raft.addrStr file
      (.written (n.persistent.record n.raft.addrStr).serialize.length) := by
  show some (n.persistent.record n.raft.addrStr).serialize = some (List.take _ _)
  rw [List.take_length]

/-- Loading the record is loading its bytes. -/
theorem load_bytes {n : Node} (h : ∀ r ∈ n.persist, r.message.InRange) :
    n.load.persistent = .Load (n.persist.map fun r => r.message.serialize) n.persistent := by
  cases hp : n.persist with
  | none =>
    rw [load,hp]
    rfl
  | some r =>
    rw [load,hp]
    show _ = Persistent.ofRecord (.parse r.message.serialize)
    rw [PersistRecordMessage.parse_serialize (h r hp)]
    rfl

end Node

end SRaftMuduo
