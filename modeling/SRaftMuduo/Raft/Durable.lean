import SRaftMuduo.Raft.Lifetime

namespace SRaftMuduo

/-- What has to survive a crash. -/
structure Durable where
  term : Nat
  votedFor : CString
  logs : List LogEntry
  deriving DecidableEq

def PersistRecord.durable (record : PersistRecord) : Durable :=
  ⟨record.term,record.voteFor,record.entries⟩

namespace Node

def durable (n : Node) : Durable := ⟨n.raft.currentTerm,n.raft.votedFor,n.raft.logs⟩

/-- The file holds what the node has in memory. -/
def Written (n : Node) : Prop := n.persist.map PersistRecord.durable = some n.durable

/-- A handler changes neither, or leaves the two equal. -/
def Kept (n m : Node) : Prop := m.durable = n.durable ∧ m.persist = n.persist ∨ m.Written

theorem Kept.same {n m : Node} (ht : m.raft.currentTerm = n.raft.currentTerm)
    (hv : m.raft.votedFor = n.raft.votedFor) (hl : m.raft.logs = n.raft.logs)
    (hp : m.persist = n.persist) : Kept n m := by
  refine .inl ⟨?_,hp⟩
  unfold durable
  rw [ht,hv,hl]

theorem dump_written (n : Node) : n.dump.Written := rfl

theorem doElection_written (r : Readings) (n : Node) : (n.doElection r).Written := by
  simp [Written,durable,PersistRecord.durable]

theorem onTimer_kept (r : Readings) (n : Node) : Kept n (n.onTimer r) := by
  rcases onTimer_cases r n with ⟨-,he⟩ | ⟨-,-,due,he⟩ | ⟨-,-,he⟩ | ⟨-,-,due,he⟩ <;> rw [he]
  · exact .same rfl rfl rfl rfl
  · obtain ⟨ci,la,hr⟩ := doAppendEntries_raft true
      {n with raft := {n.raft with dueHeartBeat := due}}
    exact .same (by rw [hr]) (by rw [hr]) (by rw [hr]) (by simp)
  · have hw := doElection_written r n
    rcases timerFail_cases r (n.doElection r) with he' | ⟨-,due,he'⟩ <;> rw [he']
    · exact .inr hw
    · exact .inr hw
  · exact .same rfl rfl rfl rfl

theorem doLog_kept (cmd : CString) (n : Node) : Kept n (n.doLog cmd).1 := by
  rcases doLog_cases cmd n with ⟨-,he⟩ | ⟨-,he⟩ | ⟨-,-,-,he⟩ <;> rw [he]
  · exact .same rfl rfl rfl rfl
  · exact .same rfl rfl rfl rfl
  · obtain ⟨ci,la,hr⟩ := logEntry_raft cmd n
    right
    simp [Written,durable,hr,PersistRecord.durable]

/-- A heartbeat sets the term and leaves the file. -/
theorem onAppendEntriesRequest_kept {request : AppendEntriesRequest} (r : Readings) {n : Node}
    (h : request.entries = [] → request.term ≤ n.raft.currentTerm) :
    Kept n (n.onAppendEntriesRequest request r).1 := by
  rcases onAppendEntriesRequest_cases request r n with
    ⟨-,he⟩ | ⟨-,hle,hnil,due,he⟩ | ⟨-,-,-,-,logs,-,he⟩ | ⟨-,-,-,-,he⟩ <;> rw [he]
  · exact .same rfl rfl rfl rfl
  · exact .same (Nat.le_antisymm (h hnil) hle) rfl rfl rfl
  · exact .inr (dump_written _)
  · exact .inr (dump_written _)

/-- So does a refusal in a new term. -/
theorem onRequestVoteRequest_kept {request : RequestVoteRequest} {n : Node}
    (h : n.raft.currentTerm < request.term →
      (n.raft.candidateLogIndexOld request || n.raft.candidateLogTermOld request) = false) :
    Kept n (n.onRequestVoteRequest request).1 := by
  rcases onRequestVoteRequest_cases request n with
    ⟨-,he,-⟩ | ⟨-,hlt,hold,he⟩ | ⟨-,-,-,-,he⟩
  · rw [he]
    exact .same rfl rfl rfl rfl
  · exact absurd (hold.symm.trans (h hlt)) (by decide)
  · rw [he]
    exact .inr (dump_written _)

theorem onRequestVoteResponse_kept {response : RequestVoteResponse} {n : Node}
    (h : response.term ≤ n.raft.currentTerm) : Kept n (n.onRequestVoteResponse response) := by
  rcases onRequestVoteResponse_cases response n with ⟨hlt,he⟩ | ⟨-,-,he⟩ | ⟨-,-,-,he⟩
  · omega
  · rw [he]
    exact .same rfl rfl rfl rfl
  · rw [he]
    exact .same rfl rfl rfl rfl

theorem onAppendEntriesReponse_kept (response : AppendEntriesResponse) (isHeartbeat : Bool)
    (n : Node) : Kept n (n.onAppendEntriesReponse response isHeartbeat) := by
  obtain ⟨m,hm,⟨peers,ci,la,hr⟩,hp,-⟩ := onAppendEntriesReponse_frame response isHeartbeat n
  have hd : (n.onAppendEntriesReponse response isHeartbeat).durable = m.durable := by
    unfold durable
    rw [hr]
  split_ifs at hm
  · right
    have hw : m.Written := by
      rw [hm]
      exact dump_written _
    unfold Written
    rw [hd,hp]
    exact hw
  · left
    rw [hd,hp,hm]
    exact ⟨rfl,rfl⟩

/-- What `Load` leaves in a new process. -/
def restored (persist : Option PersistRecord) : Durable :=
  (persist.map PersistRecord.durable).getD ⟨0,[],[]⟩

theorem run_durable (addrStr : CString) (peerAddrs : List CString)
    (channel : Option (List CString)) (persist : Option PersistRecord) (r : Readings) :
    ((create addrStr peerAddrs channel persist).run r).durable = restored persist := by
  cases persist <;> rfl

theorem Written.restored {n : Node} (h : n.Written) : restored n.persist = n.durable := by
  unfold Node.restored
  rw [h]
  rfl

/-- The handler writes the file after its last change of the term, the vote or the log,
and its election does not pass the last value of `uint64_t`. -/
def dumpsLast (n : Node) : NodeEvent → Prop
  | .timer r => n.electionDue r → n.raft.currentTerm+1 < 2^64
  | .appendRequest request _ => request.entries = [] → request.term ≤ n.raft.currentTerm
  | .voteRequest request => n.raft.currentTerm < request.term →
      (n.raft.candidateLogIndexOld request || n.raft.candidateLogTermOld request) = false
  | .voteResponse response => response.term ≤ n.raft.currentTerm
  | _ => True

instance (n : Node) (e : NodeEvent) : Decidable (n.dumpsLast e) :=
  match e with
  | .timer r => inferInstanceAs (Decidable (n.electionDue r → _))
  | .appendRequest request _ => inferInstanceAs (Decidable (request.entries = [] → _))
  | .voteRequest request => inferInstanceAs (Decidable (n.raft.currentTerm < request.term → _))
  | .voteResponse response => inferInstanceAs (Decidable (response.term ≤ _))
  | .run _ => .isTrue trivial
  | .doLog _ => .isTrue trivial
  | .appendResponse _ _ => .isTrue trivial
  | .crash => .isTrue trivial

end Node

def NodeEvent.isHandler : NodeEvent → Bool
  | .run _ => false
  | .crash => false
  | _ => true

/-- One process from its `Run` on, over a file of any content. -/
def handlers (addrStr : CString) (peerAddrs : List CString)
    (channel : Option (List CString)) : Machine Node NodeEvent where
  init := fun n => ∃ persist r, n = (Node.create addrStr peerAddrs channel persist).run r
  step := fun n e =>
    if e.isHandler then n.take addrStr peerAddrs channel e else none

namespace Node

variable {addrStr : CString} {peerAddrs : List CString} {channel : Option (List CString)}

theorem dumpsLast_step {n m : Node} {e : NodeEvent} (hok : n.dumpsLast e)
    (hs : (handlers addrStr peerAddrs channel).step n e = some m) :
    Kept n m ∧ n.raft.currentTerm ≤ m.raft.currentTerm := by
  obtain ⟨hh,ht⟩ := Option.ite_none_right_eq_some.mp hs
  cases e with
  | run r => exact absurd hh Bool.false_ne_true
  | crash => exact absurd hh Bool.false_ne_true
  | timer r =>
    obtain ⟨-,⟨⟩⟩ := Option.ite_none_right_eq_some.mp ht
    exact ⟨onTimer_kept r n,(onTimer_termStep r n hok).2.1⟩
  | doLog cmd =>
    obtain ⟨-,⟨⟩⟩ := Option.ite_none_right_eq_some.mp ht
    exact ⟨doLog_kept cmd n,(doLog_termStep cmd n).2.1⟩
  | appendRequest request r =>
    obtain ⟨-,⟨⟩⟩ := Option.ite_none_right_eq_some.mp ht
    exact ⟨onAppendEntriesRequest_kept r hok,(onAppendEntriesRequest_termStep request r n).2.1⟩
  | voteRequest request =>
    obtain ⟨-,⟨⟩⟩ := Option.ite_none_right_eq_some.mp ht
    exact ⟨onRequestVoteRequest_kept hok,(onRequestVoteRequest_termStep request n).2.1⟩
  | voteResponse response =>
    obtain ⟨-,⟨⟩⟩ := Option.ite_none_right_eq_some.mp ht
    exact ⟨onRequestVoteResponse_kept hok,(onRequestVoteResponse_termStep response n).2.1⟩
  | appendResponse response isHeartbeat =>
    obtain ⟨-,⟨⟩⟩ := Option.ite_none_right_eq_some.mp ht
    exact ⟨onAppendEntriesReponse_kept response isHeartbeat n,
      (onAppendEntriesReponse_termStep response isHeartbeat n).2.1⟩

theorem Kept.trans {n m l : Node} (h : Kept n m) (k : Kept m l) : Kept n l := by
  rcases k with ⟨hd,hp⟩ | hw
  · rcases h with ⟨hd',hp'⟩ | hw
    · exact .inl ⟨hd.trans hd',hp.trans hp'⟩
    · right
      unfold Written
      rw [hd,hp]
      exact hw
  · exact .inr hw

theorem dumpsLast_path {n m : Node}
    (h : (handlers addrStr peerAddrs channel).Path dumpsLast n m) :
    Kept n m ∧ n.raft.currentTerm ≤ m.raft.currentTerm := by
  induction h with
  | refl => exact ⟨.same rfl rfl rfl rfl,Nat.le_refl _⟩
  | tail _ hok hs ih =>
    obtain ⟨hk,ht⟩ := dumpsLast_step hok hs
    exact ⟨ih.1.trans hk,ih.2.trans ht⟩

/-- Where a handler leaves the file behind, a crash right after it loses the change, or
the term has already gone back. -/
theorem dumpsLast_of_step {n m : Node} {e : NodeEvent} (hrun : n.raft.running = true)
    (hn : restored n.persist = n.durable)
    (hs : (handlers addrStr peerAddrs channel).step n e = some m)
    (hm : restored m.persist = m.durable) (ht : n.raft.currentTerm ≤ m.raft.currentTerm) :
    n.dumpsLast e := by
  obtain ⟨hh,hs⟩ := Option.ite_none_right_eq_some.mp hs
  have hkeep : m.persist = n.persist → m.raft.currentTerm = n.raft.currentTerm := by
    intro hp
    rw [hp,hn] at hm
    exact (congrArg Durable.term hm).symm
  cases e with
  | run r => exact trivial
  | crash => exact trivial
  | doLog cmd => exact trivial
  | appendResponse response isHeartbeat => exact trivial
  | timer r =>
    obtain ⟨-,⟨⟩⟩ := Option.ite_none_right_eq_some.mp hs
    intro hd
    by_contra hmax
    have hterm : (n.onTimer r).raft.currentTerm = u64 (n.raft.currentTerm+1) := by
      have hb : ¬n.heartbeatDue r := fun hb => absurd (hb.1.symm.trans hd.1) (by decide)
      rw [onTimer,if_pos hrun,timerHeartbeat,if_neg hb,timerElection,if_pos hd]
      rcases timerFail_cases r (n.doElection r) with he | ⟨-,due,he⟩ <;> rw [he] <;> simp
    rw [hterm,u64] at ht
    omega
  | appendRequest request r =>
    obtain ⟨-,⟨⟩⟩ := Option.ite_none_right_eq_some.mp hs
    intro hnil
    rcases onAppendEntriesRequest_cases request r n with
      ⟨hlt,-⟩ | ⟨-,-,-,due,he⟩ | ⟨-,-,hne,-⟩ | ⟨-,-,hne,-⟩
    · have := hlt hrun
      omega
    · rw [he] at hkeep
      exact Nat.le_of_eq (hkeep rfl)
    · exact absurd hnil hne
    · exact absurd hnil hne
  | voteRequest request =>
    obtain ⟨-,⟨⟩⟩ := Option.ite_none_right_eq_some.mp hs
    intro hlt
    rcases onRequestVoteRequest_cases request n with
      ⟨hle,-,-⟩ | ⟨-,-,-,he⟩ | ⟨-,-,hi,hl,-⟩
    · have := hle hrun
      omega
    · rw [he] at hkeep
      exact absurd (hkeep rfl) (Nat.ne_of_gt hlt)
    · rw [hi,hl]
      rfl
  | voteResponse response =>
    obtain ⟨-,⟨⟩⟩ := Option.ite_none_right_eq_some.mp hs
    rcases onRequestVoteResponse_cases response n with ⟨hlt,he⟩ | ⟨hle,-⟩ | ⟨hle,-⟩
    · -- the file got the term before the raise
      rw [he] at hm
      have hterm : n.raft.currentTerm = response.term := congrArg Durable.term hm
      exact Nat.le_of_eq hterm.symm
    · exact hle
    · exact hle

/-- In a run in which every handler writes the file last, the file is in step with the
memory whenever that has changed since `Run`, a new process starts with the same term,
vote and log, and the term never goes back. -/
theorem disk_in_step {start n m : Node} (hi : (handlers addrStr peerAddrs channel).init start)
    (hn : (handlers addrStr peerAddrs channel).Path dumpsLast start n)
    (hm : (handlers addrStr peerAddrs channel).Path dumpsLast n m) :
    (m.durable ≠ start.durable → m.persist.map PersistRecord.durable = some m.durable) ∧
    (∀ r, ((create addrStr peerAddrs channel m.persist).run r).durable = m.durable) ∧
    n.raft.currentTerm ≤ m.raft.currentTerm := by
  obtain ⟨hk,-⟩ := dumpsLast_path (hn.trans hm)
  have hstart : restored start.persist = start.durable := by
    obtain ⟨persist,r,rfl⟩ := hi
    rw [run_durable,run_persist]
    rfl
  refine ⟨?_,?_,(dumpsLast_path hm).2⟩
  · intro hne
    rcases hk with ⟨hd,-⟩ | hw
    · exact absurd hd hne
    · exact hw
  · intro r
    rw [run_durable]
    rcases hk with ⟨hd,hp⟩ | hw
    · rw [hp,hd,hstart]
    · exact hw.restored

/-- An election, a log entry, and a vote for another node in the next term. -/
theorem disk_in_step_vote : ∃ start m : Node, m.durable ≠ start.durable ∧
    (m.durable ≠ start.durable → m.persist.map PersistRecord.durable = some m.durable) ∧
    (∀ r, ((create ['a'] [['b']] none m.persist).run r).durable = m.durable) ∧
    start.raft.currentTerm ≤ m.raft.currentTerm := by
  let start := (create ['a'] [['b']] none none).run (.now 0)
  obtain ⟨m,hm,hterm⟩ := (handlers ['a'] [['b']] none).exec_any dumpsLast start
    [.timer (.now 451),.voteResponse ⟨['b'],1,true,0,true⟩,.doLog ['x'],
      .voteRequest ⟨['b'],2,0,1,0⟩]
    (fun m => m.raft.currentTerm = 2 ∧ m.raft.logs.length = 1) (by decide +kernel)
  obtain ⟨hterm,-⟩ := of_decide_eq_true hterm
  refine ⟨start,m,?_,disk_in_step ⟨none,.now 0,rfl⟩ (.refl start) hm⟩
  intro he
  have ht : m.raft.currentTerm = 0 := congrArg Durable.term he
  omega

/-- A heartbeat of a new leader: the term it brought is lost in a crash. -/
theorem disk_in_step_heartbeat : ∃ start n : Node,
    (handlers ['a'] [['b']] none).init start ∧
    (handlers ['a'] [['b']] none).Path Machine.always start n ∧
    n.durable ≠ start.durable ∧ n.persist = none ∧ n.raft.currentTerm = 1 ∧
    ∀ r, ((create ['a'] [['b']] none n.persist).run r).raft.currentTerm = 0 := by
  let start := (create ['a'] [['b']] none none).run (.now 0)
  obtain ⟨n,hn,ht⟩ := (handlers ['a'] [['b']] none).exec_any Machine.always start
    [.appendRequest ⟨['b'],1,-1,2^64-1,-1,[],0⟩ (.now 0)]
    (fun n => n.raft.currentTerm = 1 ∧ n.persist = none) (by decide +kernel)
  obtain ⟨hterm,hp⟩ := of_decide_eq_true ht
  refine ⟨start,n,⟨none,.now 0,rfl⟩,hn,?_,hp,hterm,?_⟩
  · intro he
    have h0 : n.raft.currentTerm = 0 := congrArg Durable.term he
    omega
  · intro r
    rw [hp]
    rfl

end Node
end SRaftMuduo
