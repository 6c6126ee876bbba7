import SRaftMuduo.Raft.Node
import Mathlib.Order.Lattice
import Mathlib.Data.Int.Order.Basic

namespace SRaftMuduo
namespace Node

@[simp] theorem stop_raft (n : Node) : n.stop.raft = n.raft := rfl
@[simp] theorem stop_persist (n : Node) : n.stop.persist = n.persist := rfl
@[simp] theorem stop_calls (n : Node) : n.stop.calls = n.calls := rfl
@[simp] theorem stop_stopped (n : Node) : n.stop.stopped = true := rfl
@[simp] theorem dump_raft (n : Node) : n.dump.raft = n.raft := rfl
@[simp] theorem dump_persist (n : Node) : n.dump.persist =
    some ⟨n.raft.currentTerm,n.raft.addrStr,n.raft.votedFor,n.raft.logs⟩ := rfl
@[simp] theorem dump_calls (n : Node) : n.dump.calls = n.calls := rfl
@[simp] theorem startCalls_raft (call : SRaftPeer → Call) (n : Node) :
    (n.startCalls call).raft = n.raft := rfl
@[simp] theorem startCalls_persist (call : SRaftPeer → Call) (n : Node) :
    (n.startCalls call).persist = n.persist := rfl
@[simp] theorem startCalls_calls (call : SRaftPeer → Call) (n : Node) :
    (n.startCalls call).calls = n.calls++(callPeers call n.raft.peers).1 := rfl

theorem callPeers_mem {call : SRaftPeer → Call} {pp : List (CString × Option SRaftPeer)}
    {x : Call} (h : x ∈ (callPeers call pp).1) :
    ∃ name peer, (name,some peer) ∈ pp ∧ x = call peer := by
  induction pp with
  | nil => exact absurd h (by simp [callPeers])
  | cons p pp ih =>
    obtain ⟨name,_ | peer⟩ := p
    · exact absurd h (by simp [callPeers])
    · rcases List.mem_cons.mp h with rfl | h
      · exact ⟨name,peer,List.mem_cons_self,rfl⟩
      · obtain ⟨name',peer',hm,hx⟩ := ih h
        exact ⟨name',peer',List.mem_cons_of_mem _ hm,hx⟩

/-- What a node holds besides its fields and the record of its applications. -/
def SameOutside (n m : Node) : Prop :=
  n.persist = m.persist ∧ n.calls = m.calls ∧ n.stopped = m.stopped

theorem pushData_frame (k : Int) (cmd : CString) (n : Node) :
    (n.pushData k cmd).raft = n.raft ∧ SameOutside (n.pushData k cmd) n := by
  unfold pushData
  split <;> exact ⟨rfl,rfl,rfl,rfl⟩

theorem applyOne_frame (n : Node) :
    n.applyOne.raft = {n.raft with lastApplied := n.raft.lastApplied+1} ∧
      SameOutside n.applyOne n := by
  unfold applyOne
  dsimp only
  split_ifs
  · exact ⟨rfl,rfl,rfl,rfl⟩
  · exact pushData_frame _ _ _

theorem applyLoop_frame (i : Nat) (n : Node) :
    (applyLoop i n).raft = {n.raft with lastApplied := n.raft.lastApplied+i} ∧
      SameOutside (applyLoop i n) n := by
  induction i generalizing n with
  | zero => simp [applyLoop,SameOutside]
  | succ i ih =>
    obtain ⟨hr,hp,hc,hs⟩ := ih n.applyOne
    obtain ⟨hr1,hp1,hc1,hs1⟩ := applyOne_frame n
    refine ⟨?_,hp.trans hp1,hc.trans hc1,hs.trans hs1⟩
    rw [applyLoop,hr,hr1]
    simp only [SRaft.mk.injEq,and_self,and_true,true_and]
    push_cast
    omega

@[simp] theorem doApply_raft (n : Node) :
    n.doApply.raft = {n.raft with lastApplied := max n.raft.lastApplied n.raft.commitIndex} := by
  rw [doApply,(applyLoop_frame _ _).1]
  simp only [SRaft.mk.injEq,and_self,and_true,true_and]
  omega

@[simp] theorem doApply_persist (n : Node) : n.doApply.persist = n.persist :=
  (applyLoop_frame _ _).2.1

@[simp] theorem doApply_calls (n : Node) : n.doApply.calls = n.calls :=
  (applyLoop_frame _ _).2.2.1

/-- The node on which `DoAppendEntries` starts its calls. -/
def commitAlone (n : Node) : Node :=
  doApply {n with raft := {n.raft with commitIndex := n.raft.lastLogIndex}}

theorem doAppendEntries_heartbeat (n : Node) :
    n.doAppendEntries true = n.startCalls (fun peer =>
      .appendEntries peer.name (n.raft.appendRequest true peer) true) := by
  simp [doAppendEntries]

theorem doAppendEntries_alone (n : Node) (h : n.raft.peers = []) :
    n.doAppendEntries false = n.commitAlone := by
  have hp : n.commitAlone.raft.peers = [] := by simp [commitAlone,h]
  have he : n.doAppendEntries false = n.commitAlone.startCalls (fun peer =>
      .appendEntries peer.name (n.commitAlone.raft.appendRequest false peer) false) := by
    simp [doAppendEntries,h,commitAlone]
  rw [he,startCalls,hp]
  simp [callPeers]

theorem doAppendEntries_peers (n : Node) (h : n.raft.peers ≠ []) :
    n.doAppendEntries false = n.startCalls (fun peer =>
      .appendEntries peer.name (n.raft.appendRequest false peer) false) := by
  simp [doAppendEntries,h]

/-- The fields of a node that `DoAppendEntries` leaves as they are. -/
theorem doAppendEntries_raft (isHeartbeat : Bool) (n : Node) :
    ∃ commitIndex lastApplied, (n.doAppendEntries isHeartbeat).raft =
      {n.raft with commitIndex := commitIndex, lastApplied := lastApplied} := by
  cases isHeartbeat with
  | true => exact ⟨_,_,by rw [doAppendEntries_heartbeat]; rfl⟩
  | false =>
    by_cases h : n.raft.peers = []
    · exact ⟨_,_,by rw [doAppendEntries_alone n h,commitAlone,doApply_raft]⟩
    · exact ⟨_,_,by rw [doAppendEntries_peers n h]; rfl⟩

@[simp] theorem doAppendEntries_persist (isHeartbeat : Bool) (n : Node) :
    (n.doAppendEntries isHeartbeat).persist = n.persist := by
  unfold doAppendEntries
  dsimp only
  rw [startCalls_persist]
  split_ifs <;> simp

theorem doAppendEntries_calls (isHeartbeat : Bool) (n : Node) :
    (n.doAppendEntries isHeartbeat).calls = n.calls++(callPeers (fun peer =>
      .appendEntries peer.name (n.raft.appendRequest isHeartbeat peer) isHeartbeat)
        n.raft.peers).1 := by
  cases isHeartbeat with
  | true =>
    rw [doAppendEntries_heartbeat]
    rfl
  | false =>
    by_cases h : n.raft.peers = []
    · rw [doAppendEntries_alone n h,h]
      simp [commitAlone,callPeers]
    · rw [doAppendEntries_peers n h]
      rfl

@[simp] theorem doElection_raft (r : Readings) (n : Node) :
    (n.doElection r).raft = {n.raft with
      state := if n.raft.peers = [] then .leader else .candidate
      currentTerm := u64 (n.raft.currentTerm+1)
      votesRecieved := 1
      votedFor := n.raft.addrStr
      dueElectionFail := u64 (r.electionMs+intervalElectionFail)} := by
  unfold doElection
  dsimp only
  rw [startCalls_raft]
  split_ifs <;> simp_all [beginElection]

@[simp] theorem doElection_persist (r : Readings) (n : Node) :
    (n.doElection r).persist =
      some ⟨u64 (n.raft.currentTerm+1),n.raft.addrStr,n.raft.addrStr,n.raft.logs⟩ := by
  unfold doElection
  dsimp only
  rw [startCalls_persist]
  split_ifs <;> rfl

theorem doElection_calls (r : Readings) (n : Node) :
    (n.doElection r).calls = n.calls++
      (callPeers (fun peer => .requestVote peer.name (n.doElection r).raft.voteRequest)
        n.raft.peers).1 := by
  unfold doElection
  dsimp only
  rw [startCalls_calls]
  split_ifs <;> rfl

/-- The node after the second `if` of `OnTimer` has found the election due. -/
theorem timerFail_cases (r : Readings) (n : Node) :
    n.timerFail r = n ∨ n.raft.state = .candidate ∧ ∃ due, n.timerFail r =
      {n with raft := {n.raft with state := .follower, dueElection := due}} := by
  unfold timerFail
  split_ifs with h
  · exact .inr ⟨h.2.1,_,rfl⟩
  · exact .inl rfl

/-- What one call of `OnTimer` can do: nothing, a heartbeat, an election, and after the
election or on a candidate the return to the role of a follower. -/
theorem onTimer_cases (r : Readings) (n : Node) :
    ((n.raft.running = true → ¬n.electionDue r) ∧ n.onTimer r = n) ∨
    (n.raft.running = true ∧ n.raft.state = .leader ∧ ∃ due, n.onTimer r =
      doAppendEntries true {n with raft := {n.raft with dueHeartBeat := due}}) ∨
    (n.raft.running = true ∧ n.electionDue r ∧
      n.onTimer r = (n.doElection r).timerFail r) ∨
    (n.raft.running = true ∧ n.raft.state = .candidate ∧ ∃ due, n.onTimer r =
      {n with raft := {n.raft with state := .follower, dueElection := due}}) := by
  unfold onTimer
  split_ifs with hrun
  swap
  · exact .inl ⟨fun h => absurd h hrun,rfl⟩
  by_cases hb : n.heartbeatDue r
  · -- a leader sends its heartbeats; the other two tests fail on it
    refine .inr (.inl ⟨hrun,hb.1,u64 (r.currentMs+intervalHeartBeat),?_⟩)
    have hstate : (n.timerHeartbeat r).raft.state = .leader := by
      obtain ⟨_,_,he⟩ := doAppendEntries_raft true {n with raft := {n.raft with
        dueHeartBeat := u64 (r.currentMs+intervalHeartBeat)}}
      rw [timerHeartbeat,if_pos hb,sendHeartbeat,he]
      exact hb.1
    have h2 : (n.timerHeartbeat r).timerElection r = n.timerHeartbeat r := by
      rw [timerElection,if_neg (fun h => by rw [h.1] at hstate; exact absurd hstate (by decide))]
    have h3 : (n.timerHeartbeat r).timerFail r = n.timerHeartbeat r := by
      rw [timerFail,if_neg (fun h => by rw [h.2.1] at hstate; exact absurd hstate (by decide))]
    rw [h2,h3,timerHeartbeat,if_pos hb,sendHeartbeat]
  have h1 : n.timerHeartbeat r = n := by rw [timerHeartbeat,if_neg hb]
  rw [h1]
  by_cases he : n.electionDue r
  · exact .inr (.inr (.inl ⟨hrun,he,by rw [timerElection,if_pos he]⟩))
  · rw [timerElection,if_neg he]
    rcases timerFail_cases r n with h | ⟨hc,due,h⟩
    · exact .inl ⟨fun _ => he,h⟩
    · exact .inr (.inr (.inr ⟨hrun,hc,due,h⟩))

/-- What one call of `DoLog` can do. -/
theorem doLog_cases (cmd : CString) (n : Node) :
    (¬(n.raft.running = true ∧ n.raft.state = .leader) ∧ (n.doLog cmd).1 = n) ∨
    (2^63 ≤ n.raft.lastLogIndex+1 ∧ (n.doLog cmd).1 = n.stop) ∨
    (n.raft.running = true ∧ n.raft.state = .leader ∧ n.raft.lastLogIndex+1 < 2^63 ∧
      (n.doLog cmd).1 = n.logEntry cmd) := by
  unfold doLog
  by_cases h1 : n.raft.running = false
  · exact .inl ⟨by simp [h1],by rw [if_pos h1]⟩
  by_cases h2 : n.raft.state ≠ .leader
  · exact .inl ⟨by simp [h2],by rw [if_neg h1,if_pos h2]⟩
  by_cases h3 : 2^63 ≤ n.raft.lastLogIndex+1
  · exact .inr (.inl ⟨h3,by rw [if_neg h1,if_neg h2,if_pos h3]⟩)
  · refine .inr (.inr ⟨by simpa using h1,by simpa using h2,by omega,?_⟩)
    rw [if_neg h1,if_neg h2,if_neg h3]

theorem logEntry_raft (cmd : CString) (n : Node) :
    ∃ commitIndex lastApplied, (n.logEntry cmd).raft = {n.raft with
      logs := n.raft.logs++[newEntry cmd n.raft]
      commitIndex := commitIndex
      lastApplied := lastApplied} := by
  obtain ⟨ci,la,h⟩ := doAppendEntries_raft false
    (dump {n with raft := {n.raft with logs := n.raft.logs++[newEntry cmd n.raft]}})
  exact ⟨ci,la,h⟩

@[simp] theorem logEntry_persist (cmd : CString) (n : Node) :
    (n.logEntry cmd).persist = some ⟨n.raft.currentTerm,n.raft.addrStr,n.raft.votedFor,
      n.raft.logs++[newEntry cmd n.raft]⟩ := by
  simp [logEntry]

/-- The handler gets to the entries of the request and takes them. -/
def takesEntries (request : AppendEntriesRequest) (n : Node) : Prop :=
  n.raft.running = true ∧ n.raft.currentTerm ≤ request.term ∧ request.entries ≠ [] ∧
    n.raft.baseLogIndex ≤ request.prevLogIndex

instance (request : AppendEntriesRequest) (n : Node) : Decidable (n.takesEntries request) :=
  inferInstanceAs (Decidable (_ ∧ _ ∧ _ ∧ _))

/-- What one call of `OnAppendEntriesRequest` can do, with the response it fills in. -/
theorem onAppendEntriesRequest_cases (request : AppendEntriesRequest) (r : Readings)
    (n : Node) :
    ((n.raft.running = true → request.term < n.raft.currentTerm) ∧
      n.onAppendEntriesRequest request r = (n,appendResponse n.raft request)) ∨
    (n.raft.running = true ∧ n.raft.currentTerm ≤ request.term ∧ request.entries = [] ∧
      ∃ due, n.onAppendEntriesRequest request r = ({n with raft := {n.raft with
        dueElection := due
        state := .follower
        currentTerm := request.term}},appendResponse n.raft request)) ∨
    (n.raft.running = true ∧ n.raft.currentTerm ≤ request.term ∧ request.entries ≠ [] ∧
      n.raft.baseLogIndex ≤ request.prevLogIndex ∧
      ∃ logs, logs = splice n.raft request ∧ n.onAppendEntriesRequest request r =
        (dump {n with raft := {n.raft with logs := logs}},{appendResponse n.raft request with
          success := true
          lastLogIndex := SRaft.lastLogIndex {n.raft with logs := logs}
          lastLogTerm := SRaft.lastLogTerm {n.raft with logs := logs}})) ∨
    (n.raft.running = true ∧ n.raft.currentTerm ≤ request.term ∧ request.entries ≠ [] ∧
      request.prevLogIndex < n.raft.baseLogIndex ∧
      n.onAppendEntriesRequest request r = (n.dump,appendResponse n.raft request)) := by
  unfold onAppendEntriesRequest
  dsimp only
  split_ifs with h1 h2 h3 h4
  · exact .inl ⟨by simp [h1],rfl⟩
  · exact .inl ⟨fun _ => h2,rfl⟩
  · exact .inr (.inl ⟨by simpa using h1,by omega,h3,_,rfl⟩)
  · exact .inr (.inr (.inl ⟨by simpa using h1,by omega,h3,h4,_,rfl,rfl⟩))
  · exact .inr (.inr (.inr ⟨by simpa using h1,by omega,h3,by omega,rfl⟩))

/-- A request whose entries are taken. -/
theorem onAppendEntriesRequest_takes {request : AppendEntriesRequest} {n : Node}
    (ht : n.takesEntries request) (r : Readings) :
    ∃ logs, logs = splice n.raft request ∧ n.onAppendEntriesRequest request r =
      (dump {n with raft := {n.raft with logs := logs}},{appendResponse n.raft request with
        success := true
        lastLogIndex := SRaft.lastLogIndex {n.raft with logs := logs}
        lastLogTerm := SRaft.lastLogTerm {n.raft with logs := logs}}) := by
  obtain ⟨hrun,hle,hne,hbase⟩ := ht
  rcases onAppendEntriesRequest_cases request r n with
    ⟨hold,-⟩ | ⟨-,-,hnil,-⟩ | ⟨-,-,-,-,htaken⟩ | ⟨-,-,-,hlow,-⟩
  · have := hold hrun
    omega
  · exact absurd hnil hne
  · exact htaken
  · omega

/-- A request of which no entries are taken. -/
theorem onAppendEntriesRequest_leaves {request : AppendEntriesRequest} {n : Node}
    (ht : ¬n.takesEntries request) (r : Readings) :
    n.onAppendEntriesRequest request r = (n,appendResponse n.raft request) ∨
    (n.raft.running = true ∧ ∃ due, n.onAppendEntriesRequest request r =
      ({n with raft := {n.raft with
        dueElection := due
        state := .follower
        currentTerm := request.term}},appendResponse n.raft request)) ∨
    (n.raft.running = true ∧
      n.onAppendEntriesRequest request r = (n.dump,appendResponse n.raft request)) := by
  rcases onAppendEntriesRequest_cases request r n with
    ⟨-,he⟩ | ⟨hrun,-,-,due,he⟩ | ⟨hrun,hle,hne,hbase,-⟩ | ⟨hrun,-,-,-,he⟩
  · exact .inl he
  · exact .inr (.inl ⟨hrun,due,he⟩)
  · exact absurd ⟨hrun,hle,hne,hbase⟩ ht
  · exact .inr (.inr ⟨hrun,he⟩)

/-- An answer with `success` is given exactly for entries that are taken. -/
theorem success_iff (request : AppendEntriesRequest) (r : Readings) (n : Node) :
    (n.onAppendEntriesRequest request r).2.success = true ↔ n.takesEntries request := by
  by_cases ht : n.takesEntries request
  · obtain ⟨logs,-,he⟩ := onAppendEntriesRequest_takes ht r
    rw [he]
    exact ⟨fun _ => ht,fun _ => rfl⟩
  · rcases onAppendEntriesRequest_leaves ht r with he | ⟨-,due,he⟩ | ⟨-,he⟩ <;> rw [he]
    all_goals exact ⟨fun h => absurd h Bool.false_ne_true,fun h => absurd h ht⟩

theorem takes_logs {request : AppendEntriesRequest} {n : Node} (ht : n.takesEntries request)
    (r : Readings) : (n.onAppendEntriesRequest request r).1.raft.logs = splice n.raft request := by
  obtain ⟨logs,hlogs,he⟩ := onAppendEntriesRequest_takes ht r
  rw [he,← hlogs]
  rfl

/-- What one call of `OnRequestVoteRequest` can do, with the response it fills in. -/
theorem onRequestVoteRequest_cases (request : RequestVoteRequest) (n : Node) :
    ((n.raft.running = true → request.term ≤ n.raft.currentTerm) ∧
      (n.onRequestVoteRequest request).1 = n ∧
      (n.onRequestVoteRequest request).2.voteGranted = false) ∨
    (n.raft.running = true ∧ n.raft.currentTerm < request.term ∧
      (n.raft.candidateLogIndexOld request || n.raft.candidateLogTermOld request) = true ∧
      n.onRequestVoteRequest request =
        ({n with raft := {n.raft with currentTerm := request.term}},
          voteResponse n.raft request false)) ∨
    (n.raft.running = true ∧ n.raft.currentTerm < request.term ∧
      n.raft.candidateLogIndexOld request = false ∧
      n.raft.candidateLogTermOld request = false ∧
      n.onRequestVoteRequest request =
        (dump {n with raft := {n.raft with
          currentTerm := request.term
          state := if n.raft.state = .leader then .follower else n.raft.state}},
          voteResponse n.raft request true)) := by
  unfold onRequestVoteRequest
  dsimp only
  by_cases h1 : n.raft.running = false
  · rw [if_pos h1]
    exact .inl ⟨by simp [h1],rfl,rfl⟩
  by_cases h2 : request.term ≤ n.raft.currentTerm
  · rw [if_neg h1,if_pos h2]
    exact .inl ⟨fun _ => h2,rfl,rfl⟩
  rw [if_neg h1,if_neg h2]
  cases h3 : (n.raft.candidateLogIndexOld request || n.raft.candidateLogTermOld request) with
  | true => exact .inr (.inl ⟨by simpa using h1,by omega,rfl,by simp⟩)
  | false =>
    obtain ⟨h4,h5⟩ := Bool.or_eq_false_iff.mp h3
    refine .inr (.inr ⟨by simpa using h1,by omega,h4,h5,?_⟩)
    by_cases hs : n.raft.state = .leader <;> simp [hs]

/-- What one call of `OnRequestVoteResponse` can do. -/
theorem onRequestVoteResponse_cases (response : RequestVoteResponse) (n : Node) :
    (n.raft.currentTerm < response.term ∧
      n.onRequestVoteResponse response = n.yieldTerm response.term) ∨
    (response.term ≤ n.raft.currentTerm ∧
      ¬(n.raft.state = .candidate ∧ response.voteGranted = true) ∧
      n.onRequestVoteResponse response = n) ∨
    (response.term ≤ n.raft.currentTerm ∧ n.raft.state = .candidate ∧
      response.voteGranted = true ∧ n.onRequestVoteResponse response = n.countVote) := by
  unfold onRequestVoteResponse
  dsimp only
  by_cases ht : n.raft.currentTerm < response.term
  · left
    rw [if_pos ht,if_pos (by simp [yieldTerm,stepDown])]
    exact ⟨ht,rfl⟩
  · rw [if_neg ht]
    have hle : response.term ≤ n.raft.currentTerm := by omega
    split_ifs with hs hg
    · exact .inr (.inl ⟨hle,fun h => hs h.1,rfl⟩)
    · exact .inr (.inr ⟨hle,by simpa using hs,hg,rfl⟩)
    · exact .inr (.inl ⟨hle,fun h => hg h.2,rfl⟩)

/-- What the counting part of `OnAppendEntriesReponse` can do: nothing, stop, set the next
index of a peer that refused, or both indices of one that did not and then perhaps stop or
commit. -/
theorem countResponse_counts (response : AppendEntriesResponse) (n : Node) :
    n.countResponse response = n ∨ n.countResponse response = n.stop ∨
    (response.success = false ∧ ∃ peer, n.raft.findPeer response.name = some peer ∧
      n.countResponse response =
        n.setPeer response.name ⟨peer.name,response.lastLogIndex+1,peer.matchIndex⟩) ∨
    (response.success = true ∧ n.raft.commitIndex < response.lastLogIndex ∧
      ∃ peer, n.raft.findPeer response.name = some peer ∧ ∃ m : Node,
      m = n.setPeer response.name ⟨peer.name,response.lastLogIndex+1,response.lastLogIndex⟩ ∧
      (n.countResponse response = m ∨ n.countResponse response = m.stop ∨
        m.raft.anyNullPeer = false ∧
        m.raft.peers.length/2 ≤ m.raft.commitVote response.lastLogIndex ∧
        n.countResponse response =
          doApply {m with raft := {m.raft with commitIndex := response.lastLogIndex}})) := by
  unfold countResponse
  cases hf : n.raft.findPeer response.name with
  | none =>
    dsimp only
    split_ifs
    · exact .inl rfl
    · exact .inr (.inl rfl)
  | some peer =>
    by_cases hsucc : response.success = false
    · exact .inr (.inr (.inl ⟨hsucc,peer,rfl,if_pos hsucc⟩))
    have hsucc' : response.success = true := by simpa using hsucc
    dsimp only
    rw [if_neg hsucc,countCommit]
    dsimp only
    split_ifs with hle hnull hvote
    · exact .inl rfl
    · exact .inr (.inr (.inr ⟨hsucc',by omega,peer,rfl,_,rfl,.inr (.inl rfl)⟩))
    · exact .inr (.inr (.inr ⟨hsucc',by omega,peer,rfl,_,rfl,.inr (.inr
        ⟨by simpa using hnull,hvote,rfl⟩)⟩))
    · exact .inr (.inr (.inr ⟨hsucc',by omega,peer,rfl,_,rfl,.inl rfl⟩))

/-- The same, whatever the match index becomes. -/
theorem countResponse_cases (response : AppendEntriesResponse) (n : Node) :
    n.countResponse response = n ∨ n.countResponse response = n.stop ∨
    ∃ peer matchIndex, n.raft.findPeer response.name = some peer ∧ ∃ m : Node,
      m = n.setPeer response.name ⟨peer.name,response.lastLogIndex+1,matchIndex⟩ ∧
      (n.countResponse response = m ∨ n.countResponse response = m.stop ∨
        response.success = true ∧ n.raft.commitIndex < response.lastLogIndex ∧
        m.raft.anyNullPeer = false ∧
        m.raft.peers.length/2 ≤ m.raft.commitVote response.lastLogIndex ∧
        n.countResponse response =
          doApply {m with raft := {m.raft with commitIndex := response.lastLogIndex}}) := by
  rcases countResponse_counts response n with
    he | he | ⟨-,peer,hf,he⟩ | ⟨hs,hlt,peer,hf,m,hm,he⟩
  · exact .inl he
  · exact .inr (.inl he)
  · exact .inr (.inr ⟨peer,_,hf,_,rfl,.inl he⟩)
  · refine .inr (.inr ⟨peer,_,hf,m,hm,?_⟩)
    rcases he with he | he | ⟨hnull,hvote,he⟩
    · exact .inl he
    · exact .inr (.inl he)
    · exact .inr (.inr ⟨hs,hlt,hnull,hvote,he⟩)

theorem touchPeer_raft (name : CString) (n : Node) :
    ∃ peers, (n.touchPeer name).raft = {n.raft with peers := peers} := by
  unfold touchPeer SRaft.touchPeer
  dsimp only
  split_ifs
  · exact ⟨_,rfl⟩
  · exact ⟨_,rfl⟩

/-- What one call of `OnAppendEntriesReponse` can do. -/
theorem onAppendEntriesReponse_cases (response : AppendEntriesResponse) (isHeartbeat : Bool)
    (n : Node) :
    (n.raft.state ≠ .leader ∧
      n.onAppendEntriesReponse response isHeartbeat = n.touchPeer response.name) ∨
    n.raft.state = .leader ∧
      (n.onAppendEntriesReponse response isHeartbeat =
        (n.touchPeer response.name).checkTerm response.term ∨
      isHeartbeat = false ∧ n.onAppendEntriesReponse response isHeartbeat =
        ((n.touchPeer response.name).checkTerm response.term).countResponse response) := by
  have hs : (n.touchPeer response.name).raft.state = n.raft.state := by
    obtain ⟨_,h⟩ := touchPeer_raft response.name n
    rw [h]
  unfold onAppendEntriesReponse
  dsimp only
  rw [hs]
  by_cases h : n.raft.state = .leader
  · rw [if_neg (not_not.mpr h)]
    cases isHeartbeat with
    | true => exact .inr ⟨h,.inl (if_pos rfl)⟩
    | false => exact .inr ⟨h,.inr ⟨rfl,if_neg Bool.false_ne_true⟩⟩
  · exact .inl ⟨h,if_pos h⟩

/-- What the handler of a response leaves as it is, past the step back from leadership. -/
theorem onAppendEntriesReponse_frame (response : AppendEntriesResponse) (isHeartbeat : Bool)
    (n : Node) : ∃ m, m = (if n.raft.state = .leader ∧ n.raft.currentTerm < response.term then
        n.stepDown else n) ∧
      (∃ peers commitIndex lastApplied,
        (n.onAppendEntriesReponse response isHeartbeat).raft = {m.raft with
          peers := peers
          commitIndex := commitIndex
          lastApplied := lastApplied}) ∧
      (n.onAppendEntriesReponse response isHeartbeat).persist = m.persist ∧
      (n.onAppendEntriesReponse response isHeartbeat).calls = n.calls := by
  refine ⟨_,rfl,?_⟩
  obtain ⟨peers,ht⟩ := touchPeer_raft response.name n
  have hp : (n.touchPeer response.name).persist = n.persist := rfl
  have hc : (n.touchPeer response.name).calls = n.calls := rfl
  rcases onAppendEntriesReponse_cases response isHeartbeat n with ⟨hs,he⟩ | ⟨hs,hor⟩
  · rw [if_neg (fun h => hs h.1),he]
    exact ⟨⟨_,_,_,ht⟩,hp,hc⟩
  -- the leader checks the term on the node whose peers were touched
  generalize hm : (if n.raft.state = .leader ∧ n.raft.currentTerm < response.term then
    n.stepDown else n) = m
  have hx : ∃ x, x = (n.touchPeer response.name).checkTerm response.term ∧
      (∃ peers, x.raft = {m.raft with peers := peers}) ∧ x.persist = m.persist ∧
        x.calls = n.calls := by
    refine ⟨_,rfl,?_⟩
    rw [← hm,checkTerm,ht]
    by_cases hlt : n.raft.currentTerm < response.term
    · rw [if_pos hlt,if_pos ⟨hs,hlt⟩]
      exact ⟨⟨peers,by simp [stepDown,ht]⟩,by simp [stepDown,ht],hc⟩
    · rw [if_neg hlt,if_neg (fun h => hlt h.2)]
      exact ⟨⟨peers,ht⟩,hp,hc⟩
  obtain ⟨x,hxe,⟨peers',hr⟩,hpx,hcx⟩ := hx
  rw [← hxe] at hor
  rcases hor with he | ⟨-,he⟩ <;> rw [he]
  · exact ⟨⟨_,_,_,hr⟩,hpx,hcx⟩
  · rcases countResponse_cases response x with he | he | ⟨peer,mi,-,l,hl,he⟩
    · rw [he]
      exact ⟨⟨_,_,_,hr⟩,hpx,hcx⟩
    · rw [he]
      exact ⟨⟨_,_,_,hr⟩,hpx,hcx⟩
    · have hset : ∃ peers, l.raft = {m.raft with peers := peers} := by
        have hlr : l.raft = {x.raft with peers := l.raft.peers} := by rw [hl]; rfl
        exact ⟨l.raft.peers,by rw [hlr,hr]⟩
      have hpl : l.persist = m.persist := by rw [hl]; exact hpx
      have hcl : l.calls = n.calls := by rw [hl]; exact hcx
      obtain ⟨peers'',hlr⟩ := hset
      rcases he with he | he | ⟨-,-,-,-,he⟩ <;> rw [he]
      · exact ⟨⟨_,_,_,hlr⟩,hpl,hcl⟩
      · exact ⟨⟨_,_,_,hlr⟩,hpl,hcl⟩
      · exact ⟨⟨_,_,_,by rw [doApply_raft,hlr]⟩,by simp [hpl],by simp [hcl]⟩

theorem onAppendEntriesReponse_running (response : AppendEntriesResponse)
    (isHeartbeat : Bool) (n : Node) :
    (n.onAppendEntriesReponse response isHeartbeat).raft.running = n.raft.running := by
  obtain ⟨m,hm,⟨_,_,_,hr⟩,-⟩ := onAppendEntriesReponse_frame response isHeartbeat n
  rw [hr,hm]
  split_ifs <;> rfl

end Node
end SRaftMuduo
