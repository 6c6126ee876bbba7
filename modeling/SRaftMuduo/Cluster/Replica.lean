import SRaftMuduo.Framework.Replication.Acks
import SRaftMuduo.Raft.Lifetime
import SRaftMuduo.Cluster.Pipeline

namespace SRaftMuduo

open Replication (Core Label Role)

/-- The nodes of the cluster and its entries as replication of logs. -/
abbrev History := Core CString LogEntry

abbrev HistoryLabel := Label CString LogEntry

/-- More than half of the nodes, which the code is meant to wait for. -/
def Config.quorums (cfg : Config) : QuorumSystem CString :=
  QuorumSystem.majority cfg.names.toFinset

/-- A list of more than half of the nodes, without repetition. -/
theorem Config.isQuorum {cfg : Config} (hc : cfg.Symmetric) {S : List CString} {A : Set CString}
    (hn : S.Nodup) (hS : ∀ v ∈ S, v ∈ cfg.names ∧ v ∈ A) (hlen : cfg.names.length < 2*S.length) :
    cfg.quorums.IsQuorum A := by
  refine ⟨S.toFinset,?_,?_,?_⟩
  · intro v hv
    exact List.mem_toFinset.mpr (hS v (List.mem_toFinset.mp hv)).1
  · intro v hv
    exact (hS v (List.mem_toFinset.mp hv)).2
  · rwa [List.toFinset_card_of_nodup hn,List.toFinset_card_of_nodup hc.nodup]

theorem Config.Symmetric.length {cfg : Config} (hc : cfg.Symmetric) {i : CString}
    (hi : i ∈ cfg.names) : (cfg.peersOf i).length+1 = cfg.names.length := by
  have hlen := (hc.peers_perm i hi).length_eq
  have hpos := List.length_pos_of_mem hi
  rw [List.length_erase_of_mem hi] at hlen
  omega

theorem Config.Symmetric.not_peer {cfg : Config} (hc : cfg.Symmetric) {i : CString}
    (hi : i ∈ cfg.names) : i ∉ cfg.peersOf i := by
  intro h
  have := (hc.peers_perm i hi).mem_iff.mp h
  exact ((hc.nodup.mem_erase_iff).mp this).1 rfl

def State.role : State → Role
  | .follower => .follower
  | .candidate => .candidate
  | .leader => .leader

theorem State.role_inj {s t : State} (h : s.role = t.role) : s = t := by
  cases s <;> cases t <;> first | rfl | exact absurd h (by decide)

namespace Node

/-- The term of a running node; a process that has not loaded the file yet counts with the
term it will load. -/
def term (n : Node) : Nat := if n.raft.running then n.raft.currentTerm else n.diskTerm

/-- The log a new process would load. -/
def diskLog (n : Node) : List LogEntry :=
  match n.persist with
  | none => []
  | some record => record.entries

theorem term_running {n : Node} (h : n.raft.running = true) : n.term = n.raft.currentTerm := by
  rw [term,if_pos h]

/-- The steps of `OnTimer`: an election, which a node without peers wins and which can
time out at once, or the end of an election. -/
def timerLabels (i : CString) (r : Readings) (n : Node) : List HistoryLabel :=
  if n.raft.running = true ∧ n.electionDue r then
    .campaign i::match (n.onTimer r).raft.state with
      | .leader => [.win i]
      | .candidate => []
      | .follower => [.follow i (n.raft.currentTerm+1) (n.raft.currentTerm+1)]
  else if (n.onTimer r).raft.state = n.raft.state then []
  else [.follow i n.raft.currentTerm n.diskTerm]

def logLabels (i : CString) (cmd : CString) (n : Node) : List HistoryLabel :=
  if n.raft.running = true ∧ n.raft.state = .leader ∧ n.raft.lastLogIndex+1 < 2^63 then
    [.append i (newEntry cmd n.raft)]
  else []

def voteRequestLabels (i src : CString) (request : RequestVoteRequest) (n : Node) :
    List HistoryLabel :=
  if n.raft.running = true ∧ n.raft.currentTerm < request.term then
    if n.raft.candidateLogIndexOld request || n.raft.candidateLogTermOld request then
      [.raise i request.term]
    else [.grant i src request.term]
  else []

def appendRequestLabels (i : CString) (request : AppendEntriesRequest) (n : Node) :
    List HistoryLabel :=
  if n.raft.running = true ∧ n.raft.currentTerm ≤ request.term then
    if request.entries = [] then [.follow i request.term n.diskTerm]
    else if n.raft.baseLogIndex ≤ request.prevLogIndex then
      [.accept i request.term (splice n.raft request).length]
    else [.save i]
  else []

/-- A granted vote of an election of this term, counted by a candidate. -/
def countsVote (n : Node) (response : RequestVoteResponse) : Prop :=
  response.term ≤ n.raft.currentTerm ∧ n.raft.state = .candidate ∧ response.voteGranted = true

/-- The vote takes the candidate over the threshold of the code. -/
def winsWith (n : Node) (response : RequestVoteResponse) : Prop :=
  n.countsVote response ∧ n.raft.peers.length/2 < n.raft.votesRecieved+1

instance (n : Node) (response : RequestVoteResponse) : Decidable (n.countsVote response) :=
  inferInstanceAs (Decidable (_ ∧ _ ∧ _))

instance (n : Node) (response : RequestVoteResponse) : Decidable (n.winsWith response) :=
  inferInstanceAs (Decidable (_ ∧ _))

def voteResponseLabels (i : CString) (response : RequestVoteResponse) (n : Node) :
    List HistoryLabel :=
  if n.raft.currentTerm < response.term then
    [.follow i response.term n.raft.currentTerm]
  else if n.winsWith response then [.win i]
  else []

def appendResponseLabels (i : CString) (response : AppendEntriesResponse) (n : Node) :
    List HistoryLabel :=
  if n.raft.state = .leader ∧ n.raft.currentTerm < response.term then
    [.follow i n.raft.currentTerm n.raft.currentTerm]
  else []

/-- One call of `OnTimer` with its steps. -/
theorem timerLabels_cases (i : CString) (r : Readings) (n : Node) :
    (n.timerLabels i r = [] ∧ (n.onTimer r = n ∨ n.raft.running = true ∧ ∃ due,
      n.onTimer r = doAppendEntries true {n with raft := {n.raft with dueHeartBeat := due}})) ∨
    (n.raft.running = true ∧ n.electionDue r ∧ n.onTimer r = (n.doElection r).timerFail r ∧
      ((n.timerLabels i r = [.campaign i] ∧ (n.onTimer r).raft.state = .candidate) ∨
        (n.timerLabels i r = [.campaign i,.win i] ∧ n.raft.peers = [] ∧
          (n.onTimer r).raft.state = .leader) ∨
        (n.timerLabels i r =
            [.campaign i,.follow i (n.raft.currentTerm+1) (n.raft.currentTerm+1)] ∧
          (n.onTimer r).raft.state = .follower))) ∨
    (n.raft.running = true ∧ n.timerLabels i r = [.follow i n.raft.currentTerm n.diskTerm] ∧
      ∃ due, n.onTimer r =
        {n with raft := {n.raft with state := .follower, dueElection := due}}) := by
  rcases onTimer_cases r n with ⟨hnot,he⟩ | ⟨hrun,hs,due,he⟩ | ⟨hrun,hd,he⟩ | ⟨hrun,hs,due,he⟩
  · refine .inl ⟨?_,.inl he⟩
    rw [timerLabels,if_neg (fun h => hnot h.1 h.2),he,if_pos rfl]
  · refine .inl ⟨?_,.inr ⟨hrun,due,he⟩⟩
    have hnot : ¬(n.raft.running = true ∧ n.electionDue r) := by
      rintro ⟨-,hf,-⟩
      exact absurd (hs.symm.trans hf) (by decide)
    have hsame : (n.onTimer r).raft.state = n.raft.state := by
      rw [he,doAppendEntries_heartbeat]
      rfl
    rw [timerLabels,if_neg hnot,if_pos hsame]
  · refine .inr (.inl ⟨hrun,hd,he,?_⟩)
    have hl : n.timerLabels i r = .campaign i::match (n.onTimer r).raft.state with
        | .leader => [.win i]
        | .candidate => []
        | .follower => [.follow i (n.raft.currentTerm+1) (n.raft.currentTerm+1)] := by
      rw [timerLabels,if_pos ⟨hrun,hd⟩]
    cases hm : (n.onTimer r).raft.state with
    | candidate => exact .inl ⟨by rw [hl,hm],rfl⟩
    | follower => exact .inr (.inr ⟨by rw [hl,hm],rfl⟩)
    | leader =>
      refine .inr (.inl ⟨by rw [hl,hm],?_,rfl⟩)
      rw [he] at hm
      rcases timerFail_cases r (n.doElection r) with he' | ⟨-,due,he'⟩
      · rw [he',doElection_raft] at hm
        by_contra hp
        exact absurd hm (by simp [hp])
      · rw [he'] at hm
        exact absurd hm (by simp)
  · refine .inr (.inr ⟨hrun,?_,due,he⟩)
    have hnot : ¬(n.raft.running = true ∧ n.electionDue r) := by
      rintro ⟨-,hf,-⟩
      exact absurd (hs.symm.trans hf) (by decide)
    rw [timerLabels,if_neg hnot,he,hs,if_neg (by simp)]

theorem logLabels_cases (i : CString) (cmd : CString) (n : Node) :
    (n.logLabels i cmd = [] ∧ ((n.doLog cmd).1 = n ∨ (n.doLog cmd).1 = n.stop)) ∨
    (n.raft.running = true ∧ n.raft.state = .leader ∧ n.raft.lastLogIndex+1 < 2^63 ∧
      n.logLabels i cmd = [.append i (newEntry cmd n.raft)] ∧
      (n.doLog cmd).1 = n.logEntry cmd) := by
  rcases doLog_cases cmd n with ⟨hnot,he⟩ | ⟨hb,he⟩ | ⟨hrun,hs,hb,he⟩
  · exact .inl ⟨if_neg (fun h => hnot ⟨h.1,h.2.1⟩),.inl he⟩
  · exact .inl ⟨if_neg (fun h => by omega),.inr he⟩
  · exact .inr ⟨hrun,hs,hb,if_pos ⟨hrun,hs,hb⟩,he⟩

theorem voteRequestLabels_cases (i src : CString) (request : RequestVoteRequest) (n : Node) :
    (n.voteRequestLabels i src request = [] ∧ (n.onRequestVoteRequest request).1 = n ∧
      (n.onRequestVoteRequest request).2.voteGranted = false) ∨
    (n.raft.running = true ∧ n.raft.currentTerm < request.term ∧
      (n.raft.candidateLogIndexOld request || n.raft.candidateLogTermOld request) = true ∧
      n.voteRequestLabels i src request = [.raise i request.term] ∧
      n.onRequestVoteRequest request =
        ({n with raft := {n.raft with currentTerm := request.term}},
          voteResponse n.raft request false)) ∨
    (n.raft.running = true ∧ n.raft.currentTerm < request.term ∧
      n.raft.candidateLogIndexOld request = false ∧
      n.raft.candidateLogTermOld request = false ∧
      n.voteRequestLabels i src request = [.grant i src request.term] ∧
      n.onRequestVoteRequest request =
        (dump {n with raft := {n.raft with
          currentTerm := request.term
          state := if n.raft.state = .leader then .follower else n.raft.state}},
          voteResponse n.raft request true)) := by
  rcases onRequestVoteRequest_cases request n with
    ⟨hnot,he,hg⟩ | ⟨hrun,hlt,hold,he⟩ | ⟨hrun,hlt,hi,ht,he⟩
  · refine .inl ⟨if_neg ?_,he,hg⟩
    rintro ⟨hrun,hlt⟩
    have := hnot hrun
    omega
  · exact .inr (.inl ⟨hrun,hlt,hold,by rw [voteRequestLabels,if_pos ⟨hrun,hlt⟩,if_pos hold],he⟩)
  · refine .inr (.inr ⟨hrun,hlt,hi,ht,?_,he⟩)
    rw [voteRequestLabels,if_pos ⟨hrun,hlt⟩,hi,ht]
    rfl

theorem appendRequestLabels_cases (i : CString) (request : AppendEntriesRequest)
    (r : Readings) (n : Node) :
    (n.appendRequestLabels i request = [] ∧
      n.onAppendEntriesRequest request r = (n,appendResponse n.raft request)) ∨
    (n.raft.running = true ∧ n.raft.currentTerm ≤ request.term ∧ request.entries = [] ∧
      n.appendRequestLabels i request = [.follow i request.term n.diskTerm] ∧
      ∃ due, n.onAppendEntriesRequest request r = ({n with raft := {n.raft with
        dueElection := due
        state := .follower
        currentTerm := request.term}},appendResponse n.raft request)) ∨
    (n.raft.running = true ∧ n.raft.currentTerm ≤ request.term ∧ request.entries ≠ [] ∧
      n.raft.baseLogIndex ≤ request.prevLogIndex ∧
      ∃ logs, logs = splice n.raft request ∧
        n.appendRequestLabels i request = [.accept i request.term logs.length] ∧
        n.onAppendEntriesRequest request r =
        (dump {n with raft := {n.raft with logs := logs}},{appendResponse n.raft request with
          success := true
          lastLogIndex := SRaft.lastLogIndex {n.raft with logs := logs}
          lastLogTerm := SRaft.lastLogTerm {n.raft with logs := logs}})) ∨
    (n.raft.running = true ∧ n.appendRequestLabels i request = [.save i] ∧
      n.onAppendEntriesRequest request r = (n.dump,appendResponse n.raft request)) := by
  rcases onAppendEntriesRequest_cases request r n with
    ⟨hnot,he⟩ | ⟨hrun,hle,hn,due,he⟩ | ⟨hrun,hle,hn,hb,logs,hlogs,he⟩ | ⟨hrun,hle,hn,hb,he⟩
  · refine .inl ⟨if_neg ?_,he⟩
    rintro ⟨hrun,hle⟩
    have := hnot hrun
    omega
  · exact .inr (.inl ⟨hrun,hle,hn,
      by rw [appendRequestLabels,if_pos ⟨hrun,hle⟩,if_pos hn],due,he⟩)
  · refine .inr (.inr (.inl ⟨hrun,hle,hn,hb,logs,hlogs,?_,he⟩))
    rw [appendRequestLabels,if_pos ⟨hrun,hle⟩,if_neg hn,if_pos hb,hlogs]
  · refine .inr (.inr (.inr ⟨hrun,?_,he⟩))
    rw [appendRequestLabels,if_pos ⟨hrun,hle⟩,if_neg hn,if_neg (by omega)]

theorem voteResponseLabels_cases (i : CString) (response : RequestVoteResponse) (n : Node) :
    (n.raft.currentTerm < response.term ∧
      n.voteResponseLabels i response = [.follow i response.term n.raft.currentTerm] ∧
      n.onRequestVoteResponse response = n.yieldTerm response.term) ∨
    (n.voteResponseLabels i response = [] ∧ n.onRequestVoteResponse response = n) ∨
    (n.countsVote response ∧ n.onRequestVoteResponse response = n.countVote ∧
      (n.voteResponseLabels i response = [] ∧ n.countVote.raft.state = .candidate ∨
        n.winsWith response ∧ n.voteResponseLabels i response = [.win i] ∧
          n.countVote.raft.state = .leader)) := by
  rcases onRequestVoteResponse_cases response n with ⟨hlt,he⟩ | ⟨hle,hnot,he⟩ | ⟨hle,hs,hg,he⟩
  · exact .inl ⟨hlt,if_pos hlt,he⟩
  · refine .inr (.inl ⟨?_,he⟩)
    rw [voteResponseLabels,if_neg (by omega),if_neg (fun h => hnot ⟨h.1.2.1,h.1.2.2⟩)]
  · refine .inr (.inr ⟨⟨hle,hs,hg⟩,he,?_⟩)
    by_cases hv : n.raft.peers.length/2 < n.raft.votesRecieved+1
    · exact .inr ⟨⟨⟨hle,hs,hg⟩,hv⟩,
        by rw [voteResponseLabels,if_neg (by omega),if_pos ⟨⟨hle,hs,hg⟩,hv⟩],
        by simp [countVote,hv]⟩
    · exact .inl ⟨by rw [voteResponseLabels,if_neg (by omega),if_neg (fun h => hv h.2)],
        by simp [countVote,hv,hs]⟩

end Node

namespace Cluster

def deliverLabels (c : Cluster) : Rpc → List HistoryLabel
  | .voteCall src dst _ request => (c.servers dst).node.voteRequestLabels dst src request
  | .appendCall _ dst _ request _ => (c.servers dst).node.appendRequestLabels dst request
  | _ => []

def respondLabels (c : Cluster) : Rpc → List HistoryLabel
  | .voteReply src _ _ _ response => (c.servers src).node.voteResponseLabels src response
  | .appendReply src _ _ _ _ response => (c.servers src).node.appendResponseLabels src response
  | _ => []

/-- What an event is as steps of the replication of logs. -/
def labels (c : Cluster) : Event → List HistoryLabel
  | .timer i r => (c.servers i).node.timerLabels i r
  | .doLog i cmd => (c.servers i).node.logLabels i cmd
  | .putLog i =>
    ((c.servers i).pending).elim [] (fun request => (c.servers i).node.logLabels i request.command)
  | .deliver k _ => (c.net[k]?).elim [] c.deliverLabels
  | .respond k => (c.net[k]?).elim [] c.respondLabels
  | .crash i => [.restart i]
  | _ => []

/-- The node of each of these steps. -/
theorem move_labels {c : Cluster} {i : CString} {e : Event} {n : Node} {net : List Rpc}
    (hm : c.Move i e n net) : ∀ l ∈ c.labels e, l.node = i := by
  have hlog : ∀ cmd, ∀ l ∈ (c.servers i).node.logLabels i cmd, l.node = i := by
    intro cmd l hl
    unfold Node.logLabels at hl
    split_ifs at hl
    · obtain rfl := List.mem_singleton.mp hl
      rfl
    · exact absurd hl (by simp)
  cases hm with
  | run r _ => simp [labels]
  | timer r =>
    intro l hl
    rcases Node.timerLabels_cases i r (c.servers i).node with
      ⟨he,-⟩ | ⟨-,-,-,⟨he,-⟩ | ⟨he,-⟩ | ⟨he,-⟩⟩ | ⟨-,he,-⟩ <;>
      simp only [labels,he,List.mem_cons,List.not_mem_nil,or_false] at hl
    · exact hl ▸ rfl
    · rcases hl with rfl | rfl <;> rfl
    · rcases hl with rfl | rfl <;> rfl
    · exact hl ▸ rfl
  | doLog cmd => exact hlog cmd
  | putLog request hp =>
    intro l hl
    rw [labels,hp] at hl
    exact hlog _ l hl
  | voteCall k r src life request response hk _ =>
    intro l hl
    rw [labels,hk] at hl
    unfold Option.elim deliverLabels Node.voteRequestLabels at hl
    dsimp only at hl
    split_ifs at hl <;> simp only [List.mem_singleton,List.not_mem_nil] at hl <;> exact hl ▸ rfl
  | appendCall k r src life request isHeartbeat hk _ =>
    intro l hl
    rw [labels,hk] at hl
    unfold Option.elim deliverLabels Node.appendRequestLabels at hl
    dsimp only at hl
    split_ifs at hl <;> simp only [List.mem_singleton,List.not_mem_nil] at hl <;> exact hl ▸ rfl
  | voteReply k dst request response hk =>
    intro l hl
    rw [labels,hk] at hl
    unfold Option.elim respondLabels Node.voteResponseLabels at hl
    dsimp only at hl
    split_ifs at hl <;> simp only [List.mem_singleton,List.not_mem_nil] at hl <;> exact hl ▸ rfl
  | appendReply k dst request isHeartbeat response hk =>
    intro l hl
    rw [labels,hk] at hl
    unfold Option.elim respondLabels Node.appendResponseLabels at hl
    dsimp only at hl
    split_ifs at hl
    · obtain rfl := List.mem_singleton.mp hl
      rfl
    · exact absurd hl (by simp)

end Cluster

end SRaftMuduo
