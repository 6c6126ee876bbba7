import SRaftMuduo.Framework.Machine
import SRaftMuduo.Raft.Effects
import Mathlib.Data.List.Nodup

namespace SRaftMuduo
namespace Node

/-- The term a new process would start with. -/
def diskTerm (n : Node) : Nat :=
  match n.persist with
  | none => 0
  | some record => record.term

/-- A handler never lowers the term, and writes to the disk a term between the old one
and the new one, if it writes at all. -/
def TermStep (n m : Node) : Prop :=
  m.raft.running = n.raft.running ∧ n.raft.currentTerm ≤ m.raft.currentTerm ∧
    (m.diskTerm = n.diskTerm ∨
      n.raft.currentTerm ≤ m.diskTerm ∧ m.diskTerm ≤ m.raft.currentTerm)

theorem TermStep.same {n m : Node} (hr : m.raft.running = n.raft.running)
    (ht : m.raft.currentTerm = n.raft.currentTerm) (hp : m.persist = n.persist) :
    TermStep n m := by
  refine ⟨hr,by omega,.inl ?_⟩
  unfold diskTerm
  rw [hp]

theorem TermStep.dumped {n m : Node} (hr : m.raft.running = n.raft.running)
    (ht : m.raft.currentTerm = n.raft.currentTerm)
    {record : PersistRecord} (hp : m.persist = some record)
    (hd : record.term = n.raft.currentTerm) : TermStep n m := by
  have hdisk : m.diskTerm = n.raft.currentTerm := by simp [diskTerm,hp,hd]
  exact ⟨hr,by omega,.inr ⟨by omega,by omega⟩⟩

theorem run_persist (r : Readings) (n : Node) : (n.run r).persist = n.persist := by
  unfold run load
  split <;> rfl

/-- `Load` takes the term of the file, so `Run` cannot leave the node below it. -/
theorem run_diskTerm (r : Readings) (n : Node) : n.diskTerm ≤ (n.run r).raft.currentTerm := by
  cases hp : n.persist with
  | none => simp [diskTerm,hp]
  | some record => simp [diskTerm,run,load,hp]

theorem TermStep.dump {n m : Node} (hr : m.raft.running = n.raft.running)
    (ht : m.raft.currentTerm = n.raft.currentTerm) : TermStep n m.dump :=
  .dumped hr ht (dump_persist m) ht

/-- The term and the file after an election, timed out at once or not. -/
theorem timerFail_doElection (r : Readings) (n : Node) (h : n.raft.currentTerm+1 < 2^64) :
    ((n.doElection r).timerFail r).raft.running = n.raft.running ∧
    ((n.doElection r).timerFail r).raft.currentTerm = n.raft.currentTerm+1 ∧
    ((n.doElection r).timerFail r).diskTerm = n.raft.currentTerm+1 := by
  have hu := u64_of_lt h
  rcases timerFail_cases r (n.doElection r) with he | ⟨-,due,he⟩ <;> rw [he] <;>
    simp [diskTerm,hu]

theorem onTimer_termStep (r : Readings) (n : Node)
    (h : n.electionDue r → n.raft.currentTerm+1 < 2^64) : TermStep n (n.onTimer r) := by
  rcases onTimer_cases r n with ⟨-,he⟩ | ⟨-,-,due,he⟩ | ⟨-,hd,he⟩ | ⟨-,-,due,he⟩ <;> rw [he]
  · exact .same rfl rfl rfl
  · obtain ⟨ci,la,hr⟩ := doAppendEntries_raft true
      {n with raft := {n.raft with dueHeartBeat := due}}
    exact .same (by rw [hr]) (by rw [hr]) (by simp)
  · obtain ⟨hr,ht,hdisk⟩ := timerFail_doElection r n (h hd)
    exact ⟨hr,by omega,.inr ⟨by omega,by omega⟩⟩
  · exact .same rfl rfl rfl

theorem doLog_termStep (cmd : CString) (n : Node) : TermStep n (n.doLog cmd).1 := by
  rcases doLog_cases cmd n with ⟨-,he⟩ | ⟨-,he⟩ | ⟨-,-,-,he⟩ <;> rw [he]
  · exact .same rfl rfl rfl
  · exact .same rfl rfl rfl
  · obtain ⟨ci,la,hr⟩ := logEntry_raft cmd n
    exact .dumped (by simp only [hr]) (by simp only [hr]) (logEntry_persist cmd n) rfl

theorem onAppendEntriesRequest_termStep (request : AppendEntriesRequest) (r : Readings)
    (n : Node) : TermStep n (n.onAppendEntriesRequest request r).1 := by
  rcases onAppendEntriesRequest_cases request r n with
    ⟨-,he⟩ | ⟨-,hle,-,due,he⟩ | ⟨-,-,-,-,logs,-,he⟩ | ⟨-,-,-,-,he⟩ <;> rw [he]
  · exact .same rfl rfl rfl
  · exact ⟨rfl,hle,.inl rfl⟩
  · exact .dump rfl rfl
  · exact .dumped rfl rfl rfl rfl

theorem onRequestVoteRequest_termStep (request : RequestVoteRequest) (n : Node) :
    TermStep n (n.onRequestVoteRequest request).1 := by
  rcases onRequestVoteRequest_cases request n with
    ⟨-,he,-⟩ | ⟨-,hlt,-,he⟩ | ⟨-,hlt,-,-,he⟩ <;> rw [he]
  · exact .same rfl rfl rfl
  · exact ⟨rfl,by dsimp only; omega,.inl rfl⟩
  · exact ⟨rfl,by simp only [dump_raft]; omega,
      .inr ⟨by simp only [diskTerm,dump_persist]; omega,by simp [diskTerm]⟩⟩

theorem onRequestVoteResponse_termStep (response : RequestVoteResponse) (n : Node) :
    TermStep n (n.onRequestVoteResponse response) := by
  rcases onRequestVoteResponse_cases response n with ⟨hlt,he⟩ | ⟨-,-,he⟩ | ⟨-,-,-,he⟩ <;> rw [he]
  · exact ⟨rfl,by simp only [yieldTerm]; omega,
      .inr ⟨by simp [yieldTerm,stepDown,diskTerm],by
        simp only [yieldTerm,stepDown,diskTerm,dump_persist]; omega⟩⟩
  · exact .same rfl rfl rfl
  · exact .same rfl rfl rfl

theorem checkTerm_termStep (term : Nat) (n : Node) : TermStep n (n.checkTerm term) := by
  unfold checkTerm
  split_ifs
  · exact .dumped rfl rfl rfl rfl
  · exact .same rfl rfl rfl

theorem countResponse_frame (response : AppendEntriesResponse) (n : Node) :
    (n.countResponse response).raft.running = n.raft.running ∧
    (n.countResponse response).raft.currentTerm = n.raft.currentTerm ∧
    (n.countResponse response).persist = n.persist := by
  rcases countResponse_cases response n with
    he | he | ⟨peer,mi,-,m,rfl,he | he | ⟨-,-,-,-,he⟩⟩ <;> rw [he] <;>
    simp [setPeer,SRaft.setPeer]

theorem onAppendEntriesReponse_termStep (response : AppendEntriesResponse)
    (isHeartbeat : Bool) (n : Node) :
    TermStep n (n.onAppendEntriesReponse response isHeartbeat) := by
  obtain ⟨peers,hpeers⟩ := touchPeer_raft response.name n
  have htouch : TermStep n (n.touchPeer response.name) :=
    .same (by rw [hpeers]) (by rw [hpeers]) rfl
  have hcheck : TermStep n ((n.touchPeer response.name).checkTerm response.term) := by
    obtain ⟨h1,h2,h3⟩ := checkTerm_termStep response.term (n.touchPeer response.name)
    rw [hpeers] at h1 h2 h3
    exact ⟨h1,h2,h3⟩
  rcases onAppendEntriesReponse_cases response isHeartbeat n with
    ⟨-,he⟩ | ⟨-,he | ⟨-,he⟩⟩ <;> rw [he]
  · exact htouch
  · exact hcheck
  · obtain ⟨hr,ht,hp⟩ := countResponse_frame response
      ((n.touchPeer response.name).checkTerm response.term)
    obtain ⟨h1,h2,h3⟩ := hcheck
    refine ⟨hr.trans h1,by omega,?_⟩
    rw [ht]
    unfold diskTerm at h3 ⊢
    rw [hp]
    exact h3

end Node

/-- An event at one node; requests and responses are arbitrary. -/
inductive NodeEvent
  | run (r : Readings)
  | timer (r : Readings)
  | doLog (cmd : CString)
  | voteRequest (request : RequestVoteRequest)
  | voteResponse (response : RequestVoteResponse)
  | appendRequest (request : AppendEntriesRequest) (r : Readings)
  | appendResponse (response : AppendEntriesResponse) (isHeartbeat : Bool)
  | crash

/-- A node over all its processes, with the terms of the votes it has given. -/
structure Lifetime where
  node : Node
  votes : List Nat

/-- The terms a node votes in during one event: for itself in `DoElection`, or for the
sender of a request it answers with `vote_granted`. -/
def Node.votedIn (n : Node) : NodeEvent → List Nat
  | .timer r =>
    if n.raft.running = true ∧ n.electionDue r then [u64 (n.raft.currentTerm+1)] else []
  | .voteRequest request =>
    if (n.onRequestVoteRequest request).2.voteGranted then [request.term] else []
  | _ => []

/-- A handler runs on a process that has not stopped, and a response only reaches one
that has run. A crash starts a new process on the file of the old one. -/
def Node.take (addrStr : CString) (peerAddrs : List CString)
    (channel : Option (List CString)) (n : Node) : NodeEvent → Option Node
  | .crash => some (Node.create addrStr peerAddrs channel n.persist)
  | .run r => if n.stopped = false ∧ n.raft.running = false then some (n.run r) else none
  | .timer r => if n.stopped = false then some (n.onTimer r) else none
  | .doLog cmd => if n.stopped = false then some (n.doLog cmd).1 else none
  | .voteRequest request =>
    if n.stopped = false then some (n.onRequestVoteRequest request).1 else none
  | .appendRequest request r =>
    if n.stopped = false then some (n.onAppendEntriesRequest request r).1 else none
  | .voteResponse response =>
    if n.stopped = false ∧ n.raft.running = true then some (n.onRequestVoteResponse response)
    else none
  | .appendResponse response isHeartbeat =>
    if n.stopped = false ∧ n.raft.running = true then
      some (n.onAppendEntriesReponse response isHeartbeat)
    else none

def lifetimes (addrStr : CString) (peerAddrs : List CString)
    (channel : Option (List CString)) : Machine Lifetime NodeEvent where
  init := fun l => l = ⟨Node.create addrStr peerAddrs channel none,[]⟩
  step := fun l e => (l.node.take addrStr peerAddrs channel e).map fun n =>
    ⟨n,l.votes++l.node.votedIn e⟩

namespace Lifetime

/-- The term has not reached the last value of `uint64_t`. -/
def termBelowMax (l : Lifetime) (_ : NodeEvent) : Prop := l.node.raft.currentTerm < 2^64-1

instance (l : Lifetime) (e : NodeEvent) : Decidable (l.termBelowMax e) :=
  inferInstanceAs (Decidable (_ < _))

/-- Votes are never above the term on the disk, which a running process is never below. -/
structure VotesKept (l : Lifetime) : Prop where
  nodup : l.votes.Nodup
  durable : ∀ t ∈ l.votes, t ≤ l.node.diskTerm
  current : l.node.raft.running = true → l.node.diskTerm ≤ l.node.raft.currentTerm

/-- A handler that gives no vote. -/
theorem VotesKept.quiet {l : Lifetime} (h : VotesKept l) {n : Node}
    (hs : l.node.TermStep n) (hrun : l.node.raft.running = true) : VotesKept ⟨n,l.votes⟩ := by
  obtain ⟨hr,ht,hd⟩ := hs
  have hc := h.current hrun
  refine ⟨h.nodup,?_,?_⟩
  · intro t hv
    have := h.durable t hv
    dsimp only
    omega
  · intro _
    dsimp only
    omega

/-- A handler that votes in a term above the current one and writes it to the disk. -/
theorem VotesKept.vote {l : Lifetime} (h : VotesKept l) {n : Node} {t : Nat}
    (hrun : l.node.raft.running = true) (ht : l.node.raft.currentTerm < t)
    (hd : n.diskTerm = t) (hn : n.raft.currentTerm = t) : VotesKept ⟨n,l.votes++[t]⟩ := by
  have hc := h.current hrun
  refine ⟨?_,?_,?_⟩
  · refine List.nodup_append.mpr ⟨h.nodup,List.nodup_singleton t,?_⟩
    intro a ha b hb
    have hle := h.durable a ha
    obtain rfl := List.mem_singleton.mp hb
    omega
  · intro a ha
    rcases List.mem_append.mp ha with ha | ha
    · have hle := h.durable a ha
      dsimp only
      omega
    · obtain rfl := List.mem_singleton.mp ha
      exact le_of_eq hd.symm
  · intro _
    dsimp only
    omega

theorem VotesKept.boot {l : Lifetime} (h : VotesKept l) (addrStr : CString)
    (peerAddrs : List CString) (channel : Option (List CString)) :
    VotesKept ⟨Node.create addrStr peerAddrs channel l.node.persist,l.votes⟩ :=
  ⟨h.nodup,h.durable,fun hr => absurd hr (by simp [Node.create,SRaft.create])⟩

theorem VotesKept.run {l : Lifetime} (h : VotesKept l) (r : Readings) :
    VotesKept ⟨l.node.run r,l.votes⟩ := by
  have hd : (l.node.run r).diskTerm = l.node.diskTerm := by
    rw [Node.diskTerm,Node.run_persist,Node.diskTerm]
  refine ⟨h.nodup,fun t ht => by rw [hd]; exact h.durable t ht,?_⟩
  intro _
  rw [hd]
  exact Node.run_diskTerm r l.node

/-- Before `Run` a process answers without voting and leaves its fields alone. -/
theorem VotesKept.idle {l : Lifetime} (h : VotesKept l) : VotesKept ⟨l.node,l.votes++[]⟩ := by
  rw [List.append_nil]
  exact h

theorem VotesKept.timer {l : Lifetime} (h : VotesKept l) (hm : l.node.raft.currentTerm < 2^64-1)
    (r : Readings) : VotesKept ⟨l.node.onTimer r,l.votes++l.node.votedIn (.timer r)⟩ := by
  rcases Node.onTimer_cases r l.node with
    ⟨-,he⟩ | ⟨hrun,hs,due,he⟩ | ⟨hrun,hd,he⟩ | ⟨hrun,hs,due,he⟩
  · by_cases hv : l.node.raft.running = true ∧ l.node.electionDue r
    · -- an election always raises the term, so `OnTimer` did not leave the node as it was
      have hnew : l.node.onTimer r = (l.node.doElection r).timerFail r := by
        have hnb : ¬ l.node.heartbeatDue r := by
          intro hb
          exact absurd (hb.1.symm.trans hv.2.1) (by decide)
        rw [Node.onTimer,if_pos hv.1,Node.timerHeartbeat,if_neg hnb,Node.timerElection,
          if_pos hv.2]
      obtain ⟨-,ht,-⟩ := Node.timerFail_doElection r l.node (by omega)
      rw [← hnew,he] at ht
      omega
    · rw [he,Node.votedIn,if_neg hv]
      exact h.idle
  · have hv : ¬ (l.node.raft.running = true ∧ l.node.electionDue r) := by
      rintro ⟨-,hd⟩
      exact absurd (hs.symm.trans hd.1) (by decide)
    rw [Node.votedIn,if_neg hv,List.append_nil]
    exact h.quiet (Node.onTimer_termStep r l.node (fun _ => by omega)) hrun
  · obtain ⟨-,ht,hdisk⟩ := Node.timerFail_doElection r l.node (by omega)
    rw [Node.votedIn,if_pos ⟨hrun,hd⟩,he,u64_of_lt (by omega)]
    exact h.vote hrun (by omega) hdisk ht
  · have hv : ¬ (l.node.raft.running = true ∧ l.node.electionDue r) := by
      rintro ⟨-,hd⟩
      exact absurd (hs.symm.trans hd.1) (by decide)
    rw [Node.votedIn,if_neg hv,List.append_nil]
    exact h.quiet (Node.onTimer_termStep r l.node (fun _ => by omega)) hrun

theorem VotesKept.voteRequest {l : Lifetime} (h : VotesKept l) (request : RequestVoteRequest) :
    VotesKept ⟨(l.node.onRequestVoteRequest request).1,
      l.votes++l.node.votedIn (.voteRequest request)⟩ := by
  rcases Node.onRequestVoteRequest_cases request l.node with
    ⟨-,he,hg⟩ | ⟨hrun,hlt,-,he⟩ | ⟨hrun,hlt,-,-,he⟩
  · rw [Node.votedIn,hg,he]
    exact h.idle
  · have hs := Node.onRequestVoteRequest_termStep request l.node
    rw [he] at hs
    rw [Node.votedIn,he]
    simpa [Node.voteResponse] using h.quiet hs hrun
  · rw [Node.votedIn,he]
    simpa [Node.voteResponse] using h.vote hrun hlt rfl rfl

/-- A process that is not running takes a request or a timer event without effect. -/
theorem onAppendEntriesRequest_notRunning {n : Node} (h : n.raft.running = false)
    (request : AppendEntriesRequest) (r : Readings) :
    (n.onAppendEntriesRequest request r).1 = n := by
  unfold Node.onAppendEntriesRequest
  rw [if_pos h]

theorem doLog_notRunning {n : Node} (h : n.raft.running = false) (cmd : CString) :
    (n.doLog cmd).1 = n := by
  rw [Node.doLog,if_pos h]

theorem VotesKept.step {addrStr : CString} {peerAddrs : List CString}
    {channel : Option (List CString)} {l l' : Lifetime} {e : NodeEvent} (h : VotesKept l)
    (hm : l.termBelowMax e) (hs : (lifetimes addrStr peerAddrs channel).step l e = some l') :
    VotesKept l' := by
  obtain ⟨n,hn,rfl⟩ := Option.map_eq_some_iff.mp hs
  cases e with
  | crash =>
    obtain rfl := Option.some.inj hn
    simpa [Node.votedIn] using h.boot addrStr peerAddrs channel
  | run r =>
    obtain ⟨-,⟨⟩⟩ := Option.ite_none_right_eq_some.mp hn
    simpa [Node.votedIn] using h.run r
  | timer r =>
    obtain ⟨-,⟨⟩⟩ := Option.ite_none_right_eq_some.mp hn
    exact h.timer hm r
  | doLog cmd =>
    obtain ⟨-,⟨⟩⟩ := Option.ite_none_right_eq_some.mp hn
    by_cases hr : l.node.raft.running = true
    · simpa [Node.votedIn] using h.quiet (Node.doLog_termStep cmd l.node) hr
    · rw [doLog_notRunning (by simpa using hr)]
      exact h.idle
  | voteRequest request =>
    obtain ⟨-,⟨⟩⟩ := Option.ite_none_right_eq_some.mp hn
    exact h.voteRequest request
  | appendRequest request r =>
    obtain ⟨-,⟨⟩⟩ := Option.ite_none_right_eq_some.mp hn
    by_cases hr : l.node.raft.running = true
    · simpa [Node.votedIn] using
        h.quiet (Node.onAppendEntriesRequest_termStep request r l.node) hr
    · rw [onAppendEntriesRequest_notRunning (by simpa using hr)]
      exact h.idle
  | voteResponse response =>
    obtain ⟨⟨-,hr⟩,⟨⟩⟩ := Option.ite_none_right_eq_some.mp hn
    simpa [Node.votedIn] using h.quiet (Node.onRequestVoteResponse_termStep response l.node) hr
  | appendResponse response isHeartbeat =>
    obtain ⟨⟨-,hr⟩,⟨⟩⟩ := Option.ite_none_right_eq_some.mp hn
    simpa [Node.votedIn] using
      h.quiet (Node.onAppendEntriesReponse_termStep response isHeartbeat l.node) hr

/-- Over all its processes a node votes at most once in each term. -/
theorem one_vote_per_term (addrStr : CString) (peerAddrs : List CString)
    (channel : Option (List CString)) {l l' : Lifetime}
    (hi : (lifetimes addrStr peerAddrs channel).init l)
    (hp : (lifetimes addrStr peerAddrs channel).Path termBelowMax l l') : l'.votes.Nodup := by
  have hstart : VotesKept l := by
    subst hi
    exact ⟨List.nodup_nil,fun t ht => absurd ht List.not_mem_nil,
      fun hr => absurd hr (by simp [Node.create,SRaft.create])⟩
  exact (hp.invariant (fun _ _ _ h hm hs => h.step hm hs) hstart).nodup

/-- A vote for another node in term 1, a crash, and an election in term 2. -/
def restart : List NodeEvent :=
  [.run (.now 0),.voteRequest ⟨['b'],1,-1,0,0⟩,.crash,.run (.now 0),.timer (.now 451)]

theorem one_vote_per_term_restart :
    ∃ l', (lifetimes ['a'] [['b']] none).Path termBelowMax
      ⟨Node.create ['a'] [['b']] none none,[]⟩ l' ∧ l'.votes = [1,2] ∧ l'.votes.Nodup := by
  obtain ⟨l',hp,hv⟩ := (lifetimes ['a'] [['b']] none).exec_any termBelowMax
    ⟨Node.create ['a'] [['b']] none none,[]⟩ restart (fun l => l.votes = [1,2])
    (by decide +kernel)
  exact ⟨l',hp,of_decide_eq_true hv,one_vote_per_term ['a'] [['b']] none rfl hp⟩

end Lifetime
end SRaftMuduo
