import SRaftMuduo.Cluster.Ballots
import SRaftMuduo.Cluster.Replica

namespace SRaftMuduo

open Replication

namespace Node

/-- An election at the last value of `uint64_t`. -/
def termWraps (r : Readings) (n : Node) : Prop :=
  n.raft.running = true ∧ n.electionDue r ∧ 2^64 ≤ n.raft.currentTerm+1

/-- A leader that refuses a vote for the log of the candidate: it takes the new term, and
stays in its role. -/
def raisesAsLeader (request : RequestVoteRequest) (n : Node) : Prop :=
  n.raft.running = true ∧ n.raft.state = .leader ∧ n.raft.currentTerm < request.term ∧
    (n.raft.candidateLogIndexOld request || n.raft.candidateLogTermOld request) = true

/-- A candidate that counts a vote of an election before its last. -/
def countsLate (request : RequestVoteRequest) (response : RequestVoteResponse) (n : Node) :
    Prop :=
  n.countsVote response ∧ request.term ≠ n.raft.currentTerm

/-- A candidate that wins with half of the votes. -/
def winsByHalf (size : Nat) (response : RequestVoteResponse) (n : Node) : Prop :=
  n.winsWith response ∧ size = 2*(n.raft.votesRecieved+1)

instance (r : Readings) (n : Node) : Decidable (n.termWraps r) :=
  inferInstanceAs (Decidable (_ ∧ _ ∧ _))

instance (request : RequestVoteRequest) (n : Node) : Decidable (n.raisesAsLeader request) :=
  inferInstanceAs (Decidable (_ ∧ _ ∧ _ ∧ _))

instance (request : RequestVoteRequest) (response : RequestVoteResponse) (n : Node) :
    Decidable (n.countsLate request response) :=
  inferInstanceAs (Decidable (_ ∧ _))

instance (size : Nat) (response : RequestVoteResponse) (n : Node) :
    Decidable (n.winsByHalf size response) :=
  inferInstanceAs (Decidable (_ ∧ _))

end Node

/-- The node as one of the replication of logs, without its log. -/
structure NodeVotes (g : History) (i : CString) (n : Node) : Prop where
  role : g.role i = n.raft.state.role
  cur : g.cur i = n.term
  disk : g.disk i = n.diskTerm
  fresh : n.raft.running = false → n.raft.state = .follower ∧ n.raft.currentTerm = 0

namespace NodeVotes

variable {cfg : Config} {g g' : History} {i : CString} {n m : Node}

theorem same (h : NodeVotes g i n) (hs : m.raft.state = n.raft.state)
    (ht : m.raft.currentTerm = n.raft.currentTerm) (hr : m.raft.running = n.raft.running)
    (hp : m.persist = n.persist) : NodeVotes g i m := by
  have hdisk : m.diskTerm = n.diskTerm := by
    unfold Node.diskTerm
    rw [hp]
  refine ⟨by rw [hs]; exact h.role,?_,by rw [hdisk]; exact h.disk,by rw [hs,ht,hr]; exact h.fresh⟩
  rw [h.cur,Node.term,Node.term,hr,ht,hdisk]

theorem set (hrun : m.raft.running = true) (hrole : g.role i = m.raft.state.role)
    (hcur : g.cur i = m.raft.currentTerm) (hdisk : g.disk i = m.diskTerm) :
    NodeVotes g i m :=
  ⟨hrole,by rw [hcur,Node.term_running hrun],hdisk,
    fun hr => absurd (hrun.symm.trans hr) (by decide)⟩

theorem cur_eq (h : NodeVotes g i n) (hrun : n.raft.running = true) :
    g.cur i = n.raft.currentTerm := by
  rw [h.cur,Node.term_running hrun]

theorem running (h : NodeVotes g i n) (hs : n.raft.state ≠ .follower) :
    n.raft.running = true := by
  by_contra hr
  exact hs (h.fresh (by simpa using hr)).1

theorem onTimer (h : NodeVotes g i n) (hc : cfg.Symmetric) (hin : i ∈ cfg.names)
    (hw : Wired cfg i n) (hle : g.disk i ≤ g.cur i) {r : Readings} (hok : ¬n.termWraps r) :
    Allowed (Votes cfg.quorums) g (n.timerLabels i r) ∧
      NodeVotes (g.applyAll (n.timerLabels i r)) i (n.onTimer r) := by
  rcases Node.timerLabels_cases i r n with
    ⟨hl,he⟩ | ⟨hrun,hdue,he,hor⟩ | ⟨hrun,hl,due,he⟩
  · rw [hl]
    refine ⟨trivial,?_⟩
    rcases he with he | ⟨hrun,due,he⟩ <;> rw [he]
    · exact h
    · obtain ⟨ci,la,hr⟩ := Node.doAppendEntries_raft true
        {n with raft := {n.raft with dueHeartBeat := due}}
      exact h.same (by rw [hr]) (by rw [hr]) (by rw [hr]) (by simp)
  · have hterm : n.raft.currentTerm+1 < 2^64 := by
      by_contra hge
      exact hok ⟨hrun,hdue,by omega⟩
    have hcur := h.cur_eq hrun
    obtain ⟨hr,ht,hd⟩ := Node.timerFail_doElection r n hterm
    rw [← he] at hr ht hd
    have hrun' : (n.onTimer r).raft.running = true := hr.trans hrun
    have hset : ∀ g' : History, g'.role i = (n.onTimer r).raft.state.role →
        g'.cur i = n.raft.currentTerm+1 → g'.disk i = n.raft.currentTerm+1 →
        NodeVotes g' i (n.onTimer r) :=
      fun g' h1 h2 h3 => set hrun' h1 (by rw [h2,ht]) (by rw [h3,hd])
    have hvote : update₂ g.vote i (g.cur i+1) (some i) i (g.cur i+1) = some i :=
      update₂_self _ _ _ _
    rcases hor with ⟨hl,hs⟩ | ⟨hl,hp,hs⟩ | ⟨hl,hs⟩ <;> rw [hl]
    · refine ⟨⟨trivial,trivial⟩,hset _ ?_ ?_ ?_⟩
      · rw [hs]
        simp [Core.applyAll,Core.apply,State.role]
      · simp [Core.applyAll,Core.apply,hcur]
      · simp [Core.applyAll,Core.apply,hcur]
    · -- without peers the own vote is the quorum
      have hone : cfg.names.length = 1 := by
        have hlen := hw.peers.length_le
        rw [hp,List.length_nil] at hlen
        have := hc.length hin
        omega
      refine ⟨⟨trivial,?_,trivial⟩,hset _ ?_ ?_ ?_⟩
      · refine ⟨by simp [Core.apply],by simp [Core.apply],?_⟩
        refine Config.isQuorum hc (S := [i]) (List.nodup_singleton i) ?_ ?_
        · intro v hv
          obtain rfl := List.mem_singleton.mp hv
          exact ⟨hin,by simp [Core.apply]⟩
        · rw [hone]
          simp
      · rw [hs]
        simp [Core.applyAll,Core.apply,State.role]
      · simp [Core.applyAll,Core.apply,hcur]
      · simp [Core.applyAll,Core.apply,hcur]
    · refine ⟨⟨trivial,⟨?_,?_,?_⟩,trivial⟩,hset _ ?_ ?_ ?_⟩
      · simp [Core.apply,hcur]
      · simp [Core.apply,hcur]
      · simp [Core.apply,hcur]
      · rw [hs]
        simp [Core.applyAll,Core.apply,State.role]
      · simp [Core.applyAll,Core.apply]
      · simp [Core.applyAll,Core.apply]
  · have hcur := h.cur_eq hrun
    rw [hl,he]
    refine ⟨⟨⟨hcur.le,h.disk.le,by rw [← h.disk]; exact hle⟩,trivial⟩,?_⟩
    exact set hrun (by simp [Core.applyAll,Core.apply,State.role])
      (by simp [Core.applyAll,Core.apply]) (by simp [Core.applyAll,Core.apply,Node.diskTerm])

theorem doLog (h : NodeVotes g i n) (cfg : Config) (cmd : CString) :
    Allowed (Votes cfg.quorums) g (n.logLabels i cmd) ∧
      NodeVotes (g.applyAll (n.logLabels i cmd)) i (n.doLog cmd).1 := by
  rcases Node.logLabels_cases i cmd n with ⟨hl,he⟩ | ⟨hrun,hs,-,hl,he⟩ <;> rw [hl]
  · refine ⟨trivial,?_⟩
    rcases he with he | he <;> rw [he]
    · exact h
    · exact h.same rfl rfl rfl rfl
  · refine ⟨⟨trivial,trivial⟩,?_⟩
    obtain ⟨ci,la,hr⟩ := Node.logEntry_raft cmd n
    have hcur := h.cur_eq hrun
    rw [he]
    refine set (by rw [hr]; exact hrun) ?_ ?_ ?_
    · rw [hr]
      simpa [Core.applyAll,Core.apply] using h.role
    · rw [hr]
      simpa [Core.applyAll,Core.apply] using hcur
    · simp [Core.applyAll,Core.apply,Node.diskTerm,hcur]

theorem onRequestVoteRequest (h : NodeVotes g i n) (cfg : Config) (src : CString)
    {request : RequestVoteRequest} (hok : ¬n.raisesAsLeader request) :
    Allowed (Votes cfg.quorums) g (n.voteRequestLabels i src request) ∧
      NodeVotes (g.applyAll (n.voteRequestLabels i src request)) i
        (n.onRequestVoteRequest request).1 := by
  rcases Node.voteRequestLabels_cases i src request n with
    ⟨hl,he,-⟩ | ⟨hrun,hlt,hold,hl,he⟩ | ⟨hrun,hlt,-,-,hl,he⟩ <;> rw [hl,he]
  · exact ⟨trivial,h⟩
  · have hcur := h.cur_eq hrun
    refine ⟨⟨⟨by omega,?_⟩,trivial⟩,set hrun ?_ ?_ ?_⟩
    · rw [h.role]
      intro hs
      exact hok ⟨hrun,State.role_inj (t := .leader) hs,hlt,hold⟩
    · simpa [Core.applyAll,Core.apply] using h.role
    · simp [Core.applyAll,Core.apply]
    · simpa [Core.applyAll,Core.apply,Node.diskTerm] using h.disk
  · have hcur := h.cur_eq hrun
    refine ⟨⟨show g.cur i < request.term by omega,trivial⟩,set hrun ?_ ?_ ?_⟩
    · have hrole := h.role
      cases hs : n.raft.state <;> rw [hs] at hrole <;>
        simp [Core.applyAll,Core.apply,State.role] <;> simp [hrole,State.role]
    · simp [Core.applyAll,Core.apply]
    · simp [Core.applyAll,Core.apply,Node.diskTerm]

theorem onAppendEntriesRequest (h : NodeVotes g i n) (cfg : Config)
    (hle : g.disk i ≤ g.cur i) (request : AppendEntriesRequest) (r : Readings) :
    Allowed (Votes cfg.quorums) g (n.appendRequestLabels i request) ∧
      NodeVotes (g.applyAll (n.appendRequestLabels i request)) i
        (n.onAppendEntriesRequest request r).1 := by
  rcases Node.appendRequestLabels_cases i request r n with
    ⟨hl,he⟩ | ⟨hrun,hterm,-,hl,due,he⟩ | ⟨hrun,-,-,-,logs,-,hl,he⟩ | ⟨hrun,hl,he⟩ <;> rw [hl,he]
  · exact ⟨trivial,h⟩
  · have hcur := h.cur_eq hrun
    refine ⟨⟨⟨by omega,h.disk.le,by rw [← h.disk]; exact hle⟩,trivial⟩,set hrun ?_ ?_ ?_⟩
    · simp [Core.applyAll,Core.apply,State.role]
    · simp [Core.applyAll,Core.apply]
    · simp [Core.applyAll,Core.apply,Node.diskTerm]
  · have hcur := h.cur_eq hrun
    refine ⟨⟨trivial,trivial⟩,set hrun ?_ ?_ ?_⟩
    · simpa [Core.applyAll,Core.apply] using h.role
    · simpa [Core.applyAll,Core.apply] using hcur
    · simp [Core.applyAll,Core.apply,Node.diskTerm,hcur]
  · have hcur := h.cur_eq hrun
    refine ⟨⟨trivial,trivial⟩,set hrun ?_ ?_ ?_⟩
    · simpa [Core.applyAll,Core.apply] using h.role
    · simpa [Core.applyAll,Core.apply] using hcur
    · simp [Core.applyAll,Core.apply,Node.diskTerm,hcur]

/-- The quorum that a win rests on is shown apart, from the tally of the votes. -/
theorem onRequestVoteResponse (h : NodeVotes g i n) (cfg : Config)
    (hrun : n.raft.running = true) (hle : g.disk i ≤ g.cur i) (response : RequestVoteResponse)
    (hq : n.winsWith response → g.vote i (g.cur i) = some i ∧
      cfg.quorums.IsQuorum {u | g.vote u (g.cur i) = some i}) :
    Allowed (Votes cfg.quorums) g (n.voteResponseLabels i response) ∧
      NodeVotes (g.applyAll (n.voteResponseLabels i response)) i
        (n.onRequestVoteResponse response) := by
  have hcur := h.cur_eq hrun
  rcases Node.voteResponseLabels_cases i response n with
    ⟨hlt,hl,he⟩ | ⟨hl,he⟩ | ⟨hcount,he,⟨hl,hs⟩ | ⟨hwin,hl,hs⟩⟩ <;> rw [hl,he]
  · refine ⟨⟨⟨by omega,hcur ▸ hle,hcur.ge⟩,trivial⟩,set hrun ?_ ?_ ?_⟩
    · simp [Core.applyAll,Core.apply,State.role,Node.yieldTerm,Node.stepDown]
    · simp [Core.applyAll,Core.apply,Node.yieldTerm]
    · simp [Core.applyAll,Core.apply,Node.diskTerm,Node.yieldTerm,Node.stepDown]
  · exact ⟨trivial,h⟩
  · refine ⟨trivial,set hrun ?_ hcur h.disk⟩
    rw [hs,← hcount.2.1]
    exact h.role
  · obtain ⟨hself,hquorum⟩ := hq hwin
    refine ⟨⟨⟨?_,hself,hquorum⟩,trivial⟩,set hrun ?_ hcur h.disk⟩
    · rw [h.role,hcount.2.1]
      rfl
    · rw [hs]
      simp [Core.applyAll,Core.apply,State.role]

theorem onAppendEntriesReponse (h : NodeVotes g i n) (cfg : Config)
    (hle : g.disk i ≤ g.cur i) (response : AppendEntriesResponse) (isHeartbeat : Bool) :
    Allowed (Votes cfg.quorums) g (n.appendResponseLabels i response) ∧
      NodeVotes (g.applyAll (n.appendResponseLabels i response)) i
        (n.onAppendEntriesReponse response isHeartbeat) := by
  obtain ⟨x,hx,⟨peers,ci,la,hr⟩,hp,-⟩ := Node.onAppendEntriesReponse_frame response isHeartbeat n
  unfold Node.appendResponseLabels
  split_ifs at hx ⊢ with hdown
  · have hrun := h.running (n := n) (by rw [hdown.1]; decide)
    have hcur := h.cur_eq hrun
    refine ⟨⟨⟨hcur.le,hcur ▸ hle,hcur.ge⟩,trivial⟩,set ?_ ?_ ?_ ?_⟩
    · rw [hr,hx]
      exact hrun
    · rw [hr,hx]
      simp [Core.applyAll,Core.apply,State.role,Node.stepDown]
    · rw [hr,hx]
      simp [Core.applyAll,Core.apply,Node.stepDown]
    · unfold Node.diskTerm
      rw [hp,hx]
      simp [Core.applyAll,Core.apply,Node.stepDown]
  · refine ⟨trivial,h.same ?_ ?_ ?_ ?_⟩
    · rw [hr,hx]
    · rw [hr,hx]
    · rw [hr,hx]
    · rw [hp,hx]

theorem run (h : NodeVotes g i n) (hrun : n.raft.running = false) (r : Readings) :
    NodeVotes g i (n.run r) := by
  obtain ⟨hs,ht⟩ := h.fresh hrun
  refine set rfl ?_ ?_ ?_
  · rw [h.role]
    unfold Node.run Node.load
    split <;> rfl
  · rw [h.cur,Node.term,if_neg (by simp [hrun])]
    cases hp : n.persist with
    | none => simpa only [Node.run,Node.load,Node.diskTerm,hp] using ht.symm
    | some record => simp only [Node.run,Node.load,Node.diskTerm,hp]
  · rw [h.disk]
    unfold Node.diskTerm
    rw [Node.run_persist]

theorem crash (h : NodeVotes g i n) (cfg : Config) (life : Nat) :
    NodeVotes (g.apply (.restart i)) i (Server.boot cfg i n.persist life).node := by
  have hterm : (Server.boot cfg i n.persist life).node.term = n.diskTerm := rfl
  refine ⟨?_,?_,h.disk,fun _ => ⟨rfl,rfl⟩⟩
  · simp [Core.apply,State.role,Server.boot,Node.create,SRaft.create]
  · rw [hterm]
    simpa [Core.apply] using h.disk

end NodeVotes
end SRaftMuduo
