import SRaftMuduo.Cluster.Restriction
import Mathlib.Data.Finset.Max
import Mathlib.Data.Prod.Lex

namespace SRaftMuduo

namespace Node

variable {i : CString} {names : List CString} {persist : Option PersistRecord} {n : Node}
  {r : Readings} {logs : List LogEntry} {t due ms : Nat}

/-- A process that has been started on the given file at the time `now`, and runs. -/
def restarted (i : CString) (names : List CString) (persist : Option PersistRecord)
    (now : Nat) : Node :=
  (Node.create i names (some []) persist).run (.now now)

/-- What its file says. -/
def storedTerm (persist : Option PersistRecord) : Nat := (persist.map PersistRecord.term).getD 0

def storedLogs (persist : Option PersistRecord) : List LogEntry :=
  (persist.map PersistRecord.entries).getD []

/-- A follower in the term `t` with nothing to send, whose election is due by the time `due`. -/
structure Waiting (i : CString) (names : List CString) (logs : List LogEntry) (t due : Nat)
    (n : Node) : Prop where
  state : n.raft.state = .follower
  running : n.raft.running = true
  stopped : n.stopped = false
  calls : n.calls = []
  term : n.raft.currentTerm = t
  logs : n.raft.logs = logs
  peers : n.raft.peers = (SRaft.create i names).peers
  addrStr : n.raft.addrStr = i
  dueElection : n.raft.dueElection ≤ due

theorem restarted_waiting {now : Nat} : Waiting i names (storedLogs persist) (storedTerm persist)
    (now+intervalElectionLow) (restarted i names persist now) := by
  have hdue : u64 (now+intervalElectionLow) ≤ now+intervalElectionLow := u64_le _
  cases persist <;> exact ⟨rfl,rfl,rfl,rfl,rfl,rfl,rfl,rfl,hdue⟩

theorem Waiting.late {due' : Nat} (h : Waiting i names logs t due n) (hle : due ≤ due') :
    Waiting i names logs t due' n :=
  ⟨h.state,h.running,h.stopped,h.calls,h.term,h.logs,h.peers,h.addrStr,h.dueElection.trans hle⟩

theorem without_calls (h : n.calls = []) : {n with calls := []} = n := by
  obtain ⟨raft,persist,channel,calls,applied,pushes,stopped⟩ := n
  obtain rfl := h
  rfl

theorem callPeers_create (call : SRaftPeer → Call) (i : CString) (names : List CString) :
    callPeers call (SRaft.create i names).peers =
      (names.map fun name => call ⟨name,0,-1⟩,false) := by
  induction names with
  | nil => rfl
  | cons name names ih =>
    have hcons : (SRaft.create i (name::names)).peers =
        (name,some ⟨name,0,-1⟩)::(SRaft.create i names).peers := rfl
    rw [hcons,callPeers,ih]
    rfl

theorem doElection_stopped (r : Readings) (n : Node) :
    (n.doElection r).stopped = (n.stopped ||
      (callPeers (fun peer => .requestVote peer.name (n.doElection r).raft.voteRequest)
        n.raft.peers).2) := by
  unfold doElection startCalls
  dsimp only
  split_ifs <;> rfl

/-- On a follower whose election is due `OnTimer` is `DoElection`, when the time allowed for
the election is not over already. -/
theorem onTimer_election (hrun : n.raft.running = true) (hdue : n.electionDue r)
    (hfail : ¬(n.doElection r).electionFailed r) : n.onTimer r = n.doElection r := by
  have hbeat : ¬n.heartbeatDue r := fun h => nomatch h.1.symm.trans hdue.1
  rw [onTimer,if_pos hrun,timerHeartbeat,if_neg hbeat,timerElection,if_pos hdue,timerFail,
    if_neg hfail]

theorem onTimer_fail (hrun : n.raft.running = true) (hfail : n.electionFailed r) :
    n.onTimer r = {n with raft := {n.raft with
      state := .follower
      dueElection := u64 (r.dueMs+r.random)}} := by
  have hcandidate := hfail.2.1
  have hbeat : ¬n.heartbeatDue r := fun h => nomatch h.1.symm.trans hcandidate
  have hdue : ¬n.electionDue r := fun h => nomatch h.1.symm.trans hcandidate
  rw [onTimer,if_pos hrun,timerHeartbeat,if_neg hbeat,timerElection,if_neg hdue,timerFail,
    if_pos hfail]

/-- A node in the election that it began last, in the term `t`; whatever is due is due by the
time `due`. -/
structure Asking (i : CString) (names : List CString) (logs : List LogEntry) (t due : Nat)
    (n : Node) : Prop where
  state : n.raft.state = if names = [] then .leader else .candidate
  running : n.raft.running = true
  stopped : n.stopped = false
  term : n.raft.currentTerm = t
  logs : n.raft.logs = logs
  peers : n.raft.peers = (SRaft.create i names).peers
  addrStr : n.raft.addrStr = i
  votes : n.raft.votesRecieved = 1
  dueElection : n.raft.dueElection ≤ due
  dueElectionFail : n.raft.dueElectionFail ≤ due

/-- The calls do not matter. -/
theorem Asking.quiet (h : Asking i names logs t due n) :
    Asking i names logs t due {n with calls := []} :=
  ⟨h.state,h.running,h.stopped,h.term,h.logs,h.peers,h.addrStr,h.votes,h.dueElection,
    h.dueElectionFail⟩

/-- The request of a node in an election. -/
def ballot (i : CString) (logs : List LogEntry) (t : Nat) : RequestVoteRequest :=
  SRaft.voteRequest {SRaft.create i [] with logs := logs, currentTerm := t}

theorem Asking.voteRequest (h : Asking i names logs t due n) :
    n.raft.voteRequest = ballot i logs t := by
  rw [SRaft.voteRequest,h.addrStr,h.term,h.logs]
  rfl

/-- A follower that is late begins an election. -/
theorem Waiting.onTimer (h : Waiting i names logs t due n) (hlate : due < ms)
    (hms : ms+intervalElectionFail < 2^64) (ht : t+1 < 2^64) :
    Asking i names logs (t+1) (ms+intervalElectionFail) (n.onTimer (.now ms)) ∧
      (n.onTimer (.now ms)).calls =
        names.map fun name => .requestVote name (ballot i logs (t+1)) := by
  have hfail : u64 (ms+intervalElectionFail) = ms+intervalElectionFail := u64_of_lt hms
  have hdue : n.electionDue (.now ms) := ⟨h.state,Nat.lt_of_le_of_lt h.dueElection hlate⟩
  have hnot : ¬(n.doElection (.now ms)).electionFailed (.now ms) := by
    rintro ⟨-,-,hlt⟩
    rw [doElection_raft] at hlt
    have hlt : u64 (ms+intervalElectionFail) < ms := hlt
    omega
  have hnil : n.raft.peers = [] ↔ names = [] := by
    rw [h.peers]
    exact List.map_eq_nil_iff
  rw [onTimer_election h.running hdue hnot]
  have hasking : Asking i names logs (t+1) (ms+intervalElectionFail) (n.doElection (.now ms)) := by
    refine ⟨?_,?_,?_,?_,?_,?_,?_,?_,?_,?_⟩
    · rw [doElection_raft]
      simp only [hnil]
    · rw [doElection_raft]
      exact h.running
    · rw [doElection_stopped,h.stopped,h.peers,callPeers_create]
      rfl
    · rw [doElection_raft]
      show u64 (n.raft.currentTerm+1) = t+1
      rw [h.term,u64_of_lt ht]
    · rw [doElection_raft]
      exact h.logs
    · rw [doElection_raft]
      exact h.peers
    · rw [doElection_raft]
      exact h.addrStr
    · rw [doElection_raft]
    · rw [doElection_raft]
      have hold : n.raft.dueElection ≤ due := h.dueElection
      show n.raft.dueElection ≤ _
      omega
    · rw [doElection_raft]
      exact hfail.le
  refine ⟨hasking,?_⟩
  rw [doElection_calls,h.calls,h.peers,callPeers_create,hasking.voteRequest]
  rfl

/-- The time allowed for the election is over. -/
theorem Asking.onTimer (h : Asking i names logs t due n) (hcalls : n.calls = [])
    (hnames : names ≠ []) (hlate : due < ms) :
    Waiting i names logs t (ms+intervalElectionLow) (n.onTimer (.now ms)) := by
  have hfail : n.electionFailed (.now ms) := by
    refine ⟨h.stopped,?_,Nat.lt_of_le_of_lt h.dueElectionFail hlate⟩
    rw [h.state,if_neg hnames]
  rw [onTimer_fail h.running hfail]
  exact ⟨rfl,h.running,h.stopped,hcalls,h.term,h.logs,h.peers,h.addrStr,u64_le _⟩

/-- A peer that refuses its vote reports its term. -/
theorem Asking.refused {response : RequestVoteResponse} (h : Asking i names logs t due n)
    (hcalls : n.calls = []) (hle : t ≤ response.term) (hno : response.voteGranted = false) :
    Waiting i names logs response.term due (n.onRequestVoteResponse response) ∨
      Asking i names logs response.term due (n.onRequestVoteResponse response) ∧
        (n.onRequestVoteResponse response).calls = [] := by
  rcases onRequestVoteResponse_cases response n with ⟨-,he⟩ | ⟨hle',-,he⟩ | ⟨-,-,hyes,-⟩
  · rw [he]
    exact .inl ⟨rfl,h.running,h.stopped,hcalls,rfl,h.logs,h.peers,h.addrStr,h.dueElection⟩
  · rw [h.term] at hle'
    obtain rfl : t = response.term := Nat.le_antisymm hle hle'
    rw [he]
    exact .inr ⟨h,hcalls⟩
  · exact absurd (hno.symm.trans hyes) (by decide)

/-- A follower that has given its vote. -/
structure Voted (logs : List LogEntry) (t : Nat) (n : Node) : Prop where
  state : n.raft.state = .follower
  running : n.raft.running = true
  stopped : n.stopped = false
  term : n.raft.currentTerm = t
  logs : n.raft.logs = logs

/-- A request of a term that is not newer changes nothing. -/
theorem Waiting.refuse (request : RequestVoteRequest) (h : Waiting i names logs t due n)
    (hterm : request.term ≤ t) : (n.onRequestVoteRequest request).1 = n ∧
      (n.onRequestVoteRequest request).2 = ⟨n.raft.addrStr,t,false,request.seq,true⟩ := by
  rw [← h.term] at hterm
  unfold onRequestVoteRequest
  rw [if_neg (by simp [h.running]),if_pos hterm,← h.term]
  exact ⟨rfl,rfl⟩

/-- The vote of a node that was restarted, for a candidate whose log it accepts. -/
theorem Waiting.vote (request : RequestVoteRequest)
    (h : Waiting i names logs t due n) (hterm : t < request.term)
    (hindex : n.raft.candidateLogIndexOld request = false)
    (hold : n.raft.candidateLogTermOld request = false) :
    Voted logs request.term (n.onRequestVoteRequest request).1 ∧
      (n.onRequestVoteRequest request).1.calls = [] ∧
      (n.onRequestVoteRequest request).2 = ⟨n.raft.addrStr,t,true,request.seq,true⟩ := by
  rcases onRequestVoteRequest_cases request n with
    ⟨hle,-,-⟩ | ⟨-,-,hno,-⟩ | ⟨-,-,-,-,he⟩
  · have hle := hle h.running
    rw [h.term] at hle
    omega
  · rw [hindex,hold] at hno
    cases hno
  · rw [he]
    refine ⟨⟨?_,h.running,h.stopped,rfl,h.logs⟩,h.calls,?_⟩
    · show (if n.raft.state = .leader then State.follower else n.raft.state) = _
      rw [h.state]
      rfl
    · show (⟨n.raft.addrStr,n.raft.currentTerm,true,request.seq,true⟩ : RequestVoteResponse) = _
      rw [h.term]

/-- A node that is a candidate with `voted` votes of others, too few to win, or has won. -/
structure Polled (i : CString) (names : List CString) (logs : List LogEntry) (t voted : Nat)
    (n : Node) : Prop where
  running : n.raft.running = true
  stopped : n.stopped = false
  calls : n.calls = []
  term : n.raft.currentTerm = t
  logs : n.raft.logs = logs
  peers : n.raft.peers = (SRaft.create i names).peers
  state : n.raft.state = .leader ∨ n.raft.state = .candidate ∧
    n.raft.votesRecieved = 1+voted ∧ (voted = 0 ∧ names ≠ [] ∨ 1+voted ≤ names.length/2)

theorem Asking.polled (h : Asking i names logs t due n) :
    Polled i names logs t 0 {n with calls := []} := by
  refine ⟨h.running,h.stopped,rfl,h.term,h.logs,h.peers,?_⟩
  show n.raft.state = .leader ∨ n.raft.state = .candidate ∧ _
  rw [h.state]
  by_cases hnames : names = []
  · exact .inl (if_pos hnames)
  · exact .inr ⟨if_neg hnames,h.votes,.inl ⟨rfl,hnames⟩⟩

/-- One more vote. -/
theorem Polled.vote {voted : Nat} {response : RequestVoteResponse}
    (h : Polled i names logs t voted n) (hterm : response.term ≤ t)
    (hgranted : response.voteGranted = true) :
    Polled i names logs t (voted+1) (n.onRequestVoteResponse response) := by
  have hlen : n.raft.peers.length = names.length := by
    rw [h.peers]
    exact List.length_map ..
  rcases onRequestVoteResponse_cases response n with ⟨hlt,-⟩ | ⟨-,hnot,he⟩ | ⟨-,hc,-,he⟩
  · rw [h.term] at hlt
    omega
  · rw [he]
    refine ⟨h.running,h.stopped,h.calls,h.term,h.logs,h.peers,.inl ?_⟩
    exact h.state.resolve_right fun hc => hnot ⟨hc.1,hgranted⟩
  · rw [he]
    obtain hl | ⟨-,hvotes,-⟩ := h.state
    · exact nomatch hc.symm.trans hl
    · refine ⟨h.running,h.stopped,h.calls,h.term,h.logs,h.peers,?_⟩
      show (if n.raft.peers.length/2 < n.raft.votesRecieved+1 then State.leader
        else n.raft.state) = .leader ∨ (if n.raft.peers.length/2 < n.raft.votesRecieved+1 then
          State.leader else n.raft.state) = .candidate ∧ n.raft.votesRecieved+1 = _ ∧ _
      rw [hlen,hvotes,hc]
      split_ifs with hmost
      · exact .inl rfl
      · exact .inr ⟨rfl,rfl,.inr (by omega)⟩

/-- With the votes of all its peers a node has won. -/
theorem Polled.won
    (h : Polled i names logs t names.length n) : n.raft.state = .leader := by
  refine h.state.resolve_right ?_
  rintro ⟨-,-,⟨hzero,hnames⟩ | hle⟩
  · exact hnames (List.length_eq_zero_iff.mp hzero)
  · omega

end Node

/-- What a handler reads when it runs on this event. -/
def Event.readings : Event → Option Readings
  | .run _ r | .timer _ r | .deliver _ r => some r
  | _ => none

namespace Cluster

open Machine

variable {cfg : Config} {c s s' : Cluster} {e : Event} {P : Cluster × Nat → Prop}
  {now ms time : Nat}

/-- The last reading of the clock. -/
def clock (time : Nat) (_ : Cluster) (e : Event) : Nat :=
  (e.readings.map Readings.dueMs).getD time

/-- The clock does not go back, and the random values are such as `get_ranged_random` gives. -/
def onTime (s : Cluster × Nat) (e : Event) : Prop :=
  ∀ r ∈ e.readings, r.drawn ∧ s.2 ≤ r.currentMs ∧ r.currentMs ≤ r.electionMs ∧
    r.electionMs ≤ r.dueMs

/-- The cluster with the clock that its processes read. -/
def timed (cfg : Config) : Machine (Cluster × Nat) Event := (machine cfg).withGhost clock

/-- A handler runs at the time `ms`. -/
theorem can_at (he : e.readings = some (.now ms)) (hs : (machine cfg).step s e = some s')
    (htime : time ≤ ms) (hms : ms+intervalElectionLow < 2^64)
    (h : (timed cfg).Can onTime P (s',ms)) : (timed cfg).Can onTime P (s,time) := by
  have hok : onTime (s,time) e := by
    intro r hr
    obtain rfl := Option.some.inj (he.symm.trans hr)
    have hhigh : intervalElectionLow ≤ intervalElectionHigh := by decide
    exact ⟨⟨le_refl _,hhigh,hms⟩,htime,le_refl _,le_refl _⟩
  refine h.step hok ?_
  show ((machine cfg).step s e).map _ = _
  rw [hs,Option.map_some,clock,he]
  rfl

/-- A step that reads no clock. -/
theorem can_off (he : e.readings = none) (hs : (machine cfg).step s e = some s')
    (h : (timed cfg).Can onTime P (s',time)) : (timed cfg).Can onTime P (s,time) := by
  have hok : onTime (s,time) e := by
    intro r hr
    cases he.symm.trans hr
  refine h.step hok ?_
  show ((machine cfg).step s e).map _ = _
  rw [hs,Option.map_some,clock,he]
  rfl

/-- The node that a restart leaves at `i`. -/
def restart (cfg : Config) (c : Cluster) (now : Nat) (i : CString) : Node :=
  .restarted i (cfg.peersOf i) (c.servers i).node.persist now

/-- The processes that are not in the list have been restarted. -/
structure Restarting (cfg : Config) (c : Cluster) (now : Nat) (rest : List CString)
    (s : Cluster) : Prop where
  named : ∀ i ∈ rest, i ∈ cfg.names
  persist : ∀ i, (s.servers i).node.persist = (c.servers i).node.persist
  node : ∀ i ∈ cfg.names, i ∈ rest ∨ (s.servers i).node = restart cfg c now i

theorem Restarting.turn {i : CString} {rest : List CString}
    (hnow : now+intervalElectionLow < 2^64) (h : Restarting cfg c now (i::rest) s) :
    (timed cfg).Can onTime (fun p => Restarting cfg c now rest p.1 ∧ p.2 = now) (s,now) := by
  have hi := h.named i List.mem_cons_self
  have hcrash : (machine cfg).step s (.crash i) = some (s.crashed cfg i) := if_pos hi
  have hself : ((s.crashed cfg i).servers i) =
      Server.boot cfg i (s.servers i).node.persist ((s.servers i).life+1) :=
    Function.update_self ..
  have hlive : (s.crashed cfg i).live cfg i := ⟨hi,by rw [hself]; rfl⟩
  have hidle : ((s.crashed cfg i).raft i).running = false := by rw [raft,hself]; rfl
  have hrun : (machine cfg).step (s.crashed cfg i) (.run i (.now now)) =
      some ((s.crashed cfg i).onNode i (((s.crashed cfg i).servers i).node.run (.now now))
        (s.crashed cfg i).net) := if_pos ⟨hlive,hidle⟩
  refine can_off rfl hcrash (can_at rfl hrun (le_refl _) hnow (.here ⟨?_,rfl⟩))
  have hnode : ((s.crashed cfg i).servers i).node.run (.now now) = restart cfg c now i := by
    rw [hself,restart,← h.persist i]
    rfl
  have hmoved := moved_onNode (s.crashed cfg i) i (restart cfg c now i) (s.crashed cfg i).net
  rw [hnode]
  have hnew : (((s.crashed cfg i).onNode i (restart cfg c now i)
      (s.crashed cfg i).net).servers i).node = restart cfg c now i := by
    rw [hmoved.node]
    exact Node.without_calls Node.restarted_waiting.calls
  have hother {j : CString} (hj : j ≠ i) : ((s.crashed cfg i).onNode i (restart cfg c now i)
      (s.crashed cfg i).net).servers j = s.servers j := by
    rw [hmoved.other j hj]
    exact Function.update_of_ne hj ..
  refine ⟨fun j hj => h.named j (List.mem_cons_of_mem _ hj),fun j => ?_,fun j hj => ?_⟩
  · by_cases hji : j = i
    · rw [hji,hnew,restart,Node.restarted]
      cases (c.servers i).node.persist <;> rfl
    · rw [hother hji]
      exact h.persist j
  · by_cases hji : j = i
    · rw [hji]
      exact .inr hnew
    · rw [hother hji]
      cases h.node j hj with
      | inl hmem => exact .inl ((List.mem_cons.mp hmem).resolve_left hji)
      | inr hnode => exact .inr hnode

/-- All processes die and are started again. -/
theorem can_restart (cfg : Config) (c : Cluster) (hnow : now+intervalElectionLow < 2^64) :
    (timed cfg).Can onTime
      (fun p => (∀ i ∈ cfg.names, (p.1.servers i).node = restart cfg c now i) ∧ p.2 = now)
      (c,now) := by
  have hall : Restarting cfg c now cfg.names c := ⟨fun _ h => h,fun _ => rfl,fun _ h => .inl h⟩
  have hcan : (timed cfg).Can onTime (fun p => Restarting cfg c now [] p.1 ∧ p.2 = now) (c,now) :=
    Can.each (I := fun rest (p : Cluster × Nat) => Restarting cfg c now rest p.1 ∧ p.2 = now)
      (fun i rest p hp => by
        obtain ⟨s,time⟩ := p
        obtain ⟨h,rfl⟩ := hp
        exact h.turn hnow) cfg.names ⟨hall,rfl⟩
  refine hcan.mono fun p hp => ⟨fun i hi => ?_,hp.2⟩
  exact (hp.1.node i hi).resolve_left List.not_mem_nil

/-- All but `b` are as they were restarted. -/
def OthersRestarted (cfg : Config) (c : Cluster) (now : Nat) (b : CString) (s : Cluster) : Prop :=
  ∀ p ∈ cfg.names, p ≠ b → (s.servers p).node = restart cfg c now p

theorem OthersRestarted.moved {b : CString} {n : Node} {net : List Rpc}
    (h : OthersRestarted cfg c now b s) (hm : Moved s s' b n net) :
    OthersRestarted cfg c now b s' := by
  intro p hp hne
  rw [hm.other p hne]
  exact h p hp hne

theorem timer_step {b : CString} (hl : s.live cfg b) (r : Readings) :
    ∃ t, (machine cfg).step s (.timer b r) = some t ∧
      Moved s t b ((s.servers b).node.onTimer r) s.net :=
  ⟨_,if_pos hl,moved_onNode s b _ s.net⟩

/-- The node `b` has asked all its peers for their votes in the term `t`. -/
structure Campaign (cfg : Config) (c : Cluster) (now : Nat) (b : CString) (t due : Nat)
    (s : Cluster) : Prop where
  others : OthersRestarted cfg c now b s
  node : Node.Asking b (cfg.peersOf b) (Node.storedLogs (c.servers b).node.persist) t due
    (s.servers b).node
  calls : (s.servers b).node.calls = []
  net : ∃ old, s.net = old++(cfg.peersOf b).map fun p => .voteCall b p (s.servers b).life
    (Node.ballot b (Node.storedLogs (c.servers b).node.persist) t)

/-- A node that is late begins an election. -/
theorem can_campaign {b : CString} {term due : Nat} (hb : b ∈ cfg.names)
    (hothers : OthersRestarted cfg c now b s)
    (hnode : Node.Waiting b (cfg.peersOf b) (Node.storedLogs (c.servers b).node.persist) term due
      (s.servers b).node)
    (hterm : term+1 < 2^64) (htime : time ≤ ms) (hlate : due < ms)
    (hms : ms+intervalElectionFail < 2^64) :
    (timed cfg).Can onTime
      (fun p => Campaign cfg c now b (term+1) (ms+intervalElectionFail) p.1 ∧ p.2 = ms)
      (s,time) := by
  obtain ⟨s1,hs1,hm1⟩ := timer_step ⟨hb,hnode.stopped⟩ (.now ms)
  obtain ⟨hasking,hcalls⟩ := hnode.onTimer hlate hms hterm
  have hlow : ms+intervalElectionLow < 2^64 := by
    have hfail : intervalElectionLow ≤ intervalElectionFail := by decide
    omega
  refine can_at rfl hs1 htime hlow (.here ⟨⟨hothers.moved hm1,?_,?_,s.net,?_⟩,rfl⟩)
  · rw [hm1.node]
    exact hasking.quiet
  · rw [hm1.node]
  · rw [hm1.net,hcalls,List.map_map,hm1.life]
    rfl

section Rpc

variable {src dst : CString} {k life : Nat} {request : RequestVoteRequest}

theorem voteCall_step (ms : Nat) (hk : s.net[k]? = some (.voteCall src dst life request))
    (hl : s.live cfg dst)
    (hset : ((s.servers dst).node.onRequestVoteRequest request).2.hasRequired = true) :
    ∃ t, (machine cfg).step s (.deliver k (.now ms)) = some t ∧
      Moved s t dst ((s.servers dst).node.onRequestVoteRequest request).1
        (s.net.set k (.voteReply src dst life request
          ((s.servers dst).node.onRequestVoteRequest request).2)) := by
  refine ⟨_,?_,moved_onNode s dst _ _⟩
  show s.net[k]?.bind (s.deliverCall cfg k (.now ms)) = _
  rw [hk,Option.bind_some,deliverCall,if_pos hl]
  simp only [hset,if_true]

theorem voteReply_step {response : RequestVoteResponse}
    (hk : s.net[k]? = some (.voteReply src dst life request response)) (hl : s.live cfg src)
    (hlife : (s.servers src).life = life) :
    ∃ t, (machine cfg).step s (.respond k) = some t ∧
      Moved s t src ((s.servers src).node.onRequestVoteResponse response)
        (s.net.eraseIdx k) := by
  refine ⟨_,?_,moved_onNode s src _ _⟩
  show s.net[k]?.bind (s.respondCall cfg k) = _
  rw [hk,Option.bind_some,respondCall,if_pos ⟨hl,hlife⟩]

/-- A request is delivered and its response comes back at once. -/
theorem vote_exchange (ms : Nat) (hk : s.net[k]? = some (.voteCall src dst life request))
    (hdst : s.live cfg dst) (hsrc : s.live cfg src) (hne : dst ≠ src)
    (hlife : (s.servers src).life = life)
    (hset : ((s.servers dst).node.onRequestVoteRequest request).2.hasRequired = true) :
    ∃ t u, (machine cfg).step s (.deliver k (.now ms)) = some t ∧
      (machine cfg).step t (.respond k) = some u ∧
      Moved s t dst ((s.servers dst).node.onRequestVoteRequest request).1
        (s.net.set k (.voteReply src dst life request
          ((s.servers dst).node.onRequestVoteRequest request).2)) ∧
      Moved t u src ((s.servers src).node.onRequestVoteResponse
        ((s.servers dst).node.onRequestVoteRequest request).2) (t.net.eraseIdx k) := by
  obtain ⟨t,ht,hm⟩ := voteCall_step ms hk hdst hset
  have hself : t.servers src = s.servers src := hm.other src (Ne.symm hne)
  have hkl : k < s.net.length := (List.getElem?_eq_some_iff.mp hk).1
  have hreply : t.net[k]? = some (.voteReply src dst life request
      ((s.servers dst).node.onRequestVoteRequest request).2) := by
    rw [hm.net,List.getElem?_append_left (by rw [List.length_set]; exact hkl),
      List.getElem?_set_self hkl]
  have hlive : t.live cfg src := ⟨hsrc.1,by rw [hself]; exact hsrc.2⟩
  obtain ⟨u,hu,hm'⟩ := voteReply_step hreply hlive (by rw [hself]; exact hlife)
  rw [hself] at hm'
  exact ⟨t,u,ht,hu,hm,hm'⟩

end Rpc

/-- A peer in a term that is not lower refuses its vote, and the candidate learns its term. -/
theorem Campaign.refused {b m : CString} {term due : Nat} (hb : b ∈ cfg.names)
    (hm : m ∈ cfg.names) (hpeer : m ∈ cfg.peersOf b) (hmb : m ≠ b)
    (hterm : term ≤ Node.storedTerm (c.servers m).node.persist)
    (h : Campaign cfg c now b term due s) (htime : ms ≤ due)
    (hdue : due+1+intervalElectionLow < 2^64) :
    (timed cfg).Can onTime (fun p => (OthersRestarted cfg c now b p.1 ∧
      Node.Waiting b (cfg.peersOf b) (Node.storedLogs (c.servers b).node.persist)
        (Node.storedTerm (c.servers m).node.persist) (due+1+intervalElectionLow)
        (p.1.servers b).node) ∧ p.2 ≤ due+1) (s,ms) := by
  have hnode : (s.servers m).node = restart cfg c now m := h.others m hm hmb
  have hwaiting : Node.Waiting m (cfg.peersOf m) (Node.storedLogs (c.servers m).node.persist)
      (Node.storedTerm (c.servers m).node.persist) (now+intervalElectionLow)
      (restart cfg c now m) := Node.restarted_waiting
  obtain ⟨hsame,hanswer⟩ := hwaiting.refuse
    (Node.ballot b (Node.storedLogs (c.servers b).node.persist) term) hterm
  rw [← hnode] at hsame hanswer
  obtain ⟨old,hnet⟩ := h.net
  obtain ⟨k,hk⟩ := List.mem_iff_getElem?.mp (List.mem_append_right old (List.mem_map_of_mem
    (f := fun p => Rpc.voteCall b p (s.servers b).life
      (Node.ballot b (Node.storedLogs (c.servers b).node.persist) term)) hpeer))
  rw [← hnet] at hk
  have hlive : s.live cfg m := ⟨hm,by rw [hnode]; exact hwaiting.stopped⟩
  obtain ⟨s1,s2,hs1,hs2,hm1,hm2⟩ :=
    vote_exchange ms hk hlive ⟨hb,h.node.stopped⟩ hmb rfl (by rw [hanswer])
  have hothers1 : OthersRestarted cfg c now b s1 := by
    intro p hp hpb
    by_cases hpm : p = m
    · rw [hpm,hm1.node,hsame,hnode]
      exact Node.without_calls hwaiting.calls
    · rw [hm1.other p hpm]
      exact h.others p hp hpb
  have hothers2 := hothers1.moved hm2
  refine can_at rfl hs1 (le_refl _) (by omega) (can_off rfl hs2 ?_)
  have hno : ((s.servers m).node.onRequestVoteRequest (Node.ballot b
      (Node.storedLogs (c.servers b).node.persist) term)).2.voteGranted = false := by rw [hanswer]
  have hrefused := h.node.refused h.calls (by rw [hanswer]; exact hterm) hno
  have hlearnt : ((s.servers m).node.onRequestVoteRequest
      (Node.ballot b (Node.storedLogs (c.servers b).node.persist) term)).2.term =
      Node.storedTerm (c.servers m).node.persist := by rw [hanswer]
  rw [hlearnt] at hrefused
  rcases hrefused with hwait | ⟨hask,hcalls⟩
  · refine .here ⟨⟨hothers2,?_⟩,by show ms ≤ due+1; omega⟩
    rw [hm2.node,Node.without_calls hwait.calls]
    exact hwait.late (by omega)
  · have hnode2 := hm2.node
    rw [Node.without_calls hcalls] at hnode2
    have hlive2 : s2.live cfg b := ⟨hb,by rw [hnode2]; exact hask.stopped⟩
    obtain ⟨s3,hs3,hm3⟩ := timer_step hlive2 (.now (due+1))
    rw [hnode2] at hm3
    have hwait := hask.onTimer hcalls (List.ne_nil_of_mem hpeer) (Nat.lt_succ_self due)
    refine can_at rfl hs3 (by omega) hdue (.here ⟨⟨hothers2.moved hm3,?_⟩,le_refl _⟩)
    rw [hm3.node,Node.without_calls hwait.calls]
    exact hwait

/-- The peers in the list have not been asked for their vote yet; all others have given it. -/
structure Polling (cfg : Config) (c : Cluster) (now : Nat) (b : CString) (t : Nat)
    (rest : List CString) (s : Cluster) : Prop where
  peers : ∀ p ∈ rest, p ∈ cfg.names ∧ p ≠ b
  nodup : rest.Nodup
  net : ∃ old, s.net = old++rest.map fun p => .voteCall b p (s.servers b).life
    (Node.ballot b (Node.storedLogs (c.servers b).node.persist) t)
  asked : ∀ p ∈ rest, (s.servers p).node = restart cfg c now p
  voted : ∀ p ∈ cfg.names, p ≠ b → p ∉ rest →
    Node.Voted (Node.storedLogs (c.servers p).node.persist) t (s.servers p).node
  node : ∃ voted, voted+rest.length = (cfg.peersOf b).length ∧
    Node.Polled b (cfg.peersOf b) (Node.storedLogs (c.servers b).node.persist) t voted
      (s.servers b).node

/-- The restarted node at `p` has a lower term, and the log of `b` is recent enough for it. -/
structure Accepts (cfg : Config) (c : Cluster) (now : Nat) (b : CString) (t : Nat) (p : CString) :
    Prop where
  term : Node.storedTerm (c.servers p).node.persist < t
  index : (restart cfg c now p).raft.candidateLogIndexOld
    (Node.ballot b (Node.storedLogs (c.servers b).node.persist) t) = false
  old : (restart cfg c now p).raft.candidateLogTermOld
    (Node.ballot b (Node.storedLogs (c.servers b).node.persist) t) = false

/-- A vote is asked for, given and counted. -/
theorem Polling.turn {b p : CString} {t : Nat} {rest : List CString} (hb : b ∈ cfg.names)
    (haccept : ∀ p ∈ cfg.names, p ≠ b → Accepts cfg c now b t p)
    (hms : ms+intervalElectionLow < 2^64) (h : Polling cfg c now b t (p::rest) s) :
    (timed cfg).Can onTime (fun p => Polling cfg c now b t rest p.1 ∧ p.2 = ms) (s,ms) := by
  obtain ⟨hp,hpb⟩ := h.peers p List.mem_cons_self
  obtain ⟨old,hnet⟩ := h.net
  obtain ⟨voted,hcount,hpolled⟩ := h.node
  have haccepts := haccept p hp hpb
  have hnode : (s.servers p).node = restart cfg c now p := h.asked p List.mem_cons_self
  have hwaiting : Node.Waiting p (cfg.peersOf p) (Node.storedLogs (c.servers p).node.persist)
      (Node.storedTerm (c.servers p).node.persist) (now+intervalElectionLow)
      (restart cfg c now p) := Node.restarted_waiting
  let request := Node.ballot b (Node.storedLogs (c.servers b).node.persist) t
  obtain ⟨hvoted,hcalls,hanswer⟩ := hwaiting.vote request haccepts.term
    haccepts.index haccepts.old
  rw [← hnode] at hvoted hcalls hanswer
  have hcall : s.net[old.length]? = some (.voteCall b p (s.servers b).life request) := by
    rw [hnet,List.getElem?_append_right (Nat.le_refl _),Nat.sub_self]
    rfl
  have hlive : s.live cfg p := ⟨hp,by rw [hnode]; exact hwaiting.stopped⟩
  obtain ⟨s1,s2,hs1,hs2,hm1,hm2⟩ :=
    vote_exchange ms hcall hlive ⟨hb,hpolled.stopped⟩ hpb rfl (by rw [hanswer])
  have hnet1 : s1.net = old++.voteReply b p (s.servers b).life request
      ((s.servers p).node.onRequestVoteRequest request).2::rest.map fun p =>
        .voteCall b p (s.servers b).life request := by
    rw [hm1.net,hcalls,hnet,List.set_append_right _ _ (Nat.le_refl _),Nat.sub_self]
    exact List.append_nil _
  have hself1 : s1.servers b = s.servers b := hm1.other b (Ne.symm hpb)
  have hpolled2 : Node.Polled b (cfg.peersOf b) (Node.storedLogs (c.servers b).node.persist) t
      (voted+1) ((s.servers b).node.onRequestVoteResponse
        ((s.servers p).node.onRequestVoteRequest request).2) := by
    rw [hanswer]
    exact hpolled.vote (Nat.le_of_lt haccepts.term) rfl
  refine can_at rfl hs1 (le_refl _) hms (can_off rfl hs2 (.here ⟨?_,rfl⟩))
  refine ⟨fun q hq => h.peers q (List.mem_cons_of_mem _ hq),(List.nodup_cons.mp h.nodup).2,
    ⟨old,?_⟩,fun q hq => ?_,fun q hq hqb hqrest => ?_,voted+1,?_,?_⟩
  · rw [hm2.net,hpolled2.calls,hnet1,List.eraseIdx_append_of_length_le (Nat.le_refl _),
      Nat.sub_self,hm2.life,hself1]
    exact List.append_nil _
  · have hqp : q ≠ p := fun heq => (List.nodup_cons.mp h.nodup).1 (heq ▸ hq)
    rw [hm2.other q (h.peers q (List.mem_cons_of_mem _ hq)).2,hm1.other q hqp]
    exact h.asked q (List.mem_cons_of_mem _ hq)
  · rw [hm2.other q hqb]
    by_cases hqp : q = p
    · rw [hqp,hm1.node,Node.without_calls hcalls]
      exact hvoted
    · rw [hm1.other q hqp]
      exact h.voted q hq hqb fun hmem => hqrest ((List.mem_cons.mp hmem).resolve_left hqp)
  · rw [List.length_cons] at hcount
    omega
  · rw [hm2.node,Node.without_calls hpolled2.calls]
    exact hpolled2

theorem Campaign.polling {b : CString} {term due : Nat} (hc : cfg.Symmetric) (hb : b ∈ cfg.names)
    (h : Campaign cfg c now b term due s) :
    Polling cfg c now b term (cfg.peersOf b) s := by
  have hmem (p : CString) : p ∈ cfg.peersOf b ↔ p ≠ b ∧ p ∈ cfg.names := by
    rw [(hc.peers_perm b hb).mem_iff,hc.nodup.mem_erase_iff]
  refine ⟨fun p hp => ((hmem p).mp hp).symm,cfg.peers_nodup b,h.net,fun p hp => ?_,
    fun p hp hpb hno => absurd ((hmem p).mpr ⟨hpb,hp⟩) hno,0,Nat.zero_add _,?_⟩
  · obtain ⟨hpb,hp⟩ := (hmem p).mp hp
    exact h.others p hp hpb
  · have hpolled := h.node.polled
    rwa [Node.without_calls h.calls] at hpolled

/-- How recent a log is. -/
def standing (logs : List LogEntry) : Nat ×ₗ Nat :=
  toLex ((logs.getLast?.map LogEntry.term).getD 0,logs.length)

theorem exists_greatest {α : Type*} [LinearOrder α] (f : CString → α) {names : List CString}
    (hne : names ≠ []) : ∃ b ∈ names, ∀ p ∈ names, f p ≤ f b := by
  obtain ⟨x,hx⟩ := List.exists_mem_of_ne_nil names hne
  obtain ⟨b,hb,hmax⟩ := names.toFinset.exists_max_image f ⟨x,List.mem_toFinset.mpr hx⟩
  exact ⟨b,List.mem_toFinset.mp hb,fun p hp => hmax p (List.mem_toFinset.mpr hp)⟩

/-- A node accepts a candidate whose log is at least as recent as its own. -/
theorem accepts_of_standing {j b : CString} {n : Node} {logs : List LogEntry} {t : Nat}
    (hw : Wired cfg j n) (hl : Contiguous n.raft.logs) (hfit : ∀ e ∈ n.raft.logs, e.termFits)
    (hs : Contiguous logs) (hle : standing n.raft.logs ≤ standing logs) :
    n.raft.candidateLogIndexOld (Node.ballot b logs t) = false ∧
      n.raft.candidateLogTermOld (Node.ballot b logs t) = false := by
  cases he : n.raft.logs.getLast? with
  | none =>
    have hindex : ¬((logs.length : Int)-1 < -1) := by omega
    constructor
    · rw [SRaft.candidateLogIndexOld,he,hw.lastIncludeIndex,Bool.or_false]
      exact decide_eq_false hindex
    · rw [SRaft.candidateLogTermOld,he,hw.lastIncludeTerm,Bool.or_false]
      exact decide_eq_false (Nat.not_lt_zero _)
  | some e =>
    refine (voteRequest_passes_iff hw hl he (hfit e (List.mem_of_getLast? he)) hs).mpr ?_
    intro x hx
    have hx : logs.getLast? = some x := hx
    rw [standing,standing,he,hx,Prod.Lex.toLex_le_toLex] at hle
    cases hle with
    | inl hlt => exact ⟨Nat.le_of_lt hlt,fun heq => absurd heq (Nat.ne_of_gt hlt)⟩
    | inr heq => exact ⟨Nat.le_of_eq heq.1,fun _ => heq.2⟩

/-- After a restart every node accepts the candidate with the most recent log, in a term above
all that were on disk. -/
theorem accepts_restarted {b p : CString} {term : Nat}
    (h : (machine cfg).Path Machine.always (.initial cfg) s)
    (hrestart : ∀ i ∈ cfg.names, (s.servers i).node = restart cfg c now i) (hb : b ∈ cfg.names)
    (hbest : ∀ p ∈ cfg.names, standing (Node.storedLogs (c.servers p).node.persist) ≤
      standing (Node.storedLogs (c.servers b).node.persist))
    (hmost : ∀ p ∈ cfg.names, Node.storedTerm (c.servers p).node.persist ≤ term)
    (hp : p ∈ cfg.names) : Accepts cfg c now b (term+1) p := by
  have hlogs (p : CString) : (restart cfg c now p).raft.logs =
      Node.storedLogs (c.servers p).node.persist := Node.restarted_waiting.logs
  have hcontiguous (p : CString) (hp : p ∈ cfg.names) :
      Contiguous (Node.storedLogs (c.servers p).node.persist) := by
    have htidy := ((tidy_invariant cfg).reachable h).1 p
    rw [hrestart p hp] at htidy
    exact hlogs p ▸ htidy.logs
  have hw := ((wired_invariant cfg).reachable h).1 p
  have hfit := (((terms_fit_invariant cfg).reachable h).1 p).2.logs
  rw [hrestart p hp] at hw hfit
  obtain ⟨hindex,hold⟩ := accepts_of_standing (b := b) (t := term+1) hw
    (by rw [hlogs]; exact hcontiguous p hp) hfit (hcontiguous b hb)
    (by rw [hlogs]; exact hbest p hp)
  exact ⟨Nat.lt_succ_of_le (hmost p hp),hindex,hold⟩

/-- The cluster works again: `l` leads in a term above all that were on disk, the others
follow it, and every node has the log of its file. -/
structure Recovered (cfg : Config) (c : Cluster) (l : CString) (s : Cluster) : Prop where
  leader : s.live cfg l ∧ (s.raft l).running = true ∧ (s.raft l).state = .leader
  term : ∀ p ∈ cfg.names, Node.storedTerm (c.servers p).node.persist < (s.raft l).currentTerm
  followers : ∀ p ∈ cfg.names, p ≠ l → s.live cfg p ∧ (s.raft p).running = true ∧
    (s.raft p).state = .follower ∧ (s.raft p).currentTerm = (s.raft l).currentTerm
  logs : ∀ p ∈ cfg.names, (s.raft p).logs = Node.storedLogs (c.servers p).node.persist

theorem Polling.recovered {b : CString} {t : Nat} (hb : b ∈ cfg.names)
    (hterm : ∀ p ∈ cfg.names, Node.storedTerm (c.servers p).node.persist < t)
    (h : Polling cfg c now b t [] s) : Recovered cfg c b s := by
  obtain ⟨voted,hcount,hpolled⟩ := h.node
  obtain rfl : voted = (cfg.peersOf b).length := hcount
  have hvoted {p : CString} (hp : p ∈ cfg.names) (hpb : p ≠ b) :=
    h.voted p hp hpb List.not_mem_nil
  refine ⟨⟨⟨hb,hpolled.stopped⟩,hpolled.running,hpolled.won⟩,fun p hp => ?_,
    fun p hp hpb => ?_,fun p hp => ?_⟩
  · rw [raft,hpolled.term]
    exact hterm p hp
  · have hv := hvoted hp hpb
    refine ⟨⟨hp,hv.stopped⟩,hv.running,hv.state,?_⟩
    rw [raft,raft,hpolled.term]
    exact hv.term
  · by_cases hpb : p = b
    · rw [hpb]
      exact hpolled.logs
    · exact (hvoted hp hpb).logs

/-- An election in a new term, with a vote of every peer. -/
theorem can_win {b : CString} {term due : Nat} (hc : cfg.Symmetric) (hb : b ∈ cfg.names)
    (hothers : OthersRestarted cfg c now b s)
    (hnode : Node.Waiting b (cfg.peersOf b) (Node.storedLogs (c.servers b).node.persist) term due
      (s.servers b).node)
    (hmost : ∀ p ∈ cfg.names, Node.storedTerm (c.servers p).node.persist ≤ term)
    (haccept : ∀ p ∈ cfg.names, p ≠ b → Accepts cfg c now b (term+1) p)
    (hterm : term+1 < 2^64) (htime : time ≤ ms) (hlate : due < ms)
    (hms : ms+intervalElectionFail < 2^64) :
    (timed cfg).Can onTime (fun p => Recovered cfg c b p.1 ∧ p.2 = ms) (s,time) := by
  have hlow : ms+intervalElectionLow < 2^64 := by
    have hfail : intervalElectionLow ≤ intervalElectionFail := by decide
    omega
  refine (can_campaign hb hothers hnode hterm htime hlate hms).bind ?_
  rintro ⟨s,time⟩ ⟨hcampaign,rfl⟩
  have hall : (timed cfg).Can onTime
      (fun p => Polling cfg c now b (term+1) [] p.1 ∧ p.2 = time) (s,time) :=
    Can.each (I := fun rest (p : Cluster × Nat) =>
        Polling cfg c now b (term+1) rest p.1 ∧ p.2 = time)
      (fun q rest p hp => by
        obtain ⟨s,ms⟩ := p
        obtain ⟨h,rfl⟩ := hp
        exact h.turn hb haccept hlow) (cfg.peersOf b) ⟨hcampaign.polling hc hb,rfl⟩
  exact hall.mono fun p hp =>
    ⟨hp.1.recovered hb fun q hq => Nat.lt_succ_of_le (hmost q hq),hp.2⟩

/-- Whatever has happened in a run, a restart of all the processes can be followed within a
second and a half by the election of a leader, as long as the terms on disk can still grow. -/
theorem can_recover (hc : cfg.Symmetric) (hne : cfg.names ≠ [])
    (h : (machine cfg).Path Machine.always (.initial cfg) c)
    (hterm : ∀ p ∈ cfg.names, Node.storedTerm (c.servers p).node.persist < 2^64-1)
    (hnow : now+2000 < 2^64) :
    (timed cfg).Can onTime
      (fun p => (∃ l ∈ cfg.names, Recovered cfg c l p.1) ∧ p.2 ≤ now+1500) (c,now) := by
  have hlow : intervalElectionLow = 450 := rfl
  have hfail : intervalElectionFail = 500 := rfl
  obtain ⟨⟨s,time⟩,hs,hrestart,rfl⟩ := can_restart cfg c
    (show now+intervalElectionLow < 2^64 by omega)
  obtain ⟨b,hb,hbest⟩ := exists_greatest
    (fun p => standing (Node.storedLogs (c.servers p).node.persist)) hne
  obtain ⟨m,hm,hmost⟩ := exists_greatest
    (fun p => Node.storedTerm (c.servers p).node.persist) hne
  have haccept (p : CString) (hp : p ∈ cfg.names) (_ : p ≠ b) :
      Accepts cfg c time b (Node.storedTerm (c.servers m).node.persist+1) p :=
    accepts_restarted (h.trans hs.forget) hrestart hb hbest hmost hp
  have hothers : OthersRestarted cfg c time b s := fun p hp _ => hrestart p hp
  have hwaiting : Node.Waiting b (cfg.peersOf b) (Node.storedLogs (c.servers b).node.persist)
      (Node.storedTerm (c.servers b).node.persist) (time+intervalElectionLow)
      (s.servers b).node := by
    rw [hrestart b hb]
    exact Node.restarted_waiting
  have hltm := hterm m hm
  suffices hcan : (timed cfg).Can onTime
      (fun p => Recovered cfg c b p.1 ∧ p.2 ≤ time+1500) (s,time) by
    obtain ⟨u,hu,hwon,hle⟩ := hcan
    exact ⟨u,hs.trans hu,⟨b,hb,hwon⟩,hle⟩
  by_cases heq : Node.storedTerm (c.servers b).node.persist =
      Node.storedTerm (c.servers m).node.persist
  · -- `b` has the highest term itself
    rw [heq] at hwaiting
    have hwin := can_win hc hb hothers hwaiting hmost haccept (by omega)
      (show time ≤ time+451 by omega) (by omega) (by omega)
    exact hwin.mono fun p hp => ⟨hp.1,by rw [hp.2]; omega⟩
  · -- its first election tells it the highest term
    have hlt : Node.storedTerm (c.servers b).node.persist <
        Node.storedTerm (c.servers m).node.persist := lt_of_le_of_ne (hmost b hb) heq
    have hmb : m ≠ b := fun h => heq (by rw [h])
    have hpeer : m ∈ cfg.peersOf b := by
      rw [(hc.peers_perm b hb).mem_iff,hc.nodup.mem_erase_iff]
      exact ⟨hmb,hm⟩
    refine (can_campaign hb hothers hwaiting (by omega) (show time ≤ time+451 by omega)
      (by omega) (by omega)).bind ?_
    rintro ⟨s1,ms⟩ ⟨hcampaign,rfl⟩
    refine (hcampaign.refused hb hm hpeer hmb hlt (by omega) (by omega)).bind ?_
    rintro ⟨s2,ms⟩ ⟨⟨hothers2,hwaiting2⟩,hms⟩
    have hms : ms ≤ time+451+intervalElectionFail+1 := hms
    have hwin := can_win hc hb hothers2 hwaiting2 hmost haccept (by omega)
      (show ms ≤ time+1403 by omega) (by omega) (by omega)
    exact hwin.mono fun p hp => ⟨hp.1,by rw [hp.2]; omega⟩

/-- The leader has stopped at the null pointer that a failed call inserted. -/
theorem can_recover_stopped : ∃ c : Cluster, (c.servers ['a']).node.stopped = true ∧
    (timed .two).Can onTime
      (fun p => (∃ l ∈ Config.two.names, Recovered .two c l p.1) ∧ p.2 ≤ 460+1500) (c,460) := by
  obtain ⟨c,hpath,hend⟩ := exec_any (machine .two) always (.initial .two)
    [.run ['a'] (.now 0),.run ['b'] (.now 0),.timer ['a'] (.now 451),.deliver 0 (.now 451),
      .respond 0,.doLog ['a'] ['x'],.fail 0,.respond 0]
    (fun c => decide ((c.servers ['a']).node.stopped = true ∧ ∀ p ∈ Config.two.names,
      Node.storedTerm (c.servers p).node.persist < 2^64-1)) (by decide +kernel)
  obtain ⟨hstopped,hterm⟩ := of_decide_eq_true hend
  exact ⟨c,hstopped,can_recover Config.two_symmetric (by decide) hpath hterm (by decide)⟩

end Cluster

end SRaftMuduo
