import SRaftMuduo.Cluster.Election

namespace SRaftMuduo

open Replication

/-- A call for a vote is of an election that began with the own vote of the caller, and an
answer that grants the vote was given by the node that was asked. -/
def VoteRpc (g : History) : Rpc → Prop
  | .voteCall src _ _ request => g.vote src request.term = some src
  | .voteReply src dst _ request response => g.vote src request.term = some src ∧
      (response.voteGranted = true → g.vote dst request.term = some src)
  | _ => True

/-- The votes that a candidate has counted, and those that are still to come, are of
different nodes. -/
def Tally (cfg : Config) (g : History) (i : CString) (n : Node) (net : List Rpc) : Prop :=
  n.raft.state = .candidate → g.vote i n.raft.currentTerm = some i →
    ∃ S : List CString, (asked i n.raft.currentTerm net++S).Nodup ∧
      S.length = n.raft.votesRecieved ∧
      ∀ v ∈ S, v ∈ cfg.names ∧ g.vote v n.raft.currentTerm = some i

/-- The calls that carry entries or heartbeats. -/
def Call.appends : Call → Prop
  | .requestVote _ _ => False
  | .appendEntries _ _ _ => True

section Calls

variable {cfg : Config} {g g' : History} {i : CString} {n m : Node} {net net' : List Rpc}
  {rpc : Rpc}

theorem VoteRpc.mono (h : VoteRpc g rpc) (hg : VotesGrow g g') : VoteRpc g' rpc := by
  cases rpc with
  | voteCall src dst life request => exact hg.vote _ _ _ h
  | voteReply src dst life request response =>
    exact ⟨hg.vote _ _ _ h.1,fun hv => hg.vote _ _ _ (h.2 hv)⟩
  | appendCall => trivial
  | appendReply => trivial

theorem VoteRpc.fail (h : VoteRpc g rpc) : VoteRpc g (Cluster.failCall rpc) := by
  cases rpc with
  | voteCall src dst life request => exact ⟨h,fun hv => absurd hv Bool.false_ne_true⟩
  | voteReply src dst life request response =>
    exact ⟨h.1,fun hv => absurd hv Bool.false_ne_true⟩
  | appendCall => trivial
  | appendReply => trivial

/-- No call of an election that has not begun is in flight. -/
theorem asked_unborn (h : ∀ rpc ∈ net, VoteRpc g rpc) {t : Nat} (hv : g.vote i t = none) :
    asked i t net = [] := by
  refine asked_none ?_
  intro rpc hrpc
  have hr := h rpc hrpc
  cases rpc with
  | voteCall src dst life request =>
    refine if_neg ?_
    rintro ⟨rfl,rfl⟩
    rw [VoteRpc,hv] at hr
    exact absurd hr (by simp)
  | voteReply src dst life request response =>
    refine if_neg ?_
    rintro ⟨rfl,rfl⟩
    rw [VoteRpc,hv] at hr
    exact absurd hr.1 (by simp)
  | appendCall => rfl
  | appendReply => rfl

theorem asks_appends (h : ∀ call ∈ n.calls, call.appends) (i : CString) (t life : Nat) :
    asked i t (n.calls.map (Call.rpc i life)) = [] := by
  refine asked_none ?_
  intro rpc hrpc
  obtain ⟨call,hc,rfl⟩ := List.mem_map.mp hrpc
  have := h call hc
  cases call with
  | requestVote => exact absurd this id
  | appendEntries => rfl

theorem voteRpc_appends (h : ∀ call ∈ n.calls, call.appends) (life : Nat) :
    ∀ rpc ∈ n.calls.map (Call.rpc i life), VoteRpc g rpc := by
  intro rpc hrpc
  obtain ⟨call,hc,rfl⟩ := List.mem_map.mp hrpc
  have := h call hc
  cases call with
  | requestVote => exact absurd this id
  | appendEntries => trivial

theorem Node.doAppendEntries_appends (hn : n.calls = []) (isHeartbeat : Bool) :
    ∀ call ∈ (n.doAppendEntries isHeartbeat).calls, call.appends := by
  intro call hc
  rw [Node.doAppendEntries_calls,hn,List.nil_append] at hc
  obtain ⟨-,-,-,rfl⟩ := Node.callPeers_mem hc
  trivial

theorem Node.doLog_appends (hn : n.calls = []) (cmd : CString) :
    ∀ call ∈ (n.doLog cmd).1.calls, call.appends := by
  have hnone : ∀ m : Node, m.calls = n.calls → ∀ call ∈ m.calls, call.appends := by
    intro m hm call hc
    rw [hm,hn] at hc
    exact absurd hc List.not_mem_nil
  rcases Node.doLog_cases cmd n with ⟨-,he⟩ | ⟨-,he⟩ | ⟨-,-,-,he⟩ <;> rw [he]
  · exact hnone n rfl
  · exact hnone n.stop rfl
  · exact Node.doAppendEntries_appends (n := Node.dump {n with raft := {n.raft with
      logs := n.raft.logs++[Node.newEntry cmd n.raft]}}) hn false

theorem Tally.of_not (h : n.raft.state ≠ .candidate) : Tally cfg g i n net :=
  fun hs => absurd hs h

/-- Nothing that the tally speaks of changes, but some calls may be gone. -/
theorem Tally.keep (h : Tally cfg g i n net) (hs : m.raft.state = n.raft.state)
    (ht : m.raft.currentTerm = n.raft.currentTerm)
    (hv : m.raft.votesRecieved = n.raft.votesRecieved)
    (hg : ∀ v c, g.vote v n.raft.currentTerm = some c → g'.vote v n.raft.currentTerm = some c)
    (hself : g'.vote i n.raft.currentTerm = g.vote i n.raft.currentTerm)
    (hnet : (asked i n.raft.currentTerm net').Sublist (asked i n.raft.currentTerm net)) :
    Tally cfg g' i m net' := by
  intro hcand hvote
  rw [hs] at hcand
  rw [ht,hself] at hvote
  obtain ⟨S,hn,hlen,hS⟩ := h hcand hvote
  rw [ht,hv]
  refine ⟨S,hn.sublist (hnet.append_right S),hlen,fun v hm => ?_⟩
  obtain ⟨hin,hvote⟩ := hS v hm
  exact ⟨hin,hg v i hvote⟩

/-- An election asks every peer once, in the new term. -/
theorem asked_doElection (hw : Wired cfg i n) (hidle : n.calls = []) (r : Readings)
    (t life : Nat) : asked i t ((n.doElection r).calls.map (Call.rpc i life)) =
      if t = u64 (n.raft.currentTerm+1) then cfg.peersOf i else [] := by
  have hreq : (n.doElection r).raft.voteRequest.term = u64 (n.raft.currentTerm+1) := by
    rw [Node.doElection_raft]
    rfl
  obtain ⟨real,hnames,-,hcalls⟩ := hw.peers.callPeers
    (fun peer => .requestVote peer.name (n.doElection r).raft.voteRequest)
  rw [Node.doElection_calls,hidle,hcalls,List.nil_append]
  generalize (n.doElection r).raft.voteRequest = request at hreq
  rw [← hnames,asked,List.map_map,List.filterMap_map]
  by_cases ht : t = u64 (n.raft.currentTerm+1)
  · simp [Function.comp_def,Call.rpc,Rpc.asks,hreq,ht]
  · simp [Function.comp_def,Call.rpc,Rpc.asks,hreq,ht,Ne.symm ht]

/-- The tally of a new election: the own vote, and the calls to all others. -/
theorem Tally.doElection (hc : cfg.Symmetric) (hin : i ∈ cfg.names) (hw : Wired cfg i n)
    (hidle : n.calls = []) {r : Readings} (hterm : n.raft.currentTerm+1 < 2^64)
    (hnone : asked i (n.raft.currentTerm+1) net = [])
    (hself : g.vote i (n.raft.currentTerm+1) = some i) (life : Nat) :
    Tally cfg g i (n.doElection r) (net++(n.doElection r).calls.map (Call.rpc i life)) ∧
      ∀ rpc ∈ (n.doElection r).calls.map (Call.rpc i life), VoteRpc g rpc := by
  have hcur : (n.doElection r).raft.currentTerm = n.raft.currentTerm+1 := by
    rw [Node.doElection_raft]
    exact u64_of_lt hterm
  refine ⟨fun _ _ => ⟨[i],?_,?_,?_⟩,?_⟩
  · rw [hcur,asked_append,hnone,asked_doElection hw hidle,u64_of_lt hterm,if_pos rfl,
      List.nil_append]
    refine (cfg.peers_nodup i).append (List.nodup_singleton i) ?_
    intro v hv hvi
    obtain rfl := List.mem_singleton.mp hvi
    exact hc.not_peer hin hv
  · rw [Node.doElection_raft]
    rfl
  · intro v hv
    obtain rfl := List.mem_singleton.mp hv
    exact ⟨hin,by rw [hcur]; exact hself⟩
  · intro rpc hrpc
    obtain ⟨call,hcall,rfl⟩ := List.mem_map.mp hrpc
    rw [Node.doElection_calls,hidle,List.nil_append] at hcall
    obtain ⟨name,peer,-,rfl⟩ := Node.callPeers_mem hcall
    change g.vote i (n.doElection r).raft.currentTerm = some i
    rw [hcur]
    exact hself

/-- The tally after a vote has been counted. -/
theorem Tally.countVote (h : Tally cfg g i n net) {k : Nat} {dst : CString} {life : Nat}
    {request : RequestVoteRequest} {response : RequestVoteResponse}
    (hk : net[k]? = some (.voteReply i dst life request response))
    (hr : VoteRpc g (.voteReply i dst life request response))
    (hcount : n.countsVote response) (hlate : ¬n.countsLate request response)
    (hin : dst ∈ cfg.names) :
    g.vote i n.raft.currentTerm = some i ∧ ∃ S : List CString,
      (asked i n.raft.currentTerm (net.eraseIdx k)++S).Nodup ∧
      S.length = n.raft.votesRecieved+1 ∧
      ∀ v ∈ S, v ∈ cfg.names ∧ g.vote v n.raft.currentTerm = some i := by
  have ht : request.term = n.raft.currentTerm := by
    by_contra hne
    exact hlate ⟨hcount,hne⟩
  obtain ⟨hself,hvote⟩ := hr
  rw [ht] at hself hvote
  obtain ⟨S,hn,hlen,hS⟩ := h hcount.2.1 hself
  have hasks : (Rpc.voteReply i dst life request response).asks i n.raft.currentTerm =
      some dst := if_pos ⟨rfl,ht⟩
  have hperm := asked_erase (i := i) (t := n.raft.currentTerm) hk
  rw [hasks] at hperm
  refine ⟨hself,dst::S,?_,by simp [hlen],?_⟩
  · have hmid : (asked i n.raft.currentTerm net++S).Perm
        (asked i n.raft.currentTerm (net.eraseIdx k)++dst::S) :=
      (hperm.append_right S).trans List.perm_middle.symm
    exact hmid.nodup hn
  · intro v hv
    rcases List.mem_cons.mp hv with rfl | hv
    · exact ⟨hin,hvote hcount.2.2⟩
    · exact hS v hv

theorem Tally.calls (h : Tally cfg g i n net) (hc : ∀ call ∈ n.calls, call.appends)
    (life : Nat) : Tally cfg g i n (net++n.calls.map (Call.rpc i life)) := by
  intro hs hv
  obtain ⟨S,hn,hS⟩ := h hs hv
  refine ⟨S,?_,hS⟩
  rw [asked_append,asks_appends hc,List.append_nil]
  exact hn

theorem Tally.doLog (h : Tally cfg g i n net) (cmd : CString) :
    Tally cfg (g.applyAll (n.logLabels i cmd)) i (n.doLog cmd).1 net := by
  rcases Node.logLabels_cases i cmd n with ⟨hl,he⟩ | ⟨-,-,-,hl,he⟩ <;> rw [hl]
  · rcases he with he | he <;> rw [he]
    · exact h
    · exact h.keep rfl rfl rfl (fun _ _ hv => hv) rfl (List.Sublist.refl _)
  · obtain ⟨ci,la,hr⟩ := Node.logEntry_raft cmd n
    rw [he]
    exact h.keep (by rw [hr]) (by rw [hr]) (by rw [hr]) (fun _ _ hv => hv) rfl
      (List.Sublist.refl _)

theorem Tally.onAppendEntriesRequest (h : Tally cfg g i n net) (request : AppendEntriesRequest)
    (r : Readings) (hnet : ∀ t, asked i t net' = asked i t net) :
    Tally cfg (g.applyAll (n.appendRequestLabels i request)) i
      (n.onAppendEntriesRequest request r).1 net' := by
  have hsub : ∀ t, (asked i t net').Sublist (asked i t net) := by
    intro t
    rw [hnet]
  rcases Node.appendRequestLabels_cases i request r n with
    ⟨hl,he⟩ | ⟨-,-,-,hl,due,he⟩ | ⟨-,-,-,-,logs,-,hl,he⟩ | ⟨-,hl,he⟩ <;> rw [hl,he]
  · exact h.keep rfl rfl rfl (fun _ _ hv => hv) rfl (hsub _)
  · exact Tally.of_not (by simp)
  · exact h.keep rfl rfl rfl (fun _ _ hv => hv) rfl (hsub _)
  · exact h.keep rfl rfl rfl (fun _ _ hv => hv) rfl (hsub _)

/-- A candidate that takes a new term has no vote of its own in it. -/
theorem Tally.onRequestVoteRequest (h : Tally cfg g i n net) (hv : NodeVotes g i n)
    (he : Elections cfg.quorums g) {src : CString} (hsrc : src ≠ i)
    (request : RequestVoteRequest) (hnet : ∀ t, asked i t net' = asked i t net) :
    Tally cfg (g.applyAll (n.voteRequestLabels i src request)) i
      (n.onRequestVoteRequest request).1 net' := by
  rcases Node.voteRequestLabels_cases i src request n with
    ⟨hl,hn,-⟩ | ⟨hrun,hlt,-,hl,hn⟩ | ⟨hrun,hlt,-,-,hl,hn⟩ <;> rw [hl,hn]
  · exact h.keep rfl rfl rfl (fun _ _ hv => hv) rfl (by rw [hnet])
  · intro hs hself
    have hcur := hv.cur_eq hrun
    have hself : g.vote i request.term = some i := hself
    rw [he.vote_none (by omega)] at hself
    exact absurd hself (by simp)
  · intro hs hself
    have hself : update₂ g.vote i request.term (some src) i request.term = some i := hself
    rw [update₂_self] at hself
    exact absurd (Option.some.inj hself) hsrc

theorem Tally.onRequestVoteResponse (h : Tally cfg g i n net) {k : Nat} {dst : CString}
    {life : Nat} {request : RequestVoteRequest} {response : RequestVoteResponse}
    (hk : net[k]? = some (.voteReply i dst life request response))
    (hr : VoteRpc g (.voteReply i dst life request response))
    (hlate : ¬n.countsLate request response) (hin : dst ∈ cfg.names) :
    Tally cfg (g.applyAll (n.voteResponseLabels i response)) i
      (n.onRequestVoteResponse response) (net.eraseIdx k) := by
  have hsub : ∀ t, (asked i t (net.eraseIdx k)).Sublist (asked i t net) :=
    fun t => (List.eraseIdx_sublist net k).filterMap _
  rcases Node.voteResponseLabels_cases i response n with
    ⟨-,hl,he⟩ | ⟨hl,he⟩ | ⟨hcount,he,⟨hl,-⟩ | ⟨-,hl,hs⟩⟩ <;> rw [hl,he]
  · exact Tally.of_not (by simp [Node.yieldTerm,Node.stepDown])
  · exact h.keep rfl rfl rfl (fun _ _ hv => hv) rfl (hsub _)
  · obtain ⟨-,S,hS⟩ := h.countVote hk hr hcount hlate hin
    exact fun _ _ => ⟨S,hS⟩
  · exact Tally.of_not (by simp [hs])

theorem Tally.onAppendEntriesReponse (h : Tally cfg g i n net)
    (response : AppendEntriesResponse) (isHeartbeat : Bool) (k : Nat) :
    Tally cfg (g.applyAll (n.appendResponseLabels i response)) i
      (n.onAppendEntriesReponse response isHeartbeat) (net.eraseIdx k) := by
  obtain ⟨x,hx,⟨peers,ci,la,hr⟩,-⟩ := Node.onAppendEntriesReponse_frame response isHeartbeat n
  unfold Node.appendResponseLabels
  split_ifs at hx ⊢ with hdown
  · refine Tally.of_not ?_
    rw [hr,hx]
    simp [Node.stepDown]
  · refine h.keep ?_ ?_ ?_ (fun _ _ hv => hv) rfl ((List.eraseIdx_sublist net k).filterMap _)
    all_goals rw [hr,hx]

/-- A candidate that wins has the votes of more than half of the nodes. -/
theorem Tally.quorum (h : Tally cfg g i n net) (hc : cfg.Symmetric) (hi : i ∈ cfg.names)
    (hw : Wired cfg i n) {k : Nat} {dst : CString} {life : Nat} {request : RequestVoteRequest}
    {response : RequestVoteResponse}
    (hk : net[k]? = some (.voteReply i dst life request response))
    (hr : VoteRpc g (.voteReply i dst life request response))
    (hlate : ¬n.countsLate request response)
    (hhalf : ¬n.winsByHalf cfg.names.length response) (hin : dst ∈ cfg.names)
    (hwin : n.winsWith response) : g.vote i n.raft.currentTerm = some i ∧
      cfg.quorums.IsQuorum {u | g.vote u n.raft.currentTerm = some i} := by
  obtain ⟨hself,S,hn,hlen,hS⟩ := h.countVote hk hr hwin.1 hlate hin
  refine ⟨hself,Config.isQuorum hc (List.Nodup.of_append_right hn) hS ?_⟩
  have hsize := hc.length hi
  have hpeers := hw.peers.length_le
  have hvotes := hwin.2
  have hne : cfg.names.length ≠ 2*(n.raft.votesRecieved+1) := fun he => hhalf ⟨hwin,he⟩
  omega

end Calls

end SRaftMuduo
