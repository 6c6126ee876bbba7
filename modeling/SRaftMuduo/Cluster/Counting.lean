import SRaftMuduo.Cluster.Tally

namespace SRaftMuduo

/-- A vote that was granted and whose answer has been processed: for which candidate and
term, and by whom. -/
structure Vote where
  candidate : CString
  term : Nat
  voter : CString
  deriving DecidableEq

def Vote.counts (i : CString) (t : Nat) (v : Vote) : Option CString :=
  if v.candidate = i ∧ v.term = t then some v.voter else none

/-- The nodes whose votes for `i` in term `t` have been processed. -/
def votersOf (i : CString) (t : Nat) (votes : List Vote) : List CString :=
  votes.filterMap (Vote.counts i t)

theorem votersOf_append (i : CString) (t : Nat) (a b : List Vote) :
    votersOf i t (a++b) = votersOf i t a++votersOf i t b :=
  List.filterMap_append

theorem votersOf_other {i j : CString} {votes : List Vote} (h : ∀ v ∈ votes, v.candidate = i)
    (hj : j ≠ i) (t : Nat) : votersOf j t votes = [] := by
  refine List.filterMap_eq_nil_iff.mpr (fun v hv => if_neg ?_)
  rw [h v hv]
  exact fun he => hj he.1.symm

/-- A candidate has its own vote and one of each node whose vote it has processed. -/
def VotesCounted (i : CString) (votes : List Vote) (s : SRaft) : Prop :=
  s.state = .candidate → s.votesRecieved = 1+(votersOf i s.currentTerm votes).toFinset.card

namespace Node

/-- A candidate that has counted votes takes a newer term, and keeps them. -/
def carriesVotes (request : RequestVoteRequest) (n : Node) : Prop :=
  n.raft.running = true ∧ n.raft.state = .candidate ∧ n.raft.currentTerm < request.term ∧
    n.raft.votesRecieved ≠ 1

/-- A vote of another election is counted, and does not end this one. -/
def miscounts (request : RequestVoteRequest) (response : RequestVoteResponse) (n : Node) :
    Prop :=
  n.countsLate request response ∧ ¬n.winsWith response

instance (request : RequestVoteRequest) (n : Node) : Decidable (n.carriesVotes request) :=
  inferInstanceAs (Decidable (_ ∧ _ ∧ _ ∧ _))

instance (request : RequestVoteRequest) (response : RequestVoteResponse) (n : Node) :
    Decidable (n.miscounts request response) :=
  inferInstanceAs (Decidable (_ ∧ _))

variable {n m : Node}

theorem TermStep.disk (h : n.TermStep m) (hle : n.diskTerm ≤ n.raft.currentTerm) :
    n.diskTerm ≤ m.diskTerm ∧ m.diskTerm ≤ m.raft.currentTerm := by
  obtain ⟨-,ht,hd⟩ := h
  omega

end Node

namespace VotesCounted

variable {i dst : CString} {votes : List Vote} {n m : Node} {request : RequestVoteRequest}
  {response : RequestVoteResponse}

theorem of_not (h : n.raft.state ≠ .candidate) : VotesCounted i votes n.raft :=
  fun hs => absurd hs h

theorem same (h : VotesCounted i votes n.raft) (hs : m.raft.state = n.raft.state)
    (ht : m.raft.currentTerm = n.raft.currentTerm)
    (hv : m.raft.votesRecieved = n.raft.votesRecieved) : VotesCounted i votes m.raft := by
  rw [VotesCounted,hs,ht,hv]
  exact h

theorem run (hrun : n.raft.state = .candidate → n.raft.running = true)
    (hno : n.raft.running = false) (r : Readings) : VotesCounted i votes (n.run r).raft := by
  have hstate : (n.run r).raft.state = n.raft.state := by
    unfold Node.run Node.load
    split <;> rfl
  refine of_not (fun hs => ?_)
  exact absurd (hno.symm.trans (hrun (hstate.symm.trans hs))) Bool.false_ne_true

/-- A new election begins with one vote, in a term in which none has been processed. -/
theorem onTimer (h : VotesCounted i votes n.raft) {r : Readings} (hok : ¬n.termWraps r)
    (hnew : n.raft.running = true → votersOf i (n.raft.currentTerm+1) votes = []) :
    VotesCounted i votes (n.onTimer r).raft := by
  rcases Node.onTimer_cases r n with
    ⟨-,he⟩ | ⟨-,hs,due,he⟩ | ⟨hrun,hdue,he⟩ | ⟨-,-,due,he⟩
  · rwa [he]
  · obtain ⟨ci,la,hr⟩ := Node.doAppendEntries_raft true {n with
      raft := {n.raft with dueHeartBeat := due}}
    refine of_not ?_
    rw [he,hr]
    exact fun hc => absurd (hs.symm.trans hc) (by decide)
  · have hterm : n.raft.currentTerm+1 < 2^64 := by
      by_contra hge
      exact hok ⟨hrun,hdue,by omega⟩
    have hcur := (Node.timerFail_doElection r n hterm).2.1
    have hvotes : (n.onTimer r).raft.votesRecieved = 1 := by
      rw [he]
      rcases Node.timerFail_cases r (n.doElection r) with he' | ⟨-,due,he'⟩ <;> rw [he'] <;> simp
    intro _
    rw [hvotes,he,hcur,hnew hrun]
    rfl
  · exact of_not (by rw [he]; simp)

theorem doLog (h : VotesCounted i votes n.raft) (cmd : CString) :
    VotesCounted i votes (n.doLog cmd).1.raft := by
  rcases Node.doLog_cases cmd n with ⟨-,he⟩ | ⟨-,he⟩ | ⟨-,-,-,he⟩ <;> rw [he]
  · exact h
  · exact h
  · obtain ⟨ci,la,hr⟩ := Node.logEntry_raft cmd n
    exact h.same (by rw [hr]) (by rw [hr]) (by rw [hr])

theorem onAppendEntriesRequest (h : VotesCounted i votes n.raft)
    (request : AppendEntriesRequest) (r : Readings) :
    VotesCounted i votes (n.onAppendEntriesRequest request r).1.raft := by
  rcases Node.onAppendEntriesRequest_cases request r n with
    ⟨-,he⟩ | ⟨-,-,-,due,he⟩ | ⟨-,-,-,-,logs,-,he⟩ | ⟨-,-,-,-,he⟩ <;> rw [he]
  · exact h
  · exact of_not (by simp)
  · exact h
  · exact h

theorem onAppendEntriesReponse (h : VotesCounted i votes n.raft)
    (response : AppendEntriesResponse) (isHeartbeat : Bool) :
    VotesCounted i votes (n.onAppendEntriesReponse response isHeartbeat).raft := by
  obtain ⟨x,hx,⟨_,_,_,hr⟩,-⟩ := Node.onAppendEntriesReponse_frame response isHeartbeat n
  split_ifs at hx
  · exact of_not (by rw [hr,hx]; simp [Node.stepDown])
  · exact h.same (by rw [hr,hx]) (by rw [hr,hx]) (by rw [hr,hx])

/-- A candidate that takes the term of another may not have counted any vote yet. -/
theorem onRequestVoteRequest_iff (h : VotesCounted i votes n.raft)
    (hnew : n.raft.running = true → n.raft.currentTerm < request.term →
      votersOf i request.term votes = []) :
    VotesCounted i votes (n.onRequestVoteRequest request).1.raft ↔ ¬n.carriesVotes request := by
  have hraise : n.raft.running = true → n.raft.currentTerm < request.term → ∀ m : Node,
      (m.raft.state = .candidate ↔ n.raft.state = .candidate) →
      m.raft.currentTerm = request.term → m.raft.votesRecieved = n.raft.votesRecieved →
      (VotesCounted i votes m.raft ↔ ¬n.carriesVotes request) := by
    intro hrun hlt m hs ht hv
    rw [VotesCounted,hs,ht,hv,hnew hrun hlt]
    constructor
    · exact fun hc hcarry => hcarry.2.2.2 (hc hcarry.2.1)
    · exact fun hno hs => by_contra fun hne => hno ⟨hrun,hs,hlt,hne⟩
  rcases Node.onRequestVoteRequest_cases request n with
    ⟨hle,he,-⟩ | ⟨hrun,hlt,-,he⟩ | ⟨hrun,hlt,-,-,he⟩
  · rw [he]
    exact ⟨fun _ hcarry => absurd (hle hcarry.1) (not_le.mpr hcarry.2.2.1),fun _ => h⟩
  · refine hraise hrun hlt _ ?_ ?_ ?_ <;> rw [he]
  · refine hraise hrun hlt _ ?_ ?_ ?_ <;> rw [he]
    · dsimp only [Node.dump_raft]
      split_ifs with hl
      · rw [hl]
        decide
      · rfl
    · rfl
    · rfl

/-- A vote that is counted must be one of the term, unless it ends the election. -/
theorem onRequestVoteResponse_iff (h : VotesCounted i votes n.raft)
    (honce : (votersOf i n.raft.currentTerm (votes++if response.voteGranted then
      [⟨i,request.term,dst⟩] else [])).Nodup) :
    VotesCounted i (votes++if response.voteGranted then [⟨i,request.term,dst⟩] else [])
      (n.onRequestVoteResponse response).raft ↔ ¬n.miscounts request response := by
  rcases Node.onRequestVoteResponse_cases response n with
    ⟨hlt,he⟩ | ⟨-,hnone,he⟩ | ⟨hle,hs,hg,he⟩
  · rw [he]
    refine ⟨fun _ hmis => absurd hmis.1.1.1 (by omega),fun _ => of_not ?_⟩
    simp [Node.yieldTerm,Node.stepDown]
  · rw [he]
    refine ⟨fun _ hmis => hnone hmis.1.1.2,fun _ => ?_⟩
    by_cases hs : n.raft.state = .candidate
    · rw [if_neg (fun hg => hnone ⟨hs,hg⟩),List.append_nil]
      exact h
    · exact of_not hs
  · by_cases hwin : n.winsWith response
    · refine ⟨fun _ hmis => hmis.2 hwin,fun _ => of_not ?_⟩
      rw [he]
      simp [Node.countVote,hwin.2]
    · -- the candidate stays one, and has a vote more
      have hstays : ¬n.raft.peers.length/2 < n.raft.votesRecieved+1 :=
        fun hv => hwin ⟨⟨hle,hs,hg⟩,hv⟩
      have hlate : ¬n.miscounts request response ↔ request.term = n.raft.currentTerm := by
        simp [Node.miscounts,Node.countsLate,hwin,Node.countsVote,hle,hs,hg]
      have hcard := List.toFinset_card_of_nodup honce
      rw [if_pos hg,votersOf_append] at honce hcard
      have hlen := h hs
      rw [List.toFinset_card_of_nodup (List.Nodup.of_append_left honce)] at hlen
      have hone : (votersOf i n.raft.currentTerm [⟨i,request.term,dst⟩]).length =
          if request.term = n.raft.currentTerm then 1 else 0 := by
        simp only [votersOf,List.filterMap_cons,Vote.counts,true_and]
        split_ifs <;> rfl
      rw [hlate,he,if_pos hg,VotesCounted]
      simp only [Node.countVote,hstays,if_false,hs,true_implies,votersOf_append]
      rw [hcard,List.length_append,hone,hlen]
      split_ifs with ht
      · exact ⟨fun _ => ht,fun _ => by omega⟩
      · exact ⟨fun hv => by omega,fun he => absurd he ht⟩

end VotesCounted

namespace Cluster

variable {cfg : Config} {c c' : Cluster} {e : Event} {i j : CString} {n : Node}
  {net : List Rpc} {votes : List Vote}

/-- The votes that a step processes. -/
def votesAt (c : Cluster) : Event → List Vote
  | .respond k =>
    match c.net[k]? with
    | some (.voteReply src dst _ request response) =>
      if response.voteGranted then [⟨src,request.term,dst⟩] else []
    | _ => []
  | _ => []

/-- An election at the last value of `uint64_t`. -/
def electionWraps (c : Cluster) : Event → Bool
  | .timer i r => (c.servers i).node.termWraps r
  | _ => false

/-- The step leaves a candidate with a vote of another term. -/
def voteSlip (c : Cluster) : Event → Bool
  | .deliver k _ =>
    match c.net[k]? with
    | some (.voteCall _ dst _ request) => (c.servers dst).node.carriesVotes request
    | _ => false
  | .respond k =>
    match c.net[k]? with
    | some (.voteReply src _ _ request response) =>
      (c.servers src).node.miscounts request response
    | _ => false
  | _ => false

def countSound (q : Cluster × List Vote) (e : Event) : Prop :=
  q.1.electionWraps e = false ∧ q.1.voteSlip e = false

instance (q : Cluster × List Vote) (e : Event) : Decidable (countSound q e) :=
  inferInstanceAs (Decidable (_ ∧ _))

theorem votesAt_candidate (hm : c.Move i e n net) : ∀ v ∈ c.votesAt e, v.candidate = i := by
  cases hm with
  | voteReply k dst request response hk =>
    intro v hv
    rw [votesAt,hk] at hv
    dsimp only at hv
    split_ifs at hv
    · obtain rfl := List.mem_singleton.mp hv
      rfl
    · exact absurd hv List.not_mem_nil
  | appendReply k dst request isHeartbeat response hk =>
    intro v hv
    rw [votesAt,hk] at hv
    exact absurd hv List.not_mem_nil
  | _ => exact fun v hv => absurd hv List.not_mem_nil

/-- A vote that is processed was on its way before, and is not any more. -/
theorem asked_votesAt (hm : c.Move i e n net) (j : CString) (t : Nat) :
    (asked j t net++votersOf j t (c.votesAt e)).Subperm (asked j t c.net) := by
  have hnone : c.votesAt e = [] →
      (asked j t net++votersOf j t (c.votesAt e)).Subperm (asked j t c.net) := by
    intro he
    rw [he,votersOf,List.filterMap_nil,List.append_nil]
    exact (move_asked hm j t).subperm
  cases hm with
  | voteReply k dst request response hk =>
    by_cases hg : response.voteGranted = true
    · have he : c.votesAt (.respond k) = [⟨i,request.term,dst⟩] := by simp [votesAt,hk,hg]
      have hasks : votersOf j t (c.votesAt (.respond k)) =
          ((Rpc.voteReply i dst (c.servers i).life request response).asks j t).toList := by
        simp only [he,votersOf,List.filterMap_cons,List.filterMap_nil,Vote.counts,Rpc.asks]
        split_ifs <;> rfl
      rw [hasks]
      exact (List.perm_append_comm.trans (asked_erase hk).symm).subperm
    · exact hnone (by simp [votesAt,hk,hg])
  | appendReply k dst request isHeartbeat response hk => exact hnone (by rw [votesAt,hk])
  | _ => exact hnone rfl

/-- Only an election asks for votes, each peer once and in its new term. -/
theorem move_asks (hidle : (c.servers i).node.calls = [])
    (hw : Wired cfg i (c.servers i).node) (hok : c.electionWraps e = false)
    (hm : c.Move i e n net) (t life : Nat) :
    asked i t (n.calls.map (Call.rpc i life)) = [] ∨
      (c.raft i).running = true ∧ t = (c.raft i).currentTerm+1 ∧ n.diskTerm = t ∧
        asked i t (n.calls.map (Call.rpc i life)) = cfg.peersOf i := by
  have hsame : n.calls = (c.servers i).node.calls →
      asked i t (n.calls.map (Call.rpc i life)) = [] := by
    intro he
    rw [he,hidle]
    rfl
  have happends : (∀ call ∈ n.calls, call.appends) →
      asked i t (n.calls.map (Call.rpc i life)) = [] := fun h => asks_appends h i t life
  cases hm with
  | run r _ => exact .inl (hsame (Node.run_calls r _))
  | timer r =>
    rcases Node.onTimer_cases r (c.servers i).node with
      ⟨-,he⟩ | ⟨-,-,due,he⟩ | ⟨hrun,hdue,he⟩ | ⟨-,-,due,he⟩
    · exact .inl (hsame (by rw [he]))
    · refine .inl (happends ?_)
      rw [he]
      exact Node.doAppendEntries_appends (n := {(c.servers i).node with
        raft := {(c.servers i).node.raft with dueHeartBeat := due}}) hidle true
    · have hterm : (c.servers i).node.raft.currentTerm+1 < 2^64 := by
        by_contra hge
        exact of_decide_eq_false hok ⟨hrun,hdue,by omega⟩
      have hcalls : ((c.servers i).node.onTimer r).calls =
          ((c.servers i).node.doElection r).calls := by
        rw [he]
        rcases Node.timerFail_cases r ((c.servers i).node.doElection r) with
          he' | ⟨-,due,he'⟩ <;> rw [he']
      have hdisk := (Node.timerFail_doElection r _ hterm).2.2
      rw [← he] at hdisk
      rw [hcalls,asked_doElection hw hidle,u64_of_lt hterm]
      split_ifs with ht
      · exact .inr ⟨hrun,ht,by rw [hdisk,ht],rfl⟩
      · exact .inl rfl
    · exact .inl (hsame (by rw [he]))
  | doLog cmd => exact .inl (happends (Node.doLog_appends hidle cmd))
  | putLog request _ => exact .inl (happends (Node.doLog_appends hidle _))
  | voteCall k r src life request response _ _ =>
    exact .inl (hsame (Node.onRequestVoteRequest_calls request _))
  | appendCall k r src life request isHeartbeat _ _ =>
    exact .inl (hsame (Node.onAppendEntriesRequest_calls request r _))
  | voteReply k dst request response _ =>
    exact .inl (hsame (Node.onRequestVoteResponse_calls response _))
  | appendReply k dst request isHeartbeat response _ =>
    exact .inl (hsame (Node.onAppendEntriesReponse_calls response isHeartbeat _))

/-- The term on the disk does not go down, and a running node is never below it. -/
theorem move_disk (hcall : Callers c) (hok : c.electionWraps e = false)
    (hle : (c.raft i).running = true → (c.servers i).node.diskTerm ≤ (c.raft i).currentTerm)
    (hm : c.Move i e n net) : (c.servers i).node.diskTerm ≤ n.diskTerm ∧
      (n.raft.running = true → n.diskTerm ≤ n.raft.currentTerm) := by
  have hkept : (c.raft i).running = true → (c.servers i).node.TermStep n →
      (c.servers i).node.diskTerm ≤ n.diskTerm ∧
        (n.raft.running = true → n.diskTerm ≤ n.raft.currentTerm) := by
    intro hrun ht
    obtain ⟨hdisk,hcur⟩ := ht.disk (hle hrun)
    exact ⟨hdisk,fun _ => hcur⟩
  by_cases hrun : (c.raft i).running = true
  · cases hm with
    | run r hno => exact absurd (hno.symm.trans hrun) Bool.false_ne_true
    | timer r =>
      refine hkept hrun (Node.onTimer_termStep r _ (fun hdue => ?_))
      by_contra hge
      exact of_decide_eq_false hok ⟨hrun,hdue,by omega⟩
    | doLog cmd => exact hkept hrun (Node.doLog_termStep cmd _)
    | putLog request _ => exact hkept hrun (Node.doLog_termStep _ _)
    | voteCall k r src life request response _ _ =>
      exact hkept hrun (Node.onRequestVoteRequest_termStep request _)
    | appendCall k r src life request isHeartbeat _ _ =>
      exact hkept hrun (Node.onAppendEntriesRequest_termStep request r _)
    | voteReply k dst request response _ =>
      exact hkept hrun (Node.onRequestVoteResponse_termStep response _)
    | appendReply k dst request isHeartbeat response _ =>
      exact hkept hrun (Node.onAppendEntriesReponse_termStep response isHeartbeat _)
  · rcases hcall.move_idle (by simpa using hrun) hm with rfl | ⟨r,-,rfl⟩
    · exact ⟨le_refl _,hle⟩
    · have hdisk : ((c.servers i).node.run r).diskTerm = (c.servers i).node.diskTerm := by
        rw [Node.diskTerm,Node.run_persist,Node.diskTerm]
      exact ⟨hdisk.ge,fun _ => hdisk.trans_le (Node.run_diskTerm r _)⟩

/-- Only a running node is a candidate. -/
theorem move_candidate (hrun : (c.raft i).state = .candidate → (c.raft i).running = true)
    (hm : c.Move i e n net) (hcand : n.raft.state = .candidate) : n.raft.running = true := by
  obtain ⟨hon,-⟩ := move_runsOn hm
  cases hm with
  | run r _ => rfl
  | timer r =>
    refine hon (by_contra fun hno => hno (hrun ?_))
    simpa [Node.onTimer,hno,raft] using hcand
  | doLog cmd =>
    refine hon (by_contra fun hno => hno (hrun ?_))
    simpa [Node.doLog,hno,raft] using hcand
  | putLog request _ =>
    refine hon (by_contra fun hno => hno (hrun ?_))
    simpa [Node.doLog,hno,raft] using hcand
  | voteCall k r src life request response _ _ =>
    refine hon (by_contra fun hno => hno (hrun ?_))
    simpa [Node.onRequestVoteRequest,hno,raft] using hcand
  | appendCall k r src life request isHeartbeat _ _ =>
    refine hon (by_contra fun hno => hno (hrun ?_))
    simpa [Node.onAppendEntriesRequest,hno,raft] using hcand
  | voteReply k dst request response _ =>
    refine hon (hrun ?_)
    rcases Node.onRequestVoteResponse_cases response (c.servers i).node with
      ⟨-,he⟩ | ⟨-,-,he⟩ | ⟨-,hs,-,-⟩
    · rw [he] at hcand
      exact absurd hcand (by simp [Node.yieldTerm,Node.stepDown])
    · rwa [he] at hcand
    · exact hs
  | appendReply k dst request isHeartbeat response _ =>
    refine hon (hrun ?_)
    obtain ⟨x,hx,⟨_,_,_,hr⟩,-⟩ :=
      Node.onAppendEntriesReponse_frame response isHeartbeat (c.servers i).node
    rw [hr,hx] at hcand
    split_ifs at hcand
    · exact absurd hcand (by simp [Node.stepDown])
    · exact hcand

/-- The nodes that `i` has asked for their votes in term `t`, but for those whose answer was
lost or did not grant it. -/
def ballots (i : CString) (t : Nat) (q : Cluster × List Vote) : List CString :=
  asked i t q.1.net++votersOf i t q.2

/-- No election so far was at a term that a node had before. -/
structure Polled (cfg : Config) (q : Cluster × List Vote) : Prop where
  wired : (∀ i, Wired cfg i (q.1.servers i).node) ∧ ∀ rpc ∈ q.1.net, WiredRpc cfg rpc
  callers : Callers q.1
  once : ∀ i t, (ballots i t q).Nodup
  born : ∀ i t, (q.1.servers i).node.diskTerm < t → ballots i t q = []
  current : ∀ i, (q.1.raft i).running = true →
    (q.1.servers i).node.diskTerm ≤ (q.1.raft i).currentTerm
  running : ∀ i, (q.1.raft i).state = .candidate → (q.1.raft i).running = true

theorem Polled.initial (cfg : Config) : Polled cfg (.initial cfg,[]) where
  wired := (wired_invariant cfg).toLocalClosed.initial
  callers := .initial cfg
  once := fun _ _ => List.nodup_nil
  born := fun _ _ _ => rfl
  current := fun _ h => absurd h Bool.false_ne_true
  running := fun _ h => absurd h (by simp [raft,Cluster.initial,Server.boot,Node.create,
    SRaft.create])

/-- What a handler adds to the votes that are asked for. -/
theorem ballots_moved (hm : c.Move i e n net) (hmoved : Moved c c' i n net) (j : CString)
    (t : Nat) : (ballots j t (c',votes++c.votesAt e)).Subperm (ballots j t (c,votes)++
      asked j t (n.calls.map (Call.rpc i (c.servers i).life))) := by
  unfold ballots
  dsimp only
  rw [hmoved.net,asked_append,votersOf_append]
  have hperm : ((asked j t net++asked j t (n.calls.map (Call.rpc i (c.servers i).life)))++
      (votersOf j t votes++votersOf j t (c.votesAt e))).Perm
      ((asked j t net++votersOf j t (c.votesAt e))++(votersOf j t votes++
        asked j t (n.calls.map (Call.rpc i (c.servers i).life)))) := by
    refine List.perm_iff_count.mpr (fun v => ?_)
    simp only [List.count_append]
    omega
  refine hperm.subperm.trans ?_
  rw [List.append_assoc (asked j t c.net)]
  exact (asked_votesAt hm j t).append (List.Subperm.refl _)

theorem Polled.moved (h : Polled cfg (c,votes)) (hok : c.electionWraps e = false)
    (hm : c.Move i e n net) (hmoved : Moved c c' i n net) (j : CString) (t : Nat) :
    (ballots j t (c',votes++c.votesAt e)).Nodup ∧
      ((c'.servers j).node.diskTerm < t → ballots j t (c',votes++c.votesAt e) = []) := by
  have hsub : (ballots j t (c',votes++c.votesAt e)).Subperm _ := ballots_moved hm hmoved j t
  have hkept : (c.servers j).node.diskTerm ≤ (c'.servers j).node.diskTerm →
      asked j t (n.calls.map (Call.rpc i (c.servers i).life)) = [] →
      (ballots j t (c',votes++c.votesAt e)).Nodup ∧
        ((c'.servers j).node.diskTerm < t → ballots j t (c',votes++c.votesAt e) = []) := by
    intro hle hnone
    rw [hnone,List.append_nil] at hsub
    obtain ⟨l,hperm,hl⟩ := hsub
    refine ⟨hperm.nodup ((h.once j t).sublist hl),fun hlt => ?_⟩
    have hnil : ballots j t (c,votes) = [] := h.born j t (by dsimp only; omega)
    rw [hnil,List.sublist_nil] at hl
    rw [hl] at hperm
    exact List.nil_perm.mp hperm
  by_cases hj : j = i
  · subst hj
    have hnode : (c'.servers j).node.diskTerm = n.diskTerm := by rw [hmoved.node]; rfl
    have hdisk := (move_disk h.callers hok (h.current j) hm).1
    rcases move_asks (h.callers.idle j) (h.wired.1 j) hok hm t (c.servers j).life with
      hnone | ⟨hrun,ht,hn,hasks⟩
    · exact hkept (by rw [hnode]; exact hdisk) hnone
    · -- the term is new, so nobody was asked in it before
      have hnew : ballots j t (c,votes) = [] := by
        refine h.born j t ?_
        rw [ht]
        exact Nat.lt_succ_of_le (h.current j hrun)
      rw [hnew,hasks,List.nil_append] at hsub
      obtain ⟨l,hperm,hl⟩ := hsub
      refine ⟨hperm.nodup ((cfg.peers_nodup j).sublist hl),fun hlt => ?_⟩
      rw [hnode,hn] at hlt
      exact absurd hlt (lt_irrefl t)
  · refine hkept (by rw [hmoved.other j hj]) (asks_calls (fun he => hj he.symm) _ _)

/-- A step that asks for no vote and processes none. -/
theorem Polled.quiet {q q' : Cluster × List Vote} (h : Polled cfg q)
    (hwired : (∀ i, Wired cfg i (q'.1.servers i).node) ∧ ∀ rpc ∈ q'.1.net, WiredRpc cfg rpc)
    (hcallers : Callers q'.1) (hballots : ∀ j t, ballots j t q' = ballots j t q)
    (hdisk : ∀ j, (q'.1.servers j).node.diskTerm = (q.1.servers j).node.diskTerm)
    (hcurrent : ∀ j, (q'.1.raft j).running = true →
      (q'.1.servers j).node.diskTerm ≤ (q'.1.raft j).currentTerm)
    (hrunning : ∀ j, (q'.1.raft j).state = .candidate → (q'.1.raft j).running = true) :
    Polled cfg q' where
  wired := hwired
  callers := hcallers
  once := by
    intro j t
    rw [hballots]
    exact h.once j t
  born := by
    intro j t hlt
    rw [hballots]
    exact h.born j t (by rwa [← hdisk])
  current := hcurrent
  running := hrunning

theorem Polled.step {q q' : Cluster × List Vote} (h : Polled cfg q)
    (hok : q.1.electionWraps e = false) (hs : ((machine cfg).record votesAt).step q e = some q') :
    Polled cfg q' := by
  obtain ⟨c,votes⟩ := q
  obtain ⟨c',votes'⟩ := q'
  obtain ⟨ht,hv⟩ := Machine.record_step hs
  dsimp only at ht hv hok
  have hwired := (wired_invariant cfg).step h.wired ht
  have hcallers := h.callers.step ht
  have hsame : (∀ j t, asked j t c'.net = asked j t c.net) → c.votesAt e = [] →
      ∀ j t, ballots j t (c',votes') = ballots j t (c,votes) := by
    intro hnet hnone j t
    rw [ballots,ballots,hv,hnone,List.append_nil,hnet]
  rcases step_cases ht with
    ⟨i,n,net,-,hm,hmoved⟩ | ⟨k,rpc,rfl,hk,rfl⟩ | ⟨i,-,rfl,rfl⟩ | ⟨hout,hq⟩
  · have hballots := h.moved hok hm hmoved
    have hnode : c'.raft i = n.raft := by rw [raft,hmoved.node]
    rw [← hv] at hballots
    refine ⟨hwired,hcallers,fun j t => (hballots j t).1,fun j t => (hballots j t).2,?_,?_⟩
    · refine hmoved.each (P := fun _ s => s.node.raft.running = true →
        s.node.diskTerm ≤ s.node.raft.currentTerm) ?_ (fun j _ => h.current j)
      rw [hmoved.node]
      exact (move_disk h.callers hok (h.current i) hm).2
    · refine hmoved.each (P := fun _ s => s.node.raft.state = .candidate →
        s.node.raft.running = true) ?_ (fun j _ => h.running j)
      rw [hmoved.node]
      exact move_candidate (c := c) (n := n) (h.running i) hm
  · have hballots := hsame (fun j t => asked_set hk (by cases rpc <;> rfl)) rfl
    exact h.quiet hwired hcallers hballots (fun _ => rfl) h.current h.running
  · have hballots := hsame (fun _ _ => rfl) rfl
    have hdisk : ∀ j, ((c.crashed cfg i).servers j).node.diskTerm =
        (c.servers j).node.diskTerm :=
      crashed_each (P := fun j s => s.node.diskTerm = (c.servers j).node.diskTerm) rfl
        (fun _ _ => rfl)
    refine h.quiet hwired hcallers hballots hdisk ?_ ?_
    · exact crashed_each (P := fun _ s => s.node.raft.running = true →
        s.node.diskTerm ≤ s.node.raft.currentTerm) (fun hr => absurd hr Bool.false_ne_true)
        (fun j _ => h.current j)
    · exact crashed_each (P := fun _ s => s.node.raft.state = .candidate →
        s.node.raft.running = true) (fun hr => absurd hr (by
          simp [Server.boot,Node.create,SRaft.create])) (fun j _ => h.running j)
  · have hballots := hsame (fun j t => by rw [hq.net])
      (by cases e <;> first | rfl | exact absurd hout Bool.false_ne_true)
    have hraft : ∀ j, c'.raft j = c.raft j := fun j => (hq.node j).1
    have hdisk : ∀ j, (c'.servers j).node.diskTerm = (c.servers j).node.diskTerm := by
      intro j
      rw [Node.diskTerm,(hq.node j).2.1,Node.diskTerm]
    refine h.quiet hwired hcallers hballots hdisk ?_ ?_
    · intro j hr
      dsimp only at hr ⊢
      rw [hdisk,hraft]
      exact h.current j (by rw [← hraft]; exact hr)
    · intro j hr
      dsimp only at hr ⊢
      rw [hraft] at hr ⊢
      exact h.running j hr

/-- No vote of a term above that of a running node has been processed. -/
theorem Polled.unborn (h : Polled cfg (c,votes)) (hrun : (c.raft i).running = true) {t : Nat}
    (ht : (c.raft i).currentTerm < t) : votersOf i t votes = [] := by
  have hnil : ballots i t (c,votes) = [] :=
    h.born i t (lt_of_le_of_lt (h.current i hrun) ht)
  exact (List.append_eq_nil_iff.mp hnil).2

/-- A handler keeps the count of its node exactly when it does not slip. -/
theorem counted_move_iff (h : Polled cfg (c,votes)) (h' : Polled cfg (c',votes++c.votesAt e))
    (hok : c.electionWraps e = false) (hcount : VotesCounted i votes (c.raft i))
    (hm : c.Move i e n net) :
    VotesCounted i (votes++c.votesAt e) n.raft ↔ c.voteSlip e = false := by
  have hkept : c.voteSlip e = false → c.votesAt e = [] → VotesCounted i votes n.raft →
      (VotesCounted i (votes++c.votesAt e) n.raft ↔ c.voteSlip e = false) := by
    intro hslip hnone hn
    rw [hnone,List.append_nil]
    exact ⟨fun _ => hslip,fun _ => hn⟩
  cases hm with
  | run r hno => exact hkept rfl rfl (.run (h.running i) hno r)
  | timer r =>
    exact hkept rfl rfl (hcount.onTimer (of_decide_eq_false hok)
      (fun hrun => h.unborn hrun (Nat.lt_succ_self _)))
  | doLog cmd => exact hkept rfl rfl (hcount.doLog cmd)
  | putLog request _ => exact hkept rfl rfl (hcount.doLog _)
  | voteCall k r src life request response hk _ =>
    have hslip : c.voteSlip (.deliver k r) =
        decide ((c.servers i).node.carriesVotes request) := by rw [voteSlip,hk]
    have hat : c.votesAt (.deliver k r) = [] := rfl
    rw [hslip,decide_eq_false_iff_not,hat,List.append_nil]
    exact hcount.onRequestVoteRequest_iff (fun hrun hlt => h.unborn hrun hlt)
  | appendCall k r src life request isHeartbeat hk _ =>
    exact hkept (by rw [voteSlip,hk]) rfl (hcount.onAppendEntriesRequest request r)
  | voteReply k dst request response hk =>
    have hslip : c.voteSlip (.respond k) =
        decide ((c.servers i).node.miscounts request response) := by rw [voteSlip,hk]
    have hat : c.votesAt (.respond k) =
        if response.voteGranted then [⟨i,request.term,dst⟩] else [] := by rw [votesAt,hk]
    have honce := List.Nodup.of_append_right (h'.once i (c.raft i).currentTerm)
    dsimp only at honce
    rw [hat] at honce
    rw [hslip,decide_eq_false_iff_not,hat]
    exact hcount.onRequestVoteResponse_iff honce
  | appendReply k dst request isHeartbeat response hk =>
    exact hkept (by rw [voteSlip,hk]) (by rw [votesAt,hk])
      (hcount.onAppendEntriesReponse response isHeartbeat)

/-- A step keeps the counts exactly when it does not slip. -/
theorem counted_step_iff {q q' : Cluster × List Vote} (h : Polled cfg q)
    (hok : q.1.electionWraps e = false) (hcount : ∀ i, VotesCounted i q.2 (q.1.raft i))
    (hs : ((machine cfg).record votesAt).step q e = some q') :
    (∀ i, VotesCounted i q'.2 (q'.1.raft i)) ↔ q.1.voteSlip e = false := by
  have h' := h.step hok hs
  obtain ⟨c,votes⟩ := q
  obtain ⟨c',votes'⟩ := q'
  obtain ⟨ht,rfl⟩ := Machine.record_step hs
  dsimp only at ht hok hcount ⊢
  rcases step_cases ht with
    ⟨i,n,net,-,hm,hmoved⟩ | ⟨k,rpc,rfl,hk,rfl⟩ | ⟨i,-,rfl,rfl⟩ | ⟨hout,hq⟩
  · have hnode : c'.raft i = n.raft := by rw [raft,hmoved.node]
    rw [← counted_move_iff h h' hok (hcount i) hm,← hnode]
    refine ⟨fun hall => hall i,fun hi j => ?_⟩
    by_cases hj : j = i
    · rwa [hj]
    · have hvoters : ∀ t, votersOf j t (votes++c.votesAt e) = votersOf j t votes := by
        intro t
        rw [votersOf_append,votersOf_other (votesAt_candidate hm) hj,List.append_nil]
      rw [VotesCounted,hvoters,raft,hmoved.other j hj]
      exact hcount j
  · have hat : c.votesAt (.fail k) = [] := rfl
    exact ⟨fun _ => rfl,fun _ => by rw [hat,List.append_nil]; exact hcount⟩
  · have hat : c.votesAt (.crash i) = [] := rfl
    refine ⟨fun _ => rfl,fun _ => ?_⟩
    rw [hat,List.append_nil]
    exact crashed_each (P := fun j s => VotesCounted j votes s.node.raft)
      (fun hs => absurd hs (by simp [Server.boot,Node.create,SRaft.create]))
      (fun j _ => hcount j)
  · have hquiet : c.voteSlip e = false ∧ c.votesAt e = [] := by
      cases e <;> first | exact ⟨rfl,rfl⟩ | exact absurd hout Bool.false_ne_true
    refine ⟨fun _ => hquiet.1,fun _ j => ?_⟩
    have hraft : c'.raft j = c.raft j := (hq.node j).1
    rw [hquiet.2,List.append_nil,hraft]
    exact hcount j

/-- In every run without a slip each candidate has one vote more than the nodes that granted
it one for a request of its term and whose answer it has processed. -/
theorem votes_accounted
    (h : ((machine cfg).record votesAt).Path countSound (.initial cfg,[]) (c,votes))
    (i : CString) : VotesCounted i votes (c.raft i) := by
  have hinit : ∀ i, VotesCounted i [] ((Cluster.initial cfg).raft i) := by
    intro i hs
    exact absurd hs (by simp [raft,Cluster.initial,Server.boot,Node.create,SRaft.create])
  have hI := h.invariant
    (I := fun q => Polled cfg q ∧ ∀ i, VotesCounted i q.2 (q.1.raft i))
    (fun _ _ _ hi hok hs =>
      ⟨hi.1.step hok.1 hs,(counted_step_iff hi.1 hok.1 hi.2 hs).mpr hok.2⟩)
    ⟨.initial cfg,hinit⟩
  exact hI.2 i

/-- One of five has counted the vote of another. -/
theorem votes_accounted_five : ∃ (c : Cluster) (votes : List Vote),
    votes = [⟨['a'],1,['b']⟩] ∧ (c.raft ['a']).state = .candidate ∧
    (c.raft ['a']).votesRecieved = 2 ∧ VotesCounted ['a'] votes (c.raft ['a']) := by
  obtain ⟨⟨c,votes⟩,hp,hq⟩ := Machine.exec_any ((machine .five).record votesAt) countSound
    (.initial .five,[])
    [.run ['a'] (.now 0),.run ['b'] (.now 0),.timer ['a'] (.now 451),.deliver 0 (.now 451),
      .respond 0]
    (fun q => q.2 = [⟨['a'],1,['b']⟩] ∧ (q.1.raft ['a']).state = .candidate ∧
      (q.1.raft ['a']).votesRecieved = 2) (by decide +kernel)
  obtain ⟨hvotes,hs,hv⟩ := of_decide_eq_true hq
  exact ⟨c,votes,hvotes,hs,hv,votes_accounted hp ['a']⟩

/-- The first election times out, and its only vote is counted in the second. -/
theorem late_vote_counted : ∃ (c : Cluster) (votes : List Vote),
    ((machine .five).record votesAt).Path Machine.always (.initial .five,[]) (c,votes) ∧
    votes = [⟨['a'],1,['b']⟩] ∧ (c.raft ['a']).currentTerm = 2 ∧
    (c.raft ['a']).votesRecieved = 2 ∧ ¬VotesCounted ['a'] votes (c.raft ['a']) := by
  obtain ⟨⟨c,votes⟩,hp,hq⟩ := Machine.exec_any ((machine .five).record votesAt) Machine.always
    (.initial .five,[])
    [.run ['a'] (.now 0),.run ['b'] (.now 0),.timer ['a'] (.now 451),.deliver 0 (.now 451),
      .timer ['a'] (.now 952),.timer ['a'] (.now 1403),.respond 0]
    (fun q => q.2 = [⟨['a'],1,['b']⟩] ∧ (q.1.raft ['a']).currentTerm = 2 ∧
      (q.1.raft ['a']).votesRecieved = 2 ∧ (q.1.raft ['a']).state = .candidate)
    (by decide +kernel)
  obtain ⟨hvotes,ht,hv,hs⟩ := of_decide_eq_true hq
  have hvotes : votes = [⟨['a'],1,['b']⟩] := hvotes
  refine ⟨c,votes,hp,hvotes,ht,hv,fun h => ?_⟩
  have hcount := h hs
  rw [hv,ht,hvotes] at hcount
  exact absurd hcount (by decide)

end Cluster
end SRaftMuduo
