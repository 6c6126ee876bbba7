import SRaftMuduo.Cluster.Tally

namespace SRaftMuduo

open Replication

namespace Cluster

/-- The step takes a branch after which two nodes can lead in one term: an election in term
zero again, a leader that goes to a new term, a vote counted for another election than the
one it was given for, or a win with half of the nodes. -/
def electionSlip (cfg : Config) (c : Cluster) : Event → Bool
  | .timer i r => (c.servers i).node.termWraps r
  | .deliver k _ =>
    match c.net[k]? with
    | some (.voteCall _ dst _ request) => (c.servers dst).node.raisesAsLeader request
    | _ => false
  | .respond k =>
    match c.net[k]? with
    | some (.voteReply src _ _ request response) =>
      (c.servers src).node.countsLate request response ||
        (c.servers src).node.winsByHalf cfg.names.length response
    | _ => false
  | _ => false

def electionSound (cfg : Config) (c : Cluster) (e : Event) : Prop := c.electionSlip cfg e = false

instance (cfg : Config) (c : Cluster) (e : Event) : Decidable (c.electionSound cfg e) :=
  inferInstanceAs (Decidable (_ = _))

/-- The cluster carries out the steps of the replication of logs, as far as votes go. -/
structure Electing (cfg : Config) (c : Cluster) (g : History) : Prop where
  wired : (∀ i, Wired cfg i (c.servers i).node) ∧ ∀ rpc ∈ c.net, WiredRpc cfg rpc
  callers : Callers c
  node : ∀ i, NodeVotes g i (c.servers i).node
  rpc : ∀ rpc ∈ c.net, VoteRpc g rpc
  tally : ∀ i, Tally cfg g i (c.servers i).node c.net
  elections : Elections cfg.quorums g

variable {cfg : Config} {c c' : Cluster} {g : History} {e : Event}

theorem Electing.initial (cfg : Config) : Electing cfg (.initial cfg) Core.initial where
  wired := (wired_invariant cfg).toLocalClosed.initial
  callers := .initial cfg
  node := fun _ => ⟨rfl,rfl,rfl,fun _ => ⟨rfl,rfl⟩⟩
  rpc := fun rpc h => absurd h (by simp [Cluster.initial])
  tally := fun _ => Tally.of_not (by simp [Cluster.initial,Server.boot,Node.create,SRaft.create])
  elections := .initial

section Labels

theorem labels_putLog {i : CString} {request : PutAppendRequest}
    (hp : (c.servers i).pending = some request) :
    c.labels (.putLog i) = (c.servers i).node.logLabels i request.command := by
  rw [labels,hp]
  rfl

theorem labels_voteCall {k : Nat} {src dst : CString} {life : Nat}
    {request : RequestVoteRequest} (hk : c.net[k]? = some (.voteCall src dst life request))
    (r : Readings) :
    c.labels (.deliver k r) = (c.servers dst).node.voteRequestLabels dst src request := by
  rw [labels,hk]
  rfl

theorem labels_appendCall {k : Nat} {src dst : CString} {life : Nat}
    {request : AppendEntriesRequest} {isHeartbeat : Bool}
    (hk : c.net[k]? = some (.appendCall src dst life request isHeartbeat)) (r : Readings) :
    c.labels (.deliver k r) = (c.servers dst).node.appendRequestLabels dst request := by
  rw [labels,hk]
  rfl

theorem labels_voteReply {k : Nat} {src dst : CString} {life : Nat}
    {request : RequestVoteRequest} {response : RequestVoteResponse}
    (hk : c.net[k]? = some (.voteReply src dst life request response)) :
    c.labels (.respond k) = (c.servers src).node.voteResponseLabels src response := by
  rw [labels,hk]
  rfl

theorem labels_appendReply {k : Nat} {src dst : CString} {life : Nat}
    {request : AppendEntriesRequest} {isHeartbeat : Bool} {response : AppendEntriesResponse}
    (hk : c.net[k]? = some (.appendReply src dst life request isHeartbeat response)) :
    c.labels (.respond k) = (c.servers src).node.appendResponseLabels src response := by
  rw [labels,hk]
  rfl

theorem labels_outside (h : e.outside = true) : c.labels e = [] := by
  cases e <;> first | rfl | exact absurd h Bool.false_ne_true

end Labels

/-- What a handler at `i` makes of its node and of the calls in flight. -/
structure VotesMoved (cfg : Config) (g : History) (ls : List HistoryLabel) (i : CString)
    (n : Node) (net calls : List Rpc) : Prop where
  allowed : Allowed (Votes cfg.quorums) g ls
  node : NodeVotes (g.applyAll ls) i n
  rpc : ∀ rpc ∈ net, VoteRpc (g.applyAll ls) rpc
  sent : ∀ rpc ∈ calls, VoteRpc (g.applyAll ls) rpc
  tally : Tally cfg (g.applyAll ls) i n (net++calls)

theorem VotesMoved.of_appends {ls : List HistoryLabel} {i : CString} {n : Node}
    {net : List Rpc} (h : Allowed (Votes cfg.quorums) g ls ∧ NodeVotes (g.applyAll ls) i n)
    (hrpc : ∀ rpc ∈ net, VoteRpc (g.applyAll ls) rpc)
    (htally : Tally cfg (g.applyAll ls) i n net) (hc : ∀ call ∈ n.calls, call.appends)
    (life : Nat) : VotesMoved cfg g ls i n net (n.calls.map (Call.rpc i life)) :=
  ⟨h.1,h.2,hrpc,voteRpc_appends hc life,htally.calls hc life⟩

theorem Electing.timer (hc : cfg.Symmetric) (h : Electing cfg c g) {i : CString}
    (hin : i ∈ cfg.names) {r : Readings} (hok : ¬(c.servers i).node.termWraps r) :
    VotesMoved cfg g ((c.servers i).node.timerLabels i r) i ((c.servers i).node.onTimer r) c.net
      (((c.servers i).node.onTimer r).calls.map (Call.rpc i (c.servers i).life)) := by
  have hw := h.wired.1 i
  have hn := h.node i
  have hidle := h.callers.idle i
  have htally := h.tally i
  generalize (c.servers i).node = n at *
  have hall := hn.onTimer hc hin hw (h.elections.disk_le i) hok
  obtain ⟨-,hgrow⟩ := h.elections.path hall.1.path
  have hrpc : ∀ rpc ∈ c.net, VoteRpc (g.applyAll (n.timerLabels i r)) rpc :=
    fun rpc hm => (h.rpc rpc hm).mono hgrow
  rcases Node.timerLabels_cases i r n with
    ⟨hl,he⟩ | ⟨hrun,hdue,he,hor⟩ | ⟨hrun,hl,due,he⟩
  · have hsame : Tally cfg (g.applyAll (n.timerLabels i r)) i (n.onTimer r) c.net ∧
        ∀ call ∈ (n.onTimer r).calls, call.appends := by
      rw [hl]
      rcases he with he | ⟨hrun,due,he⟩ <;> rw [he]
      · exact ⟨htally,by simp [hidle]⟩
      · obtain ⟨ci,la,hr⟩ := Node.doAppendEntries_raft true
          {n with raft := {n.raft with dueHeartBeat := due}}
        exact ⟨htally.keep (by rw [hr]) (by rw [hr]) (by rw [hr]) (fun _ _ hv => hv) rfl
          (List.Sublist.refl _),Node.doAppendEntries_appends (by exact hidle) true⟩
    exact .of_appends hall hrpc hsame.1 hsame.2 _
  · have hterm : n.raft.currentTerm+1 < 2^64 := by
      by_contra hge
      exact hok ⟨hrun,hdue,by omega⟩
    have hcur := hn.cur_eq hrun
    have hnone : asked i (n.raft.currentTerm+1) c.net = [] :=
      asked_unborn h.rpc (h.elections.vote_none (by omega))
    have hself : (g.applyAll (n.timerLabels i r)).vote i (n.raft.currentTerm+1) = some i := by
      rcases hor with ⟨hl,-⟩ | ⟨hl,-⟩ | ⟨hl,-⟩ <;> rw [hl]
      all_goals simp [Core.applyAll,Core.apply,hcur]
    obtain ⟨hnew,hcalls⟩ := Tally.doElection hc hin hw hidle (r := r) hterm hnone hself
      (c.servers i).life
    rw [he] at hall ⊢
    rcases Node.timerFail_cases r (n.doElection r) with he' | ⟨-,due,he'⟩ <;> rw [he'] at hall ⊢
    · exact ⟨hall.1,hall.2,hrpc,hcalls,hnew⟩
    · exact ⟨hall.1,hall.2,hrpc,hcalls,Tally.of_not (by simp)⟩
  · refine .of_appends hall hrpc (Tally.of_not ?_) ?_ _
    · rw [he]
      simp
    · rw [he]
      simp [hidle]

/-- A handler that starts no call. -/
theorem Electing.quiet (h : Electing cfg c g) (i : CString) {n : Node}
    (hn : n.calls = (c.servers i).node.calls) : ∀ call ∈ n.calls, call.appends := by
  intro call hmem
  rw [hn,h.callers.idle i] at hmem
  exact absurd hmem List.not_mem_nil

theorem Electing.voteRpc (h : Electing cfg c g) {ls : List HistoryLabel}
    (hall : Allowed (Votes cfg.quorums) g ls) : ∀ rpc ∈ c.net, VoteRpc (g.applyAll ls) rpc :=
  fun rpc hmem => (h.rpc rpc hmem).mono (h.elections.path hall.path).2

theorem Electing.voteCall (hc : cfg.Symmetric) (h : Electing cfg c g) {k life : Nat}
    {r : Readings} {src i : CString} {request : RequestVoteRequest}
    {response : RequestVoteResponse} (hok : c.electionSound cfg (.deliver k r))
    (hk : c.net[k]? = some (.voteCall src i life request))
    (hresponse : response = ((c.servers i).node.onRequestVoteRequest request).2 ∨
      response = RequestVoteResponse.empty) :
    VotesMoved cfg g ((c.servers i).node.voteRequestLabels i src request) i
      ((c.servers i).node.onRequestVoteRequest request).1
      (c.net.set k (.voteReply src i life request response))
      (((c.servers i).node.onRequestVoteRequest request).1.calls.map
        (Call.rpc i (c.servers i).life)) := by
  have hraises : ¬(c.servers i).node.raisesAsLeader request := by
    rw [electionSound,electionSlip,hk] at hok
    exact of_decide_eq_false hok
  have hn := h.node i
  have hmem := List.mem_of_getElem? hk
  have hsrc : i ≠ src := (h.wired.2 _ hmem).symmetric hc |>.2.1
  have hall := hn.onRequestVoteRequest cfg src hraises
  refine .of_appends hall ?_ ((h.tally i).onRequestVoteRequest hn h.elections hsrc.symm request ?_)
    (h.quiet i ?_) _
  · intro rpc hrpcs
    rcases List.mem_or_eq_of_mem_set hrpcs with hrpcs | rfl
    · exact h.voteRpc hall.1 rpc hrpcs
    · refine ⟨h.voteRpc hall.1 _ hmem,fun hgranted => ?_⟩
      -- only the answer of the third branch grants the vote
      have hanswer : ((c.servers i).node.onRequestVoteRequest request).2.voteGranted =
          true := by
        rcases hresponse with rfl | rfl
        · exact hgranted
        · exact absurd hgranted Bool.false_ne_true
      rcases Node.voteRequestLabels_cases i src request (c.servers i).node with
        ⟨-,-,hg⟩ | ⟨-,-,-,-,he⟩ | ⟨-,-,-,-,hl,-⟩
      · exact absurd (hg.symm.trans hanswer) Bool.false_ne_true
      · rw [he] at hanswer
        exact absurd hanswer Bool.false_ne_true
      · rw [hl]
        exact update₂_self _ _ _ _
  · exact fun t => asked_set hk rfl
  · exact Node.onRequestVoteRequest_calls request _

theorem Electing.voteReply (hc : cfg.Symmetric) (h : Electing cfg c g) {k : Nat}
    {i dst : CString} {request : RequestVoteRequest} {response : RequestVoteResponse}
    (hin : i ∈ cfg.names) (hok : c.electionSound cfg (.respond k))
    (hk : c.net[k]? = some (.voteReply i dst (c.servers i).life request response)) :
    VotesMoved cfg g ((c.servers i).node.voteResponseLabels i response) i
      ((c.servers i).node.onRequestVoteResponse response) (c.net.eraseIdx k)
      (((c.servers i).node.onRequestVoteResponse response).calls.map
        (Call.rpc i (c.servers i).life)) := by
  rw [electionSound,electionSlip,hk] at hok
  obtain ⟨hlate,hhalf⟩ := Bool.or_eq_false_iff.mp hok
  have hn := h.node i
  have htally := h.tally i
  have hmem := List.mem_of_getElem? hk
  have hdst : dst ∈ cfg.names := (h.wired.2 _ hmem).symmetric hc |>.1
  have hrun : (c.raft i).running = true := (h.callers.life _ hmem).2 rfl
  have hcur := hn.cur_eq hrun
  have hvote := h.rpc _ hmem
  have hall := hn.onRequestVoteResponse cfg hrun (h.elections.disk_le i) response (by
    intro hwin
    rw [hcur]
    exact htally.quorum hc hin (h.wired.1 i) hk hvote (of_decide_eq_false hlate)
      (of_decide_eq_false hhalf) hdst hwin)
  exact .of_appends hall (fun rpc hx => h.voteRpc hall.1 rpc (List.mem_of_mem_eraseIdx hx))
    (htally.onRequestVoteResponse hk hvote (of_decide_eq_false hlate) hdst)
    (h.quiet i (Node.onRequestVoteResponse_calls response _)) _

/-- One handler, on a step without a slip. -/
theorem Electing.move (hc : cfg.Symmetric) (h : Electing cfg c g) {i : CString} {n : Node}
    {net : List Rpc} (hlive : c.live cfg i) (hok : c.electionSound cfg e)
    (hm : c.Move i e n net) : VotesMoved cfg g (c.labels e) i n net
      (n.calls.map (Call.rpc i (c.servers i).life)) := by
  have hn := h.node i
  have hidle := h.callers.idle i
  have htally := h.tally i
  have hle := h.elections.disk_le i
  cases hm with
  | run r hrun =>
    have hnew := hn.run hrun r
    have hlabels : c.labels (.run i r) = [] := rfl
    rw [hlabels]
    refine .of_appends ⟨show Allowed _ g [] from trivial,hnew⟩ h.rpc (Tally.of_not ?_)
      (h.quiet i ?_) _
    · have hrole := hnew.role
      rw [hn.role,(hn.fresh hrun).1] at hrole
      intro hs
      rw [hs] at hrole
      exact absurd hrole (by decide)
    · exact Node.run_calls r _
  | timer r =>
    exact h.timer hc hlive.1 (of_decide_eq_false hok)
  | doLog cmd =>
    have hall := hn.doLog cfg cmd
    exact .of_appends hall (h.voteRpc hall.1) (htally.doLog cmd) (Node.doLog_appends hidle cmd) _
  | putLog request hp =>
    have hall := hn.doLog cfg request.command
    rw [labels_putLog hp]
    exact .of_appends hall (h.voteRpc hall.1) (htally.doLog _) (Node.doLog_appends hidle _) _
  | voteCall k r src life request response hk hresponse =>
    rw [labels_voteCall hk]
    exact h.voteCall hc hok hk hresponse
  | appendCall k r src life request isHeartbeat hk hp =>
    have hall := hn.onAppendEntriesRequest cfg hle request r
    rw [labels_appendCall hk]
    refine .of_appends hall ?_ (htally.onAppendEntriesRequest request r ?_) (h.quiet i ?_) _
    · intro rpc hrpcs
      rcases List.mem_or_eq_of_mem_set hrpcs with hrpcs | rfl
      · exact h.voteRpc hall.1 rpc hrpcs
      · trivial
    · exact fun t => asked_set hk rfl
    · exact Node.onAppendEntriesRequest_calls request r _
  | voteReply k dst request response hk =>
    rw [labels_voteReply hk]
    exact h.voteReply hc hlive.1 hok hk
  | appendReply k dst request isHeartbeat response hk =>
    have hall := hn.onAppendEntriesReponse cfg hle response isHeartbeat
    rw [labels_appendReply hk]
    exact .of_appends hall (fun rpc hx => h.voteRpc hall.1 rpc (List.mem_of_mem_eraseIdx hx))
      (htally.onAppendEntriesReponse response isHeartbeat k)
      (h.quiet i (Node.onAppendEntriesReponse_calls response isHeartbeat _)) _

/-- A step without a slip is answered by steps that keep elections sound. -/
theorem Electing.step (hc : cfg.Symmetric) (h : Electing cfg c g)
    (hok : c.electionSound cfg e) (hs : (machine cfg).step c e = some c') :
    Allowed (Votes cfg.quorums) g (c.labels e) ∧
      Electing cfg c' (g.applyAll (c.labels e)) := by
  have hwired := (wired_invariant cfg).step h.wired hs
  have hcallers := h.callers.step hs
  rcases step_cases hs with
    ⟨i,n,net,hlive,hm,hmoved⟩ | ⟨k,rpc,rfl,hk,rfl⟩ | ⟨i,hi,rfl,rfl⟩ | ⟨hout,hq⟩
  · obtain ⟨hall,hnode,hnet,hsent,htally⟩ := h.move hc hlive hok hm
    obtain ⟨helections,hgrow⟩ := h.elections.path hall.path
    have hother := fun j hj => g.applyAll_other (move_labels hm) (u := j) hj
    refine ⟨hall,hwired,hcallers,?_,?_,?_,helections⟩
    · refine hmoved.each (P := fun j s => NodeVotes _ j s.node) ?_ (fun j hj => ?_)
      · rw [hmoved.node]
        exact hnode.same rfl rfl rfl rfl
      · obtain ⟨hrole,hcur,hdisk,-⟩ := hother j hj
        have hold := h.node j
        exact ⟨hrole.trans hold.role,hcur.trans hold.cur,hdisk.trans hold.disk,hold.fresh⟩
    · exact hmoved.each_rpc hnet (fun call hcall => hsent _ (List.mem_map_of_mem hcall))
    · intro j
      rw [hmoved.net]
      by_cases hj : j = i
      · subst hj
        rw [hmoved.node]
        exact htally
      · obtain ⟨-,-,-,-,hvote⟩ := hother j hj
        rw [hmoved.other j hj]
        refine (h.tally j).keep rfl rfl rfl (fun v x hv => hgrow.vote v _ x hv) (by rw [hvote]) ?_
        rw [asked_append,asks_calls (Ne.symm hj),List.append_nil]
        exact move_asked hm j _
  · refine ⟨trivial,hwired,hcallers,h.node,failed_each hk h.rpc VoteRpc.fail,?_,h.elections⟩
    · intro j
      refine (h.tally j).keep rfl rfl rfl (fun _ _ hv => hv) rfl ?_
      rw [failed,asked_set hk (by cases rpc <;> rfl)]
  · have hall : Allowed (Votes cfg.quorums) g [.restart i] := ⟨trivial,trivial⟩
    have hlabels : c.labels (.crash i) = [.restart i] := rfl
    have hone : g.applyAll [.restart i] = g.apply (.restart i) := rfl
    have helections := (h.elections.path hall.path).1
    rw [hlabels,hone]
    refine ⟨hall,hwired,hcallers,?_,h.rpc,?_,helections⟩
    · refine crashed_each (P := fun j s => NodeVotes _ j s.node)
        ((h.node i).crash cfg ((c.servers i).life+1)) (fun j hj => ?_)
      obtain ⟨hrole,hcur,hdisk,-⟩ := g.apply_other (.restart i) (u := j) hj
      have hold := h.node j
      exact ⟨hrole.trans hold.role,hcur.trans hold.cur,hdisk.trans hold.disk,hold.fresh⟩
    · refine crashed_each (P := fun j s => Tally cfg _ j s.node c.net) ?_ (fun j _ => ?_)
      · exact Tally.of_not (by simp [Server.boot,Node.create,SRaft.create])
      · exact (h.tally j).keep rfl rfl rfl (fun _ _ hv => hv) rfl (List.Sublist.refl _)
  · rw [labels_outside hout]
    refine ⟨trivial,hwired,hcallers,?_,?_,?_,h.elections⟩
    · intro j
      obtain ⟨hr,hp,-⟩ := hq.node j
      exact (h.node j).same (by rw [hr]) (by rw [hr]) (by rw [hr]) hp
    · rw [hq.net]
      exact h.rpc
    · intro j
      obtain ⟨hr,-⟩ := hq.node j
      rw [hq.net]
      exact (h.tally j).keep (by rw [hr]) (by rw [hr]) (by rw [hr]) (fun _ _ hv => hv) rfl
        (List.Sublist.refl _)

theorem Electing.simulates (hc : cfg.Symmetric) (h : Electing cfg c g)
    (hp : (machine cfg).Path (electionSound cfg) c c') :
    ∃ g', (replication CString LogEntry).Path (Votes cfg.quorums) g g' ∧
      Electing cfg c' g' := by
  refine hp.simulates (R := Electing cfg) ?_ h
  intro s a e t hsim hok hs
  obtain ⟨hall,hnext⟩ := hsim.step hc hok hs
  exact ⟨_,hall.path,hnext⟩

/-- Two leaders of one term, at any two moments of a run, are one node. -/
theorem one_leader_per_term (hc : cfg.Symmetric) {s t : Cluster} {i j : CString}
    (hs : (machine cfg).Path (electionSound cfg) (.initial cfg) s)
    (ht : (machine cfg).Path (electionSound cfg) s t) (hi : (s.raft i).state = .leader)
    (hj : (t.raft j).state = .leader) (hterm : (s.raft i).currentTerm = (t.raft j).currentTerm) :
    i = j := by
  obtain ⟨g,-,hg⟩ := (Electing.initial cfg).simulates hc hs
  obtain ⟨g',hpath,hg'⟩ := hg.simulates hc ht
  have hni := hg.node i
  have hnj := hg'.node j
  have hirun := hni.running (by rw [show (s.servers i).node.raft.state = _ from hi]; decide)
  have hjrun := hnj.running (by rw [show (t.servers j).node.raft.state = _ from hj]; decide)
  refine leader_unique hg.elections hpath ?_ ?_ ?_
  · rw [hni.role,show (s.servers i).node.raft.state = _ from hi]
    rfl
  · rw [hnj.role,show (t.servers j).node.raft.state = _ from hj]
    rfl
  · rw [hni.cur_eq hirun,hnj.cur_eq hjrun]
    exact hterm

/-- `a` is elected with the vote of `b` and still leads in its term after a `DoLog`. -/
theorem one_leader_per_term_two : ∃ (s t : Cluster) (i j : CString),
    (s.raft i).state = .leader ∧ (t.raft j).state = .leader ∧ (t.raft j).logs ≠ [] ∧
    (s.raft i).currentTerm = (t.raft j).currentTerm ∧ i = j := by
  obtain ⟨s,hs,hc⟩ := Machine.exec_any (machine .two) (electionSound .two) (.initial .two)
    [.run ['a'] (.now 0),.run ['b'] (.now 0),.timer ['a'] (.now 451),.deliver 0 (.now 451),
      .respond 0]
    (fun s => (s.raft ['a']).state = .leader &&
      ((machine .two).step s (.doLog ['a'] ['x'])).any (fun t =>
        (t.raft ['a']).state = .leader && (t.raft ['a']).logs ≠ [] &&
          (s.raft ['a']).currentTerm = (t.raft ['a']).currentTerm)) (by decide +kernel)
  simp only [Bool.and_eq_true,Option.any_eq_true,decide_eq_true_eq] at hc
  obtain ⟨hi,t,hstep,⟨hj,hlogs⟩,hterm⟩ := hc
  have hok : s.electionSound .two (.doLog ['a'] ['x']) := rfl
  have ht : (machine .two).Path (electionSound .two) s t := (Machine.Path.refl s).tail hok hstep
  exact ⟨s,t,_,_,hi,hj,hlogs,hterm,
    one_leader_per_term Config.two_symmetric hs ht hi hj hterm⟩

/-- `a` asks for votes in term one, `b` grants it and then asks in term two. `a` grants that,
stays a candidate in term two, and counts the late vote of `b`: both lead in term two. -/
theorem two_leaders_one_term : ∃ c : Cluster,
    (machine .two).Path Machine.always (.initial .two) c ∧
    (c.raft ['a']).state = .leader ∧ (c.raft ['b']).state = .leader ∧
    (c.raft ['a']).currentTerm = (c.raft ['b']).currentTerm := by
  obtain ⟨c,hp,hc⟩ := Machine.exec_any (machine .two) Machine.always (.initial .two)
    [.run ['a'] (.now 0),.run ['b'] (.now 0),.timer ['a'] (.now 451),.deliver 0 (.now 451),
      .timer ['b'] (.now 451),.deliver 1 (.now 451),.respond 1,.respond 0]
    (fun c => (c.raft ['a']).state = .leader ∧ (c.raft ['b']).state = .leader ∧
      (c.raft ['a']).currentTerm = (c.raft ['b']).currentTerm) (by decide +kernel)
  exact ⟨c,hp,of_decide_eq_true hc⟩

end Cluster
end SRaftMuduo
