import SRaftMuduo.Cluster.Commitment

namespace SRaftMuduo

open Replication

/-- Entries that were sent with the one they follow end in one of the sender's term. -/
theorem Carried.firm {g : History} {src : CString} {request : AppendEntriesRequest}
    {base : List LogEntry} (h : Carried g src request base) (hne : request.entries ≠ []) :
    Firm LogEntry.term g.canon request.term (base++request.entries).length ∧
      (g.canon request.term).take (base++request.entries).length = base++request.entries := by
  have hpos : 0 < request.entries.length := List.length_pos_iff.mpr hne
  obtain ⟨e,he⟩ : ∃ e, request.entries.getLast? = some e :=
    ⟨_,List.getLast?_eq_some_getLast hne⟩
  refine ⟨⟨by rw [List.length_append]; omega,e,?_,h.last e he⟩,
    (List.prefix_iff_eq_take.mp h.canon).symm⟩
  obtain ⟨rest,hr⟩ := h.canon
  rw [← hr,List.getElem?_append_left (by rw [List.length_append]; omega),
    ← List.getLast?_eq_getElem?,List.getLast?_append,he]
  rfl

/-- An election asks for votes with the log that its first step records. -/
theorem NodeLog.onTimer_elect {g : History} {i : CString} {n : Node} (h : NodeLog g i n)
    (hv : NodeVotes g i n) (hnum : ContiguousFrom 0 (g.log i)) (hidle : n.calls = [])
    {r : Readings} (hok : ¬n.termWraps r) (life : Nat) : ∀ call ∈ (n.onTimer r).calls,
      ElectRpc (g.applyAll (n.timerLabels i r)) (call.rpc i life) := by
  intro call hcall
  rcases Node.timerLabels_cases i r n with
    ⟨-,he⟩ | ⟨hrun,hdue,he,hl⟩ | ⟨-,-,due,he⟩
  · have hcalls : call.appends := by
      rcases he with he | ⟨hrun,due,he⟩ <;> rw [he] at hcall
      · exact absurd (hidle ▸ hcall) List.not_mem_nil
      · exact Node.doAppendEntries_appends
          (n := {n with raft := {n.raft with dueHeartBeat := due}}) hidle true call hcall
    cases call with
    | requestVote => exact absurd hcalls id
    | appendEntries => trivial
  · have hterm : n.raft.currentTerm+1 < 2^64 := by
      by_contra hge
      exact hok ⟨hrun,hdue,by omega⟩
    have hmem := h.memory hrun
    have hcur := hv.cur_eq hrun
    have helect : (g.applyAll (n.timerLabels i r)).elect i (n.raft.currentTerm+1) =
        n.raft.logs := by
      rcases hl with ⟨hl,-⟩ | ⟨hl,-⟩ | ⟨hl,-⟩ <;> rw [hl]
      all_goals simp [Core.applyAll,Core.apply,hcur,hmem]
    have hcalls : (n.onTimer r).calls = (n.doElection r).calls := by
      rw [he]
      rcases Node.timerFail_cases r (n.doElection r) with he' | ⟨-,due,he'⟩ <;> rw [he']
    rw [hcalls,Node.doElection_calls,hidle,List.nil_append] at hcall
    obtain ⟨name,peer,-,rfl⟩ := Node.callPeers_mem hcall
    have hlogs : (n.doElection r).raft.logs = n.raft.logs := by simp
    have hreq : (n.doElection r).raft.voteRequest.term = n.raft.currentTerm+1 ∧
        (n.doElection r).raft.voteRequest.lastLogIndex = (n.raft.logs.length : Int)-1 ∧
        ∀ e, n.raft.logs.getLast? = some e →
          (n.doElection r).raft.voteRequest.lastLogTerm = e.term := by
      refine ⟨?_,by rw [← hlogs]; rfl,?_⟩
      · rw [Node.doElection_raft]
        exact u64_of_lt hterm
      · intro e hlast
        rw [← hlogs] at hlast
        rw [SRaft.voteRequest,hlast]
    generalize (n.doElection r).raft.voteRequest = request at hreq
    obtain ⟨ht,hindex,hlast⟩ := hreq
    rw [← hmem] at hnum
    refine ⟨?_,?_,?_⟩
    · rw [ht,helect]
      exact hindex
    · rw [hindex]
      by_cases hn : n.raft.logs = []
      · simp [hn]
      · have := hnum.length_le hn
        omega
    · rw [ht,helect]
      exact hlast
  · rw [he] at hcall
    exact absurd (hidle ▸ hcall) List.not_mem_nil

namespace Cluster

/-- The step takes a branch after which an entry can be committed that not every later
leader has. -/
def commitSlip (cfg : Config) (c : Cluster) : Event → Bool
  | .deliver k _ =>
    match c.net[k]? with
    | some (.voteCall _ dst _ request) => (c.servers dst).node.grantsEmpty request
    | some (.appendCall _ dst _ request _) =>
      (c.servers dst).node.takesAhead request || (c.servers dst).node.takesBack request
    | _ => false
  | .respond k =>
    match c.net[k]? with
    | some (.voteReply src _ _ _ response) =>
      (c.servers src).node.winsStale cfg.names.length response
    | some (.appendReply src _ _ request isHeartbeat response) =>
      (c.servers src).node.countsLateAck request response isHeartbeat ||
        (c.servers src).node.commitsByHalf cfg.names.length response isHeartbeat
    | _ => false
  | _ => false

def commitSound (cfg : Config) (c : Cluster) (e : Event) : Prop :=
  c.copySound cfg e ∧ c.commitSlip cfg e = false

instance (cfg : Config) (c : Cluster) (e : Event) : Decidable (c.commitSound cfg e) :=
  inferInstanceAs (Decidable (_ ∧ _))

theorem commitSound_appendCall {cfg : Config} {c : Cluster} {k : Nat} {r : Readings}
    {src dst : CString} {life : Nat} {request : AppendEntriesRequest} {isHeartbeat : Bool}
    (hok : c.commitSound cfg (.deliver k r))
    (hk : c.net[k]? = some (.appendCall src dst life request isHeartbeat)) :
    ¬(c.servers dst).node.takesUnfounded request ∧ ¬(c.servers dst).node.takesAhead request ∧
      ¬(c.servers dst).node.takesBack request := by
  obtain ⟨⟨-,hcopy⟩,hslip⟩ := hok
  rw [commitSlip,hk] at hslip
  rw [copySlip,hk] at hcopy
  obtain ⟨hahead,hback⟩ := Bool.or_eq_false_iff.mp hslip
  obtain ⟨hbase,-⟩ := Bool.or_eq_false_iff.mp hcopy
  exact ⟨of_decide_eq_false hbase,of_decide_eq_false hahead,of_decide_eq_false hback⟩

/-- The cluster carries out the steps of the replication of logs, and what it has committed
is committed there. -/
structure Committing (cfg : Config) (c : Cluster) (g : History) : Prop where
  copying : Copying cfg c g
  pipe : PipeInv cfg c
  acks : Acks LogEntry.term g
  owned : Owned LogEntry.term g
  rpc : ∀ rpc ∈ c.net, ElectRpc g rpc ∧ AckedRpc g rpc
  matched : ∀ i, Matches cfg g (c.servers i).node
  applied : ∀ i, ∀ p ∈ (c.servers i).node.applied, Decided cfg g p
  commits : ∀ m ∈ c.commits, g.won m.term = some m.server ∧ ∃ k : Nat, m.index = (k : Int)-1 ∧
    Committed cfg.quorums LogEntry.term g m.term k

variable {cfg : Config} {c c' : Cluster} {g : History} {e : Event} {i : CString} {n : Node}
  {net : List Rpc}

theorem Committing.initial (cfg : Config) : Committing cfg (.initial cfg) Core.initial where
  copying := .initial cfg
  pipe := .initial cfg
  acks := .initial
  owned := .initial _
  rpc := fun rpc h => absurd h (by simp [Cluster.initial])
  matched := fun _ =>
    Matches.of_not (by simp [Cluster.initial,Server.boot,Node.create,SRaft.create])
  applied := fun i p h => absurd h (by simp [Cluster.initial,Server.boot,Node.create])
  commits := fun m h => absurd h (by simp [Cluster.initial])

theorem Committing.sound (h : Committing cfg c g) : Sound cfg.quorums LogEntry.term g :=
  ⟨h.copying.electing.elections,h.copying.logs,h.acks⟩

/-- The log of a running leader is that of its term. -/
theorem Committing.leader (h : Committing cfg c g) (hs : (c.raft i).state = .leader) :
    (c.raft i).running = true ∧ g.cur i = (c.raft i).currentTerm ∧
      g.won (c.raft i).currentTerm = some i ∧
      (c.raft i).logs = g.canon (c.raft i).currentTerm := by
  have hv := h.copying.electing.node i
  have hs' : (c.servers i).node.raft.state = .leader := hs
  have hrun : (c.servers i).node.raft.running = true := hv.running (by rw [hs']; decide)
  have hrole : g.role i = .leader := by rw [hv.role,hs']; rfl
  have hcur : g.cur i = (c.raft i).currentTerm := hv.cur_eq hrun
  have hmem : (c.raft i).logs = g.log i := (h.copying.node i).memory hrun
  exact ⟨hrun,hcur,hcur ▸ h.copying.electing.elections.leader i hrole,
    by rw [hmem,h.copying.logs.leader i hrole,hcur]⟩

theorem Committing.grant (h : Committing cfg c g) {src : CString} {life k : Nat}
    {request : RequestVoteRequest} (hk : c.net[k]? = some (.voteCall src i life request))
    (hempty : ¬(c.servers i).node.grantsEmpty request)
    (hall : Allowed (Writes cfg.quorums LogEntry.term) g
      ((c.servers i).node.voteRequestLabels i src request)) :
    Allowed (Acknowledges cfg.quorums LogEntry.term) g
      ((c.servers i).node.voteRequestLabels i src request) := by
  have hmem := List.mem_of_getElem? hk
  have hself : g.vote src request.term = some src := h.copying.electing.rpc _ hmem
  obtain ⟨hindex,hlt,hterm⟩ := (h.rpc _ hmem).1
  have hw := h.copying.electing.wired.1 i
  have hlog := h.copying.node i
  have hnum := h.copying.numbered.log i
  generalize (c.servers i).node = n at *
  rcases Node.voteRequestLabels_cases i src request n with
    ⟨hl,-⟩ | ⟨-,-,-,hl,-⟩ | ⟨hrun,hcur,hi,ht,hl,-⟩ <;> rw [hl] at hall ⊢
  · exact trivial
  · exact hall.acknowledges LogEntry.term (by simp [Label.answers])
  · refine hall.upgrade ⟨fun hwrites => ⟨hwrites,hself,?_⟩,trivial⟩
    rw [← hlog.memory hrun] at hnum ⊢
    exact upToDate_of_grant hw hnum hindex hlt hterm hi ht
      (fun hn hnone => hempty ⟨hrun,hcur,hn,hnone⟩)

/-- Entries that a node takes over, and what its answer says of them. -/
theorem Committing.accept (h : Committing cfg c g) {src : CString} {life k : Nat}
    {request : AppendEntriesRequest} {isHeartbeat : Bool}
    (hk : c.net[k]? = some (.appendCall src i life request isHeartbeat))
    (hbase : ¬(c.servers i).node.takesUnfounded request)
    (hahead : ¬(c.servers i).node.takesAhead request)
    (hback : ¬(c.servers i).node.takesBack request) (r : Readings)
    (hall : Allowed (Writes cfg.quorums LogEntry.term) g
      ((c.servers i).node.appendRequestLabels i request)) :
    Allowed (Acknowledges cfg.quorums LogEntry.term) g
        ((c.servers i).node.appendRequestLabels i request) ∧
      AckedRpc (g.applyAll ((c.servers i).node.appendRequestLabels i request))
        (.appendReply src i life request isHeartbeat
          ((c.servers i).node.onAppendEntriesRequest request r).2) := by
  have hcarried : request.entries ≠ [] → ∃ base, Carried g src request base :=
    h.copying.rpc _ (List.mem_of_getElem? hk)
  have hv := h.copying.electing.node i
  have hlog := h.copying.node i
  have hw := h.copying.electing.wired.1 i
  have hrefused : ∀ g' : History, AckedRpc g' (.appendReply src i life request isHeartbeat
      (Node.appendResponse (c.servers i).node.raft request)) :=
    fun _ hs => absurd hs Bool.false_ne_true
  generalize (c.servers i).node = n at *
  rcases Node.appendRequestLabels_cases i request r n with
    ⟨hl,he⟩ | ⟨-,-,-,hl,due,he⟩ | ⟨hrun,hle,hne,hb,logs,hlogs,hl,he⟩ | ⟨-,hl,he⟩ <;>
    rw [hl] at hall ⊢ <;> rw [he]
  · exact ⟨trivial,hrefused _⟩
  · exact ⟨hall.acknowledges LogEntry.term (by simp [Label.answers]),hrefused _⟩
  · obtain ⟨base,hcar⟩ := hcarried hne
    have htakes : n.takesEntries request := ⟨hrun,hle,hne,hb⟩
    have hsplice := hcar.taken hlog h.copying.logs h.copying.numbered htakes hbase
    obtain ⟨hfirm,htake⟩ := hcar.firm hne
    rw [← hsplice,← hlogs] at hfirm htake
    have hcur : g.cur i = request.term := by
      have hterm := hv.cur_eq hrun
      by_contra hlt
      exact hahead ⟨htakes,by omega⟩
    refine ⟨hall.upgrade ⟨fun hwrites => ⟨hwrites,hcur,?_,hfirm,?_⟩,trivial⟩,?_⟩
    · rw [hcar.won]
      simp
    · rintro ⟨hp,hlt⟩
      rw [htake,← hlog.memory hrun] at hp
      rw [← hlog.memory hrun] at hlt
      exact hback ⟨htakes,hlogs ▸ hp,hlogs ▸ hlt⟩
    · intro _
      have hnum : ContiguousFrom 0 logs := by
        have hcanon := (h.copying.numbered.canon request.term).take logs.length
        rwa [htake] at hcanon
      refine ⟨hw.addr,hcar.won,logs.length,?_,hfirm,?_⟩
      · exact SRaft.lastLogIndex_length (s := {n.raft with logs := logs}) hnum
      · have hacked : (g.applyAll [.accept i request.term logs.length]).acked i request.term =
            logs.length := update₂_self _ _ _ _
        rw [hacked]
  · exact ⟨hall.acknowledges LogEntry.term (by simp [Label.answers]),hrefused _⟩

/-- The conditions on what a step of the cluster answers for are met. -/
theorem Committing.allowed (hc : cfg.Symmetric) (h : Committing cfg c g) (hlive : c.live cfg i)
    (hok : c.commitSound cfg e) (hm : c.Move i e n net) :
    Allowed (Acknowledges cfg.quorums LogEntry.term) g (c.labels e) := by
  have hall := (h.copying.move hc hlive hok.1 hm).allowed
  have hlog : ∀ cmd, ∀ l ∈ (c.servers i).node.logLabels i cmd, l.answers = false := by
    intro cmd
    unfold Node.logLabels
    split_ifs <;> simp [Label.answers]
  cases hm with
  | run r _ => exact trivial
  | timer r =>
    exact hall.acknowledges LogEntry.term (fun l hl => (Node.timerLabels_silent i r _ l hl).2)
  | doLog cmd => exact hall.acknowledges LogEntry.term (hlog cmd)
  | putLog request hp =>
    rw [labels_putLog hp] at hall ⊢
    exact hall.acknowledges LogEntry.term (hlog _)
  | voteCall k r src life request response hk _ =>
    have hslip := hok.2
    rw [commitSlip,hk] at hslip
    rw [labels_voteCall hk] at hall ⊢
    exact h.grant hk (of_decide_eq_false hslip) hall
  | appendCall k r src life request isHeartbeat hk _ =>
    obtain ⟨hbase,hahead,hback⟩ := commitSound_appendCall hok hk
    rw [labels_appendCall hk] at hall ⊢
    exact (h.accept hk hbase hahead hback r hall).1
  | voteReply k dst request response hk =>
    rw [labels_voteReply hk] at hall ⊢
    exact hall.acknowledges LogEntry.term
      (fun l hl => (Node.voteResponseLabels_silent i response _ l hl).2)
  | appendReply k dst request isHeartbeat response hk =>
    rw [labels_appendReply hk] at hall ⊢
    exact hall.acknowledges LogEntry.term
      (fun l hl => (Node.appendResponseLabels_silent i response _ l hl).2)

/-- The history grows by such a step. -/
theorem Committing.grows (h : Committing cfg c g) {ls : List HistoryLabel}
    (hall : Allowed (Acknowledges cfg.quorums LogEntry.term) g ls) :
    Sound cfg.quorums LogEntry.term (g.applyAll ls) ∧ Grows g (g.applyAll ls) :=
  h.sound.path hall.path

/-- The calls in flight, after the one that the handler answers. -/
theorem Committing.answers (h : Committing cfg c g) (hok : c.commitSound cfg e)
    (hall : Allowed (Acknowledges cfg.quorums LogEntry.term) g (c.labels e))
    (hwrites : Allowed (Writes cfg.quorums LogEntry.term) g (c.labels e))
    (hm : c.Move i e n net) : ∀ rpc ∈ net,
      ElectRpc (g.applyAll (c.labels e)) rpc ∧ AckedRpc (g.applyAll (c.labels e)) rpc := by
  have hgrow := (h.grows hall).2
  have hold : ∀ rpc ∈ c.net,
      ElectRpc (g.applyAll (c.labels e)) rpc ∧ AckedRpc (g.applyAll (c.labels e)) rpc := by
    intro rpc hrpc
    obtain ⟨helect,hacked⟩ := h.rpc rpc hrpc
    exact ⟨helect.mono (h.copying.electing.rpc rpc hrpc) hgrow,hacked.mono hgrow⟩
  have hset : ∀ k new, ElectRpc (g.applyAll (c.labels e)) new →
      AckedRpc (g.applyAll (c.labels e)) new → ∀ rpc ∈ c.net.set k new,
      ElectRpc (g.applyAll (c.labels e)) rpc ∧ AckedRpc (g.applyAll (c.labels e)) rpc := by
    intro k new helect hacked rpc hrpc
    rcases List.mem_or_eq_of_mem_set hrpc with hrpc | rfl
    · exact hold rpc hrpc
    · exact ⟨helect,hacked⟩
  cases hm with
  | run r _ => exact hold
  | timer r => exact hold
  | doLog cmd => exact hold
  | putLog request _ => exact hold
  | voteCall k r src life request response _ _ => exact hset k _ trivial trivial
  | appendCall k r src life request isHeartbeat hk _ =>
    obtain ⟨hbase,hahead,hback⟩ := commitSound_appendCall hok hk
    rw [labels_appendCall hk] at hwrites hset ⊢
    exact hset k _ trivial (h.accept hk hbase hahead hback r hwrites).2
  | voteReply k dst request response _ =>
    exact fun rpc hrpc => hold rpc (List.mem_of_mem_eraseIdx hrpc)
  | appendReply k dst request isHeartbeat response _ =>
    exact fun rpc hrpc => hold rpc (List.mem_of_mem_eraseIdx hrpc)

/-- A call of an election describes the log that its sender campaigns with. -/
theorem Committing.sent (h : Committing cfg c g) (hok : c.commitSound cfg e)
    (hm : c.Move i e n net) : ∀ call ∈ n.calls,
      ElectRpc (g.applyAll (c.labels e)) (call.rpc i (c.servers i).life) := by
  have hidle := h.copying.electing.callers.idle i
  have happends : (∀ call ∈ n.calls, call.appends) → ∀ call ∈ n.calls,
      ElectRpc (g.applyAll (c.labels e)) (call.rpc i (c.servers i).life) := by
    intro hcalls call hcall
    have := hcalls call hcall
    cases call with
    | requestVote => exact absurd this id
    | appendEntries => trivial
  have hquiet : n.calls = (c.servers i).node.calls → ∀ call ∈ n.calls, call.appends := by
    intro hcalls call hcall
    rw [hcalls,hidle] at hcall
    exact absurd hcall List.not_mem_nil
  cases hm with
  | run r _ => exact happends (hquiet (Node.run_calls r _))
  | timer r =>
    exact (h.copying.node i).onTimer_elect (h.copying.electing.node i)
      (h.copying.numbered.log i) hidle (of_decide_eq_false hok.1.1) _
  | doLog cmd => exact happends (Node.doLog_appends hidle cmd)
  | putLog request _ => exact happends (Node.doLog_appends hidle _)
  | voteCall k r src life request response _ _ =>
    exact happends (hquiet (Node.onRequestVoteRequest_calls request _))
  | appendCall k r src life request isHeartbeat _ _ =>
    exact happends (hquiet (Node.onAppendEntriesRequest_calls request r _))
  | voteReply k dst request response _ =>
    exact happends (hquiet (Node.onRequestVoteResponse_calls response _))
  | appendReply k dst request isHeartbeat response _ =>
    exact happends (hquiet (Node.onAppendEntriesReponse_calls response isHeartbeat _))

/-- A new leader that has no match index above its log. -/
theorem Committing.wins (h : Committing cfg c g) {response : RequestVoteResponse}
    (hrun : (c.servers i).node.raft.running = true)
    (hwin : (c.servers i).node.winsWith response)
    (hstale : ¬(c.servers i).node.winsStale cfg.names.length response)
    (hok : Votes cfg.quorums g (.win i)) :
    Matches cfg (g.applyAll [.win i]) (c.servers i).node.countVote := by
  intro _ hsize name peer hmem
  have hnum := h.copying.numbered.log i
  have hcur : g.cur i = (c.servers i).node.raft.currentTerm :=
    (h.copying.electing.node i).cur_eq hrun
  rw [← (h.copying.node i).memory hrun] at hnum
  have hlast := SRaft.lastLogIndex_length hnum
  have hle : peer.matchIndex ≤ (c.servers i).node.raft.lastLogIndex := by
    by_contra hlt
    refine hstale ⟨hwin,hsize,List.any_eq_true.mpr ⟨(name,some peer),hmem,?_⟩⟩
    simpa using hlt
  have hlogs : (c.servers i).node.countVote.raft.logs = (c.servers i).node.raft.logs := rfl
  refine ⟨by rw [hlogs]; omega,fun k hf _ => ?_⟩
  have hterm : (c.servers i).node.countVote.raft.currentTerm = g.cur i := hcur.symm
  rw [hterm] at hf
  exact absurd hf (h.copying.logs.not_firm_win h.copying.electing.elections hok)

/-- An answer that counts is one of the term. -/
theorem Committing.answered (h : Committing cfg c g) {k : Nat} {dst : CString}
    {life : Nat} {request : AppendEntriesRequest} {isHeartbeat : Bool}
    {response : AppendEntriesResponse} (hok : c.commitSound cfg (.respond k))
    (hk : c.net[k]? = some (.appendReply i dst life request isHeartbeat response))
    (hcount : (c.servers i).node.countsAck response isHeartbeat) :
    ∃ j, TermAck g response (c.servers i).node j := by
  have hslip := hok.2
  rw [commitSlip,hk] at hslip
  have hlate := of_decide_eq_false (Bool.or_eq_false_iff.mp hslip).1
  have hterm : request.term = (c.servers i).node.raft.currentTerm := by
    by_contra hne
    exact hlate ⟨hcount,hne⟩
  obtain ⟨hname,-,j,hindex,hfirm,hacked⟩ := (h.rpc _ (List.mem_of_getElem? hk)).2 hcount.2.2.1
  rw [hterm] at hfirm hacked
  exact ⟨j,hindex,hfirm,hname ▸ hacked⟩

/-- What a leader remembers of its peers, after a handler. -/
theorem Committing.remembers (hc : cfg.Symmetric) (h : Committing cfg c g)
    (hlive : c.live cfg i) (hok : c.commitSound cfg e) (hm : c.Move i e n net) :
    Matches cfg (g.applyAll (c.labels e)) n := by
  have hall := h.allowed hc hlive hok hm
  have hgrow := (h.grows hall).2
  have hold := h.matched i
  have hlog : (c.servers i).node.raft.state = .leader →
      (c.servers i).node.raft.logs = g.canon (c.servers i).node.raft.currentTerm :=
    fun hs => (h.leader hs).2.2.2
  cases hm with
  | run r hrun =>
    refine Matches.of_not ?_
    have hs : ((c.servers i).node.run r).raft.state = (c.servers i).node.raft.state := by
      unfold Node.run Node.load
      split <;> rfl
    rw [hs,((h.copying.electing.node i).fresh hrun).1]
    decide
  | timer r =>
    exact hold.onTimer hc hlive.1 (h.copying.electing.wired.1 i) hgrow hlog r
  | doLog cmd => exact hold.doLog hgrow hlog cmd
  | putLog request hp =>
    rw [labels_putLog hp] at hgrow ⊢
    exact hold.doLog hgrow hlog _
  | voteCall k r src life request response hk _ =>
    have hraises : ¬(c.servers i).node.raisesAsLeader request := by
      have hslip := hok.1.1
      rw [electionSound,electionSlip,hk] at hslip
      exact of_decide_eq_false hslip
    rcases Node.voteRequestLabels_cases i src request (c.servers i).node with
      ⟨-,he,-⟩ | ⟨hrun,hlt,hbad,-,he⟩ | ⟨-,-,-,-,-,he⟩
    · rw [he]
      exact hold.keep hgrow hlog (fun hs => ⟨hs,le_refl _,rfl,rfl⟩)
    · rw [he]
      exact Matches.of_not (fun hs => hraises ⟨hrun,hs,hlt,hbad⟩)
    · rw [he]
      refine Matches.of_not ?_
      by_cases hs : (c.servers i).node.raft.state = .leader <;> simp [hs]
  | appendCall k r src life request isHeartbeat hk _ =>
    rw [labels_appendCall hk] at hgrow hall ⊢
    rcases Node.appendRequestLabels_cases i request r (c.servers i).node with
      ⟨-,he⟩ | ⟨-,-,-,-,due,he⟩ | ⟨hrun,-,-,-,logs,-,hl,he⟩ | ⟨-,-,he⟩
    · rw [he]
      exact hold.keep hgrow hlog (fun hs => ⟨hs,le_refl _,rfl,rfl⟩)
    · rw [he]
      exact Matches.of_not (by simp)
    · rw [hl] at hall
      rw [he]
      refine Matches.of_not (fun hs => hall.1.1.2 ?_)
      rw [(h.copying.electing.node i).role,show (c.servers i).node.raft.state = _ from hs]
      rfl
    · rw [he]
      exact hold.keep hgrow hlog (fun hs => ⟨hs,le_refl _,rfl,rfl⟩)
  | voteReply k dst request response hk =>
    have hslip := hok.2
    rw [commitSlip,hk] at hslip
    rw [labels_voteReply hk] at hgrow hall ⊢
    have hrun := (h.copying.electing.callers.life _ (List.mem_of_getElem? hk)).2 rfl
    rcases Node.voteResponseLabels_cases i response (c.servers i).node with
      ⟨-,-,he⟩ | ⟨-,he⟩ | ⟨-,he,⟨-,hs⟩ | ⟨hwin,hl,-⟩⟩
    · rw [he]
      exact Matches.of_not (by simp [Node.yieldTerm,Node.stepDown])
    · rw [he]
      exact hold.keep hgrow hlog (fun hs => ⟨hs,le_refl _,rfl,rfl⟩)
    · rw [he]
      exact Matches.of_not (by rw [hs]; decide)
    · rw [he]
      rw [hl] at hall ⊢
      exact h.wins hrun hwin (of_decide_eq_false hslip) hall.1.1.1
  | appendReply k dst request isHeartbeat response hk =>
    rw [labels_appendReply hk] at hgrow ⊢
    exact hold.onAppendEntriesReponse hgrow hlog (h.answered hok hk)

/-- A leader without peers commits what it logs. -/
theorem Committing.commitAlone (hc : cfg.Symmetric) (h : Committing cfg c g)
    (hi : i ∈ cfg.names) (cmd : CString) :
    ((c.servers i).node.doLog cmd).1.raft.commitIndex = (c.raft i).commitIndex ∨
      CommitsLog cfg (g.applyAll ((c.servers i).node.logLabels i cmd)) i
        ((c.servers i).node.doLog cmd).1 := by
  have hw := h.copying.electing.wired.1 i
  have hlead := h.leader (i := i)
  have hnum := h.copying.numbered.log i
  have hlog := h.copying.node i
  rw [raft] at hlead ⊢
  generalize (c.servers i).node = n at *
  rcases Node.doLog_commits cmd n with hs | ⟨hrun,hs,hp,hb,he,hcommit⟩
  · exact .inl hs.2.2.2.2
  · right
    obtain ⟨-,hcur,hwon,hcanon⟩ := hlead hs
    have hmem := hlog.memory hrun
    rw [← hmem] at hnum
    have hlast := SRaft.lastLogIndex_length hnum
    have hlabels : n.logLabels i cmd = [.append i (Node.newEntry cmd n.raft)] :=
      if_pos ⟨hrun,hs,hb⟩
    have hone : g.applyAll [.append i (Node.newEntry cmd n.raft)] =
        g.apply (.append i (Node.newEntry cmd n.raft)) := rfl
    have hcanon' : (g.apply (.append i (Node.newEntry cmd n.raft))).canon n.raft.currentTerm =
        n.raft.logs++[Node.newEntry cmd n.raft] := by
      simp [Core.apply,hcur,hmem]
    have hacked : (g.apply (.append i (Node.newEntry cmd n.raft))).acked i n.raft.currentTerm =
        n.raft.logs.length+1 := by
      simp [Core.apply,hcur,hmem]
    have hsize : cfg.names.length = 1 := by
      have hlen := hw.peers.length_le
      have hpeers := hc.length hi
      rw [hp,List.length_nil] at hlen
      omega
    have hindex := hcommit.commitIndex
    obtain ⟨ci,la,hr⟩ := Node.logEntry_raft cmd n
    rw [← he] at hr
    rw [hlabels,hone,CommitsLog,hindex,hr]
    refine ⟨hwon,hcanon'.symm,n.raft.logs.length+1,by push_cast; omega,⟨by omega,?_⟩,?_⟩
    · exact ⟨Node.newEntry cmd n.raft,by rw [hcanon']; simp,rfl⟩
    · refine Config.isQuorum hc (List.nodup_singleton i) ?_ (by rw [hsize]; simp)
      intro v hv
      obtain rfl := List.mem_singleton.mp hv
      exact ⟨hi,hacked.ge⟩

/-- A handler that moves `commitIndex_` commits. -/
theorem Committing.commitsLog (hc : cfg.Symmetric) (h : Committing cfg c g)
    (hlive : c.live cfg i) (hok : c.commitSound cfg e) (hm : c.Move i e n net) :
    n.raft.commitIndex = (c.raft i).commitIndex ∨
      CommitsLog cfg (g.applyAll (c.labels e)) i n := by
  have hall := h.allowed hc hlive hok hm
  cases hm with
  | run r _ => exact .inl (Node.run_still r _).2.2.2.2
  | timer r => exact .inl (Node.onTimer_still r _).2.2.2.2
  | doLog cmd => exact h.commitAlone hc hlive.1 cmd
  | putLog request hp =>
    rw [labels_putLog hp]
    exact h.commitAlone hc hlive.1 _
  | voteCall k r src life request response _ _ =>
    exact .inl (Node.onRequestVoteRequest_still request _).2.2.2.2
  | appendCall k r src life request isHeartbeat _ _ =>
    exact .inl (Node.onAppendEntriesRequest_still request r _).2.2.2.2
  | voteReply k dst request response _ =>
    exact .inl (Node.onRequestVoteResponse_still response _).2.2.2.2
  | appendReply k dst request isHeartbeat response hk =>
    refine or_iff_not_imp_left.mpr (fun hne => ?_)
    have hw := h.copying.electing.wired.1 i
    have hmem := List.mem_of_getElem? hk
    obtain ⟨hcount,hvote,hindex⟩ := Node.onAppendEntriesReponse_counts
      (hw.peers.nodup (cfg.peers_nodup i)) hne
    obtain ⟨j,hack⟩ := h.answered hok hk hcount
    obtain ⟨-,-,hwon,hlog⟩ := h.leader hcount.1
    have hname : response.name ∈ cfg.peersOf i := by
      rw [((h.rpc _ hmem).2 hcount.2.2.1).1]
      exact (h.copying.electing.wired.2 _ hmem).dst
    have hhalf : ¬(c.servers i).node.commitsByHalf cfg.names.length response isHeartbeat := by
      have hslip := hok.2
      rw [commitSlip,hk] at hslip
      exact of_decide_eq_false (Bool.or_eq_false_iff.mp hslip).2
    have hquorum := hack.quorum hc hlive.1 hw (h.matched i) (h.owned _ _ _ hwon hack.firm)
      hname hcount hvote hhalf
    obtain ⟨x,hx,⟨peers,ci,la,hr⟩,-,-⟩ := Node.onAppendEntriesReponse_frame response
      isHeartbeat (c.servers i).node
    have hsame : x.raft.logs = (c.servers i).node.raft.logs ∧
        x.raft.currentTerm = (c.servers i).node.raft.currentTerm := by
      rw [hx]
      split_ifs <;> exact ⟨rfl,rfl⟩
    rw [labels_appendReply hk] at hall ⊢
    have hcanon : (g.applyAll ((c.servers i).node.appendResponseLabels i response)).canon =
        g.canon := by
      unfold Node.appendResponseLabels
      split_ifs <;> rfl
    rw [CommitsLog,hindex,hr]
    dsimp only
    rw [hsame.1,hsame.2,hcanon]
    have hgrow := (h.grows hall).2
    exact ⟨hgrow.votes.won _ _ hwon,hlog,j,hack.index,
      Committed.mono ⟨hack.firm,hquorum⟩ hgrow⟩

/-- What a handler looks up is committed. -/
theorem Committing.looksUp (hc : cfg.Symmetric) (h : Committing cfg c g)
    (hlive : c.live cfg i) (hok : c.commitSound cfg e) (hm : c.Move i e n net) :
    ∀ p ∈ n.applied, Decided cfg (g.applyAll (c.labels e)) p := by
  have hgrow := (h.grows (h.allowed hc hlive hok hm)).2
  have hnum := (h.copying.move hc hlive hok.1 hm).numbered
  obtain ⟨more,happ,hbound⟩ := h.pipe.applies hc hm
  have hsync := h.pipe.synced i
  have hsync' := (h.pipe.move hc hm).1
  intro p hp
  rw [happ.applied] at hp
  rcases List.mem_append.mp hp with hp | hp
  · exact (h.applied i p hp).mono hgrow
  obtain ⟨hlow,hmax⟩ := hbound p hp
  obtain ⟨hlt,hle⟩ := happ.index hp
  rw [hsync'.applied] at hle
  rcases h.commitsLog hc hlive hok hm with hsame | hlog
  · have hfrom : (c.raft i).lastApplied = (c.raft i).commitIndex := hsync.applied
    rw [raft] at hsame hfrom
    omega
  · exact hlog.decided hnum hlow hle hmax (happ.data p hp)

theorem Committing.step (hc : cfg.Symmetric) (h : Committing cfg c g)
    (hok : c.commitSound cfg e) (hs : (machine cfg).step c e = some c') :
    Allowed (Acknowledges cfg.quorums LogEntry.term) g (c.labels e) ∧
      Committing cfg c' (g.applyAll (c.labels e)) := by
  have hcopying := (h.copying.step hc hok.1 hs).2
  have hpipe := h.pipe.step hc hs
  suffices hnew : Allowed (Acknowledges cfg.quorums LogEntry.term) g (c.labels e) ∧
      (∀ rpc ∈ c'.net, ElectRpc (g.applyAll (c.labels e)) rpc ∧
        AckedRpc (g.applyAll (c.labels e)) rpc) ∧
      (∀ j, Matches cfg (g.applyAll (c.labels e)) (c'.servers j).node) ∧
      (∀ j, ∀ p ∈ (c'.servers j).node.applied, Decided cfg (g.applyAll (c.labels e)) p) ∧
      ∀ m ∈ c'.commits, (g.applyAll (c.labels e)).won m.term = some m.server ∧
        ∃ k : Nat, m.index = (k : Int)-1 ∧
          Committed cfg.quorums LogEntry.term (g.applyAll (c.labels e)) m.term k by
    obtain ⟨hall,hrpc,hmatched,happlied,hcommits⟩ := hnew
    have howned := Sound.path_owned LogEntry.term hall.path h.sound h.owned
    exact ⟨hall,hcopying,hpipe,(h.grows hall).1.acks,howned,hrpc,hmatched,happlied,hcommits⟩
  have hkeep : ∀ {g'}, Grows g g' → ∀ j, Matches cfg g' (c.servers j).node := by
    intro g' hgrow j
    exact (h.matched j).keep hgrow (fun hs => (h.leader hs).2.2.2)
      (fun hs => ⟨hs,le_refl _,rfl,rfl⟩)
  have hcommitted : ∀ {g' m}, Grows g g' → m ∈ c.commits → g'.won m.term = some m.server ∧
      ∃ k : Nat, m.index = (k : Int)-1 ∧ Committed cfg.quorums LogEntry.term g' m.term k := by
    intro g' m hgrow hmem
    obtain ⟨hwon,k,hindex,hcommit⟩ := h.commits m hmem
    exact ⟨hgrow.votes.won _ _ hwon,k,hindex,hcommit.mono hgrow⟩
  rcases step_cases hs with
    ⟨i,n,net,hlive,hm,hmoved⟩ | ⟨k,rpc,rfl,hk,rfl⟩ | ⟨i,hi,rfl,rfl⟩ | ⟨hout,hq⟩
  · have hall := h.allowed hc hlive hok hm
    obtain ⟨-,hgrow⟩ := h.grows hall
    refine ⟨hall,?rpc,?matched,?applied,?commits⟩
    case rpc =>
      refine hmoved.each_rpc
        (h.answers hok hall (h.copying.move hc hlive hok.1 hm).allowed hm) (fun call hcall => ?_)
      refine ⟨h.sent hok hm call hcall,?_⟩
      cases call <;> trivial
    case matched =>
      refine hmoved.each (P := fun _ s => Matches cfg _ s.node) ?_ (fun j _ => hkeep hgrow j)
      rw [hmoved.node]
      have hnode := h.remembers hc hlive hok hm
      exact hnode
    case applied =>
      refine hmoved.each (P := fun _ s => ∀ p ∈ s.node.applied, Decided cfg _ p) ?_
        (fun j _ p hp => (h.applied j p hp).mono hgrow)
      rw [hmoved.node]
      have hnode := h.looksUp hc hlive hok hm
      exact hnode
    case commits =>
      intro m hmem
      rw [hmoved.commits] at hmem
      rcases List.mem_append.mp hmem with hmem | hmem
      · exact hcommitted hgrow hmem
      · split_ifs at hmem with hsame
        · exact absurd hmem List.not_mem_nil
        · obtain rfl := List.mem_singleton.mp hmem
          rcases h.commitsLog hc hlive hok hm with he | ⟨hwon,-,hcommit⟩
          · exact absurd he hsame
          · exact ⟨hwon,hcommit⟩
  · refine ⟨trivial,failed_each hk h.rpc ?_,h.matched,h.applied,h.commits⟩
    rintro ⟨helect,hacked⟩
    exact ⟨helect.fail rpc,hacked.fail rpc⟩
  · have hall : Allowed (Acknowledges cfg.quorums LogEntry.term) g [.restart i] :=
      ⟨⟨⟨trivial,trivial⟩,trivial⟩,trivial⟩
    have hlabels : c.labels (.crash i) = [.restart i] := rfl
    rw [hlabels]
    obtain ⟨-,hgrow⟩ := h.grows hall
    refine ⟨hall,?rpc,?matched,?applied,?commits⟩
    case rpc =>
      intro rpc hrpc
      obtain ⟨helect,hacked⟩ := h.rpc rpc hrpc
      exact ⟨helect.mono (h.copying.electing.rpc rpc hrpc) hgrow,hacked.mono hgrow⟩
    case matched =>
      exact crashed_each (P := fun _ s => Matches cfg _ s.node)
        (Matches.of_not (by simp [Server.boot,Node.create,SRaft.create]))
        (fun j _ => hkeep hgrow j)
    case applied =>
      exact crashed_each (P := fun _ s => ∀ p ∈ s.node.applied, Decided cfg _ p)
        (fun p hp => absurd hp (by simp [Server.boot,Node.create]))
        (fun j _ p hp => (h.applied j p hp).mono hgrow)
    case commits => exact fun m hmem => hcommitted hgrow hmem
  · rw [labels_outside hout]
    refine ⟨trivial,?rpc,?matched,?applied,?commits⟩
    case rpc =>
      rw [hq.net]
      exact h.rpc
    case matched =>
      intro j
      obtain ⟨hr,-⟩ := hq.node j
      have hold := h.matched j
      unfold Matches MatchOk at hold ⊢
      rw [hr]
      exact hold
    case applied =>
      intro j
      obtain ⟨-,-,-,happlied,-⟩ := hq.node j
      rw [happlied]
      exact h.applied j
    case commits =>
      rw [hq.commits]
      exact h.commits

theorem Committing.simulates (hc : cfg.Symmetric) (h : Committing cfg c g)
    (hp : (machine cfg).Path (commitSound cfg) c c') :
    ∃ g', (replication CString LogEntry).Path (Acknowledges cfg.quorums LogEntry.term) g g' ∧
      Committing cfg c' g' := by
  refine hp.simulates (R := Committing cfg) ?_ h
  intro s a e t hsim hok hs
  obtain ⟨hall,hnext⟩ := hsim.step hc hok hs
  exact ⟨_,hall.path,hnext⟩

end Cluster
end SRaftMuduo
