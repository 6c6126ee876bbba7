import SRaftMuduo.Cluster.Moves
import SRaftMuduo.Raft.Applying

namespace SRaftMuduo

theorem SRaft.getLogByIndex_mem_or (s : SRaft) (index : Nat) :
    s.getLogByIndex index = LogEntry.empty ∨ s.getLogByIndex index ∈ s.logs := by
  unfold getLogByIndex
  dsimp only
  cases hl : s.logs[u64 (index+(2^64-toU64 s.baseLogIndex))]? with
  | none => exact .inl rfl
  | some e => exact .inr (List.mem_of_getElem? hl)

def Call.entries : Call → List LogEntry
  | .requestVote _ _ => []
  | .appendEntries _ request _ => request.entries

/-- The entries of the request of a call in flight. -/
def Rpc.entries : Rpc → List LogEntry
  | .voteCall .. => []
  | .voteReply .. => []
  | .appendCall _ _ _ request _ => request.entries
  | .appendReply _ _ _ request _ _ => request.entries

/-- `K` holds of every entry of the node, in memory, on disk or in a call it starts, and
what it has pushed is the data of such an entry. -/
structure Made (K : LogEntry → Prop) (n : Node) : Prop where
  logs : ∀ e ∈ n.raft.logs, K e
  disk : ∀ record, n.persist = some record → ∀ e ∈ record.entries, K e
  calls : ∀ call ∈ n.calls, ∀ e ∈ call.entries, K e
  pushes : ∀ p ∈ n.pushes, p.2 ≠ [] ∧ ∃ e, K e ∧ e.data = p.2

def MadeRpc (K : LogEntry → Prop) (rpc : Rpc) : Prop := ∀ e ∈ rpc.entries, K e

namespace Made

variable {K K' : LogEntry → Prop} {n m : Node}

theorem mono (h : Made K n) (hk : ∀ e, K e → K' e) : Made K' n := by
  refine ⟨fun e he => hk e (h.logs e he),fun record hr e he => hk e (h.disk record hr e he),
    fun call hc e he => hk e (h.calls call hc e he),?_⟩
  intro p hp
  obtain ⟨hne,e,he,hd⟩ := h.pushes p hp
  exact ⟨hne,e,hk e he,hd⟩

/-- Handlers that leave the log, and that may have called `Dump`. -/
theorem same (h : Made K n) (hl : m.raft.logs = n.raft.logs) (hc : m.calls = n.calls)
    (hp : m.pushes = n.pushes) (hd : m.persist = n.persist ∨
      ∃ record, m.persist = some record ∧ record.entries = n.raft.logs) : Made K m := by
  refine ⟨hl ▸ h.logs,?_,hc ▸ h.calls,hp ▸ h.pushes⟩
  intro record hr
  rcases hd with hd | ⟨record',hd,he⟩
  · exact h.disk record (hd ▸ hr)
  · obtain rfl := Option.some.inj (hd.symm.trans hr)
    exact he ▸ h.logs

/-- A handler that gives the node a new log and calls `Dump`. -/
theorem relog (h : Made K n) {logs : List LogEntry} (hl : ∀ e ∈ logs, K e) :
    Made K (Node.dump {n with raft := {n.raft with logs := logs}}) := by
  refine ⟨hl,?_,h.calls,h.pushes⟩
  intro record hr
  obtain rfl := Option.some.inj hr
  exact hl

theorem lookup (h : Made K n) (h0 : K .empty) (index : Nat) : K (n.raft.getLogByIndex index) := by
  rcases n.raft.getLogByIndex_mem_or index with he | he
  · rwa [he]
  · exact h.logs _ he

theorem applyOne (h : Made K n) (h0 : K .empty) : Made K n.applyOne := by
  have hk := h.lookup h0 (toU64 (n.raft.lastApplied+1))
  unfold Node.applyOne
  dsimp only
  split_ifs with hcmd
  · exact h.same rfl rfl rfl (.inl rfl)
  · unfold Node.pushData
    split
    · exact h.same rfl rfl rfl (.inl rfl)
    · refine ⟨h.logs,h.disk,h.calls,?_⟩
      intro p hp
      rcases List.mem_append.mp hp with hp | hp
      · exact h.pushes p hp
      · obtain rfl := List.mem_singleton.mp hp
        exact ⟨hcmd,_,hk,rfl⟩

theorem doApply (h : Made K n) (h0 : K .empty) : Made K n.doApply := by
  unfold Node.doApply
  generalize (n.raft.commitIndex-n.raft.lastApplied).toNat = i
  induction i generalizing n with
  | zero => exact h
  | succ i ih => exact ih (h.applyOne h0)

theorem startCalls (h : Made K n) (call : SRaftPeer → Call)
    (hc : ∀ peer, ∀ e ∈ (call peer).entries, K e) : Made K (n.startCalls call) := by
  refine ⟨h.logs,h.disk,?_,h.pushes⟩
  intro x hx
  rw [Node.startCalls_calls] at hx
  rcases List.mem_append.mp hx with hx | hx
  · exact h.calls x hx
  · obtain ⟨_,peer,_,rfl⟩ := Node.callPeers_mem hx
    exact hc peer

/-- The entries of a request are answers of `GetLogByIndex`. -/
theorem appendRequest (h : Made K n) (h0 : K .empty) (isHeartbeat : Bool) (peer : SRaftPeer) :
    ∀ e ∈ (n.raft.appendRequest isHeartbeat peer).entries, K e := by
  intro e he
  cases isHeartbeat with
  | true => exact absurd he (by simp [SRaft.appendRequest])
  | false =>
    have hmem : e ∈ n.raft.entriesFrom peer.nextIndex := he
    obtain ⟨index,-,rfl⟩ := List.mem_map.mp hmem
    exact h.lookup h0 index

theorem doAppendEntries (h : Made K n) (h0 : K .empty) (isHeartbeat : Bool) :
    Made K (n.doAppendEntries isHeartbeat) := by
  have hcalls : ∀ isHeartbeat, Made K (n.startCalls (fun peer =>
      .appendEntries peer.name (n.raft.appendRequest isHeartbeat peer) isHeartbeat)) :=
    fun isHeartbeat => h.startCalls _ (h.appendRequest h0 isHeartbeat)
  cases isHeartbeat with
  | true =>
    rw [Node.doAppendEntries_heartbeat]
    exact hcalls true
  | false =>
    by_cases hp : n.raft.peers = []
    · rw [Node.doAppendEntries_alone n hp]
      have hset : Made K {n with raft := {n.raft with commitIndex := n.raft.lastLogIndex}} :=
        h.same rfl rfl rfl (.inl rfl)
      exact hset.doApply h0
    · rw [Node.doAppendEntries_peers n hp]
      exact hcalls false

theorem doElection (h : Made K n) (r : Readings) : Made K (n.doElection r) := by
  have hpush : (n.doElection r).pushes = n.pushes := (Node.doElection_still r n).2.1
  refine ⟨by simpa using h.logs,?_,?_,hpush ▸ h.pushes⟩
  · intro record hr
    rw [Node.doElection_persist] at hr
    obtain rfl := Option.some.inj hr
    exact h.logs
  · intro call hc
    rw [Node.doElection_calls] at hc
    rcases List.mem_append.mp hc with hc | hc
    · exact h.calls call hc
    · obtain ⟨_,_,_,rfl⟩ := Node.callPeers_mem hc
      intro e he
      exact absurd he List.not_mem_nil

theorem onTimer (h : Made K n) (h0 : K .empty) (r : Readings) : Made K (n.onTimer r) := by
  rcases Node.onTimer_cases r n with ⟨-,he⟩ | ⟨-,-,due,he⟩ | ⟨-,-,he⟩ | ⟨-,-,due,he⟩ <;> rw [he]
  · exact h
  · have hset : Made K {n with raft := {n.raft with dueHeartBeat := due}} :=
      h.same rfl rfl rfl (.inl rfl)
    exact hset.doAppendEntries h0 true
  · rcases Node.timerFail_cases r (n.doElection r) with he' | ⟨-,due,he'⟩ <;> rw [he']
    · exact h.doElection r
    · exact (h.doElection r).same rfl rfl rfl (.inl rfl)
  · exact h.same rfl rfl rfl (.inl rfl)

/-- The one place where an entry is made. -/
theorem doLog (h : Made K n) (h0 : K .empty) (cmd : CString)
    (hk : n.raft.running = true → n.raft.state = .leader → K (Node.newEntry cmd n.raft)) :
    Made K (n.doLog cmd).1 := by
  rcases Node.doLog_cases cmd n with ⟨-,he⟩ | ⟨-,he⟩ | ⟨hrun,hs,-,he⟩ <;> rw [he]
  · exact h
  · exact h.same rfl rfl rfl (.inl rfl)
  · have hlogs : ∀ e ∈ n.raft.logs++[Node.newEntry cmd n.raft], K e := by
      intro e he
      rcases List.mem_append.mp he with he | he
      · exact h.logs e he
      · obtain rfl := List.mem_singleton.mp he
        exact hk hrun hs
    exact (h.relog hlogs).doAppendEntries h0 false

theorem onAppendEntriesRequest (h : Made K n) {request : AppendEntriesRequest}
    (hr : ∀ e ∈ request.entries, K e) (r : Readings) :
    Made K (n.onAppendEntriesRequest request r).1 := by
  rcases Node.onAppendEntriesRequest_cases request r n with
    ⟨-,he⟩ | ⟨-,-,-,due,he⟩ | ⟨-,-,-,-,logs,hlogs,he⟩ | ⟨-,-,-,-,he⟩ <;> rw [he]
  · exact h
  · exact h.same rfl rfl rfl (.inl rfl)
  · refine h.relog (fun e hmem => ?_)
    rw [hlogs] at hmem
    rcases List.mem_append.mp hmem with hmem | hmem
    · exact h.logs e (List.mem_of_mem_take hmem)
    · exact hr e hmem
  · exact h.same rfl rfl rfl (.inr ⟨_,rfl,rfl⟩)

theorem onAppendEntriesReponse (h : Made K n) (h0 : K .empty)
    (response : AppendEntriesResponse) (isHeartbeat : Bool) :
    Made K (n.onAppendEntriesReponse response isHeartbeat) := by
  have ht : Made K (n.touchPeer response.name) := by
    obtain ⟨peers,hp⟩ := Node.touchPeer_raft response.name n
    exact h.same (by rw [hp]) rfl rfl (.inl rfl)
  have hc : Made K ((n.touchPeer response.name).checkTerm response.term) := by
    unfold Node.checkTerm
    split_ifs
    · exact ht.same rfl rfl rfl (.inr ⟨_,rfl,rfl⟩)
    · exact ht
  rcases Node.onAppendEntriesReponse_cases response isHeartbeat n with
    ⟨-,he⟩ | ⟨-,he | ⟨-,he⟩⟩ <;> rw [he]
  · exact ht
  · exact hc
  generalize (n.touchPeer response.name).checkTerm response.term = x at hc
  rcases Node.countResponse_cases response x with he | he | ⟨peer,mi,-,l,hl,he⟩
  · rwa [he]
  · rw [he]
    exact hc.same rfl rfl rfl (.inl rfl)
  · have hset : Made K l := by
      rw [hl]
      exact hc.same rfl rfl rfl (.inl rfl)
    rcases he with he | he | ⟨-,-,-,-,he⟩ <;> rw [he]
    · exact hset
    · exact hset.same rfl rfl rfl (.inl rfl)
    · have hset' : Made K {l with raft := {l.raft with commitIndex := response.lastLogIndex}} :=
        hset.same rfl rfl rfl (.inl rfl)
      exact hset'.doApply h0

theorem onRequestVoteRequest (h : Made K n) (request : RequestVoteRequest) :
    Made K (n.onRequestVoteRequest request).1 := by
  rcases Node.onRequestVoteRequest_cases request n with
    ⟨-,he,-⟩ | ⟨-,-,-,he⟩ | ⟨-,-,-,-,he⟩ <;> rw [he]
  · exact h
  · exact h.same rfl rfl rfl (.inl rfl)
  · exact h.same rfl rfl rfl (.inr ⟨_,rfl,rfl⟩)

theorem onRequestVoteResponse (h : Made K n) (response : RequestVoteResponse) :
    Made K (n.onRequestVoteResponse response) := by
  rcases Node.onRequestVoteResponse_cases response n with
    ⟨-,he⟩ | ⟨-,-,he⟩ | ⟨-,-,-,he⟩ <;> rw [he]
  · exact h.same rfl rfl rfl (.inr ⟨_,rfl,rfl⟩)
  · exact h
  · exact h.same rfl rfl rfl (.inl rfl)

theorem run (h : Made K n) (r : Readings) : Made K (n.run r) := by
  have hload : Made K n.load := by
    unfold Node.load
    split
    · exact h
    · next record hr => exact ⟨h.disk record hr,h.disk,h.calls,h.pushes⟩
  exact hload.same rfl rfl rfl (.inl rfl)

end Made

theorem made_closed (cfg : Config) (K : LogEntry → Prop) :
    LocalClosed cfg (fun _ => Made K) (MadeRpc K) where
  boot := by
    rintro i persist life (rfl | ⟨n,hn,rfl⟩)
    · exact ⟨by simp [Server.boot,Node.create,SRaft.create],by simp [Server.boot,Node.create],
        by simp [Server.boot,Node.create],by simp [Server.boot,Node.create]⟩
    · exact ⟨by simp [Server.boot,Node.create,SRaft.create],hn.disk,
        by simp [Server.boot,Node.create],by simp [Server.boot,Node.create]⟩
  same := by
    rintro i n m h ⟨hr,hp,hc,-,hpush,-⟩
    exact h.same (by rw [hr]) hc hpush (.inl hp)
  sent := fun i n h => ⟨h.logs,h.disk,by simp,h.pushes⟩
  rpc := by
    intro i n life call _ h hc
    have hcall := h.calls call hc
    cases call with
    | requestVote => exact hcall
    | appendEntries => exact hcall
  fail := by
    intro rpc h
    cases rpc with
    | voteCall => exact h
    | voteReply => exact h
    | appendCall => exact h
    | appendReply => exact h

/-- A handler keeps it when the entry that it may make satisfies `K`. -/
theorem made_move {K : LogEntry → Prop} (h0 : K .empty) {c : Cluster} {i : CString}
    {e : Event} {n : Node} {net : List Rpc} (hn : Made K (c.servers i).node)
    (hnet : ∀ rpc ∈ c.net, MadeRpc K rpc)
    (hnew : ∀ cmd, (e = .doLog i cmd ∨ e = .putLog i ∧ ∃ request,
        (c.servers i).pending = some request ∧ request.command = cmd) →
      (c.raft i).running = true → (c.raft i).state = .leader → K (Node.newEntry cmd (c.raft i)))
    (hm : c.Move i e n net) : Made K n ∧ ∀ rpc ∈ net, MadeRpc K rpc := by
  cases hm with
  | run r _ => exact ⟨hn.run r,hnet⟩
  | timer r => exact ⟨hn.onTimer h0 r,hnet⟩
  | doLog cmd => exact ⟨hn.doLog h0 cmd (hnew cmd (.inl rfl)),hnet⟩
  | putLog request hp => exact ⟨hn.doLog h0 _ (hnew _ (.inr ⟨rfl,request,hp,rfl⟩)),hnet⟩
  | voteCall k r src life request response hk _ =>
    refine ⟨hn.onRequestVoteRequest request,?_⟩
    intro rpc hrpc
    rcases List.mem_or_eq_of_mem_set hrpc with hrpc | rfl
    · exact hnet rpc hrpc
    · intro e he
      exact absurd he List.not_mem_nil
  | appendCall k r src life request isHeartbeat hk hp =>
    have hreq : ∀ e ∈ request.entries, K e := hnet _ (List.mem_of_getElem? hk)
    refine ⟨hn.onAppendEntriesRequest hreq r,?_⟩
    intro rpc hrpc
    rcases List.mem_or_eq_of_mem_set hrpc with hrpc | rfl
    · exact hnet rpc hrpc
    · exact hreq
  | voteReply k dst request response _ =>
    exact ⟨hn.onRequestVoteResponse response,
      fun rpc hrpc => hnet rpc (List.mem_of_mem_eraseIdx hrpc)⟩
  | appendReply k dst request isHeartbeat response hk =>
    exact ⟨hn.onAppendEntriesReponse h0 response isHeartbeat,
      fun rpc hrpc => hnet rpc (List.mem_of_mem_eraseIdx hrpc)⟩

/-- A call of `DoLog`: where, with what, and the fields of the node before it. -/
structure LogCall where
  server : CString
  cmd : CString
  before : SRaft

namespace LogCall

/-- The call was made on a running leader, which gave the entry its index and term. -/
structure Gives (call : LogCall) (e : LogEntry) : Prop where
  running : call.before.running = true
  leader : call.before.state = .leader
  index : e.index = call.before.lastLogIndex+1
  term : e.term = call.before.currentTerm
  data : e.data = call.cmd

/-- A default entry is what a lookup out of range returns; it has no data. -/
def FromCalls (calls : List LogCall) (e : LogEntry) : Prop :=
  e.data ≠ [] → ∃ call ∈ calls, call.Gives e

theorem FromCalls.empty (calls : List LogCall) : FromCalls calls .empty :=
  fun h => absurd rfl h

theorem FromCalls.mono {calls : List LogCall} {e : LogEntry} (h : FromCalls calls e)
    (more : List LogCall) : FromCalls (calls++more) e := by
  intro hd
  obtain ⟨call,hc,hg⟩ := h hd
  exact ⟨call,List.mem_append_left _ hc,hg⟩

end LogCall

/-- The calls of `DoLog` that an event makes. -/
def Cluster.logCalls (c : Cluster) : Event → List LogCall
  | .doLog i cmd => [⟨i,cmd,c.raft i⟩]
  | .putLog i =>
    ((c.servers i).pending.map (fun request => ⟨i,request.command,c.raft i⟩)).toList
  | _ => []

/-- Every entry of the cluster comes from one of the calls. -/
def Cluster.Valid (p : Cluster × List LogCall) : Prop :=
  (∀ i, Made (LogCall.FromCalls p.2) (p.1.servers i).node) ∧
    ∀ rpc ∈ p.1.net, MadeRpc (LogCall.FromCalls p.2) rpc

theorem Cluster.Valid.step {cfg : Config} {p q : Cluster × List LogCall} {e : Event}
    (h : Valid p) (hs : ((machine cfg).record logCalls).step p e = some q) : Valid q := by
  obtain ⟨ht,hq⟩ := Machine.record_step hs
  have hmono : ∀ e, LogCall.FromCalls p.2 e → LogCall.FromCalls q.2 e := by
    intro x hx
    rw [hq]
    exact hx.mono _
  have hnode : ∀ i, Made (LogCall.FromCalls q.2) (p.1.servers i).node :=
    fun i => (h.1 i).mono hmono
  have hnet : ∀ rpc ∈ p.1.net, MadeRpc (LogCall.FromCalls q.2) rpc :=
    fun rpc hrpc x hx => hmono x (h.2 rpc hrpc x hx)
  refine (made_closed cfg _).step ?_ ⟨hnode,hnet⟩ ht
  intro i n net _ hm
  refine made_move (.empty _) (hnode i) hnet ?_ hm
  intro cmd hcall hrun hs _
  have hmem : (⟨i,cmd,p.1.raft i⟩ : LogCall) ∈ q.2 := by
    rw [hq]
    refine List.mem_append_right _ ?_
    rcases hcall with rfl | ⟨rfl,request,hp,rfl⟩
    · exact List.mem_singleton_self _
    · simp [logCalls,hp]
  exact ⟨_,hmem,hrun,hs,rfl,rfl,rfl⟩

/-- Every entry with data in a log, on a disk or in a request on its way got its index,
term and data from one call of `DoLog` on a leader of that term, and every command that
was pushed was passed to `DoLog`. -/
theorem entries_from_doLog (cfg : Config) {c : Cluster} {calls : List LogCall}
    (h : ((machine cfg).record Cluster.logCalls).Path Machine.always
      (.initial cfg,[]) (c,calls)) :
    (∀ i, ∀ e ∈ (c.raft i).logs, e.data ≠ [] → ∃ call ∈ calls, call.Gives e) ∧
    (∀ i record, (c.servers i).node.persist = some record →
      ∀ e ∈ record.entries, e.data ≠ [] → ∃ call ∈ calls, call.Gives e) ∧
    (∀ rpc ∈ c.net, ∀ e ∈ rpc.entries, e.data ≠ [] → ∃ call ∈ calls, call.Gives e) ∧
    ∀ i, ∀ p ∈ (c.servers i).node.pushes, ∃ call ∈ calls, call.cmd = p.2 := by
  obtain ⟨hnode,hnet⟩ := h.invariant (I := Cluster.Valid) (fun _ _ _ hi _ hs => hi.step hs)
    (made_closed cfg _).initial
  refine ⟨fun i => (hnode i).logs,fun i => (hnode i).disk,hnet,?_⟩
  intro i p hp
  obtain ⟨hne,e,he,hd⟩ := (hnode i).pushes p hp
  obtain ⟨call,hc,hg⟩ := he (by rwa [hd])
  exact ⟨call,hc,hg.data.symm.trans hd⟩

/-- A command is committed on one node, copied to the other and pushed. -/
theorem entries_from_doLog_two : ∃ (c : Cluster) (calls : List LogCall),
    (c.raft ['b']).logs.length = 1 ∧ (c.servers ['a']).node.pushes = [(0,['x'])] ∧
    (∀ i, ∀ e ∈ (c.raft i).logs, e.data ≠ [] → ∃ call ∈ calls, call.Gives e) ∧
    (∀ i record, (c.servers i).node.persist = some record →
      ∀ e ∈ record.entries, e.data ≠ [] → ∃ call ∈ calls, call.Gives e) ∧
    (∀ rpc ∈ c.net, ∀ e ∈ rpc.entries, e.data ≠ [] → ∃ call ∈ calls, call.Gives e) ∧
    ∀ i, ∀ p ∈ (c.servers i).node.pushes, ∃ call ∈ calls, call.cmd = p.2 := by
  obtain ⟨⟨c,calls⟩,hp,hc⟩ := ((machine .two).record Cluster.logCalls).exec_any
    (fun _ _ => True) (.initial .two,[])
    [.run ['a'] (.now 0),.run ['b'] (.now 0),.timer ['a'] (.now 451),.deliver 0 (.now 451),
      .respond 0,.doLog ['a'] ['x'],.deliver 0 (.now 451),.respond 0]
    (fun p => (p.1.raft ['b']).logs.length = 1 ∧
      (p.1.servers ['a']).node.pushes = [(0,['x'])]) (by decide +kernel)
  obtain ⟨hlen,hpush⟩ := of_decide_eq_true hc
  exact ⟨c,calls,hlen,hpush,entries_from_doLog .two hp⟩

end SRaftMuduo
