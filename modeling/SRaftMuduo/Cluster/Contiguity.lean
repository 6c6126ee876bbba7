import SRaftMuduo.Cluster.Moves
import SRaftMuduo.Raft.Lookup

namespace SRaftMuduo

/-- The entries of a request that parses continue its previous index. -/
def TidyRequest (request : AppendEntriesRequest) : Prop :=
  -1 ≤ request.prevLogIndex ∧ (request.parses = true →
    ContiguousFrom (request.prevLogIndex+1) request.entries)

def TidyResponse (response : AppendEntriesResponse) : Prop :=
  -1 ≤ response.lastLogIndex ∧ response.lastLogIndex < 2^63

def TidyCall : Call → Prop
  | .requestVote _ _ => True
  | .appendEntries _ request _ => TidyRequest request

def TidyPeers (peers : List (CString × Option SRaftPeer)) : Prop :=
  ∀ name peer, (name,some peer) ∈ peers → 0 ≤ peer.nextIndex ∧ peer.nextIndex ≤ 2^63

/-- Contiguity of the logs in memory and on disk, and what it rests on. -/
structure Tidy (n : Node) : Prop where
  logs : Contiguous n.raft.logs
  disk : ∀ record, n.persist = some record → Contiguous record.entries
  peers : TidyPeers n.raft.peers
  calls : ∀ call ∈ n.calls, TidyCall call

namespace Tidy

variable {n m : Node}

/-- Handlers that leave the log and the peers, and that may have called `Dump`. -/
theorem same (h : Tidy n) (hl : m.raft.logs = n.raft.logs)
    (hp : m.raft.peers = n.raft.peers) (hc : m.calls = n.calls)
    (hd : m.persist = n.persist ∨ ∃ record, m.persist = some record ∧
      record.entries = n.raft.logs) : Tidy m := by
  refine ⟨hl ▸ h.logs,?_,hp ▸ h.peers,hc ▸ h.calls⟩
  intro record hr
  rcases hd with hd | ⟨record',hd,he⟩
  · exact h.disk record (hd ▸ hr)
  · obtain rfl := Option.some.inj (hd.symm.trans hr)
    exact he ▸ h.logs

theorem startCalls (h : Tidy n) (call : SRaftPeer → Call)
    (hc : ∀ name peer, (name,some peer) ∈ n.raft.peers → TidyCall (call peer)) :
    Tidy (n.startCalls call) := by
  refine ⟨h.logs,h.disk,h.peers,?_⟩
  intro x hx
  rw [Node.startCalls_calls] at hx
  rcases List.mem_append.mp hx with hx | hx
  · exact h.calls x hx
  · obtain ⟨name,peer,hm,rfl⟩ := Node.callPeers_mem hx
    exact hc name peer hm

theorem appendRequest {s : SRaft} {peer : SRaftPeer} (isHeartbeat : Bool)
    (hl : Contiguous s.logs) (h0 : 0 ≤ peer.nextIndex) (h1 : peer.nextIndex ≤ 2^63) :
    TidyRequest (s.appendRequest isHeartbeat peer) := by
  cases isHeartbeat with
  | true => exact ⟨le_refl _,fun _ => .nil _⟩
  | false =>
    refine ⟨by simp [SRaft.appendRequest]; omega,?_⟩
    intro hp k e hk
    have hmem := List.mem_of_getElem? hk
    have hreq := List.all_eq_true.mp hp e hmem
    -- the entry is the answer of a lookup, and its presence bit tells that one was found
    have hi : toU64 (max 0 peer.nextIndex) = peer.nextIndex.toNat := by
      rw [toU64_of_nonneg (by omega) (by omega)]
      omega
    have hk : (s.entriesFrom peer.nextIndex)[k]? = some e := hk
    have hlast := toU64_lt s.lastLogIndex
    simp only [SRaft.entriesFrom,hi,List.getElem?_map,Option.map_eq_some_iff] at hk
    obtain ⟨j,hj,rfl⟩ := hk
    obtain ⟨hlt,hj⟩ := List.getElem?_eq_some_iff.mp hj
    rw [List.getElem_range'] at hj
    rw [List.length_range'] at hlt
    rcases SRaft.getLogByIndex_cases hl (show j < 2^64 by omega) with hg | ⟨e',he',hx,hg⟩
    · rw [hg] at hreq
      exact absurd hreq (by decide)
    · rw [hg] at hreq ⊢
      obtain ⟨base,hb,hc⟩ := hl
      obtain ⟨i,hi'⟩ := List.mem_iff_getElem?.mp he'
      have hprev : (s.appendRequest false peer).prevLogIndex = peer.nextIndex-1 := rfl
      exact ⟨by rw [hprev]; omega,(hc i e' hi').2.1,hreq⟩

theorem doAppendEntries (h : Tidy n) (isHeartbeat : Bool) :
    Tidy (n.doAppendEntries isHeartbeat) := by
  have hpeers : ∀ isHeartbeat, Tidy (n.startCalls (fun peer =>
      .appendEntries peer.name (n.raft.appendRequest isHeartbeat peer) isHeartbeat)) := by
    intro isHeartbeat
    refine h.startCalls _ (fun name peer hm => ?_)
    obtain ⟨h0,h1⟩ := h.peers name peer hm
    exact appendRequest isHeartbeat h.logs h0 h1
  cases isHeartbeat with
  | true =>
    rw [Node.doAppendEntries_heartbeat]
    exact hpeers true
  | false =>
    by_cases hp : n.raft.peers = []
    · rw [Node.doAppendEntries_alone n hp]
      exact h.same (by simp [Node.commitAlone]) (by simp [Node.commitAlone])
        (by simp [Node.commitAlone]) (.inl (by simp [Node.commitAlone]))
    · rw [Node.doAppendEntries_peers n hp]
      exact hpeers false

theorem doElection (h : Tidy n) (r : Readings) : Tidy (n.doElection r) := by
  refine ⟨by simpa using h.logs,?_,by simpa using h.peers,?_⟩
  · intro record hr
    rw [Node.doElection_persist] at hr
    obtain rfl := Option.some.inj hr
    exact h.logs
  · intro call hc
    rw [Node.doElection_calls] at hc
    rcases List.mem_append.mp hc with hc | hc
    · exact h.calls call hc
    · obtain ⟨_,_,_,rfl⟩ := Node.callPeers_mem hc
      exact trivial

theorem timerFail (h : Tidy n) (r : Readings) : Tidy (n.timerFail r) := by
  rcases Node.timerFail_cases r n with he | ⟨-,due,he⟩
  · rwa [he]
  · rw [he]
    exact h.same rfl rfl rfl (.inl rfl)

theorem onTimer (h : Tidy n) (r : Readings) : Tidy (n.onTimer r) := by
  rcases Node.onTimer_cases r n with ⟨-,he⟩ | ⟨-,-,due,he⟩ | ⟨-,-,he⟩ | ⟨-,-,due,he⟩
  · rwa [he]
  · rw [he]
    exact (h.same (m := {n with raft := {n.raft with dueHeartBeat := due}})
      rfl rfl rfl (.inl rfl)).doAppendEntries true
  · rw [he]
    exact (h.doElection r).timerFail r
  · rw [he]
    exact h.same rfl rfl rfl (.inl rfl)

theorem newEntry {s : SRaft} (cmd : CString) (hl : Contiguous s.logs)
    (hb : s.lastLogIndex+1 < 2^63) : Contiguous (s.logs++[Node.newEntry cmd s]) := by
  obtain ⟨base,h0,hc⟩ := hl
  by_cases hn : s.logs = []
  · refine ⟨0,le_refl _,?_⟩
    rw [hn]
    exact .singleton (by simp [Node.newEntry,SRaft.lastLogIndex_nil hn]) (by decide) rfl
  · refine ⟨base,h0,hc.append (.singleton ?_ ?_ rfl)⟩
    · simp only [Node.newEntry,SRaft.lastLogIndex_eq hc hn]
      omega
    · rw [SRaft.lastLogIndex_eq hc hn] at hb
      omega

theorem doLog (h : Tidy n) (cmd : CString) : Tidy (n.doLog cmd).1 := by
  rcases Node.doLog_cases cmd n with ⟨-,he⟩ | ⟨-,he⟩ | ⟨-,-,hb,he⟩
  · rwa [he]
  · rw [he]
    exact h.same rfl rfl rfl (.inl rfl)
  · rw [he]
    have hl := newEntry cmd h.logs hb
    have hd : Tidy (Node.dump {n with raft := {n.raft with
        logs := n.raft.logs++[Node.newEntry cmd n.raft]}}) := by
      refine ⟨hl,?_,h.peers,h.calls⟩
      intro record hr
      obtain rfl := Option.some.inj hr
      exact hl
    exact hd.doAppendEntries false

theorem splice {s : SRaft} {request : AppendEntriesRequest} (hl : Contiguous s.logs)
    (hr : TidyRequest request) (hp : request.parses = true) :
    Contiguous (Node.splice s request) := by
  have hc := hr.2 hp
  have hprev := hr.1
  rcases Node.splice_cases s request with ⟨-,he⟩ | ⟨i,e,hi,-,hx,-,he⟩
  · rw [he]
    exact ⟨_,by omega,hc⟩
  · rw [he]
    obtain ⟨base,h0,hb⟩ := hl
    have hidx := hb i e hi
    refine ⟨base,h0,(hb.take (i+1)).append ?_⟩
    have hlen : (s.logs.take (i+1)).length = i+1 := by
      have := (List.getElem?_eq_some_iff.mp hi).1
      rw [List.length_take]
      omega
    by_cases hn : request.entries = []
    · rw [hn]
      exact .nil _
    -- an entry follows the previous index, so that index is within `int64_t`
    have hpos := hc.length_le hn
    have hsame : e.index = request.prevLogIndex :=
      toU64_inj (by omega) (by omega) (by omega) (by
        have : 0 < request.entries.length := List.length_pos_iff.mpr hn
        omega) hx
    rw [hlen]
    have heq : base+((i+1 : Nat) : Int) = request.prevLogIndex+1 := by
      push_cast
      omega
    rwa [heq]

theorem onAppendEntriesRequest (h : Tidy n) {request : AppendEntriesRequest}
    (hr : TidyRequest request) (hp : request.parses = true) (r : Readings) :
    Tidy (n.onAppendEntriesRequest request r).1 ∧
      TidyResponse (n.onAppendEntriesRequest request r).2 := by
  have hb := SRaft.lastLogIndex_bounds h.logs
  rcases Node.onAppendEntriesRequest_cases request r n with
    ⟨-,he⟩ | ⟨-,-,-,due,he⟩ | ⟨-,-,-,-,logs,hlogs,he⟩ | ⟨-,-,-,-,he⟩
  · rw [he]
    exact ⟨h,hb⟩
  · rw [he]
    exact ⟨h.same rfl rfl rfl (.inl rfl),hb⟩
  · have hl : Contiguous logs := hlogs ▸ splice h.logs hr hp
    rw [he]
    refine ⟨⟨hl,?_,h.peers,h.calls⟩,SRaft.lastLogIndex_bounds hl⟩
    intro record hd
    obtain rfl := Option.some.inj hd
    exact hl
  · rw [he]
    exact ⟨h.same rfl rfl rfl (.inr ⟨_,rfl,rfl⟩),hb⟩

theorem touchPeer (h : Tidy n) (name : CString) : Tidy (n.touchPeer name) := by
  unfold Node.touchPeer SRaft.touchPeer
  split_ifs with hn
  · exact h
  · refine ⟨h.logs,h.disk,?_,h.calls⟩
    intro x peer hm
    rcases List.mem_append.mp hm with hm | hm
    · exact h.peers x peer hm
    · simp at hm

theorem setPeer (h : Tidy n) (name : CString) {peer : SRaftPeer} (h0 : 0 ≤ peer.nextIndex)
    (h1 : peer.nextIndex ≤ 2^63) : Tidy (n.setPeer name peer) := by
  refine ⟨h.logs,h.disk,?_,h.calls⟩
  intro x peer' hm
  obtain ⟨⟨y,old⟩,hold,he⟩ := List.mem_map.mp hm
  split_ifs at he with hy
  · obtain rfl := Option.some.inj (Prod.mk.inj he).2
    exact ⟨h0,h1⟩
  · exact h.peers x peer' (he ▸ hold)

theorem stepDown (h : Tidy n) : Tidy n.stepDown :=
  h.same rfl rfl rfl (.inr ⟨_,rfl,rfl⟩)

theorem checkTerm (h : Tidy n) (term : Nat) : Tidy (n.checkTerm term) := by
  unfold Node.checkTerm
  split_ifs
  · exact h.stepDown
  · exact h

theorem countResponse (h : Tidy n) {response : AppendEntriesResponse}
    (hr : TidyResponse response) : Tidy (n.countResponse response) := by
  obtain ⟨hlo,hhi⟩ := hr
  rcases Node.countResponse_cases response n with he | he | ⟨peer,mi,-,m,hm,he⟩
  · rwa [he]
  · rw [he]
    exact h.same rfl rfl rfl (.inl rfl)
  · have hset : Tidy m := by
      rw [hm]
      exact h.setPeer _ (by dsimp only; omega) (by dsimp only; omega)
    rcases he with he | he | ⟨-,-,-,-,he⟩
    · rwa [he]
    · rw [he]
      exact hset.same rfl rfl rfl (.inl rfl)
    · rw [he]
      exact hset.same (by simp) (by simp) (by simp) (.inl (by simp))

theorem onAppendEntriesReponse (h : Tidy n) {response : AppendEntriesResponse}
    (hr : TidyResponse response) (isHeartbeat : Bool) :
    Tidy (n.onAppendEntriesReponse response isHeartbeat) := by
  have ht := h.touchPeer response.name
  rcases Node.onAppendEntriesReponse_cases response isHeartbeat n with
    ⟨-,he⟩ | ⟨-,he | ⟨-,he⟩⟩
  · rwa [he]
  · rw [he]
    exact ht.checkTerm _
  · rw [he]
    exact (ht.checkTerm _).countResponse hr

theorem onRequestVoteRequest (h : Tidy n) (request : RequestVoteRequest) :
    Tidy (n.onRequestVoteRequest request).1 := by
  rcases Node.onRequestVoteRequest_cases request n with ⟨-,he,-⟩ | ⟨-,-,-,he⟩ | ⟨-,-,-,-,he⟩
  · rwa [he]
  · rw [he]
    exact h.same rfl rfl rfl (.inl rfl)
  · rw [he]
    exact h.same rfl rfl rfl (.inr ⟨_,rfl,rfl⟩)

theorem onRequestVoteResponse (h : Tidy n) (response : RequestVoteResponse) :
    Tidy (n.onRequestVoteResponse response) := by
  rcases Node.onRequestVoteResponse_cases response n with ⟨-,he⟩ | ⟨-,-,he⟩ | ⟨-,-,-,he⟩
  · rw [he]
    exact h.same rfl rfl rfl (.inr ⟨_,rfl,rfl⟩)
  · rwa [he]
  · rw [he]
    exact h.same rfl rfl rfl (.inl rfl)

theorem run (h : Tidy n) (r : Readings) : Tidy (n.run r) := by
  have hload : Tidy n.load := by
    unfold Node.load
    split
    · exact h
    · next record hr => exact ⟨h.disk record hr,h.disk,h.peers,h.calls⟩
  exact hload.same rfl rfl rfl (.inl rfl)

theorem boot {cfg : Config} (i : CString) {persist : Option PersistRecord} (life : Nat)
    (hd : ∀ record, persist = some record → Contiguous record.entries) :
    Tidy (Server.boot cfg i persist life).node := by
  refine ⟨⟨0,le_refl _,.nil _⟩,hd,?_,by simp [Server.boot,Node.create]⟩
  intro name peer hm
  obtain ⟨x,-,hx⟩ := List.mem_map.mp hm
  obtain ⟨-,hp⟩ := Prod.mk.inj hx
  obtain rfl := Option.some.inj hp
  have hbound : (0 : Int) ≤ 2^63 := by decide
  exact ⟨le_refl _,hbound⟩

end Tidy

def TidyRpc : Rpc → Prop
  | .voteCall .. => True
  | .voteReply .. => True
  | .appendCall _ _ _ request _ => TidyRequest request
  | .appendReply _ _ _ request _ response => TidyRequest request ∧ TidyResponse response

/-- Contiguity of every log, in memory, on disk and on the way, holds in every reachable
state of every cluster. -/
theorem tidy_invariant (cfg : Config) : LocalInvariant cfg (fun _ => Tidy) TidyRpc where
  boot := by
    rintro i persist life (rfl | ⟨n,hn,rfl⟩)
    · exact Tidy.boot i life (by simp)
    · exact Tidy.boot i life hn.disk
  same := by
    rintro i n m h ⟨hr,hp,hc,-⟩
    exact ⟨hr ▸ h.logs,hp ▸ h.disk,hr ▸ h.peers,hc ▸ h.calls⟩
  sent := fun i n h => ⟨h.logs,h.disk,h.peers,by simp⟩
  rpc := by
    intro i n life call _ h hc
    have hcall := h.calls call hc
    cases call with
    | requestVote => exact trivial
    | appendEntries => exact hcall
  fail := by
    intro rpc h
    have hempty : TidyResponse .empty := ⟨by decide,by decide⟩
    cases rpc with
    | voteCall => exact trivial
    | voteReply => exact trivial
    | appendCall => exact ⟨h,hempty⟩
    | appendReply => exact ⟨h.1,hempty⟩
  move := by
    intro c i e n net _ hn hnet hm
    cases hm with
    | run r _ => exact ⟨hn.run r,hnet⟩
    | timer r => exact ⟨hn.onTimer r,hnet⟩
    | doLog cmd => exact ⟨hn.doLog cmd,hnet⟩
    | putLog request _ => exact ⟨hn.doLog _,hnet⟩
    | voteCall k r src life request response hk _ =>
      refine ⟨hn.onRequestVoteRequest request,?_⟩
      intro rpc hrpc
      rcases List.mem_or_eq_of_mem_set hrpc with hrpc | rfl
      · exact hnet rpc hrpc
      · exact trivial
    | appendCall k r src life request isHeartbeat hk hp =>
      have hreq : TidyRequest request := hnet _ (List.mem_of_getElem? hk)
      obtain ⟨ht,hresp⟩ := hn.onAppendEntriesRequest hreq hp r
      refine ⟨ht,?_⟩
      intro rpc hrpc
      rcases List.mem_or_eq_of_mem_set hrpc with hrpc | rfl
      · exact hnet rpc hrpc
      · exact ⟨hreq,hresp⟩
    | voteReply k dst request response _ =>
      exact ⟨hn.onRequestVoteResponse response,
        fun rpc hrpc => hnet rpc (List.mem_of_mem_eraseIdx hrpc)⟩
    | appendReply k dst request isHeartbeat response hk =>
      have hresp : TidyRequest request ∧ TidyResponse response :=
        hnet _ (List.mem_of_getElem? hk)
      exact ⟨hn.onAppendEntriesReponse hresp.2 isHeartbeat,
        fun rpc hrpc => hnet rpc (List.mem_of_mem_eraseIdx hrpc)⟩

/-- Positions and indices of a log differ by its base, so that `GetLogByIndex` returns
the entry with the given index, and the default entry when there is none. -/
theorem log_contiguous_lookup (cfg : Config) (c : Cluster) (i : CString)
    (h : (machine cfg).Path Machine.always (.initial cfg) c) :
    (∀ (k : Nat) (e : LogEntry), (c.raft i).logs[k]? = some e →
      e.index = (c.raft i).baseLogIndex+k) ∧
    ((c.raft i).logs ≠ [] → 0 ≤ (c.raft i).baseLogIndex) ∧
    ∀ k : Int, 0 ≤ k → k < 2^63 →
      (∀ e ∈ (c.raft i).logs, e.index = k → (c.raft i).getLogByIndex (toU64 k) = e) ∧
      ((∀ e ∈ (c.raft i).logs, e.index ≠ k) →
        (c.raft i).getLogByIndex (toU64 k) = LogEntry.empty) := by
  have hl : Contiguous (c.raft i).logs := (((tidy_invariant cfg).reachable h).1 i).logs
  obtain ⟨base,h0,hc⟩ := id hl
  refine ⟨?_,?_,?_⟩
  · intro k e hk
    have hn := List.ne_nil_of_mem (List.mem_of_getElem? hk)
    rw [SRaft.baseLogIndex_eq hc hn]
    exact (hc k e hk).1
  · intro hn
    rwa [SRaft.baseLogIndex_eq hc hn]
  · intro k hk0 hk
    refine ⟨?_,SRaft.getLogByIndex_absent hl hk0 hk⟩
    rintro e he rfl
    exact SRaft.getLogByIndex_mem hl he

/-- The same in a run in which a leader has logged a command. -/
theorem log_contiguous_lookup_two : ∃ c : Cluster, (c.raft ['a']).logs.length = 1 ∧
    (∀ (k : Nat) (e : LogEntry), (c.raft ['a']).logs[k]? = some e →
      e.index = (c.raft ['a']).baseLogIndex+k) ∧
    ((c.raft ['a']).logs ≠ [] → 0 ≤ (c.raft ['a']).baseLogIndex) ∧
    ∀ k : Int, 0 ≤ k → k < 2^63 →
      (∀ e ∈ (c.raft ['a']).logs, e.index = k →
        (c.raft ['a']).getLogByIndex (toU64 k) = e) ∧
      ((∀ e ∈ (c.raft ['a']).logs, e.index ≠ k) →
        (c.raft ['a']).getLogByIndex (toU64 k) = LogEntry.empty) := by
  obtain ⟨c,hp,hlen⟩ := Machine.exec_any (machine .two) Machine.always (.initial .two)
    [.run ['a'] (.now 0),.run ['b'] (.now 0),.timer ['a'] (.now 451),.deliver 0 (.now 451),
      .respond 0,.doLog ['a'] ['x']]
    (fun c => (c.raft ['a']).logs.length = 1) (by decide +kernel)
  exact ⟨c,by simpa using hlen,log_contiguous_lookup .two c ['a'] hp⟩

end SRaftMuduo
