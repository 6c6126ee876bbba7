import SRaftMuduo.Cluster.Moves

namespace SRaftMuduo

def Rpc.src : Rpc → CString
  | .voteCall src _ _ _ => src
  | .voteReply src _ _ _ _ => src
  | .appendCall src _ _ _ _ => src
  | .appendReply src _ _ _ _ _ => src

def Rpc.dst : Rpc → CString
  | .voteCall _ dst _ _ => dst
  | .voteReply _ dst _ _ _ => dst
  | .appendCall _ dst _ _ _ => dst
  | .appendReply _ dst _ _ _ _ => dst

def Call.peer : Call → CString
  | .requestVote peer _ => peer
  | .appendEntries peer _ _ => peer

/-- The entry of `peers_` that `AddPeer` made for a peer. -/
def SRaftPeer.entry (peer : SRaftPeer) : CString × Option SRaftPeer := (peer.name,some peer)

/-- `peers_` holds the given names, each under itself, and at most one null pointer:
the one that the unset name of a failed call inserts. -/
def PeersOf (names : List CString) (peers : List (CString × Option SRaftPeer)) : Prop :=
  ∃ real : List SRaftPeer, real.map SRaftPeer.name = names ∧
    (peers = real.map SRaftPeer.entry ∨
      [] ∉ names ∧ peers = real.map SRaftPeer.entry++[([],none)])

namespace PeersOf

variable {names : List CString} {peers : List (CString × Option SRaftPeer)}

theorem mem_some (h : PeersOf names peers) {name : CString} {peer : SRaftPeer}
    (hm : (name,some peer) ∈ peers) : peer.name = name ∧ name ∈ names := by
  obtain ⟨real,hn,hp⟩ := h
  have hreal : (name,some peer) ∈ real.map SRaftPeer.entry := by
    rcases hp with rfl | ⟨-,rfl⟩
    · exact hm
    · simpa using hm
  obtain ⟨p,hp,he⟩ := List.mem_map.mp hreal
  obtain ⟨hname,hpeer⟩ := Prod.mk.inj he
  obtain rfl := Option.some.inj hpeer
  exact ⟨hname,hn ▸ hname ▸ List.mem_map_of_mem hp⟩

theorem length_le (h : PeersOf names peers) : names.length ≤ peers.length := by
  obtain ⟨real,rfl,rfl | ⟨-,rfl⟩⟩ := h <;> simp

/-- The calls of one round go to every name, in order. -/
theorem callPeers (h : PeersOf names peers) (call : SRaftPeer → Call) :
    ∃ real : List SRaftPeer, real.map SRaftPeer.name = names ∧
      (∀ peer ∈ real, (peer.name,some peer) ∈ peers) ∧
      (Node.callPeers call peers).1 = real.map call := by
  obtain ⟨real,hn,hp⟩ := h
  have hcalls : ∀ last, (last = [] ∨ last = [([],none)]) →
      (Node.callPeers call (real.map SRaftPeer.entry++last)).1 = real.map call := by
    intro last hlast
    clear hn hp
    induction real with
    | nil => rcases hlast with rfl | rfl <;> rfl
    | cons p real ih =>
      change call p::(Node.callPeers call (real.map SRaftPeer.entry++last)).1 = _
      rw [ih]
      rfl
  refine ⟨real,hn,?_,?_⟩
  · intro peer hm
    have he : peer.entry ∈ real.map SRaftPeer.entry := List.mem_map_of_mem hm
    rcases hp with rfl | ⟨-,rfl⟩
    · exact he
    · exact List.mem_append_left _ he
  · rcases hp with rfl | ⟨-,rfl⟩
    · simpa using hcalls [] (.inl rfl)
    · exact hcalls _ (.inr rfl)

theorem touchPeer {s : SRaft} (h : PeersOf names s.peers) {name : CString}
    (hn : name ∈ names ∨ name = []) : PeersOf names (s.touchPeer name).peers := by
  unfold SRaft.touchPeer
  split_ifs with hin
  · exact h
  · obtain ⟨real,rfl,hp | ⟨hnil,hp⟩⟩ := h
    · have hkeys : s.peers.map Prod.fst = real.map SRaftPeer.name := by
        rw [hp,List.map_map]
        rfl
      rw [hkeys] at hin
      rcases hn with hn | rfl
      · exact absurd hn hin
      · exact ⟨real,rfl,.inr ⟨hin,by rw [hp]⟩⟩
    · rcases hn with hn | rfl
      · refine absurd ?_ hin
        rw [hp,List.map_append,List.map_map]
        exact List.mem_append_left _ hn
      · exact absurd (by rw [hp]; simp) hin

theorem setPeer {s : SRaft} (h : PeersOf names s.peers) {name : CString} {peer : SRaftPeer}
    (hn : name ∈ names) (hname : peer.name = name) :
    PeersOf names (s.setPeer name peer).peers := by
  obtain ⟨real,rfl,hp⟩ := h
  have hmap : (real.map SRaftPeer.entry).map
      (fun pp => if pp.1 = name then (name,some peer) else pp) =
      (real.map (fun p => if p.name = name then peer else p)).map SRaftPeer.entry := by
    simp only [List.map_map]
    refine List.map_congr_left (fun p _ => ?_)
    by_cases hpn : p.name = name
    · simp [SRaftPeer.entry,hpn,hname]
    · simp [SRaftPeer.entry,hpn]
  refine ⟨real.map (fun p => if p.name = name then peer else p),?_,?_⟩
  · rw [List.map_map]
    refine List.map_congr_left (fun p _ => ?_)
    by_cases hpn : p.name = name
    · simp [hpn,hname]
    · simp [hpn]
  · rcases hp with hp | ⟨hnil,hp⟩
    · refine .inl ?_
      simp only [SRaft.setPeer,hp]
      exact hmap
    · refine .inr ⟨hnil,?_⟩
      simp only [SRaft.setPeer,hp,List.map_append,hmap]
      have hne : [] ≠ name := fun he => hnil (he ▸ hn)
      simp [hne]

end PeersOf

theorem SRaft.findPeer_mem {s : SRaft} {name : CString} {peer : SRaftPeer}
    (h : s.findPeer name = some peer) : (name,some peer) ∈ s.peers := by
  obtain ⟨⟨x,p⟩,hf,rfl⟩ := Option.bind_eq_some_iff.mp h
  have hx : x = name := by simpa using List.find?_some hf
  exact hx ▸ List.mem_of_find?_eq_some hf

/-- The fields of the node at address `i` that no handler changes, and whom it calls. -/
structure Wired (cfg : Config) (i : CString) (n : Node) : Prop where
  addr : n.raft.addrStr = i
  lastIncludeIndex : n.raft.lastIncludeIndex = -1
  lastIncludeTerm : n.raft.lastIncludeTerm = 0
  peers : PeersOf (cfg.peersOf i) n.raft.peers
  calls : ∀ call ∈ n.calls, call.peer ∈ cfg.peersOf i

namespace Wired

variable {cfg : Config} {i : CString} {n m : Node}

theorem same (h : Wired cfg i n) (ha : m.raft.addrStr = n.raft.addrStr)
    (hi : m.raft.lastIncludeIndex = n.raft.lastIncludeIndex)
    (ht : m.raft.lastIncludeTerm = n.raft.lastIncludeTerm)
    (hp : m.raft.peers = n.raft.peers) (hc : m.calls = n.calls) : Wired cfg i m :=
  ⟨ha ▸ h.addr,hi ▸ h.lastIncludeIndex,ht ▸ h.lastIncludeTerm,hp ▸ h.peers,hc ▸ h.calls⟩

theorem called (h : Wired cfg i n) {call : SRaftPeer → Call}
    (hcall : ∀ peer, (call peer).peer = peer.name) {x : Call}
    (hx : x ∈ (Node.callPeers call n.raft.peers).1) : x.peer ∈ cfg.peersOf i := by
  obtain ⟨name,peer,hm,rfl⟩ := Node.callPeers_mem hx
  obtain ⟨hname,hin⟩ := h.peers.mem_some hm
  rw [hcall,hname]
  exact hin

theorem startCalls (h : Wired cfg i n) (call : SRaftPeer → Call)
    (hcall : ∀ peer, (call peer).peer = peer.name) : Wired cfg i (n.startCalls call) := by
  refine ⟨h.addr,h.lastIncludeIndex,h.lastIncludeTerm,h.peers,?_⟩
  intro x hx
  rcases List.mem_append.mp hx with hx | hx
  · exact h.calls x hx
  · exact h.called hcall hx

theorem doAppendEntries (h : Wired cfg i n) (isHeartbeat : Bool) :
    Wired cfg i (n.doAppendEntries isHeartbeat) := by
  cases isHeartbeat with
  | true =>
    rw [Node.doAppendEntries_heartbeat]
    exact h.startCalls _ (fun _ => rfl)
  | false =>
    by_cases hp : n.raft.peers = []
    · rw [Node.doAppendEntries_alone n hp]
      exact h.same (by simp [Node.commitAlone]) (by simp [Node.commitAlone])
        (by simp [Node.commitAlone]) (by simp [Node.commitAlone]) (by simp [Node.commitAlone])
    · rw [Node.doAppendEntries_peers n hp]
      exact h.startCalls _ (fun _ => rfl)

theorem doElection (h : Wired cfg i n) (r : Readings) : Wired cfg i (n.doElection r) := by
  refine ⟨by simpa using h.addr,by simpa using h.lastIncludeIndex,
    by simpa using h.lastIncludeTerm,by simpa using h.peers,?_⟩
  intro x hx
  rw [Node.doElection_calls] at hx
  rcases List.mem_append.mp hx with hx | hx
  · exact h.calls x hx
  · exact h.called (fun _ => rfl) hx

theorem onTimer (h : Wired cfg i n) (r : Readings) : Wired cfg i (n.onTimer r) := by
  rcases Node.onTimer_cases r n with ⟨-,he⟩ | ⟨-,-,due,he⟩ | ⟨-,-,he⟩ | ⟨-,-,due,he⟩ <;> rw [he]
  · exact h
  · exact (h.same (m := {n with raft := {n.raft with dueHeartBeat := due}})
      rfl rfl rfl rfl rfl).doAppendEntries true
  · rcases Node.timerFail_cases r (n.doElection r) with he' | ⟨-,due,he'⟩ <;> rw [he']
    · exact h.doElection r
    · exact (h.doElection r).same rfl rfl rfl rfl rfl
  · exact h.same rfl rfl rfl rfl rfl

theorem doLog (h : Wired cfg i n) (cmd : CString) : Wired cfg i (n.doLog cmd).1 := by
  rcases Node.doLog_cases cmd n with ⟨-,he⟩ | ⟨-,he⟩ | ⟨-,-,-,he⟩ <;> rw [he]
  · exact h
  · exact h.same rfl rfl rfl rfl rfl
  · have hd : Wired cfg i (Node.dump {n with raft := {n.raft with
        logs := n.raft.logs++[Node.newEntry cmd n.raft]}}) := h.same rfl rfl rfl rfl rfl
    exact hd.doAppendEntries false

theorem onAppendEntriesRequest (h : Wired cfg i n) (request : AppendEntriesRequest)
    (r : Readings) : Wired cfg i (n.onAppendEntriesRequest request r).1 ∧
      (n.onAppendEntriesRequest request r).2.name = i := by
  have hname : (Node.appendResponse n.raft request).name = i := h.addr
  rcases Node.onAppendEntriesRequest_cases request r n with
    ⟨-,he⟩ | ⟨-,-,-,due,he⟩ | ⟨-,-,-,-,logs,-,he⟩ | ⟨-,-,-,-,he⟩ <;> rw [he]
  · exact ⟨h,hname⟩
  · exact ⟨h.same rfl rfl rfl rfl rfl,hname⟩
  · exact ⟨h.same rfl rfl rfl rfl rfl,hname⟩
  · exact ⟨h.same rfl rfl rfl rfl rfl,hname⟩

theorem touchPeer (h : Wired cfg i n) {name : CString}
    (hn : name ∈ cfg.peersOf i ∨ name = []) : Wired cfg i (n.touchPeer name) := by
  obtain ⟨peers,hp⟩ := Node.touchPeer_raft name n
  have hpeers := h.peers.touchPeer hn
  exact ⟨by rw [hp]; exact h.addr,by rw [hp]; exact h.lastIncludeIndex,
    by rw [hp]; exact h.lastIncludeTerm,hpeers,h.calls⟩

theorem checkTerm (h : Wired cfg i n) (term : Nat) : Wired cfg i (n.checkTerm term) := by
  unfold Node.checkTerm
  split_ifs
  · exact h.same rfl rfl rfl rfl rfl
  · exact h

theorem countResponse (h : Wired cfg i n) (response : AppendEntriesResponse) :
    Wired cfg i (n.countResponse response) := by
  rcases Node.countResponse_cases response n with he | he | ⟨peer,mi,hf,m,hm,he⟩
  · rwa [he]
  · rw [he]
    exact h.same rfl rfl rfl rfl rfl
  · have hset : Wired cfg i m := by
      obtain ⟨hname,hin⟩ := h.peers.mem_some (SRaft.findPeer_mem hf)
      rw [hm]
      exact ⟨h.addr,h.lastIncludeIndex,h.lastIncludeTerm,h.peers.setPeer hin hname,h.calls⟩
    rcases he with he | he | ⟨-,-,-,-,he⟩ <;> rw [he]
    · exact hset
    · exact hset.same rfl rfl rfl rfl rfl
    · exact hset.same (by simp) (by simp) (by simp) (by simp) (by simp)

theorem onAppendEntriesReponse (h : Wired cfg i n) {response : AppendEntriesResponse}
    (hn : response.name ∈ cfg.peersOf i ∨ response.name = []) (isHeartbeat : Bool) :
    Wired cfg i (n.onAppendEntriesReponse response isHeartbeat) := by
  have ht := h.touchPeer hn
  rcases Node.onAppendEntriesReponse_cases response isHeartbeat n with
    ⟨-,he⟩ | ⟨-,he | ⟨-,he⟩⟩ <;> rw [he]
  · exact ht
  · exact ht.checkTerm _
  · exact (ht.checkTerm _).countResponse response

theorem onRequestVoteRequest (h : Wired cfg i n) (request : RequestVoteRequest) :
    Wired cfg i (n.onRequestVoteRequest request).1 := by
  rcases Node.onRequestVoteRequest_cases request n with
    ⟨-,he,-⟩ | ⟨-,-,-,he⟩ | ⟨-,-,-,-,he⟩ <;> rw [he]
  · exact h
  · exact h.same rfl rfl rfl rfl rfl
  · exact h.same rfl rfl rfl rfl rfl

theorem onRequestVoteResponse (h : Wired cfg i n) (response : RequestVoteResponse) :
    Wired cfg i (n.onRequestVoteResponse response) := by
  rcases Node.onRequestVoteResponse_cases response n with
    ⟨-,he⟩ | ⟨-,-,he⟩ | ⟨-,-,-,he⟩ <;> rw [he]
  · exact h.same rfl rfl rfl rfl rfl
  · exact h
  · exact h.same rfl rfl rfl rfl rfl

theorem run (h : Wired cfg i n) (r : Readings) : Wired cfg i (n.run r) := by
  have hload : Wired cfg i n.load := by
    unfold Node.load
    split
    · exact h
    · exact h.same rfl rfl rfl rfl rfl
  exact hload.same rfl rfl rfl rfl rfl

theorem boot (cfg : Config) (i : CString) (persist : Option PersistRecord) (life : Nat) :
    Wired cfg i (Server.boot cfg i persist life).node := by
  refine ⟨rfl,rfl,rfl,⟨(cfg.peersOf i).map (fun name => ⟨name,0,-1⟩),?_,.inl ?_⟩,?_⟩
  · simp [Function.comp_def]
  · simp [Server.boot,Node.create,SRaft.create,Function.comp_def,SRaftPeer.entry]
  · simp [Server.boot,Node.create]

end Wired

def AnswerName : Rpc → Prop
  | .appendReply _ dst _ _ _ response => response.name = dst ∨ response.name = []
  | _ => True

/-- A call goes from a node to a peer of it, and its answer has the peer's name or none. -/
structure WiredRpc (cfg : Config) (rpc : Rpc) : Prop where
  src : rpc.src ∈ cfg.names
  dst : rpc.dst ∈ cfg.peersOf rpc.src
  name : AnswerName rpc

theorem wired_invariant (cfg : Config) : LocalInvariant cfg (Wired cfg) (WiredRpc cfg) where
  boot := fun i persist life _ => Wired.boot cfg i persist life
  same := by
    rintro i n m h ⟨hr,-,hc,-⟩
    exact h.same (hr ▸ rfl) (hr ▸ rfl) (hr ▸ rfl) (hr ▸ rfl) hc
  sent := fun i n h => ⟨h.addr,h.lastIncludeIndex,h.lastIncludeTerm,h.peers,by simp⟩
  rpc := by
    intro i n life call hi h hc
    have hcall := h.calls call hc
    cases call with
    | requestVote => exact ⟨hi,hcall,trivial⟩
    | appendEntries => exact ⟨hi,hcall,trivial⟩
  fail := by
    intro rpc h
    cases rpc with
    | voteCall => exact ⟨h.src,h.dst,trivial⟩
    | voteReply => exact ⟨h.src,h.dst,trivial⟩
    | appendCall => exact ⟨h.src,h.dst,.inr rfl⟩
    | appendReply => exact ⟨h.src,h.dst,.inr rfl⟩
  move := by
    intro c i e n net _ hn hnet hm
    cases hm with
    | run r _ => exact ⟨hn.run r,hnet⟩
    | timer r => exact ⟨hn.onTimer r,hnet⟩
    | doLog cmd => exact ⟨hn.doLog cmd,hnet⟩
    | putLog request _ => exact ⟨hn.doLog _,hnet⟩
    | voteCall k r src life request response hk _ =>
      have hrpc := hnet _ (List.mem_of_getElem? hk)
      refine ⟨hn.onRequestVoteRequest request,?_⟩
      intro rpc hmem
      rcases List.mem_or_eq_of_mem_set hmem with hmem | rfl
      · exact hnet rpc hmem
      · exact ⟨hrpc.src,hrpc.dst,trivial⟩
    | appendCall k r src life request isHeartbeat hk _ =>
      have hrpc := hnet _ (List.mem_of_getElem? hk)
      obtain ⟨ht,hname⟩ := hn.onAppendEntriesRequest request r
      refine ⟨ht,?_⟩
      intro rpc hmem
      rcases List.mem_or_eq_of_mem_set hmem with hmem | rfl
      · exact hnet rpc hmem
      · exact ⟨hrpc.src,hrpc.dst,.inl hname⟩
    | voteReply k dst request response _ =>
      exact ⟨hn.onRequestVoteResponse response,
        fun rpc hmem => hnet rpc (List.mem_of_mem_eraseIdx hmem)⟩
    | appendReply k dst request isHeartbeat response hk =>
      obtain ⟨-,hdst,hname⟩ := hnet _ (List.mem_of_getElem? hk)
      refine ⟨hn.onAppendEntriesReponse ?_ isHeartbeat,
        fun rpc hmem => hnet rpc (List.mem_of_mem_eraseIdx hmem)⟩
      rcases hname with hname | hname
      · exact .inl (hname ▸ hdst)
      · exact .inr hname

/-- With symmetric peers both ends of a call are nodes that have a peer. -/
theorem WiredRpc.symmetric {cfg : Config} (hc : cfg.Symmetric) {rpc : Rpc}
    (h : WiredRpc cfg rpc) :
    rpc.dst ∈ cfg.names ∧ rpc.dst ≠ rpc.src ∧ rpc.src ∈ cfg.peersOf rpc.dst := by
  have hdst := (hc.peers_perm _ h.src).mem_iff.mp h.dst
  obtain ⟨hne,hin⟩ := (hc.nodup.mem_erase_iff).mp hdst
  refine ⟨hin,hne,(hc.peers_perm _ hin).mem_iff.mpr ?_⟩
  exact (hc.nodup.mem_erase_iff).mpr ⟨hne.symm,h.src⟩

end SRaftMuduo
