import SRaftMuduo.Cluster.Wiring

namespace SRaftMuduo

def SRaft.keys (s : SRaft) : List CString := s.peers.map Prod.fst

namespace Node

theorem onTimer_peers (r : Readings) (n : Node) : (n.onTimer r).raft.peers = n.raft.peers := by
  rcases onTimer_cases r n with ⟨-,he⟩ | ⟨-,-,due,he⟩ | ⟨-,-,he⟩ | ⟨-,-,due,he⟩ <;> rw [he]
  · obtain ⟨ci,la,hr⟩ := doAppendEntries_raft true
      {n with raft := {n.raft with dueHeartBeat := due}}
    rw [hr]
  · rcases timerFail_cases r (n.doElection r) with he' | ⟨-,due,he'⟩ <;> rw [he'] <;> simp

theorem doLog_peers (cmd : CString) (n : Node) : (n.doLog cmd).1.raft.peers = n.raft.peers := by
  rcases doLog_cases cmd n with ⟨-,he⟩ | ⟨-,he⟩ | ⟨-,-,-,he⟩ <;> rw [he]
  · rfl
  · obtain ⟨ci,la,hr⟩ := logEntry_raft cmd n
    rw [hr]

theorem onAppendEntriesRequest_peers (request : AppendEntriesRequest) (r : Readings)
    (n : Node) : (n.onAppendEntriesRequest request r).1.raft.peers = n.raft.peers := by
  rcases onAppendEntriesRequest_cases request r n with
    ⟨-,he⟩ | ⟨-,-,-,due,he⟩ | ⟨-,-,-,-,logs,-,he⟩ | ⟨-,-,-,-,he⟩ <;> rw [he]
  all_goals rfl

theorem onRequestVoteRequest_peers (request : RequestVoteRequest) (n : Node) :
    (n.onRequestVoteRequest request).1.raft.peers = n.raft.peers := by
  rcases onRequestVoteRequest_cases request n with
    ⟨-,he,-⟩ | ⟨-,-,-,he⟩ | ⟨-,-,-,-,he⟩ <;> rw [he]
  all_goals rfl

theorem onRequestVoteResponse_peers (response : RequestVoteResponse) (n : Node) :
    (n.onRequestVoteResponse response).raft.peers = n.raft.peers := by
  rcases onRequestVoteResponse_cases response n with
    ⟨-,he⟩ | ⟨-,-,he⟩ | ⟨-,-,-,he⟩ <;> rw [he]
  all_goals rfl

theorem run_peers (r : Readings) (n : Node) : (n.run r).raft.peers = n.raft.peers := by
  unfold run load
  split <;> rfl

theorem setPeer_keys (name : CString) (peer : SRaftPeer) (n : Node) :
    (n.setPeer name peer).raft.keys = n.raft.keys := by
  unfold setPeer SRaft.setPeer SRaft.keys
  simp only [List.map_map]
  refine List.map_congr_left (fun pp _ => ?_)
  by_cases h : pp.1 = name <;> simp [h]

theorem countResponse_keys (response : AppendEntriesResponse) (n : Node) :
    (n.countResponse response).raft.keys = n.raft.keys := by
  rcases countResponse_cases response n with he | he | ⟨peer,mi,-,m,hm,he⟩
  · rw [he]
  · rw [he]
    rfl
  · have hset : m.raft.keys = n.raft.keys := by
      rw [hm]
      exact setPeer_keys _ _ n
    rcases he with he | he | ⟨-,-,-,-,he⟩ <;> rw [he]
    · exact hset
    · exact hset
    · rw [← hset]
      simp [SRaft.keys]

theorem checkTerm_keys (term : Nat) (n : Node) :
    (n.checkTerm term).raft.keys = n.raft.keys := by
  unfold checkTerm
  split_ifs <;> rfl

/-- The only handler that can give `peers_` a new key. -/
theorem onAppendEntriesReponse_keys (response : AppendEntriesResponse) (isHeartbeat : Bool)
    (n : Node) : (n.onAppendEntriesReponse response isHeartbeat).raft.keys =
      (n.touchPeer response.name).raft.keys := by
  rcases onAppendEntriesReponse_cases response isHeartbeat n with
    ⟨-,he⟩ | ⟨-,he | ⟨-,he⟩⟩ <;> rw [he]
  · exact checkTerm_keys _ _
  · rw [countResponse_keys,checkTerm_keys]

theorem touchPeer_keys_mem {name : CString} {n : Node} (h : name ∈ n.raft.keys) :
    (n.touchPeer name).raft.keys = n.raft.keys := by
  have hin : name ∈ n.raft.peers.map Prod.fst := h
  unfold touchPeer SRaft.touchPeer
  rw [if_pos hin]

theorem touchPeer_keys_new {name : CString} {n : Node} (h : name ∉ n.raft.keys) :
    (n.touchPeer name).raft.keys = n.raft.keys++[name] := by
  have hout : name ∉ n.raft.peers.map Prod.fst := h
  unfold touchPeer SRaft.touchPeer
  rw [if_neg hout]
  simp [SRaft.keys]

/-- On the default response both tests of the handler fail, in every role. -/
theorem onRequestVoteResponse_empty (n : Node) : n.onRequestVoteResponse .empty = n := by
  rcases onRequestVoteResponse_cases .empty n with ⟨hlt,-⟩ | ⟨-,-,he⟩ | ⟨-,-,hg,-⟩
  · exact absurd hlt (Nat.not_lt_zero _)
  · exact he
  · exact absurd hg (by decide)

end Node

def Rpc.isVote : Rpc → Bool
  | .voteCall .. => true
  | .voteReply .. => true
  | _ => false

/-- The call has ended with a status that is not OK. -/
def Rpc.failed : Rpc → Bool
  | .voteReply _ _ _ _ response => response = .empty
  | .appendReply _ _ _ _ _ response => response = .empty
  | _ => false

namespace Cluster

/-- A response without a name reaches the handler of `AppendEntries` responses; only a
failed call has one. -/
def nameless (c : Cluster) : Event → Bool
  | .respond k =>
    match c.net[k]? with
    | some (.appendReply _ _ _ _ _ response) => response.name = []
    | _ => false
  | _ => false

def appendNamed (c : Cluster) (e : Event) : Prop := c.nameless e = false

instance (c : Cluster) (e : Event) : Decidable (c.appendNamed e) :=
  inferInstanceAs (Decidable (_ = _))

/-- What a step keeps of a node. -/
def Untouched (old new : Node) : Prop :=
  new.raft = old.raft ∧ new.persist = old.persist ∧ new.channel = old.channel ∧
    new.stopped = old.stopped

end Cluster

/-- `peers_` as `AddPeer` has left it: the keys, a pointer under each, and the size that
the thresholds are computed from. -/
structure PeersKept (cfg : Config) (i : CString) (s : SRaft) : Prop where
  keys : s.keys = cfg.peersOf i
  pointers : ∀ pp ∈ s.peers, pp.2 ≠ none
  size : s.peers.length = cfg.names.length-1

theorem PeersKept.of_keys {cfg : Config} (hcfg : cfg.Symmetric) {i : CString} {s : SRaft}
    (hi : i ∈ cfg.names) (hp : PeersOf (cfg.peersOf i) s.peers) (hk : s.keys = cfg.peersOf i) :
    PeersKept cfg i s := by
  refine ⟨hk,?_,?_⟩
  · obtain ⟨real,hreal,he | ⟨-,he⟩⟩ := hp
    · intro pp hpp
      rw [he] at hpp
      obtain ⟨peer,-,rfl⟩ := List.mem_map.mp hpp
      exact Option.some_ne_none peer
    · have hlen := congrArg List.length hk
      rw [SRaft.keys,he,← hreal] at hlen
      simp at hlen
  · have hlen := congrArg List.length hk
    rw [(hcfg.peers_perm i hi).length_eq,List.length_erase_of_mem hi] at hlen
    rw [← hlen,SRaft.keys,List.length_map]

namespace Cluster

variable {cfg : Config} {c c' : Cluster}

/-- Around the handlers the keys are only made anew, by `AddPeer`. -/
theorem keys_closed (cfg : Config) :
    LocalClosed cfg (fun i n => n.raft.keys = cfg.peersOf i) (fun _ => True) where
  boot := by
    intro i persist life _
    simp [Server.boot,Node.create,SRaft.create,SRaft.keys,Function.comp_def]
  same := by
    rintro i n m h ⟨hr,-⟩
    rw [hr]
    exact h
  sent := fun i n h => h
  rpc := fun _ _ _ _ _ _ _ => trivial
  fail := fun _ _ => trivial

theorem keys_move {e : Event} {i : CString} {n : Node} {net : List Rpc}
    (hnet : ∀ rpc ∈ c.net, WiredRpc cfg rpc) (hok : c.appendNamed e)
    (h : (c.raft i).keys = cfg.peersOf i) (hm : c.Move i e n net) :
    n.raft.keys = cfg.peersOf i := by
  have hsame : n.raft.peers = (c.raft i).peers → n.raft.keys = cfg.peersOf i := by
    intro hp
    rw [← h,SRaft.keys,hp]
    rfl
  cases hm with
  | run r _ => exact hsame (Node.run_peers r _)
  | timer r => exact hsame (Node.onTimer_peers r _)
  | doLog cmd => exact hsame (Node.doLog_peers cmd _)
  | putLog request _ => exact hsame (Node.doLog_peers _ _)
  | voteCall k r src life request response _ _ =>
    exact hsame (Node.onRequestVoteRequest_peers request _)
  | appendCall k r src life request isHeartbeat _ _ =>
    exact hsame (Node.onAppendEntriesRequest_peers request r _)
  | voteReply k dst request response _ =>
    exact hsame (Node.onRequestVoteResponse_peers response _)
  | appendReply k dst request isHeartbeat response hk =>
    obtain ⟨-,hdst,hname⟩ := hnet _ (List.mem_of_getElem? hk)
    have hne : response.name ≠ [] := by simpa [appendNamed,nameless,hk] using hok
    have hmem : response.name ∈ (c.raft i).keys := by
      rw [h]
      exact (hname.resolve_right hne) ▸ hdst
    rw [Node.onAppendEntriesReponse_keys,Node.touchPeer_keys_mem hmem]
    exact h

theorem keys_reachable (h : (machine cfg).Path appendNamed (.initial cfg) c) :
    ∀ i, (c.raft i).keys = cfg.peersOf i := by
  have hboth : (∀ i, Wired cfg i (c.servers i).node) ∧
      (∀ i, (c.raft i).keys = cfg.peersOf i) ∧ ∀ rpc ∈ c.net, WiredRpc cfg rpc := by
    refine Machine.Path.invariant (I := fun c => (∀ i, Wired cfg i (c.servers i).node) ∧
      (∀ i, (c.raft i).keys = cfg.peersOf i) ∧ ∀ rpc ∈ c.net, WiredRpc cfg rpc) ?_ h ?_
    · rintro c e c' ⟨hw,hk,hnet⟩ hok hs
      obtain ⟨hw',hnet'⟩ := (wired_invariant cfg).step ⟨hw,hnet⟩ hs
      have hk' := (keys_closed cfg).step
        (fun i n net _ hm => ⟨keys_move hnet hok (hk i) hm,fun _ _ => trivial⟩)
        ⟨hk,fun _ _ => trivial⟩ hs
      exact ⟨hw',hk'.1,hnet'⟩
    · obtain ⟨hw,hnet⟩ := (wired_invariant cfg).initial
      exact ⟨hw,(keys_closed cfg).initial.1,hnet⟩
  exact hboth.2.1

theorem keys_of_named {i : CString} {s : SRaft} (hp : PeersOf (cfg.peersOf i) s.peers)
    (hn : [] ∉ s.keys) : s.keys = cfg.peersOf i := by
  obtain ⟨real,hreal,he | ⟨-,he⟩⟩ := hp
  · rw [SRaft.keys,he,← hreal]
    simp [Function.comp_def,SRaftPeer.entry]
  · exact absurd (by simp [SRaft.keys,he]) hn

theorem named_of_kept (hcfg : cfg.Symmetric) {i : CString} (hi : i ∈ cfg.names) {s : SRaft}
    (hk : PeersKept cfg i s) : [] ∉ s.keys := by
  rw [hk.keys]
  intro hmem
  exact hcfg.named (List.mem_of_mem_erase ((hcfg.peers_perm i hi).mem_iff.mp hmem))

/-- A failed `AppendEntries` call leaves a key that `AddPeer` did not make. -/
theorem failed_append_keys (n : Node) (isHeartbeat : Bool) :
    [] ∈ (n.onAppendEntriesReponse .empty isHeartbeat).raft.keys := by
  rw [Node.onAppendEntriesReponse_keys]
  by_cases h : [] ∈ n.raft.keys
  · exact (Node.touchPeer_keys_mem h).symm ▸ h
  · exact (Node.touchPeer_keys_new h).symm ▸ List.mem_append_right _ (List.mem_singleton_self _)

/-- `peers_` is as `AddPeer` left it in every run in which the response handler of
`AppendEntries` is never called for a failed call. In every reachable state the handler
called for a failed call changes nothing, and leaves `peers_` so, if and only if the call
was a `RequestVote` and no failed `AppendEntries` has left its null pointer before. -/
theorem failed_call (hcfg : cfg.Symmetric)
    (h : (machine cfg).Path Machine.always (.initial cfg) c) :
    ((machine cfg).Path appendNamed (.initial cfg) c →
      ∀ i ∈ cfg.names, PeersKept cfg i (c.raft i)) ∧
    ∀ k rpc c', c.net[k]? = some rpc → rpc.failed = true →
      (machine cfg).step c (.respond k) = some c' →
      (Untouched (c.servers rpc.src).node (c'.servers rpc.src).node ∧
        PeersKept cfg rpc.src (c'.raft rpc.src) ↔
        rpc.isVote = true ∧ [] ∉ (c.raft rpc.src).keys) := by
  obtain ⟨hw,-⟩ := (wired_invariant cfg).reachable h
  refine ⟨fun hok i hi => .of_keys hcfg hi (hw i).peers (keys_reachable hok i),?_⟩
  intro k rpc c' hk hf hs
  obtain ⟨rpc',hk',hr⟩ := Option.bind_eq_some_iff.mp hs
  obtain rfl := Option.some.inj (hk.symm.trans hk')
  cases rpc with
  | voteCall => exact absurd hf Bool.false_ne_true
  | appendCall => exact absurd hf Bool.false_ne_true
  | voteReply src dst life request response =>
    obtain rfl : response = .empty := of_decide_eq_true hf
    obtain ⟨⟨⟨hin,-⟩,-⟩,⟨⟩⟩ := Option.ite_none_right_eq_some.mp hr
    have hafter : ∀ net, ((c.onNode src ((c.servers src).node.onRequestVoteResponse .empty)
        net).servers src).node = {(c.servers src).node with calls := []} := by
      intro net
      rw [(moved_onNode c src _ net).node,Node.onRequestVoteResponse_empty]
    have hraft : ∀ net, (c.onNode src ((c.servers src).node.onRequestVoteResponse .empty)
        net).raft src = c.raft src := by
      intro net
      rw [raft,hafter]
      rfl
    simp only [Rpc.src,hafter,hraft]
    constructor
    · rintro ⟨-,hkept⟩
      exact ⟨rfl,named_of_kept hcfg hin hkept⟩
    · rintro ⟨-,hn⟩
      exact ⟨⟨rfl,rfl,rfl,rfl⟩,.of_keys hcfg hin (hw src).peers (keys_of_named (hw src).peers hn)⟩
  | appendReply src dst life request isHeartbeat response =>
    obtain rfl : response = .empty := of_decide_eq_true hf
    obtain ⟨⟨⟨hin,-⟩,-⟩,⟨⟩⟩ := Option.ite_none_right_eq_some.mp hr
    refine iff_of_false ?_ (fun hv => Bool.false_ne_true hv.1)
    rintro ⟨-,hkept⟩
    refine named_of_kept hcfg hin hkept ?_
    have hnode := (moved_onNode c src
      ((c.servers src).node.onAppendEntriesReponse .empty isHeartbeat) (c.net.eraseIdx k)).node
    simp only [raft,Rpc.src]
    rw [hnode]
    exact failed_append_keys _ isHeartbeat

/-- Node `a` asks `b` for its vote, the call fails, and `a` stays a candidate. -/
theorem failed_call_vote : ∃ (c c' : Cluster) (rpc : Rpc),
    (machine .two).step c (.respond 0) = some c' ∧ rpc.src = ['a'] ∧
    (c.raft ['a']).state = .candidate ∧
    (∀ i ∈ Config.two.names, PeersKept .two i (c.raft i)) ∧
    Untouched (c.servers rpc.src).node (c'.servers rpc.src).node ∧
    PeersKept .two rpc.src (c'.raft rpc.src) := by
  obtain ⟨c,hp,hc⟩ := Machine.exec_any (machine .two) appendNamed (.initial .two)
    [.run ['a'] (.now 0),.run ['b'] (.now 0),.timer ['a'] (.now 451),.fail 0]
    (fun c => decide ((c.raft ['a']).state = .candidate ∧
      ((machine .two).step c (.respond 0)).isSome ∧ [] ∉ (c.raft ['a']).keys) &&
      c.net[0]?.any (fun rpc => rpc.failed && rpc.isVote && rpc.src = ['a'])) (by decide +kernel)
  obtain ⟨hc,hnet⟩ := Bool.and_eq_true_iff.mp hc
  obtain ⟨hstate,hstep,hkeys⟩ := of_decide_eq_true hc
  obtain ⟨c',hs⟩ := Option.isSome_iff_exists.mp hstep
  obtain ⟨rpc,hk,hrpc⟩ := (Option.any_eq_true _ _).mp hnet
  obtain ⟨⟨hf,hv⟩,hsrc⟩ : (rpc.failed = true ∧ rpc.isVote = true) ∧ rpc.src = ['a'] := by
    simpa using hrpc
  obtain ⟨hkept,hcall⟩ := failed_call Config.two_symmetric (hp.mono (fun _ _ _ => trivial))
  have hafter := (hcall 0 rpc c' hk hf hs).mpr ⟨hv,hsrc ▸ hkeys⟩
  exact ⟨c,c',rpc,hs,hsrc,hstate,hkept hp,hafter⟩

/-- A heartbeat of the leader fails: `peers_` has two entries, one of them a null pointer,
and the next command ends the process in the loop over them. -/
theorem failed_call_heartbeat : ∃ c c' d : Cluster,
    (machine .two).Path Machine.always (.initial .two) c ∧
    (machine .two).step c (.respond 0) = some c' ∧
    (∃ rpc, c.net[0]? = some rpc ∧ rpc.failed = true ∧ rpc.src = ['a']) ∧
    (c.raft ['a']).peers.length = 1 ∧ (c'.raft ['a']).peers.length = 2 ∧
    (c'.raft ['a']).anyNullPeer = true ∧
    (machine .two).step c' (.doLog ['a'] ['x']) = some d ∧
    (d.servers ['a']).node.stopped = true := by
  obtain ⟨c,hp,hc⟩ := Machine.exec_any (machine .two) Machine.always (.initial .two)
    [.run ['a'] (.now 0),.run ['b'] (.now 0),.timer ['a'] (.now 451),.deliver 0 (.now 451),
      .respond 0,.timer ['a'] (.now 451),.fail 0]
    (fun c => c.net[0]?.any (fun rpc => rpc.failed && rpc.src = ['a']) &&
      (c.raft ['a']).peers.length = 1 && ((machine .two).step c (.respond 0)).any (fun c' =>
        (c'.raft ['a']).peers.length = 2 && (c'.raft ['a']).anyNullPeer &&
        ((machine .two).step c' (.doLog ['a'] ['x'])).any (fun d =>
          (d.servers ['a']).node.stopped))) (by decide +kernel)
  simp only [Bool.and_eq_true,Option.any_eq_true,decide_eq_true_eq] at hc
  obtain ⟨⟨⟨rpc,hk,hf,hsrc⟩,hlen⟩,c',hs,⟨hlen',hnull⟩,d,hd,hstop⟩ := hc
  exact ⟨c,c',d,hp,hs,⟨rpc,hk,hf,hsrc⟩,hlen,hlen',hnull,hd,hstop⟩

end Cluster
end SRaftMuduo
