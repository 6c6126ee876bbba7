import SRaftMuduo.Cluster.LogMatching
import SRaftMuduo.Cluster.Pipeline
import SRaftMuduo.Framework.Replication.Acks

namespace SRaftMuduo

open Replication

namespace Node

/-- A node with entries gives its vote to one without. -/
def grantsEmpty (request : RequestVoteRequest) (n : Node) : Prop :=
  n.raft.running = true ∧ n.raft.currentTerm < request.term ∧ n.raft.logs ≠ [] ∧
    request.lastLogIndex = -1

/-- Entries are taken from the leader of a term that the node is not in yet. -/
def takesAhead (request : AppendEntriesRequest) (n : Node) : Prop :=
  n.takesEntries request ∧ n.raft.currentTerm < request.term

/-- Entries that were sent earlier take the log back behind later ones. -/
def takesBack (request : AppendEntriesRequest) (n : Node) : Prop :=
  n.takesEntries request ∧ splice n.raft request <+: n.raft.logs ∧
    (splice n.raft request).length < n.raft.logs.length

/-- A node becomes leader with the match index of an earlier leadership above its log. -/
def winsStale (size : Nat) (response : RequestVoteResponse) (n : Node) : Prop :=
  n.winsWith response ∧ 3 < size ∧
    n.raft.peers.any (fun pp => pp.2.any (fun peer => n.raft.lastLogIndex < peer.matchIndex)) = true

/-- The response can move `commitIndex_`. -/
def countsAck (response : AppendEntriesResponse) (isHeartbeat : Bool) (n : Node) : Prop :=
  n.raft.state = .leader ∧ isHeartbeat = false ∧ response.success = true ∧
    n.raft.commitIndex < response.lastLogIndex

/-- A response to a request of an earlier term counts. -/
def countsLateAck (request : AppendEntriesRequest) (response : AppendEntriesResponse)
    (isHeartbeat : Bool) (n : Node) : Prop :=
  n.countsAck response isHeartbeat ∧ request.term ≠ n.raft.currentTerm

/-- The leader, the node that answers, and the others that hold the entry as far as the
leader knows. -/
def holders (response : AppendEntriesResponse) (n : Node) : Nat :=
  2+n.raft.peers.countP (fun pp => pp.1 ≠ response.name &&
    pp.2.any (fun peer => response.lastLogIndex ≤ peer.matchIndex))

/-- They are at most half of the nodes, and enough for the code. -/
def commitsByHalf (size : Nat) (response : AppendEntriesResponse) (isHeartbeat : Bool)
    (n : Node) : Prop :=
  n.countsAck response isHeartbeat ∧ n.raft.peers.length/2 ≤ n.holders response ∧
    2*n.holders response ≤ size

instance (request : RequestVoteRequest) (n : Node) : Decidable (n.grantsEmpty request) :=
  inferInstanceAs (Decidable (_ ∧ _ ∧ _ ∧ _))

instance (request : AppendEntriesRequest) (n : Node) : Decidable (n.takesAhead request) :=
  inferInstanceAs (Decidable (_ ∧ _))

instance (request : AppendEntriesRequest) (n : Node) : Decidable (n.takesBack request) :=
  inferInstanceAs (Decidable (_ ∧ _ ∧ _))

instance (size : Nat) (response : RequestVoteResponse) (n : Node) :
    Decidable (n.winsStale size response) :=
  inferInstanceAs (Decidable (_ ∧ _ ∧ _))

instance (response : AppendEntriesResponse) (isHeartbeat : Bool) (n : Node) :
    Decidable (n.countsAck response isHeartbeat) :=
  inferInstanceAs (Decidable (_ ∧ _ ∧ _ ∧ _))

instance (request : AppendEntriesRequest) (response : AppendEntriesResponse)
    (isHeartbeat : Bool) (n : Node) : Decidable (n.countsLateAck request response isHeartbeat) :=
  inferInstanceAs (Decidable (_ ∧ _))

instance (size : Nat) (response : AppendEntriesResponse) (isHeartbeat : Bool) (n : Node) :
    Decidable (n.commitsByHalf size response isHeartbeat) :=
  inferInstanceAs (Decidable (_ ∧ _ ∧ _))

end Node

/-- The request for a vote describes the log its sender campaigns with. -/
def ElectRpc (g : History) : Rpc → Prop
  | .voteCall src _ _ request =>
    request.lastLogIndex = ((g.elect src request.term).length : Int)-1 ∧
      request.lastLogIndex < 2^63 ∧
      ∀ e, (g.elect src request.term).getLast? = some e → request.lastLogTerm = e.term
  | _ => True

/-- A successful answer tells how much of the log of the term its sender has taken over. -/
def AckedRpc (g : History) : Rpc → Prop
  | .appendReply src dst _ request _ response => response.success = true →
      response.name = dst ∧ g.won request.term = some src ∧
      ∃ k : Nat, response.lastLogIndex = (k : Int)-1 ∧
        Firm LogEntry.term g.canon request.term k ∧ k ≤ g.acked dst request.term
  | _ => True

/-- A match index is true of the term, as far as the entries of the term go. -/
def MatchOk (g : History) (n : Node) (name : CString) (matchIndex : Int) : Prop :=
  matchIndex < n.raft.logs.length ∧ ∀ k : Nat,
    Firm LogEntry.term g.canon n.raft.currentTerm k → (k : Int) ≤ matchIndex+1 →
      k ≤ g.acked name n.raft.currentTerm

/-- What a leader remembers of its peers; with three nodes it does not matter. -/
def Matches (cfg : Config) (g : History) (n : Node) : Prop :=
  n.raft.state = .leader → 3 < cfg.names.length →
    ∀ name peer, (name,some peer) ∈ n.raft.peers → MatchOk g n name peer.matchIndex

section Facts

variable {cfg : Config} {g g' : History} {i : CString} {n m : Node} {rpc : Rpc}

theorem ElectRpc.mono (h : ElectRpc g rpc) (hv : VoteRpc g rpc) (hg : Grows g g') :
    ElectRpc g' rpc := by
  cases rpc with
  | voteCall src dst life request =>
    have helect := hg.elect _ _ hv
    obtain ⟨hindex,hlt,hterm⟩ := h
    exact ⟨by rw [helect]; exact hindex,hlt,by rw [helect]; exact hterm⟩
  | _ => trivial

theorem ElectRpc.fail (rpc : Rpc) (h : ElectRpc g rpc) : ElectRpc g (Cluster.failCall rpc) := by
  cases rpc <;> trivial

theorem AckedRpc.mono (h : AckedRpc g rpc) (hg : Grows g g') : AckedRpc g' rpc := by
  cases rpc with
  | appendReply src dst life request isHeartbeat response =>
    intro hsuccess
    obtain ⟨hname,hwon,k,hk,hf,hacked⟩ := h hsuccess
    exact ⟨hname,hg.votes.won _ _ hwon,k,hk,hf.mono (hg.canon _),hacked.trans (hg.acked _ _)⟩
  | _ => trivial

theorem AckedRpc.fail (rpc : Rpc) (h : AckedRpc g rpc) : AckedRpc g (Cluster.failCall rpc) := by
  cases rpc with
  | appendCall => exact fun hs => absurd hs Bool.false_ne_true
  | appendReply => exact fun hs => absurd hs Bool.false_ne_true
  | _ => trivial

/-- The two comparisons of `OnRequestVoteRequest` are those of an election of the most
complete log, but for an empty log. -/
theorem upToDate_of_grant {elect : List LogEntry} {request : RequestVoteRequest}
    (hw : Wired cfg i n) (hnum : ContiguousFrom 0 n.raft.logs)
    (hindex : request.lastLogIndex = (elect.length : Int)-1) (hlt : request.lastLogIndex < 2^63)
    (hterm : ∀ e, elect.getLast? = some e → request.lastLogTerm = e.term)
    (hnotIndex : n.raft.candidateLogIndexOld request = false)
    (hnotTerm : n.raft.candidateLogTermOld request = false)
    (hempty : n.raft.logs ≠ [] → request.lastLogIndex ≠ -1) :
    UpToDate LogEntry.term elect n.raft.logs := by
  intro e he
  have hn : n.raft.logs ≠ [] := by
    intro hnil
    rw [hnil] at he
    exact absurd he (by simp)
  have hpos : 0 < elect.length := by
    have := hempty hn
    omega
  obtain ⟨e',he'⟩ : ∃ e', elect.getLast? = some e' :=
    ⟨_,List.getLast?_eq_some_getLast (List.ne_nil_of_length_pos hpos)⟩
  refine ⟨e',he',?_⟩
  rw [SRaft.candidateLogTermOld,he,hterm e' he'] at hnotTerm
  rw [SRaft.candidateLogIndexOld,he,hterm e' he',hw.lastIncludeIndex,toU64_neg_one] at hnotIndex
  simp only [Bool.or_eq_false_iff,decide_eq_false_iff_not] at hnotTerm hnotIndex
  by_cases heq : e.term = e'.term
  · refine .inr ⟨heq,?_⟩
    have hlen := hnum.length_le hn
    have hlog : 0 < n.raft.logs.length := List.length_pos_iff.mpr hn
    have hu : u64 (n.raft.logs.length+(2^64-1)) = n.raft.logs.length-1 := by
      unfold u64
      omega
    have hi : toU64 request.lastLogIndex = elect.length-1 := by
      rw [toU64_of_nonneg (by omega) (by omega)]
      omega
    rw [hu,hi] at hnotIndex
    have := hnotIndex.2
    simp [heq] at this
    omega
  · exact .inl (by omega)

theorem mem_touchPeer {s : SRaft} {name x : CString} {peer : SRaftPeer}
    (h : (x,some peer) ∈ (s.touchPeer name).peers) : (x,some peer) ∈ s.peers := by
  unfold SRaft.touchPeer at h
  split_ifs at h
  · exact h
  · simpa using h

theorem mem_setPeer {s : SRaft} {name x : CString} {peer peer' : SRaftPeer}
    (h : (x,some peer) ∈ (s.setPeer name peer').peers) :
    (x = name ∧ peer = peer') ∨ (x,some peer) ∈ s.peers := by
  obtain ⟨pp,hmem,he⟩ := List.mem_map.mp h
  split_ifs at he with hname
  · obtain ⟨hx,hp⟩ := Prod.mk.inj he
    exact .inl ⟨hx.symm,(Option.some.inj hp).symm⟩
  · exact .inr (he ▸ hmem)

theorem MatchOk.grow {name : CString} {matchIndex : Int} (h : MatchOk g n name matchIndex)
    (hg : Grows g g') (hlog : n.raft.logs = g.canon n.raft.currentTerm)
    (hl : n.raft.logs.length ≤ m.raft.logs.length)
    (ht : m.raft.currentTerm = n.raft.currentTerm) : MatchOk g' m name matchIndex := by
  obtain ⟨hlt,hk⟩ := h
  refine ⟨by omega,fun k hf hle => ?_⟩
  rw [ht] at hf ⊢
  have hlen : k ≤ (g.canon n.raft.currentTerm).length := by
    rw [← hlog]
    omega
  exact (hk k (hf.back (hg.canon _) hlen) hle).trans (hg.acked _ _)

/-- A handler that changes none of what the match indices speak of. -/
theorem Matches.keep (h : Matches cfg g n) (hg : Grows g g')
    (hlog : n.raft.state = .leader → n.raft.logs = g.canon n.raft.currentTerm)
    (hs : m.raft.state = .leader → n.raft.state = .leader ∧
      n.raft.logs.length ≤ m.raft.logs.length ∧
      m.raft.currentTerm = n.raft.currentTerm ∧ m.raft.peers = n.raft.peers) :
    Matches cfg g' m := by
  intro hleader hsize name peer hmem
  obtain ⟨hs,hl,ht,hp⟩ := hs hleader
  exact (h hs hsize name peer (hp ▸ hmem)).grow hg (hlog hs) hl ht

theorem Matches.of_not (h : n.raft.state ≠ .leader) : Matches cfg g n :=
  fun hs => absurd hs h

theorem Matches.doLog (h : Matches cfg g n) (hg : Grows g g')
    (hlog : n.raft.state = .leader → n.raft.logs = g.canon n.raft.currentTerm)
    (cmd : CString) : Matches cfg g' (n.doLog cmd).1 := by
  refine h.keep hg hlog (fun hs => ?_)
  rcases Node.doLog_cases cmd n with ⟨-,he⟩ | ⟨-,he⟩ | ⟨-,hlead,-,he⟩ <;> rw [he] at hs ⊢
  · exact ⟨hs,le_refl _,rfl,rfl⟩
  · exact ⟨hs,le_refl _,rfl,rfl⟩
  · obtain ⟨ci,la,hr⟩ := Node.logEntry_raft cmd n
    rw [hr]
    exact ⟨hlead,by simp,rfl,rfl⟩

theorem Matches.onTimer (hc : cfg.Symmetric) {i : CString} (hin : i ∈ cfg.names)
    (hw : Wired cfg i n) (h : Matches cfg g n) (hg : Grows g g')
    (hlog : n.raft.state = .leader → n.raft.logs = g.canon n.raft.currentTerm)
    (r : Readings) : Matches cfg g' (n.onTimer r) := by
  rcases Node.timerLabels_cases i r n with ⟨hl,he⟩ | ⟨hrun,hdue,he,hl⟩ | ⟨-,-,due,he⟩
  · refine h.keep hg hlog (fun hs => ?_)
    rcases he with he | ⟨hrun,due,he⟩ <;> rw [he] at hs ⊢
    · exact ⟨hs,le_refl _,rfl,rfl⟩
    · obtain ⟨ci,la,hr⟩ := Node.doAppendEntries_raft true
        {n with raft := {n.raft with dueHeartBeat := due}}
      rw [hr] at hs ⊢
      exact ⟨hs,le_refl _,rfl,rfl⟩
  · rcases hl with ⟨-,hs⟩ | ⟨-,hp,-⟩ | ⟨-,hs⟩
    · exact Matches.of_not (by rw [hs]; decide)
    · -- a node without peers leads a cluster of one
      intro _ hsize
      have hlen := hw.peers.length_le
      have hone := hc.length hin
      rw [hp] at hlen
      simp only [List.length_nil] at hlen
      omega
    · exact Matches.of_not (by rw [hs]; decide)
  · exact Matches.of_not (by rw [he]; simp)

/-- An answer of the term that the leader is in. -/
structure TermAck (g : History) (response : AppendEntriesResponse) (n : Node) (k : Nat) :
    Prop where
  index : response.lastLogIndex = (k : Int)-1
  firm : Firm LogEntry.term g.canon n.raft.currentTerm k
  acked : k ≤ g.acked response.name n.raft.currentTerm

theorem Matches.onAppendEntriesReponse (h : Matches cfg g n) (hg : Grows g g')
    (hlog : n.raft.state = .leader → n.raft.logs = g.canon n.raft.currentTerm)
    {response : AppendEntriesResponse} {isHeartbeat : Bool}
    (hack : n.countsAck response isHeartbeat → ∃ k, TermAck g response n k) :
    Matches cfg g' (n.onAppendEntriesReponse response isHeartbeat) := by
  intro hleader hsize name peer hmem
  obtain ⟨x,hx,⟨peers,ci,la,hr⟩,-,-⟩ := Node.onAppendEntriesReponse_frame response isHeartbeat n
  have hs : n.raft.state = .leader ∧ ¬n.raft.currentTerm < response.term := by
    rw [hr,hx] at hleader
    split_ifs at hleader with hdown
    · exact absurd hleader (by simp [Node.stepDown])
    · exact ⟨hleader,fun hlt => hdown ⟨hleader,hlt⟩⟩
  obtain ⟨hs,hle⟩ := hs
  rw [if_neg (fun hd => hle hd.2)] at hx
  have hl : (n.onAppendEntriesReponse response isHeartbeat).raft.logs = n.raft.logs := by
    rw [hr,hx]
  have ht : (n.onAppendEntriesReponse response isHeartbeat).raft.currentTerm =
      n.raft.currentTerm := by
    rw [hr,hx]
  suffices hok : MatchOk g n name peer.matchIndex from hok.grow hg (hlog hs) (by rw [hl]) ht
  have hold := h hs hsize
  -- the peers before the answer is counted are those of the leader
  obtain ⟨touched,htouch⟩ := Node.touchPeer_raft response.name n
  have hcheck : (n.touchPeer response.name).checkTerm response.term =
      n.touchPeer response.name := by
    rw [Node.checkTerm,htouch]
    exact if_neg hle
  have hbefore : ∀ x p, (x,some p) ∈ (n.touchPeer response.name).raft.peers →
      (x,some p) ∈ n.raft.peers := fun x p hm => mem_touchPeer hm
  have hcommit : (n.touchPeer response.name).raft.commitIndex = n.raft.commitIndex := by
    rw [htouch]
  rcases Node.onAppendEntriesReponse_cases response isHeartbeat n with
    ⟨hne,-⟩ | ⟨-,he | ⟨hheart,he⟩⟩
  · exact absurd hs hne
  · rw [he,hcheck] at hmem
    exact hold name peer (hbefore _ _ hmem)
  rw [he,hcheck] at hmem
  generalize n.touchPeer response.name = y at hmem hbefore hcommit
  have hset : ∀ p matchIndex, (name,some peer) ∈ (y.setPeer response.name p).raft.peers →
      p.matchIndex = matchIndex → MatchOk g n response.name matchIndex →
      MatchOk g n name peer.matchIndex := by
    intro p matchIndex hin hp hmatch
    rcases mem_setPeer hin with ⟨hname,hpeer⟩ | hin
    · rw [hname,hpeer,hp]
      exact hmatch
    · exact hold name peer (hbefore _ _ hin)
  rcases Node.countResponse_counts response y with
    hc | hc | ⟨-,p,hf,hc⟩ | ⟨hsucc,hlt,p,hf,m,hm,hc⟩
  · rw [hc] at hmem
    exact hold name peer (hbefore _ _ hmem)
  · rw [hc] at hmem
    exact hold name peer (hbefore _ _ hmem)
  · rw [hc] at hmem
    exact hset _ _ hmem rfl (hold _ p (hbefore _ _ (SRaft.findPeer_mem hf)))
  · rw [hcommit] at hlt
    obtain ⟨k,hk,hfirm,hacked⟩ := hack ⟨hs,hheart,hsucc,hlt⟩
    have hlen := hfirm.le_length
    rw [← hlog hs] at hlen
    have hpeers : (name,some peer) ∈ m.raft.peers := by
      rcases hc with hc | hc | ⟨-,-,hc⟩ <;> rw [hc] at hmem
      · exact hmem
      · exact hmem
      · simpa using hmem
    rw [hm] at hpeers
    have hok : MatchOk g n response.name response.lastLogIndex :=
      ⟨by omega,fun j _ hj => le_trans (by omega) hacked⟩
    exact hset _ _ hpeers rfl hok

end Facts

end SRaftMuduo
