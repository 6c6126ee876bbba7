import SRaftMuduo.Cluster.Acknowledging

namespace SRaftMuduo

open Replication

section Counting

variable {names : List CString} {peers : List (CString × Option SRaftPeer)} {s : SRaft}

theorem PeersOf.nodup (h : PeersOf names peers) (hn : names.Nodup) :
    (peers.map Prod.fst).Nodup := by
  obtain ⟨real,rfl,hp⟩ := h
  have hkeys : (real.map SRaftPeer.entry).map Prod.fst = real.map SRaftPeer.name := by
    rw [List.map_map]
    rfl
  rcases hp with rfl | ⟨hnil,rfl⟩
  · rwa [hkeys]
  · rw [List.map_append,hkeys]
    refine hn.append (List.nodup_singleton []) ?_
    intro x hx hnil'
    obtain rfl := List.mem_singleton.mp hnil'
    exact hnil hx

theorem countP_map_le {α : Type*} {f : α → α} {p q e : α → Bool}
    (h : ∀ x, p (f x) = true → e x = true ∨ q x = true) (l : List α) :
    (l.map f).countP p ≤ l.countP e+l.countP q := by
  induction l with
  | nil => simp
  | cons x l ih =>
    have hx := h x
    simp only [List.map_cons,List.countP_cons]
    by_cases hp : p (f x) = true
    · rcases hx hp with he | hq
      · simp only [hp,he,if_true]
        omega
      · simp only [hp,hq,if_true]
        omega
    · rw [if_neg hp]
      omega

/-- The votes that the code counts, once the peer that answered has its new match index. -/
theorem SRaft.commitVote_setPeer (hn : (s.peers.map Prod.fst).Nodup) (name : CString)
    (peer : SRaftPeer) (newCommit : Int) :
    (s.setPeer name peer).commitVote newCommit ≤ 2+s.peers.countP (fun pp => pp.1 ≠ name &&
      pp.2.any (fun peer2 => newCommit ≤ peer2.matchIndex)) := by
  have hone := List.nodup_iff_count_le_one.mp hn name
  rw [List.count,List.countP_map] at hone
  have hle := countP_map_le (f := fun pp => if pp.1 = name then (name,some peer) else pp)
    (p := fun pp => pp.2.any (fun peer2 => newCommit ≤ peer2.matchIndex))
    (q := fun pp => pp.1 ≠ name && pp.2.any (fun peer2 => newCommit ≤ peer2.matchIndex))
    (e := (fun x => x == name) ∘ Prod.fst) ?_ s.peers
  · unfold SRaft.commitVote SRaft.setPeer
    dsimp only
    omega
  · intro pp hpp
    by_cases hname : pp.1 = name
    · exact .inl (by simp [hname])
    · rw [if_neg hname] at hpp
      exact .inr (by simpa [hname] using hpp)

end Counting

namespace Node

/-- The state in which the votes for the index of a response are counted. -/
def matched (response : AppendEntriesResponse) (peer : SRaftPeer) (n : Node) : SRaft :=
  n.raft.setPeer response.name ⟨peer.name,response.lastLogIndex+1,response.lastLogIndex⟩

/-- The peer that answered is known, no null pointer is met, and the votes with its new
match index are as many as the code asks for. -/
def enoughMatch (response : AppendEntriesResponse) (n : Node) : Prop :=
  (n.raft.findPeer response.name).any (fun peer =>
    !(n.matched response peer).anyNullPeer && decide ((n.matched response peer).peers.length/2 ≤
      (n.matched response peer).commitVote response.lastLogIndex)) = true

/-- The response moves `commitIndex_`. -/
def commitsAck (response : AppendEntriesResponse) (isHeartbeat : Bool) (n : Node) : Prop :=
  n.countsAck response isHeartbeat ∧ n.enoughMatch response

instance (response : AppendEntriesResponse) (n : Node) : Decidable (n.enoughMatch response) :=
  inferInstanceAs (Decidable (_ = _))

instance (response : AppendEntriesResponse) (isHeartbeat : Bool) (n : Node) :
    Decidable (n.commitsAck response isHeartbeat) :=
  inferInstanceAs (Decidable (_ ∧ _))

theorem enoughMatch_iff {response : AppendEntriesResponse} {n : Node} {peer : SRaftPeer}
    (h : n.raft.findPeer response.name = some peer) :
    n.enoughMatch response ↔ (n.matched response peer).anyNullPeer = false ∧
      (n.matched response peer).peers.length/2 ≤
        (n.matched response peer).commitVote response.lastLogIndex := by
  rw [enoughMatch,h,Option.any_some,Bool.and_eq_true,Bool.not_eq_true',decide_eq_true_iff]

/-- The counting part moves `commitIndex_` to the index of the response when that is new and
the votes suffice. -/
theorem countResponse_moves_iff (response : AppendEntriesResponse) (n : Node) :
    (n.countResponse response).raft.commitIndex ≠ n.raft.commitIndex ↔
      response.success = true ∧ n.raft.commitIndex < response.lastLogIndex ∧
        n.enoughMatch response := by
  unfold countResponse
  cases hf : n.raft.findPeer response.name with
  | none =>
    have hno : ¬n.enoughMatch response := by simp [enoughMatch,hf]
    dsimp only
    split_ifs
    · exact ⟨fun h => absurd rfl h,fun h => absurd h.2.2 hno⟩
    · exact ⟨fun h => absurd rfl h,fun h => absurd h.2.2 hno⟩
  | some peer =>
    rw [enoughMatch_iff hf]
    cases hs : response.success with
    | false => exact ⟨fun h => absurd rfl h,fun h => absurd h.1 Bool.false_ne_true⟩
    | true =>
      dsimp only
      rw [if_neg Bool.noConfusion,countCommit]
      dsimp only
      split_ifs with hle hnull hvote
      · exact ⟨fun h => absurd rfl h,fun h => absurd h.2.1 (by omega)⟩
      · exact ⟨fun h => absurd rfl h,fun h => absurd (hnull.symm.trans h.2.2.1) (by decide)⟩
      · refine ⟨fun _ => ⟨rfl,by omega,Bool.eq_false_iff.mpr hnull,hvote⟩,fun _ => ?_⟩
        rw [doApply_raft]
        dsimp only
        omega
      · exact ⟨fun h => absurd rfl h,fun h => absurd h.2.2.2 hvote⟩

/-- The step back from leadership leaves what the counting part reads. -/
theorem checkTerm_counting (term : Nat) (n : Node) :
    (n.checkTerm term).raft.peers = n.raft.peers ∧
      (n.checkTerm term).raft.commitIndex = n.raft.commitIndex := by
  unfold checkTerm
  split_ifs <;> exact ⟨rfl,rfl⟩

theorem enoughMatch_congr {response : AppendEntriesResponse} {n m : Node}
    (h : m.raft.peers = n.raft.peers) : m.enoughMatch response ↔ n.enoughMatch response := by
  have hf : m.raft.findPeer response.name = n.raft.findPeer response.name := by
    rw [SRaft.findPeer,h,SRaft.findPeer]
  unfold enoughMatch matched SRaft.setPeer SRaft.anyNullPeer SRaft.commitVote
  rw [hf,h]

theorem enoughMatch_touch {response : AppendEntriesResponse} {n : Node} :
    (n.touchPeer response.name).enoughMatch response ↔ n.enoughMatch response := by
  have hsame : n.raft.touchPeer response.name = n.raft →
      ((n.touchPeer response.name).enoughMatch response ↔ n.enoughMatch response) := by
    intro h
    exact enoughMatch_congr (by rw [touchPeer,h])
  by_cases hin : response.name ∈ n.raft.peers.map Prod.fst
  · exact hsame (if_pos hin)
  · -- under an unknown name there is no pointer, before and after
    have hold : n.raft.findPeer response.name = none := by
      by_contra hne
      obtain ⟨p,hp⟩ := Option.ne_none_iff_exists'.mp hne
      exact hin (List.mem_map_of_mem (f := Prod.fst) (SRaft.findPeer_mem hp))
    have hnew : (n.touchPeer response.name).raft.findPeer response.name = none := by
      by_contra hne
      obtain ⟨p,hp⟩ := Option.ne_none_iff_exists'.mp hne
      have hmem := mem_touchPeer (SRaft.findPeer_mem hp)
      exact hin (List.mem_map_of_mem (f := Prod.fst) hmem)
    simp only [enoughMatch,hold,hnew,Option.any_none]

/-- The handler of a response moves `commitIndex_` when the leader can count it and the
votes suffice. -/
theorem onAppendEntriesReponse_moves_iff (response : AppendEntriesResponse)
    (isHeartbeat : Bool) (n : Node) :
    (n.onAppendEntriesReponse response isHeartbeat).raft.commitIndex ≠ n.raft.commitIndex ↔
      n.commitsAck response isHeartbeat := by
  obtain ⟨peers,ht⟩ := touchPeer_raft response.name n
  have hstate : (n.touchPeer response.name).raft.state = n.raft.state := by rw [ht]
  have htouch : (n.touchPeer response.name).raft.commitIndex = n.raft.commitIndex := by rw [ht]
  obtain ⟨hp,hci⟩ := checkTerm_counting response.term (n.touchPeer response.name)
  rw [htouch] at hci
  unfold onAppendEntriesReponse commitsAck countsAck
  dsimp only
  rw [hstate]
  by_cases hs : n.raft.state = .leader
  swap
  · rw [if_pos hs]
    exact ⟨fun h => absurd htouch h,fun h => absurd h.1.1 hs⟩
  rw [if_neg (not_not.mpr hs)]
  cases isHeartbeat with
  | true =>
    rw [if_pos rfl]
    exact ⟨fun h => absurd hci h,fun h => absurd h.1.2.1 (by decide)⟩
  | false =>
    have hmoves := countResponse_moves_iff response
      ((n.touchPeer response.name).checkTerm response.term)
    rw [enoughMatch_congr hp,enoughMatch_touch,hci] at hmoves
    rw [if_neg Bool.false_ne_true,hmoves]
    constructor
    · rintro ⟨hsucc,hlt,henough⟩
      exact ⟨⟨hs,rfl,hsucc,hlt⟩,henough⟩
    · rintro ⟨⟨-,-,hsucc,hlt⟩,henough⟩
      exact ⟨hsucc,hlt,henough⟩

/-- The handler of a response moves `commitIndex_` only by an answer that can count, to the
index in it, and with the votes that the code asks for. -/
theorem onAppendEntriesReponse_counts {response : AppendEntriesResponse} {isHeartbeat : Bool}
    {n : Node} (hn : (n.raft.peers.map Prod.fst).Nodup)
    (h : (n.onAppendEntriesReponse response isHeartbeat).raft.commitIndex ≠ n.raft.commitIndex) :
    n.countsAck response isHeartbeat ∧ n.raft.peers.length/2 ≤ n.holders response ∧
      (n.onAppendEntriesReponse response isHeartbeat).raft.commitIndex =
        response.lastLogIndex := by
  obtain ⟨hcount,henough⟩ := (onAppendEntriesReponse_moves_iff response isHeartbeat n).mp h
  obtain ⟨peer,hf⟩ : ∃ peer, n.raft.findPeer response.name = some peer := by
    by_contra hnone
    have hf := Option.eq_none_iff_forall_ne_some.mpr (fun p hp => hnone ⟨p,hp⟩)
    simp [enoughMatch,hf] at henough
  obtain ⟨-,hvote⟩ := (enoughMatch_iff hf).mp henough
  have hlen : (n.matched response peer).peers.length = n.raft.peers.length := by
    simp [matched,SRaft.setPeer]
  rw [hlen] at hvote
  refine ⟨hcount,hvote.trans (SRaft.commitVote_setPeer hn _ _ _),?_⟩
  rcases onAppendEntriesReponse_commits response isHeartbeat n with hs | ⟨-,-,hc⟩
  · exact absurd hs.2.2.2.2 h
  · exact hc.commitIndex

end Node

/-- The nodes that hold what is committed: the leader, the one that answered, and those
that the leader has counted for the entry. -/
theorem TermAck.quorum {cfg : Config} {g : History} {i : CString} {n : Node} {k : Nat}
    {response : AppendEntriesResponse} {isHeartbeat : Bool} (h : TermAck g response n k)
    (hc : cfg.Symmetric) (hi : i ∈ cfg.names) (hw : Wired cfg i n) (hm : Matches cfg g n)
    (hown : k ≤ g.acked i n.raft.currentTerm) (hname : response.name ∈ cfg.peersOf i)
    (hcount : n.countsAck response isHeartbeat)
    (hvote : n.raft.peers.length/2 ≤ n.holders response)
    (hhalf : ¬n.commitsByHalf cfg.names.length response isHeartbeat) :
    cfg.quorums.IsQuorum {v | k ≤ g.acked v n.raft.currentTerm} := by
  have hself := hc.not_peer hi
  have hin : ∀ name ∈ cfg.peersOf i, name ∈ cfg.names := by
    intro name hp
    exact List.mem_of_mem_erase ((hc.peers_perm i hi).mem_iff.mp hp)
  by_cases hsize : 3 < cfg.names.length
  swap
  · -- two nodes are more than half
    refine Config.isQuorum hc (S := [i,response.name]) ?_ ?_ (by simp; omega)
    · have hne : i ≠ response.name := fun he => hself (he ▸ hname)
      simpa using hne
    · intro v hv
      rcases List.mem_cons.mp hv with rfl | hv
      · exact ⟨hi,hown⟩
      · obtain rfl := List.mem_singleton.mp hv
        exact ⟨hin _ hname,h.acked⟩
  generalize ho : n.raft.peers.filter (fun pp => pp.1 ≠ response.name &&
    pp.2.any (fun peer => response.lastLogIndex ≤ peer.matchIndex)) = others
  have hothers : ∀ pp ∈ others, pp.1 ≠ response.name ∧ pp.1 ∈ cfg.peersOf i ∧
      k ≤ g.acked pp.1 n.raft.currentTerm := by
    intro pp hpp
    rw [← ho] at hpp
    obtain ⟨hmem,hkeep⟩ := List.mem_filter.mp hpp
    obtain ⟨name,p⟩ := pp
    simp only [Bool.and_eq_true,decide_eq_true_eq,Option.any_eq_true] at hkeep
    obtain ⟨hne,peer,rfl,hle⟩ := hkeep
    obtain ⟨-,hacked⟩ := hm hcount.1 hsize name peer hmem
    refine ⟨hne,(hw.peers.mem_some hmem).2,hacked k h.firm ?_⟩
    have hk := h.index
    omega
  refine Config.isQuorum hc (S := i::response.name::others.map Prod.fst) ?_ ?_ ?_
  · have hkeys : (others.map Prod.fst).Nodup := by
      rw [← ho]
      exact (hw.peers.nodup (cfg.peers_nodup i)).sublist (List.filter_sublist.map _)
    refine List.nodup_cons.mpr ⟨?_,List.nodup_cons.mpr ⟨?_,hkeys⟩⟩
    · intro hmem
      rcases List.mem_cons.mp hmem with rfl | hmem
      · exact hself hname
      · obtain ⟨pp,hpp,rfl⟩ := List.mem_map.mp hmem
        exact hself (hothers pp hpp).2.1
    · intro hmem
      obtain ⟨pp,hpp,he⟩ := List.mem_map.mp hmem
      exact (hothers pp hpp).1 he
  · intro v hv
    rcases List.mem_cons.mp hv with rfl | hv
    · exact ⟨hi,hown⟩
    · rcases List.mem_cons.mp hv with rfl | hv
      · exact ⟨hin _ hname,h.acked⟩
      · obtain ⟨pp,hpp,rfl⟩ := List.mem_map.mp hv
        obtain ⟨-,hpeer,hacked⟩ := hothers pp hpp
        exact ⟨hin _ hpeer,hacked⟩
  · have hlen : n.holders response = 2+others.length := by
      rw [← ho,← List.countP_eq_length_filter]
      rfl
    have hmore : ¬2*n.holders response ≤ cfg.names.length := fun hle => hhalf ⟨hcount,hvote,hle⟩
    simp only [List.length_cons,List.length_map]
    omega

/-- The node at `i` has just committed: it won its term and holds the log of it, and a quorum
has taken that over up to `commitIndex_`. -/
def CommitsLog (cfg : Config) (g : History) (i : CString) (n : Node) : Prop :=
  g.won n.raft.currentTerm = some i ∧ n.raft.logs = g.canon n.raft.currentTerm ∧
    ∃ k : Nat, n.raft.commitIndex = (k : Int)-1 ∧
      Committed cfg.quorums LogEntry.term g n.raft.currentTerm k

/-- What was looked up stands in the log of a term below what is committed of it. -/
def Decided (cfg : Config) (g : History) (p : Int × CString) : Prop :=
  ∃ (t len k : Nat) (e : LogEntry), Committed cfg.quorums LogEntry.term g t len ∧ k < len ∧
    (g.canon t)[k]? = some e ∧ p.1 = k ∧ p.2 = e.data

section Deciding

variable {cfg : Config} {g g' : History} {i : CString} {n : Node}

theorem Decided.mono {p : Int × CString} (h : Decided cfg g p) (hg : Grows g g') :
    Decided cfg g' p := by
  obtain ⟨t,len,k,e,hcommit,hk,he,hp⟩ := h
  obtain ⟨rest,hr⟩ := hg.canon t
  refine ⟨t,len,k,e,hcommit.mono hg,hk,?_,hp⟩
  rw [← hr,List.getElem?_append_left (List.getElem?_eq_some_iff.mp he).1]
  exact he

/-- Two lookups of one index gave the same. -/
theorem Decided.agree (hs : Sound cfg.quorums LogEntry.term g) {p q : Int × CString}
    (h : Decided cfg g p) (h' : Decided cfg g q) (hi : p.1 = q.1) : p.2 = q.2 := by
  obtain ⟨t,len,k,e,hcommit,hk,he,hp,hd⟩ := h
  obtain ⟨t',len',k',e',hcommit',hk',he',hp',hd'⟩ := h'
  obtain rfl : k = k' := by omega
  have hsame := hcommit.agree hcommit' hs hk hk'
  rw [he,he'] at hsame
  rw [hd,hd',Option.some.inj hsame]

theorem CommitsLog.decided (h : CommitsLog cfg g i n) (hnum : Everywhere (ContiguousFrom 0) g)
    {p : Int × CString} (hlow : -1 < p.1) (hle : p.1 ≤ n.raft.commitIndex)
    (hmax : p.1 < 2^63) (hdata : p.2 = (n.raft.getLogByIndex (toU64 p.1)).data) :
    Decided cfg g p := by
  obtain ⟨-,hlog,k,hk,hcommit⟩ := h
  have hlen := hcommit.1.le_length
  have hentry := List.getElem?_eq_getElem (l := g.canon n.raft.currentTerm) (i := p.1.toNat)
    (by omega)
  have hindex : toU64 p.1 = p.1.toNat := toU64_of_nonneg (by omega) (by omega)
  refine ⟨_,k,p.1.toNat,_,hcommit,by omega,hentry,by omega,?_⟩
  rw [hdata,hindex,SRaft.getLogByIndex_position (s := n.raft) ?_ (by rw [hlog]; exact hentry)]
  rw [hlog]
  exact hnum.canon _

end Deciding

end SRaftMuduo
