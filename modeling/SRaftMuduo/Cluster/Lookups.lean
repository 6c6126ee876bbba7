import SRaftMuduo.Cluster.Commitment

namespace SRaftMuduo

open Node (Applies Still Commits)

namespace Node

/-- Entries are taken that end below `commitIndex_`. -/
def takesShort (request : AppendEntriesRequest) (n : Node) : Prop :=
  n.takesEntries request ∧
    request.entries.getLast?.any (fun e => e.index < n.raft.commitIndex) = true

/-- A leader moves `commitIndex_` past the end of its log, or over indices before its start. -/
def commitsOutside (response : AppendEntriesResponse) (isHeartbeat : Bool) (n : Node) : Prop :=
  n.commitsAck response isHeartbeat ∧ (n.raft.lastLogIndex < response.lastLogIndex ∨
    n.raft.commitIndex+1 < n.raft.baseLogIndex)

instance (request : AppendEntriesRequest) (n : Node) : Decidable (n.takesShort request) :=
  inferInstanceAs (Decidable (_ ∧ _))

instance (response : AppendEntriesResponse) (isHeartbeat : Bool) (n : Node) :
    Decidable (n.commitsOutside response isHeartbeat) :=
  inferInstanceAs (Decidable (_ ∧ _))

/-- Every index that is applied from `n` to `m` is that of an entry, whose command is what
the lookup found, and is pushed if there is one. -/
def AppliesHeld (n m : Node) : Prop :=
  ∀ k, n.raft.lastApplied < k → k ≤ m.raft.lastApplied → ∃ e ∈ m.raft.logs, e.index = k ∧
    (k,e.data) ∈ m.applied ∧ (e.data ≠ [] → (k,e.data) ∈ m.pushes)

variable {n m : Node}

theorem AppliesHeld.same (h : m.raft.lastApplied = n.raft.lastApplied) : AppliesHeld n m := by
  intro k hlt hle
  omega

theorem Applies.lookup {more : List (Int × CString)} (h : Applies n m more) {k : Int}
    (hlt : n.raft.lastApplied < k) (hle : k ≤ m.raft.lastApplied) :
    (k,(m.raft.getLogByIndex (toU64 k)).data) ∈ more := by
  have hlast := h.last
  have hmem : k ∈ more.map Prod.fst := by
    rw [h.indices]
    exact List.mem_map.mpr ⟨(k-n.raft.lastApplied-1).toNat,List.mem_range.mpr (by omega),by omega⟩
  obtain ⟨p,hp,rfl⟩ := List.mem_map.mp hmem
  rw [← h.data p hp]
  exact hp

/-- A commit within the log, which has all entries that were not yet applied. -/
theorem AppliesHeld.commits {k base : Int} (hc : Commits n m k) (hch : n.channel ≠ none)
    (hb : 0 ≤ base) (hlog : ContiguousFrom base m.raft.logs)
    (hlow : base ≤ n.raft.lastApplied+1) (hk : k < base+m.raft.logs.length) :
    AppliesHeld n m := by
  intro j hlt hle
  obtain ⟨more,happ⟩ := hc.applies hch
  have hj := happ.lookup hlt hle
  rw [hc.lastApplied] at hle
  have hin : (j-base).toNat < m.raft.logs.length := by omega
  have hentry := List.getElem?_eq_getElem hin
  obtain ⟨hidx,-,-⟩ := hlog _ _ hentry
  have hi : (m.raft.logs[(j-base).toNat]).index = j := by omega
  have hget := SRaft.getLogByIndex_mem ⟨base,hb,hlog⟩ (List.mem_of_getElem? hentry)
  rw [hi] at hget
  rw [hget] at hj
  refine ⟨_,List.mem_of_getElem? hentry,hi,?_,fun hne => ?_⟩
  · rw [happ.applied]
    exact List.mem_append_right _ hj
  · rw [happ.pushes]
    exact List.mem_append_right _ (List.mem_filter.mpr ⟨hj,by simpa using hne⟩)

theorem onTimer_logs (r : Readings) (n : Node) : (n.onTimer r).raft.logs = n.raft.logs := by
  rcases onTimer_cases r n with ⟨-,he⟩ | ⟨-,-,due,he⟩ | ⟨-,-,he⟩ | ⟨-,-,due,he⟩ <;> rw [he]
  · obtain ⟨ci,la,hr⟩ := doAppendEntries_raft true
      {n with raft := {n.raft with dueHeartBeat := due}}
    rw [hr]
  · rcases timerFail_cases r (n.doElection r) with he' | ⟨-,due,he'⟩ <;> rw [he'] <;> simp

theorem onAppendEntriesReponse_logs (response : AppendEntriesResponse) (isHeartbeat : Bool)
    (n : Node) : (n.onAppendEntriesReponse response isHeartbeat).raft.logs = n.raft.logs := by
  obtain ⟨x,hx,⟨peers,ci,la,hr⟩,-⟩ := onAppendEntriesReponse_frame response isHeartbeat n
  rw [hr,hx]
  split_ifs <;> rfl

end Node

/-- The log of a node without peers, in memory and on disk, is its own from the start. -/
structure AloneLog (n : Node) : Prop where
  logs : ContiguousFrom 0 n.raft.logs
  disk : ∀ record, n.persist = some record → ContiguousFrom 0 record.entries

namespace AloneLog

variable {n m : Node}

theorem same (h : AloneLog n) (hl : m.raft.logs = n.raft.logs) (hd : m.persist = n.persist ∨
    ∃ record, m.persist = some record ∧ record.entries = n.raft.logs) : AloneLog m := by
  refine ⟨hl ▸ h.logs,?_⟩
  intro record hr
  rcases hd with hd | ⟨record',hd,he⟩
  · exact h.disk record (hd ▸ hr)
  · obtain rfl := Option.some.inj (hd.symm.trans hr)
    exact he ▸ h.logs

theorem onTimer (h : AloneLog n) (r : Readings) : AloneLog (n.onTimer r) := by
  refine h.same (Node.onTimer_logs r n) ?_
  rcases Node.onTimer_cases r n with ⟨-,he⟩ | ⟨-,-,due,he⟩ | ⟨-,-,he⟩ | ⟨-,-,due,he⟩ <;> rw [he]
  · exact .inl rfl
  · exact .inl (by simp)
  · have hp : ((n.doElection r).timerFail r).persist = (n.doElection r).persist := by
      rcases Node.timerFail_cases r (n.doElection r) with he' | ⟨-,due,he'⟩ <;> rw [he']
    rw [hp,Node.doElection_persist]
    exact .inr ⟨_,rfl,rfl⟩
  · exact .inl rfl

theorem doLog (h : AloneLog n) (cmd : CString) : AloneLog (n.doLog cmd).1 := by
  rcases Node.doLog_cases cmd n with ⟨-,he⟩ | ⟨-,he⟩ | ⟨-,-,hb,he⟩ <;> rw [he]
  · exact h
  · exact h.same rfl (.inl rfl)
  · have hlen := SRaft.lastLogIndex_length h.logs
    have hnew : ContiguousFrom 0 (n.raft.logs++[Node.newEntry cmd n.raft]) := by
      refine h.logs.append (.singleton ?_ (by omega) rfl)
      simp only [Node.newEntry]
      omega
    obtain ⟨ci,la,hr⟩ := Node.logEntry_raft cmd n
    refine ⟨by rw [hr]; exact hnew,?_⟩
    intro record hrec
    rw [Node.logEntry_persist] at hrec
    obtain rfl := Option.some.inj hrec
    exact hnew

theorem run (h : AloneLog n) (r : Readings) : AloneLog (n.run r) := by
  have hload : AloneLog n.load := by
    unfold Node.load
    split
    · exact h
    · next record hr => exact ⟨h.disk record hr,h.disk⟩
  exact hload.same rfl (.inl rfl)

end AloneLog

namespace Cluster

variable {cfg : Config} {c c' : Cluster}

theorem alone_closed (cfg : Config) :
    LocalClosed cfg (fun i n => cfg.peersOf i = [] → AloneLog n) (fun _ => True) where
  boot := by
    intro i persist life hp hnil
    refine ⟨.nil 0,?_⟩
    intro record hr
    rcases hp with rfl | ⟨n,hn,rfl⟩
    · exact absurd hr (by simp [Server.boot,Node.create])
    · exact (hn hnil).disk record hr
  same := by
    rintro i n m h ⟨hr,hp,-⟩ hnil
    exact (h hnil).same (by rw [hr]) (.inl hp)
  sent := fun i n h hnil => ⟨(h hnil).logs,(h hnil).disk⟩
  rpc := fun _ _ _ _ _ _ _ => trivial
  fail := fun _ _ => trivial

theorem alone_move (h : PipeInv cfg c) (hc : cfg.Symmetric) {i : CString} {e : Event}
    {n : Node} {net : List Rpc} (hn : cfg.peersOf i = [] → AloneLog (c.servers i).node)
    (hm : c.Move i e n net) (hnil : cfg.peersOf i = []) : AloneLog n := by
  have hno : ∀ rpc ∈ c.net, ¬(i = rpc.src ∨ i = rpc.dst) := by
    rintro rpc hrpc (rfl | rfl)
    · exact (h.has_peer hc hrpc).1 hnil
    · exact (h.has_peer hc hrpc).2 hnil
  cases hm with
  | run r _ => exact (hn hnil).run r
  | timer r => exact (hn hnil).onTimer r
  | doLog cmd => exact (hn hnil).doLog cmd
  | putLog request _ => exact (hn hnil).doLog _
  | voteCall k r src life request response hk _ =>
    exact absurd (.inr rfl) (hno _ (List.mem_of_getElem? hk))
  | appendCall k r src life request isHeartbeat hk _ =>
    exact absurd (.inr rfl) (hno _ (List.mem_of_getElem? hk))
  | voteReply k dst request response hk =>
    exact absurd (.inl rfl) (hno _ (List.mem_of_getElem? hk))
  | appendReply k dst request isHeartbeat response hk =>
    exact absurd (.inl rfl) (hno _ (List.mem_of_getElem? hk))

/-- The steps after which `commitIndex_` is not within the log, or after which an index was
applied that no entry has. -/
def applySlip (c : Cluster) : Event → Bool
  | .deliver k _ =>
    match c.net[k]? with
    | some (.appendCall _ dst _ request _) => (c.servers dst).node.takesShort request
    | _ => false
  | .respond k =>
    match c.net[k]? with
    | some (.appendReply src _ _ _ isHeartbeat response) =>
      (c.servers src).node.commitsOutside response isHeartbeat
    | _ => false
  | _ => false

def applySound (c : Cluster) (e : Event) : Prop := c.applySlip e = false

instance (c : Cluster) (e : Event) : Decidable (c.applySound e) :=
  inferInstanceAs (Decidable (_ = _))

/-- What is applied is in the log, next to the invariants this rests on. -/
structure Applying (cfg : Config) (c : Cluster) : Prop where
  pipe : PipeInv cfg c
  alone : ∀ i, cfg.peersOf i = [] → AloneLog (c.servers i).node
  within : ∀ i, (c.raft i).commitIndex ≤ (c.raft i).lastLogIndex

theorem Applying.initial (cfg : Config) : Applying cfg (.initial cfg) :=
  ⟨.initial cfg,(alone_closed cfg).initial.1,fun _ => le_refl _⟩

/-- A commit of a leader with peers. -/
theorem Applying.reply (h : Applying cfg c) {i : CString} {response : AppendEntriesResponse}
    {isHeartbeat : Bool} (hok : ¬(c.servers i).node.commitsOutside response isHeartbeat) :
    ((c.servers i).node.onAppendEntriesReponse response isHeartbeat).raft.commitIndex ≤
      ((c.servers i).node.onAppendEntriesReponse response isHeartbeat).raft.lastLogIndex ∧
    Node.AppliesHeld (c.servers i).node
      ((c.servers i).node.onAppendEntriesReponse response isHeartbeat) := by
  have hlogs := Node.onAppendEntriesReponse_logs response isHeartbeat (c.servers i).node
  have hlast : ((c.servers i).node.onAppendEntriesReponse response isHeartbeat).raft.lastLogIndex =
      (c.raft i).lastLogIndex := by rw [SRaft.lastLogIndex,hlogs]; rfl
  have hwithin := h.within i
  rw [hlast]
  rcases Node.onAppendEntriesReponse_commits response isHeartbeat (c.servers i).node with
    hs | ⟨-,hlt,hcommit⟩
  · exact ⟨by rw [hs.2.2.2.2]; exact hwithin,.same hs.2.2.2.1⟩
  · have hmoves := (Node.onAppendEntriesReponse_moves_iff response isHeartbeat
      (c.servers i).node).mp (by rw [hcommit.commitIndex]; omega)
    have hle : response.lastLogIndex ≤ (c.raft i).lastLogIndex := by
      by_contra hgt
      exact hok ⟨hmoves,.inl (not_le.mp hgt)⟩
    have hbase : (c.raft i).baseLogIndex ≤ (c.raft i).commitIndex+1 := by
      by_contra hgt
      exact hok ⟨hmoves,.inr (not_le.mp hgt)⟩
    refine ⟨by rw [hcommit.commitIndex]; exact hle,?_⟩
    have hlow := (h.pipe.synced i).low
    have happ := (h.pipe.synced i).applied
    obtain ⟨base,hb,hcont⟩ : Contiguous (c.raft i).logs := (h.pipe.tidy.1 i).logs
    have hn : (c.raft i).logs ≠ [] := by
      intro hnil
      rw [SRaft.lastLogIndex_nil hnil] at hle
      omega
    rw [SRaft.baseLogIndex_eq hcont hn] at hbase
    rw [SRaft.lastLogIndex_eq hcont hn] at hle
    refine .commits hcommit (h.pipe.channel i) hb (by rw [hlogs]; exact hcont) ?_ ?_
    · rw [happ]
      exact hbase
    · rw [hlogs]
      change response.lastLogIndex < base+((c.raft i).logs.length : Int)
      omega

/-- A node without peers commits its own entry, the last of a log that starts at zero. -/
theorem Applying.log (h : Applying cfg c) (i cmd : CString) :
    ((c.servers i).node.doLog cmd).1.raft.commitIndex ≤
      ((c.servers i).node.doLog cmd).1.raft.lastLogIndex ∧
    Node.AppliesHeld (c.servers i).node ((c.servers i).node.doLog cmd).1 := by
  have hwithin := h.within i
  have hgrow : (c.raft i).lastLogIndex ≤
      ((c.servers i).node.doLog cmd).1.raft.lastLogIndex := by
    rcases Node.doLog_cases cmd (c.servers i).node with ⟨-,he⟩ | ⟨-,he⟩ | ⟨-,-,-,he⟩ <;> rw [he]
    · exact le_refl _
    · exact le_refl _
    · obtain ⟨ci,la,hr⟩ := Node.logEntry_raft cmd (c.servers i).node
      have hlast : ((c.servers i).node.logEntry cmd).raft.lastLogIndex =
          (c.raft i).lastLogIndex+1 := by
        rw [hr]
        simp [SRaft.lastLogIndex,Node.newEntry,raft]
      omega
  rcases Node.doLog_commits cmd (c.servers i).node with
    hs | ⟨-,-,hp,-,he,hcommit⟩
  · refine ⟨?_,.same hs.2.2.2.1⟩
    rw [hs.2.2.2.2]
    exact hwithin.trans hgrow
  · have hnil : cfg.peersOf i = [] := by
      have hlen := (h.pipe.wired.1 i).peers.length_le
      rw [hp] at hlen
      exact List.length_eq_zero_iff.mp (by simpa using hlen)
    have hnew := ((h.alone i hnil).doLog cmd).logs
    have hlen := SRaft.lastLogIndex_length hnew
    have hold := SRaft.lastLogIndex_length (h.alone i hnil).logs
    have hlow := (h.pipe.synced i).low
    have happ := (h.pipe.synced i).applied
    obtain ⟨ci,la,hr⟩ := Node.logEntry_raft cmd (c.servers i).node
    have hsize : ((c.servers i).node.doLog cmd).1.raft.logs.length =
        (c.servers i).node.raft.logs.length+1 := by
      rw [he,hr]
      simp
    refine ⟨?_,.commits hcommit (h.pipe.channel i) (le_refl 0) hnew ?_ ?_⟩
    · rw [hcommit.commitIndex]
      omega
    · omega
    · omega

theorem takes_last {request : AppendEntriesRequest} {n : Node} {r : Readings} {e : LogEntry}
    (ht : n.takesEntries request) (he : request.entries.getLast? = some e) :
    (n.onAppendEntriesRequest request r).1.raft.lastLogIndex = e.index := by
  have hl := Node.takes_logs ht r
  unfold SRaft.lastLogIndex
  rw [hl,Node.splice_last _ ht.2.2.1,he]

theorem takes_behind {request : AppendEntriesRequest} {n : Node} (h : n.takesShort request)
    (r : Readings) : (n.onAppendEntriesRequest request r).1.raft.lastLogIndex <
      (n.onAppendEntriesRequest request r).1.raft.commitIndex := by
  obtain ⟨ht,hany⟩ := h
  obtain ⟨e,hlast,hlt⟩ := (Option.any_eq_true _ _).mp hany
  rw [takes_last ht hlast,(Node.onAppendEntriesRequest_still request r n).2.2.2.2]
  exact of_decide_eq_true hlt

/-- The entries that a node takes end at `commitIndex_` or above. -/
theorem Applying.accept (h : Applying cfg c) {i : CString} {request : AppendEntriesRequest}
    (r : Readings) (hok : ¬(c.servers i).node.takesShort request) :
    ((c.servers i).node.onAppendEntriesRequest request r).1.raft.commitIndex ≤
      ((c.servers i).node.onAppendEntriesRequest request r).1.raft.lastLogIndex := by
  have hwithin : (c.servers i).node.raft.commitIndex ≤ (c.servers i).node.raft.lastLogIndex :=
    h.within i
  have hstill := (Node.onAppendEntriesRequest_still request r (c.servers i).node).2.2.2.2
  by_cases ht : (c.servers i).node.takesEntries request
  · obtain ⟨e,hlast⟩ := Option.ne_none_iff_exists'.mp
      (fun hnone => ht.2.2.1 (List.getLast?_eq_none_iff.mp hnone))
    rw [takes_last ht hlast,hstill]
    by_contra hlt
    exact hok ⟨ht,by rw [hlast,Option.any_some,decide_eq_true_iff]; exact not_le.mp hlt⟩
  · rcases Node.onAppendEntriesRequest_leaves ht r with he | ⟨-,due,he⟩ | ⟨-,he⟩
    · rwa [he]
    · rw [he]
      exact hwithin
    · rw [he]
      exact hwithin

theorem Applying.move (h : Applying cfg c) {i : CString} {e : Event} {n : Node}
    {net : List Rpc} (hok : c.applySound e) (hm : c.Move i e n net) :
    n.raft.commitIndex ≤ n.raft.lastLogIndex ∧ Node.AppliesHeld (c.servers i).node n := by
  have hwithin := h.within i
  have hsame : ∀ m : Node, Still (c.servers i).node m →
      m.raft.logs = (c.servers i).node.raft.logs →
      m.raft.commitIndex ≤ m.raft.lastLogIndex ∧ Node.AppliesHeld (c.servers i).node m := by
    intro m hs hlogs
    refine ⟨?_,.same hs.2.2.2.1⟩
    rw [hs.2.2.2.2,SRaft.lastLogIndex,hlogs]
    exact hwithin
  cases hm with
  | run r hrun =>
    have hs := Node.run_still r (c.servers i).node
    refine ⟨?_,.same hs.2.2.2.1⟩
    obtain ⟨hci,-⟩ := (h.pipe.synced i).fresh hrun
    rw [hs.2.2.2.2,hci]
    exact (SRaft.lastLogIndex_bounds ((h.pipe.tidy.1 i).run r).logs).1
  | timer r => exact hsame _ (Node.onTimer_still r _) (Node.onTimer_logs r _)
  | doLog cmd => exact h.log i cmd
  | putLog request _ => exact h.log i _
  | voteCall k r src life request response _ _ =>
    refine hsame _ (Node.onRequestVoteRequest_still request _) ?_
    rcases Node.onRequestVoteRequest_cases request (c.servers i).node with
      ⟨-,he,-⟩ | ⟨-,-,-,he⟩ | ⟨-,-,-,-,he⟩ <;> rw [he]
    all_goals rfl
  | appendCall k r src life request isHeartbeat hk _ =>
    rw [applySound,applySlip,hk] at hok
    exact ⟨h.accept r (of_decide_eq_false hok),
      .same (Node.onAppendEntriesRequest_still request r _).2.2.2.1⟩
  | voteReply k dst request response _ =>
    refine hsame _ (Node.onRequestVoteResponse_still response _) ?_
    rcases Node.onRequestVoteResponse_cases response (c.servers i).node with
      ⟨-,he⟩ | ⟨-,-,he⟩ | ⟨-,-,-,he⟩ <;> rw [he]
    all_goals rfl
  | appendReply k dst request isHeartbeat response hk =>
    rw [applySound,applySlip,hk] at hok
    exact h.reply (of_decide_eq_false hok)

/-- One allowed step keeps `commitIndex_` within the log at every node, and applies only
indices that its log has. -/
theorem Applying.step (h : Applying cfg c) (hc : cfg.Symmetric) {e : Event}
    (hok : c.applySound e) (hs : (machine cfg).step c e = some c') :
    Applying cfg c' ∧
      ∀ i, Node.AppliesHeld (c.servers i).node (c'.servers i).node := by
  have hpipe := h.pipe.step hc hs
  have halone := ((alone_closed cfg).step
    (fun i n net _ hm => ⟨fun hnil => alone_move h.pipe hc (h.alone i) hm hnil,
      fun _ _ => trivial⟩) ⟨h.alone,fun _ _ => trivial⟩ hs).1
  suffices hnew : ∀ i, (c'.raft i).commitIndex ≤ (c'.raft i).lastLogIndex ∧
      Node.AppliesHeld (c.servers i).node (c'.servers i).node from
    ⟨⟨hpipe,halone,fun i => (hnew i).1⟩,fun i => (hnew i).2⟩
  intro i
  rcases step_cases hs with
    ⟨j,n,net,-,hmove,hmoved⟩ | ⟨k,rpc,-,-,rfl⟩ | ⟨j,-,rfl,rfl⟩ | ⟨-,hq⟩
  · by_cases hi : i = j
    · subst hi
      obtain ⟨hle,hheld⟩ := h.move hok hmove
      rw [raft,hmoved.node]
      exact ⟨hle,hheld⟩
    · rw [raft,hmoved.other i hi]
      exact ⟨h.within i,.same rfl⟩
  · exact ⟨h.within i,.same rfl⟩
  · by_cases hi : i = j
    · subst hi
      have hlow := (h.pipe.synced i).low
      have happ := (h.pipe.synced i).applied
      refine ⟨by simp [crashed,raft,Server.boot,Node.create,SRaft.create,SRaft.lastLogIndex],?_⟩
      intro k hlt hle
      simp [crashed,Server.boot,Node.create,SRaft.create] at hle
      omega
    · simpa [crashed,raft,hi] using ⟨h.within i,Node.AppliesHeld.same rfl⟩
  · obtain ⟨hr,-⟩ := hq.node i
    refine ⟨?_,.same (by rw [hr])⟩
    rw [raft,hr]
    exact h.within i

theorem commits_outside (h : PipeInv cfg c) {i : CString} {response : AppendEntriesResponse}
    {isHeartbeat : Bool} (hout : (c.servers i).node.commitsOutside response isHeartbeat) :
    ¬(((c.servers i).node.onAppendEntriesReponse response isHeartbeat).raft.commitIndex ≤
        ((c.servers i).node.onAppendEntriesReponse response isHeartbeat).raft.lastLogIndex ∧
      Node.AppliesHeld (c.servers i).node
        ((c.servers i).node.onAppendEntriesReponse response isHeartbeat)) := by
  obtain ⟨hack,hout⟩ := hout
  have hmoves := (Node.onAppendEntriesReponse_moves_iff response isHeartbeat _).mpr hack
  have hlogs := Node.onAppendEntriesReponse_logs response isHeartbeat (c.servers i).node
  rcases Node.onAppendEntriesReponse_commits response isHeartbeat (c.servers i).node with
    hstill | ⟨-,hlt,hcommit⟩
  · exact absurd hstill.2.2.2.2 hmoves
  rintro ⟨hle,hheld⟩
  rcases hout with hout | hout
  · rw [hcommit.commitIndex,SRaft.lastLogIndex,hlogs] at hle
    exact absurd hle (not_le.mpr hout)
  · -- the first index to apply is below that of the first entry
    have happ := (h.synced i).applied
    have hlast := hcommit.lastApplied
    obtain ⟨e,he,hidx,-⟩ := hheld ((c.servers i).node.raft.lastApplied+1) (by omega) (by omega)
    rw [hlogs] at he
    obtain ⟨base,hb,hcont⟩ := (h.tidy.1 i).logs
    rw [SRaft.baseLogIndex_eq hcont (List.ne_nil_of_mem he)] at hout
    obtain ⟨j,hj⟩ := List.mem_iff_getElem?.mp he
    have := (hcont j e hj).1
    omega

/-- Such a step always breaks one or the other. -/
theorem applySlip_breaks (h : PipeInv cfg c) {e : Event} (hslip : c.applySlip e = true)
    (hs : (machine cfg).step c e = some c') :
    ∃ i, ¬((c'.raft i).commitIndex ≤ (c'.raft i).lastLogIndex ∧
      Node.AppliesHeld (c.servers i).node (c'.servers i).node) := by
  rcases step_cases hs with
    ⟨i,n,net,-,hm,hmoved⟩ | ⟨k,rpc,rfl,-,-⟩ | ⟨i,-,rfl,-⟩ | ⟨hout,-⟩
  · refine ⟨i,?_⟩
    rw [raft,hmoved.node]
    cases hm with
    | appendCall k r src life request isHeartbeat hk hp =>
      rw [applySlip,hk] at hslip
      exact fun hheld => absurd hheld.1 (not_le.mpr (takes_behind (of_decide_eq_true hslip) r))
    | appendReply k dst request isHeartbeat response hk =>
      rw [applySlip,hk] at hslip
      exact commits_outside h (of_decide_eq_true hslip)
    | voteCall k r src life request response hk _ =>
      rw [applySlip,hk] at hslip
      exact absurd hslip Bool.false_ne_true
    | voteReply k dst request response hk =>
      rw [applySlip,hk] at hslip
      exact absurd hslip Bool.false_ne_true
    | run => exact absurd hslip (by simp [applySlip])
    | timer => exact absurd hslip (by simp [applySlip])
    | doLog => exact absurd hslip (by simp [applySlip])
    | putLog => exact absurd hslip (by simp [applySlip])
  · exact absurd hslip (by simp [applySlip])
  · exact absurd hslip (by simp [applySlip])
  · cases e with
    | receive => exact absurd hslip Bool.false_ne_true
    | putCheck => exact absurd hslip Bool.false_ne_true
    | _ => exact absurd hout Bool.false_ne_true

/-- In a run without such a step `commitIndex_` is within the log of every node in every
state reached, and no handler applies an index that its log does not have. -/
theorem apply_never_skips (hc : cfg.Symmetric)
    (h : (machine cfg).Path applySound (.initial cfg) c) :
    (∀ i, (c.raft i).commitIndex ≤ (c.raft i).lastLogIndex) ∧
    ∀ e c', c.applySound e → (machine cfg).step c e = some c' →
      ∀ i, Node.AppliesHeld (c.servers i).node (c'.servers i).node := by
  have hinv : Applying cfg c :=
    h.invariant (fun _ _ _ hi hok hs => (hi.step hc hok hs).1) (.initial cfg)
  exact ⟨hinv.within,fun e c' hok hs => (hinv.step hc hok hs).2⟩

/-- One command goes through. -/
theorem apply_never_skips_two : ∃ c : Cluster, (c.raft ['a']).lastApplied = 0 ∧
    (∀ i, (c.raft i).commitIndex ≤ (c.raft i).lastLogIndex) ∧
    ∀ e c', c.applySound e → (machine .two).step c e = some c' →
      ∀ i, Node.AppliesHeld (c.servers i).node (c'.servers i).node := by
  obtain ⟨c,hp,hl⟩ := Machine.exec_any (machine .two) applySound (.initial .two)
    [.run ['a'] (.now 0),.run ['b'] (.now 0),.timer ['a'] (.now 451),.deliver 0 (.now 451),
      .respond 0,.doLog ['a'] ['x'],.deliver 0 (.now 451),.respond 0]
    (fun c => (c.raft ['a']).lastApplied = 0) (by decide +kernel)
  exact ⟨c,of_decide_eq_true hl,apply_never_skips Config.two_symmetric hp⟩

/-- A leader takes entries of the next leader and goes on: a late answer to its own request
then commits an index that its log no longer has. -/
def replacedLog : List Event :=
  [.run ['a'] (.now 0),.run ['b'] (.now 0),.run ['c'] (.now 0),.timer ['a'] (.now 451),
    .deliver 1 (.now 451),.respond 1,.deliver 0 (.now 451),.respond 0,.doLog ['a'] ['x'],
    .deliver 1 (.now 451),.timer ['b'] (.now 451),.deliver 3 (.now 451),.respond 3,
    .doLog ['b'] ['y'],.deliver 3 (.now 451),.respond 3,.doLog ['b'] ['w'],
    .deliver 4 (.now 451)]

theorem applies_missing : ∃ c c' : Cluster,
    (machine .three).Path Machine.always (.initial .three) c ∧
    (machine .three).step c (.respond 1) = some c' ∧
    (c'.servers ['a']).node.applied = [(0,[])] ∧ (c'.servers ['a']).node.pushes = [] ∧
    ¬Node.AppliesHeld (c.servers ['a']).node (c'.servers ['a']).node := by
  obtain ⟨c,hp,hc⟩ := Machine.exec_any (machine .three) Machine.always (.initial .three)
    replacedLog
    (fun c => ((machine .three).step c (.respond 1)).any fun c' =>
      (c.raft ['a']).lastApplied = -1 ∧ (c'.raft ['a']).lastApplied = 0 ∧
      (c'.servers ['a']).node.applied = [(0,[])] ∧ (c'.servers ['a']).node.pushes = [] ∧
      (c'.raft ['a']).logs = [⟨1,2,0,['w'],true⟩])
    (by decide +kernel)
  obtain ⟨c',hs,hall⟩ := (Option.any_eq_true _ _).mp hc
  obtain ⟨hold,hnew,happ,hpush,hlogs⟩ := of_decide_eq_true hall
  refine ⟨c,c',hp,hs,happ,hpush,fun h => ?_⟩
  obtain ⟨e,he,hidx,-⟩ := h 0 (by change (c.raft ['a']).lastApplied < 0; omega) hnew.ge
  change e ∈ (c'.raft ['a']).logs at he
  rw [hlogs,List.mem_singleton] at he
  rw [he] at hidx
  exact absurd hidx (by decide)

end Cluster

end SRaftMuduo
