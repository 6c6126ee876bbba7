import SRaftMuduo.Cluster.Bookkeeping
import SRaftMuduo.Cluster.Safety
import SRaftMuduo.Cluster.Sending

namespace SRaftMuduo

/-- The log of a running node is that on its disk, and a process that has not loaded the
file yet has none and follows. -/
structure Saved (n : Node) : Prop where
  memory : n.raft.running = true → n.raft.logs = n.diskLog
  fresh : n.raft.running = false → n.raft.logs = [] ∧ n.raft.state = .follower

namespace Saved

variable {n m : Node}

theorem ownLog (h : Saved n) : n.ownLog = n.diskLog := by
  unfold Node.ownLog
  split_ifs with hrun
  · exact h.memory hrun
  · rfl

theorem running (h : Saved n) (hs : n.raft.state ≠ .follower) : n.raft.running = true := by
  by_contra hrun
  exact hs (h.fresh (by simpa using hrun)).2

theorem set (hrun : m.raft.running = true) (hl : m.raft.logs = m.diskLog) : Saved m :=
  ⟨fun _ => hl,fun hr => absurd (hrun.symm.trans hr) (by decide)⟩

theorem kept (h : Saved n) (hrun : n.raft.running = true) (hk : n.LogKept m) :
    Saved m ∧ m.diskLog = n.diskLog := by
  have hdisk : m.diskLog = n.diskLog := by
    rcases hk.disk with hd | ⟨-,hd⟩
    · exact hd
    · exact hd.trans (h.memory hrun)
  exact ⟨set (hk.running.trans hrun) (by rw [hk.logs,hdisk,h.memory hrun]),hdisk⟩

theorem run (h : Saved n) (hrun : n.raft.running = false) (r : Readings) :
    Saved (n.run r) ∧ (n.run r).diskLog = n.diskLog := by
  have hdisk : (n.run r).diskLog = n.diskLog := by
    unfold Node.diskLog
    rw [Node.run_persist]
  refine ⟨set rfl ?_,hdisk⟩
  rw [hdisk]
  cases hp : n.persist with
  | none => simpa only [Node.run,Node.load,Node.diskLog,hp] using (h.fresh hrun).1
  | some record => simp only [Node.run,Node.load,Node.diskLog,hp]

theorem boot (cfg : Config) (i : CString) (persist : Option PersistRecord) (life : Nat) :
    Saved (Server.boot cfg i persist life).node :=
  ⟨fun hr => absurd hr Bool.false_ne_true,fun _ => ⟨rfl,rfl⟩⟩

end Saved

/-- The entries are those that a log had above the previous index of the request. -/
def TailOf (logs : List LogEntry) (request : AppendEntriesRequest) : Prop :=
  ∃ old, old <+: logs ∧ request.entries = old.filter (fun e => request.prevLogIndex < e.index)

section Tail

variable {logs : List LogEntry} {s : SRaft} {request : AppendEntriesRequest} {x : LogEntry}

theorem TailOf.mono (h : TailOf logs request) {logs' : List LogEntry} (hp : logs <+: logs') :
    TailOf logs' request := by
  obtain ⟨old,ho,he⟩ := h
  exact ⟨old,ho.trans hp,he⟩

theorem TailOf.subset (h : TailOf logs request) (hx : x ∈ request.entries) : x ∈ logs := by
  obtain ⟨old,ho,he⟩ := h
  rw [he] at hx
  exact ho.subset (List.mem_of_mem_filter hx)

/-- An entry of the log is in the request when its index is above the previous one and not
above the last. -/
theorem TailOf.mem_iff (h : TailOf logs request) (hc : Contiguous logs) (hx : x ∈ logs) :
    x ∈ request.entries ↔ request.prevLogIndex < x.index ∧
      ∃ e ∈ request.entries.getLast?, x.index ≤ e.index := by
  obtain ⟨old,ho,he⟩ := h
  obtain ⟨base,-,hc⟩ := hc
  constructor
  · intro hx
    obtain ⟨e,hlast⟩ := Option.ne_none_iff_exists'.mp
      (fun hnone => List.ne_nil_of_mem hx (List.getLast?_eq_none_iff.mp hnone))
    have hsub : request.entries.Sublist logs := by
      rw [he]
      exact List.filter_sublist.trans ho.sublist
    have habove : request.prevLogIndex < x.index := by
      rw [he] at hx
      simpa using List.of_mem_filter hx
    refine ⟨habove,e,hlast,?_⟩
    rcases pairwise_last (hc.ordered.sublist hsub) hlast hx with rfl | hlt
    · exact le_refl _
    · exact le_of_lt hlt
  · rintro ⟨habove,e,hlast,hle⟩
    have hmem := List.mem_of_getLast? hlast
    rw [he] at hmem ⊢
    refine List.mem_filter.mpr ⟨?_,by simpa using habove⟩
    -- the log had the last entry of the request already, and so this one before it
    obtain ⟨j,hj⟩ := List.mem_iff_getElem?.mp (List.mem_of_mem_filter hmem)
    obtain ⟨k,hk⟩ := List.mem_iff_getElem?.mp hx
    have hjlt := (List.getElem?_eq_some_iff.mp hj).1
    have hold : ∀ m < old.length, logs[m]? = old[m]? := by
      intro m hm
      obtain ⟨rest,rfl⟩ := ho
      exact List.getElem?_append_left hm
    have hje := (hc j e (by rw [hold j hjlt]; exact hj)).1
    have hkx := (hc k x hk).1
    refine List.mem_of_getElem? (i := k) ?_
    rw [← hold k (by omega)]
    exact hk

/-- An entry of the log that a node has is left in its log by a request with a tail of it,
unless the request ends below the entry, or the node does not find the previous entry and
the index is not above its. -/
theorem splice_keeps_iff (hs : Contiguous s.logs) (hc : Contiguous logs)
    (ht : TailOf logs request) (htidy : TidyRequest request) (hp : request.parses = true)
    (hne : request.entries ≠ []) (hxs : x ∈ s.logs) (hx : x ∈ logs) :
    x ∈ Node.splice s request ↔
      ¬((∃ e ∈ request.entries.getLast?, e.index < x.index) ∨
        s.findLog request.prevLogTerm (toU64 request.prevLogIndex) = 2^64-1 ∧
          x.index ≤ request.prevLogIndex) := by
  obtain ⟨hprev,hentries⟩ := htidy
  have hentries := hentries hp
  obtain ⟨last,hlast⟩ := Option.ne_none_iff_exists'.mp
    (fun hnone => hne (List.getLast?_eq_none_iff.mp hnone))
  have hmem : x ∈ request.entries ↔
      request.prevLogIndex < x.index ∧ x.index ≤ last.index := by
    rw [ht.mem_iff hc hx,hlast]
    simp
  have hlow : request.prevLogIndex < last.index ∧ last.index < 2^63 := by
    obtain ⟨k,hk⟩ := List.mem_iff_getElem?.mp (List.mem_of_getLast? hlast)
    have := hentries k last hk
    omega
  rw [hlast]
  simp only [Option.mem_some_iff,exists_eq_left']
  rcases Node.splice_cases s request with ⟨hnone,he⟩ | ⟨i,e,hi,-,hidx,hfind,he⟩ <;> rw [he]
  · rw [hmem,hnone]
    omega
  · obtain ⟨base,hb,hlogs⟩ := hs
    obtain ⟨hie,hlt,-⟩ := hlogs i e hi
    have hprev' : e.index = request.prevLogIndex :=
      toU64_inj (by omega) hlt (by omega) (by omega) hidx
    have htake : x ∈ s.logs.take (i+1) ↔ x.index ≤ request.prevLogIndex := by
      constructor
      · intro hx
        obtain ⟨k,hk⟩ := List.mem_iff_getElem?.mp hx
        have hki := (List.getElem?_eq_some_iff.mp hk).1
        have := (hlogs.take (i+1) k x hk).1
        rw [List.length_take] at hki
        omega
      · intro hle
        obtain ⟨k,hk⟩ := List.mem_iff_getElem?.mp hxs
        have := (hlogs k x hk).1
        refine List.mem_of_getElem? (i := k) ?_
        rw [List.getElem?_take,if_pos (by omega)]
        exact hk
    rw [List.mem_append,htake,hmem,hfind]
    omega

/-- What `DoLog` sends to a peer, if it can be sent. -/
theorem appendRequest_tail {peer : SRaftPeer} (h : Contiguous s.logs) (hn : s.logs ≠ [])
    (h0 : 0 ≤ peer.nextIndex) (h1 : peer.nextIndex ≤ 2^63)
    (hp : (s.appendRequest false peer).parses = true) :
    TailOf s.logs (s.appendRequest false peer) := by
  obtain ⟨base,hb,hc⟩ := h
  have hbase : base ≤ peer.nextIndex := by
    by_contra hlt
    have hempty := SRaft.entriesFrom_below hb hc h0 (by omega) hn
    exact absurd (List.all_eq_true.mp hp _ hempty) (by decide)
  exact ⟨s.logs,List.prefix_rfl,SRaft.appendRequest_filter hb hc hn hbase h1⟩

end Tail

namespace Cluster

variable {cfg : Config} {c c' c₀ : Cluster} {e : Event} {i : CString} {n : Node}
  {net : List Rpc}

/-- The request whose entries the node at `i` takes in a step. -/
def takenBy (i : CString) (c : Cluster) : Event → Option AppendEntriesRequest
  | .deliver k _ =>
    match c.net[k]? with
    | some (.appendCall _ dst _ request _) =>
      if dst = i ∧ (c.servers i).node.takesEntries request then some request else none
    | _ => none
  | _ => none

/-- What a step makes of the log of a node: it stays or gets one more entry, or it is spliced
with the entries of a request. -/
def LogChange (i : CString) (c : Cluster) (e : Event) (n : Node) : Prop :=
  (c.takenBy i e = none ∧
    (n.diskLog = (c.servers i).node.diskLog ∨
      ∃ entry, n.diskLog = (c.servers i).node.diskLog++[entry])) ∨
  ∃ request, c.takenBy i e = some request ∧ request.parses = true ∧
    n.diskLog = Node.splice (c.raft i) request

theorem takenBy_eq_some {request : AppendEntriesRequest} : c.takenBy i e = some request ↔
    ∃ k r src life isHeartbeat, e = .deliver k r ∧
      c.net[k]? = some (.appendCall src i life request isHeartbeat) ∧
      (c.servers i).node.takesEntries request := by
  constructor
  · intro h
    unfold takenBy at h
    split at h
    · next k r =>
      split at h
      · next src dst life sent isHeartbeat hk =>
        obtain ⟨⟨rfl,ht⟩,hs⟩ := Option.ite_none_right_eq_some.mp h
        obtain rfl := Option.some.inj hs
        exact ⟨k,r,src,life,isHeartbeat,rfl,hk,ht⟩
      · exact absurd h (by simp)
    · exact absurd h (by simp)
  · rintro ⟨k,r,src,life,isHeartbeat,rfl,hk,ht⟩
    rw [takenBy,hk]
    exact if_pos ⟨rfl,ht⟩

/-- A node that takes entries is the one whose handler runs. -/
theorem takenBy_self {j : CString} {request : AppendEntriesRequest} (hm : c.Move i e n net)
    (h : c.takenBy j e = some request) : j = i := by
  obtain ⟨k,r,src,life,isHeartbeat,rfl,hk,-⟩ := takenBy_eq_some.mp h
  cases hm with
  | voteCall k r src life request response hk' _ => exact absurd (hk.symm.trans hk') (by simp)
  | appendCall k r src life request isHeartbeat hk' _ =>
    have heq := hk.symm.trans hk'
    simp only [Option.some.injEq,Rpc.appendCall.injEq] at heq
    exact heq.2.1

theorem saved_move (hcall : Callers c) (h : Saved (c.servers i).node) (hm : c.Move i e n net) :
    Saved n ∧ LogChange i c e n := by
  have hkept : c.takenBy i e = none → Saved n ∧ n.diskLog = (c.servers i).node.diskLog →
      Saved n ∧ LogChange i c e n := fun hno hn => ⟨hn.1,.inl ⟨hno,.inl hn.2⟩⟩
  by_cases hrun : (c.raft i).running = true
  swap
  · have hno : c.takenBy i e = none := by
      refine Option.eq_none_iff_forall_ne_some.mpr (fun request ht => ?_)
      obtain ⟨_,_,_,_,_,-,-,ht⟩ := takenBy_eq_some.mp ht
      exact hrun ht.1
    have hoff : (c.raft i).running = false := by simpa using hrun
    rcases hcall.move_idle hoff hm with he | ⟨r,-,he⟩
    · exact hkept hno (by rw [he]; exact ⟨h,rfl⟩)
    · exact hkept hno (by rw [he]; exact h.run hoff r)
  have hlog : ∀ cmd, c.takenBy i e = none → n = ((c.servers i).node.doLog cmd).1 →
      Saved n ∧ LogChange i c e n := by
    rintro cmd hno rfl
    rcases Node.doLog_cases cmd (c.servers i).node with ⟨-,he⟩ | ⟨-,he⟩ | ⟨-,-,-,he⟩
    · exact hkept hno (h.kept hrun (by rw [he]; exact .same rfl rfl rfl))
    · exact hkept hno (h.kept hrun (by rw [he]; exact .same rfl rfl rfl))
    · obtain ⟨ci,la,hr⟩ := Node.logEntry_raft cmd (c.servers i).node
      let entry := Node.newEntry cmd (c.servers i).node.raft
      have hd : ((c.servers i).node.doLog cmd).1.diskLog =
          (c.servers i).node.raft.logs++[entry] := by
        rw [he,Node.diskLog,Node.logEntry_persist]
      refine ⟨Saved.set (by rw [he,hr]; exact hrun) (by rw [hd,he,hr]),.inl ⟨hno,.inr ⟨entry,?_⟩⟩⟩
      rw [hd,h.memory hrun]
  cases hm with
  | run r hno => exact absurd (hno.symm.trans hrun) Bool.false_ne_true
  | timer r => exact hkept rfl (h.kept hrun (Node.onTimer_logKept r _))
  | doLog cmd => exact hlog cmd rfl rfl
  | putLog request _ => exact hlog request.command rfl rfl
  | voteCall k r src life request response hk _ =>
    exact hkept (by rw [takenBy,hk]) (h.kept hrun (Node.onRequestVoteRequest_logKept request _))
  | voteReply k dst request response _ =>
    exact hkept rfl (h.kept hrun (Node.onRequestVoteResponse_logKept response hrun))
  | appendReply k dst request isHeartbeat response _ =>
    exact hkept rfl (h.kept hrun
      (Node.onAppendEntriesReponse_logKept response isHeartbeat hrun))
  | appendCall k r src life request isHeartbeat hk hp =>
    by_cases ht : (c.servers i).node.takesEntries request
    · have htaken : c.takenBy i (.deliver k r) = some request :=
        takenBy_eq_some.mpr ⟨k,r,src,life,isHeartbeat,rfl,hk,ht⟩
      obtain ⟨logs,hlogs,he⟩ := Node.onAppendEntriesRequest_takes ht r
      rw [he]
      exact ⟨Saved.set hrun rfl,.inr ⟨request,htaken,hp,hlogs⟩⟩
    · have hno : c.takenBy i (.deliver k r) = none := by
        rw [takenBy,hk]
        exact if_neg (fun h => ht h.2)
      refine hkept hno (h.kept hrun ?_)
      rcases Node.onAppendEntriesRequest_leaves ht r with he | ⟨-,due,he⟩ | ⟨-,he⟩ <;> rw [he]
      · exact .same rfl rfl rfl
      · exact .same rfl rfl rfl
      · exact .dumped hrun rfl rfl rfl rfl

/-- What the logs of a reachable cluster rest on. -/
structure Stable (cfg : Config) (c : Cluster) : Prop where
  callers : Callers c
  saved : ∀ i, Saved (c.servers i).node
  tidy : (∀ i, Tidy (c.servers i).node) ∧ ∀ rpc ∈ c.net, TidyRpc rpc

theorem Stable.initial (cfg : Config) : Stable cfg (.initial cfg) :=
  ⟨.initial cfg,fun i => .boot cfg i none 0,(tidy_invariant cfg).initial⟩

theorem Stable.step (h : Stable cfg c) (hs : (machine cfg).step c e = some c') :
    Stable cfg c' := by
  refine ⟨h.callers.step hs,?_,(tidy_invariant cfg).step h.tidy hs⟩
  rcases step_cases hs with
    ⟨i,n,net,-,hm,hmoved⟩ | ⟨k,rpc,-,-,rfl⟩ | ⟨i,-,-,rfl⟩ | ⟨-,hq⟩
  · obtain ⟨hn,-⟩ := saved_move h.callers (h.saved i) hm
    refine hmoved.each (P := fun _ s => Saved s.node) ?_ (fun j _ => h.saved j)
    rw [hmoved.node]
    exact ⟨hn.memory,hn.fresh⟩
  · exact h.saved
  · exact crashed_each (P := fun _ s => Saved s.node) (.boot cfg i _ _) (fun j _ => h.saved j)
  · intro j
    obtain ⟨hr,hp,-⟩ := hq.node j
    have hdisk : (c'.servers j).node.diskLog = (c.servers j).node.diskLog := by
      rw [Node.diskLog,hp,Node.diskLog]
    refine ⟨?_,?_⟩
    · rw [hr,hdisk]
      exact (h.saved j).memory
    · rw [hr]
      exact (h.saved j).fresh

/-- The log on the disk of each node after a step. -/
theorem Stable.log_step (h : Stable cfg c) (hs : (machine cfg).step c e = some c')
    (i : CString) : LogChange i c e (c'.servers i).node := by
  have hsame : c.takenBy i e = none →
      (c'.servers i).node.diskLog = (c.servers i).node.diskLog →
      LogChange i c e (c'.servers i).node := fun hno hd => .inl ⟨hno,.inl hd⟩
  rcases step_cases hs with
    ⟨j,n,net,-,hm,hmoved⟩ | ⟨k,rpc,rfl,-,rfl⟩ | ⟨j,-,rfl,rfl⟩ | ⟨hout,hq⟩
  · by_cases hj : i = j
    · subst hj
      rw [hmoved.node]
      exact (saved_move h.callers (h.saved i) hm).2
    · refine hsame (Option.eq_none_iff_forall_ne_some.mpr fun request ht => ?_) ?_
      · exact hj (takenBy_self hm ht)
      · rw [hmoved.other i hj]
  · exact hsame rfl rfl
  · refine hsame rfl ?_
    by_cases hj : i = j
    · subst hj
      simp [crashed,Server.boot,Node.create,Node.diskLog]
    · simp [crashed,hj]
  · refine hsame (by cases e <;> first | rfl | exact absurd hout Bool.false_ne_true) ?_
    rw [Node.diskLog,(hq.node i).2.1,Node.diskLog]

end Cluster

/-- The request of a call to `f`. -/
def Call.entriesTo (f : CString) : Call → Option AppendEntriesRequest
  | .appendEntries peer request _ => if peer = f then some request else none
  | .requestVote _ _ => none

/-- The requests that one node has sent to another from its `DoLog`, and the entries of those
that were acknowledged, but for what a request of another kind has removed since. -/
structure Period where
  sent : List AppendEntriesRequest
  acked : List LogEntry

namespace Period

def logs (l f : CString) (p : Period) (c : Cluster) (cmd : CString) : Period :=
  {p with sent := p.sent++((c.servers l).node.doLog cmd).1.calls.filterMap (Call.entriesTo f)}

/-- An answer of `f` with `success` acknowledges the entries of the request. -/
def next (l f : CString) (p : Period) (c : Cluster) : Event → Period
  | .doLog i cmd => if i = l then p.logs l f c cmd else p
  | .putLog i =>
    match (c.servers i).pending with
    | some request => if i = l then p.logs l f c request.command else p
    | none => p
  | .deliver k r =>
    match c.net[k]? with
    | some (.appendCall _ dst _ request _) =>
      let answer := (c.servers f).node.onAppendEntriesRequest request r
      if dst = f ∧ answer.2.success = true then
        if request ∈ p.sent then {p with acked := p.acked++request.entries}
        else {p with acked := p.acked.filter (fun x => x ∈ answer.1.raft.logs)}
      else p
    | _ => p
  | _ => p

variable {c : Cluster} {e : Event} {l f : CString} {p : Period} {request : AppendEntriesRequest}

theorem next_kept (h : c.takenBy f e = none) : (p.next l f c e).acked = p.acked := by
  unfold next
  split
  · split_ifs <;> rfl
  · split
    · split_ifs <;> rfl
    · rfl
  · next k r =>
    split
    · next src dst life request isHeartbeat hk =>
      refine congrArg acked (if_neg ?_)
      rintro ⟨rfl,hs⟩
      have ht := (Node.success_iff request r _).mp hs
      rw [Cluster.takenBy_eq_some.mpr ⟨k,r,src,life,isHeartbeat,rfl,hk,ht⟩] at h
      exact absurd h (by simp)
    · rfl
  · rfl

theorem next_taken (h : c.takenBy f e = some request) : (p.next l f c e).acked =
    if request ∈ p.sent then p.acked++request.entries
    else p.acked.filter (fun x => x ∈ Node.splice (c.raft f) request) := by
  obtain ⟨k,r,src,life,isHeartbeat,rfl,hk,ht⟩ := Cluster.takenBy_eq_some.mp h
  have hlogs := Node.takes_logs ht r
  simp only [next,hk,(Node.success_iff request r _).mpr ht,true_and,if_true,hlogs]
  split_ifs <;> rfl

theorem logs_sent {cmd : CString} (h : request ∈ (p.logs l f c cmd).sent) :
    request ∈ p.sent ∨ ∃ peer isHeartbeat, Call.appendEntries peer request isHeartbeat ∈
      ((c.servers l).node.doLog cmd).1.calls := by
  rcases List.mem_append.mp h with h | h
  · exact .inl h
  · obtain ⟨call,hc,hto⟩ := List.mem_filterMap.mp h
    cases call with
    | requestVote peer vote => exact absurd hto (by simp [Call.entriesTo])
    | appendEntries peer sent isHeartbeat =>
      obtain ⟨-,hs⟩ := Option.ite_none_right_eq_some.mp hto
      obtain rfl := Option.some.inj hs
      exact .inr ⟨peer,isHeartbeat,hc⟩

/-- A request that is new among those sent is one of a `DoLog`. -/
theorem next_sent {i : CString} {n : Node} {net : List Rpc} (hm : c.Move i e n net)
    (h : request ∈ (p.next l f c e).sent) : request ∈ p.sent ∨
    ∃ cmd, i = l ∧ n = ((c.servers l).node.doLog cmd).1 ∧ ∃ peer isHeartbeat,
      Call.appendEntries peer request isHeartbeat ∈
        ((c.servers l).node.doLog cmd).1.calls := by
  have hlogs : ∀ cmd, i = l → n = ((c.servers l).node.doLog cmd).1 →
      request ∈ (p.logs l f c cmd).sent → request ∈ p.sent ∨
      ∃ cmd, i = l ∧ n = ((c.servers l).node.doLog cmd).1 ∧ ∃ peer isHeartbeat,
        Call.appendEntries peer request isHeartbeat ∈
          ((c.servers l).node.doLog cmd).1.calls := by
    intro cmd hi hn hreq
    rcases logs_sent hreq with hold | hnew
    · exact .inl hold
    · exact .inr ⟨cmd,hi,hn,hnew⟩
  cases hm with
  | doLog cmd =>
    simp only [next] at h
    split_ifs at h with hi
    · subst hi
      exact hlogs cmd rfl rfl h
    · exact .inl h
  | putLog put hp =>
    simp only [next,hp] at h
    split_ifs at h with hi
    · subst hi
      exact hlogs put.command rfl rfl h
    · exact .inl h
  | voteCall k r src life vote response hk _ =>
    simp only [next,hk] at h
    exact .inl h
  | appendCall k r src life taken isHeartbeat hk _ =>
    simp only [next,hk] at h
    split_ifs at h <;> exact .inl h
  | _ => exact .inl h

end Period

namespace Node

/-- The request ends below one of the entries, or the node does not find the previous entry
and the request starts above one of them. -/
def drops (request : AppendEntriesRequest) (acked : List LogEntry) (n : Node) : Prop :=
  ∃ x ∈ acked, (∃ e ∈ request.entries.getLast?, e.index < x.index) ∨
    n.raft.findLog request.prevLogTerm (toU64 request.prevLogIndex) = 2^64-1 ∧
      x.index ≤ request.prevLogIndex

instance (request : AppendEntriesRequest) (acked : List LogEntry) (n : Node) :
    Decidable (n.drops request acked) :=
  inferInstanceAs (Decidable (∃ x ∈ acked, _ ∨ _))

end Node

namespace Cluster

variable {cfg : Config} {c c' c₀ : Cluster} {e : Event} {l f : CString} {p : Period}
  {request : AppendEntriesRequest}

/-- The node `l` takes no entries from another, and `f` takes no request of `l` that drops
what it has acknowledged. -/
def overlapSound (l f : CString) (q : Cluster × Period) (e : Event) : Prop :=
  q.1.takenBy l e = none ∧ ∀ request ∈ q.1.takenBy f e, request ∈ q.2.sent →
    ¬(q.1.servers f).node.drops request q.2.acked

instance (l f : CString) (q : Cluster × Period) (e : Event) :
    Decidable (overlapSound l f q e) := by
  unfold overlapSound
  infer_instance

/-- What was sent has stayed in the log of the sender, and what was acknowledged in both. -/
structure Holding (cfg : Config) (l f : CString) (q : Cluster × Period) : Prop where
  stable : Stable cfg q.1
  sent : ∀ request ∈ q.2.sent, request.parses = true →
    TailOf (q.1.servers l).node.diskLog request
  logged : ∀ x ∈ q.2.acked, x ∈ (q.1.servers l).node.diskLog
  held : ∀ x ∈ q.2.acked, x ∈ (q.1.servers f).node.diskLog

theorem Stable.disk (h : Stable cfg c) (i : CString) : Contiguous (c.servers i).node.diskLog := by
  cases hp : (c.servers i).node.persist with
  | none =>
    rw [Node.diskLog,hp]
    exact ⟨0,le_refl _,.nil 0⟩
  | some record =>
    rw [Node.diskLog,hp]
    exact (h.tidy.1 i).disk record hp

/-- The requests that `DoLog` sends, against the log it leaves. -/
theorem Stable.doLog_tail (h : Stable cfg c) {cmd peer : CString} {isHeartbeat : Bool}
    (hcall : Call.appendEntries peer request isHeartbeat ∈
      ((c.servers l).node.doLog cmd).1.calls) (hp : request.parses = true) :
    TailOf ((c.servers l).node.doLog cmd).1.diskLog request := by
  rw [Node.doLog_calls,h.callers.idle l,List.nil_append] at hcall
  split_ifs at hcall with hon
  · obtain ⟨name,target,hmem,heq⟩ := Node.callPeers_mem hcall
    simp only [Call.appendEntries.injEq] at heq
    obtain ⟨-,rfl,-⟩ := heq
    obtain ⟨h0,h1⟩ := (h.tidy.1 l).peers _ _ hmem
    have hd : ((c.servers l).node.doLog cmd).1.diskLog = ((c.raft l).logged cmd).logs := by
      rcases Node.doLog_cases cmd (c.servers l).node with ⟨hno,-⟩ | ⟨hmax,-⟩ | ⟨-,-,-,he⟩
      · exact absurd ⟨hon.1,hon.2.1⟩ hno
      · exact absurd hon.2.2 (not_lt.mpr hmax)
      · rw [he,Node.diskLog,Node.logEntry_persist]
        rfl
    rw [hd]
    have hnew := Tidy.newEntry cmd (h.tidy.1 l).logs hon.2.2
    exact appendRequest_tail hnew (by simp [SRaft.logged]) h0 h1 hp
  · exact absurd hcall List.not_mem_nil

theorem Holding.keeps_iff (h : Holding cfg l f (c,p)) (ht : c.takenBy f e = some request)
    (hp : request.parses = true) (hsent : request ∈ p.sent) :
    (∀ x ∈ p.acked, x ∈ Node.splice (c.raft f) request) ↔
      ¬(c.servers f).node.drops request p.acked := by
  obtain ⟨k,r,src,life,isHeartbeat,rfl,hk,htakes⟩ := takenBy_eq_some.mp ht
  have htidy : TidyRequest request := h.stable.tidy.2 _ (List.mem_of_getElem? hk)
  have hlogs : (c.raft f).logs = (c.servers f).node.diskLog :=
    (h.stable.saved f).memory htakes.1
  have hkeep : ∀ x ∈ p.acked, (x ∈ Node.splice (c.raft f) request ↔ _) := fun x hx =>
    splice_keeps_iff (h.stable.tidy.1 f).logs (h.stable.disk l) (h.sent request hsent hp) htidy
      hp htakes.2.2.1 (hlogs ▸ h.held x hx) (h.logged x hx)
  constructor
  · rintro hall ⟨x,hx,hdrop⟩
    exact (hkeep x hx).mp (hall x hx) hdrop
  · exact fun hno x hx => (hkeep x hx).mpr (fun hdrop => hno ⟨x,hx,hdrop⟩)

/-- Without entries from others a log only grows. -/
theorem Stable.grows (h : Stable cfg c) {i : CString} (hno : c.takenBy i e = none)
    (hs : (machine cfg).step c e = some c') :
    (c.servers i).node.diskLog <+: (c'.servers i).node.diskLog := by
  rcases h.log_step hs i with ⟨-,hd | ⟨entry,hd⟩⟩ | ⟨request,ht,-⟩
  · rw [hd]
  · rw [hd]
    exact List.prefix_append _ _
  · exact absurd (hno.symm.trans ht) (by simp)

theorem Stable.takes (h : Stable cfg c) {i : CString} (ht : c.takenBy i e = some request)
    (hs : (machine cfg).step c e = some c') : request.parses = true ∧
      (c'.servers i).node.diskLog = Node.splice (c.raft i) request := by
  rcases h.log_step hs i with ⟨hno,-⟩ | ⟨taken,ht',hp,hd⟩
  · exact absurd (hno.symm.trans ht) (by simp)
  · obtain rfl := Option.some.inj (ht'.symm.trans ht)
    exact ⟨hp,hd⟩

theorem Holding.sent_step (h : Holding cfg l f (c,p)) (hno : c.takenBy l e = none)
    (hs : (machine cfg).step c e = some c') : ∀ request ∈ (p.next l f c e).sent,
      request.parses = true → TailOf (c'.servers l).node.diskLog request := by
  have hgrows := h.stable.grows hno hs
  have hold : ∀ request ∈ p.sent, request.parses = true →
      TailOf (c'.servers l).node.diskLog request :=
    fun request hr hp => (h.sent request hr hp).mono hgrows
  intro request hr hp
  rcases step_cases hs with
    ⟨i,n,net,-,hm,hmoved⟩ | ⟨k,rpc,rfl,-,-⟩ | ⟨i,-,rfl,-⟩ | ⟨hout,-⟩
  · rcases Period.next_sent hm hr with hr | ⟨cmd,rfl,rfl,peer,isHeartbeat,hcall⟩
    · exact hold request hr hp
    · rw [hmoved.node]
      exact h.stable.doLog_tail hcall hp
  · exact hold request hr hp
  · exact hold request hr hp
  · refine hold request ?_ hp
    cases e <;> first | exact hr | exact absurd hout Bool.false_ne_true

theorem Holding.step {q q' : Cluster × Period} (h : Holding cfg l f q)
    (hok : overlapSound l f q e)
    (hs : ((machine cfg).withGhost (Period.next l f)).step q e = some q') :
    Holding cfg l f q' := by
  obtain ⟨c,p⟩ := q
  obtain ⟨c',p'⟩ := q'
  obtain ⟨ht,rfl⟩ := Machine.withGhost_step hs
  obtain ⟨hno,hdrop⟩ := hok
  dsimp only at ht hno hdrop
  have hgrows := h.stable.grows hno ht
  have hlogged : ∀ x ∈ p.acked, x ∈ (c'.servers l).node.diskLog :=
    fun x hx => hgrows.subset (h.logged x hx)
  refine ⟨h.stable.step ht,h.sent_step hno ht,?_,?_⟩
  all_goals
    intro x hx
    dsimp only at hx ⊢
    cases htaken : c.takenBy f e with
    | none => ?_
    | some request => ?_
  · rw [Period.next_kept htaken] at hx
    exact hlogged x hx
  · rw [Period.next_taken htaken] at hx
    split_ifs at hx with hsent
    · rcases List.mem_append.mp hx with hx | hx
      · exact hlogged x hx
      · exact hgrows.subset ((h.sent request hsent (h.stable.takes htaken ht).1).subset hx)
    · exact hlogged x (List.mem_of_mem_filter hx)
  · rw [Period.next_kept htaken] at hx
    exact (h.stable.grows htaken ht).subset (h.held x hx)
  · obtain ⟨hp,hd⟩ := h.stable.takes htaken ht
    rw [hd]
    rw [Period.next_taken htaken] at hx
    split_ifs at hx with hsent
    · rcases List.mem_append.mp hx with hx | hx
      · exact (h.keeps_iff htaken hp hsent).mpr (hdrop request htaken hsent) x hx
      · exact List.mem_append_right _ hx
    · simpa using List.of_mem_filter hx

/-- While a node takes no entries from others, as the leader of one term or of several: in
every run without a request that drops acknowledged entries all that a peer has acknowledged
is in its log; and the next request that the peer takes leaves it there exactly when it is
not such a request. -/
theorem acked_entries_kept (h₀ : (machine cfg).Path Machine.always (.initial cfg) c₀)
    (h : ((machine cfg).withGhost (Period.next l f)).Path (overlapSound l f) (c₀,⟨[],[]⟩)
      (c,p)) :
    (∀ x ∈ p.acked, x ∈ (c.servers f).node.ownLog) ∧
    ∀ e c' request, c.takenBy f e = some request → request ∈ p.sent →
      (machine cfg).step c e = some c' →
      ((∀ x ∈ p.acked, x ∈ (c'.servers f).node.ownLog) ↔
        ¬(c.servers f).node.drops request p.acked) := by
  have hstable : Stable cfg c₀ := h₀.invariant (I := Stable cfg)
    (fun _ _ _ hi _ hs => hi.step hs) (.initial cfg)
  have hinit : Holding cfg l f (c₀,⟨[],[]⟩) := ⟨hstable,fun _ hr => absurd hr List.not_mem_nil,
    fun _ hx => absurd hx List.not_mem_nil,fun _ hx => absurd hx List.not_mem_nil⟩
  have hI := h.invariant (I := Holding cfg l f) (fun _ _ _ hi hok hs => hi.step hok hs) hinit
  refine ⟨fun x hx => ?_,fun e c' request ht hsent hs => ?_⟩
  · rw [(hI.stable.saved f).ownLog]
    exact hI.held x hx
  · obtain ⟨hp,hd⟩ := hI.stable.takes ht hs
    rw [((hI.stable.step hs).saved f).ownLog,hd]
    exact hI.keeps_iff ht hp hsent

/-- Up to the election of the first node of two. -/
def electingOne : List Event :=
  [.run ['a'] (.now 0),.run ['b'] (.now 0),.timer ['a'] (.now 451),.deliver 0 (.now 451),
    .respond 0]

/-- Three entries, the last two in requests with one previous index, before either arrives. -/
def overlapping : List Event :=
  [.doLog ['a'] ['x'],.deliver 0 (.now 451),.respond 0,.doLog ['a'] ['y'],.doLog ['a'] ['z']]

/-- The requests arrive in the order in which they were sent. -/
theorem acked_entries_kept_order : ∃ (c : Cluster) (p : Period),
    c.leadsIn ['a'] 1 ∧ p.acked.map LogEntry.data = [['x'],['y'],['y'],['z']] ∧
    (∀ x ∈ p.acked, x ∈ (c.servers ['b']).node.ownLog) ∧
    ∀ e c' request, c.takenBy ['b'] e = some request → request ∈ p.sent →
      (machine .two).step c e = some c' →
      ((∀ x ∈ p.acked, x ∈ (c'.servers ['b']).node.ownLog) ↔
        ¬(c.servers ['b']).node.drops request p.acked) := by
  obtain ⟨c₀,hp₀,h₀⟩ := Machine.exec_any (machine .two) Machine.always (.initial .two)
    electingOne
    (fun c => (((machine .two).withGhost (Period.next ['a'] ['b'])).exec
        (overlapSound ['a'] ['b']) (c,⟨[],[]⟩)
        (overlapping++[.deliver 0 (.now 451),.deliver 1 (.now 451)])).any
      (fun q => q.1.leadsIn ['a'] 1 ∧
        q.2.acked.map LogEntry.data = [['x'],['y'],['y'],['z']]) = true)
    (by decide +kernel)
  obtain ⟨⟨c,p⟩,hp,hq⟩ := Machine.exec_any _ _ _ _ _ (of_decide_eq_true h₀)
  obtain ⟨hl,hacked⟩ := of_decide_eq_true hq
  exact ⟨c,p,hl,hacked,acked_entries_kept hp₀ hp⟩

/-- The later one arrives first, and the earlier one cuts its last entry off. -/
theorem late_request_erases : ∃ (c₀ c : Cluster) (p : Period),
    (machine .two).Path Machine.always (.initial .two) c₀ ∧
    ((machine .two).withGhost (Period.next ['a'] ['b'])).Path
      (fun q e => q.1.leadsIn ['a'] 1 ∧ q.1.takenBy ['a'] e = none) (c₀,⟨[],[]⟩) (c,p) ∧
    c.leadsIn ['a'] 1 ∧
    ∃ x ∈ p.acked, x ∈ (c.raft ['a']).logs ∧ x ∉ (c.servers ['b']).node.ownLog := by
  obtain ⟨c₀,hp₀,h₀⟩ := Machine.exec_any (machine .two) Machine.always (.initial .two)
    electingOne
    (fun c => (((machine .two).withGhost (Period.next ['a'] ['b'])).exec
        (fun q e => q.1.leadsIn ['a'] 1 ∧ q.1.takenBy ['a'] e = none) (c,⟨[],[]⟩)
        (overlapping++[.deliver 1 (.now 451),.deliver 0 (.now 451)])).any
      (fun q => q.1.leadsIn ['a'] 1 ∧
        ∃ x ∈ q.2.acked, x ∈ (q.1.raft ['a']).logs ∧ x ∉ (q.1.servers ['b']).node.ownLog) =
          true)
    (by decide +kernel)
  obtain ⟨⟨c,p⟩,hp,hq⟩ := Machine.exec_any _ _ _ _ _ (of_decide_eq_true h₀)
  obtain ⟨hl,hlost⟩ := of_decide_eq_true hq
  exact ⟨c₀,c,p,hp₀,hp,hl,hlost⟩

end Cluster
end SRaftMuduo
