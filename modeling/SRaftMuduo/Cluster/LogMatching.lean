import SRaftMuduo.Cluster.Copies

namespace SRaftMuduo

open Replication

namespace Node

/-- They are not the first entries, and `FindLog` does not find the one before them. -/
def takesUnfounded (request : AppendEntriesRequest) (n : Node) : Prop :=
  n.takesEntries request ∧ request.prevLogIndex ≠ -1 ∧
    n.raft.findLog request.prevLogTerm (toU64 request.prevLogIndex) = 2^64-1

/-- A leader takes the entries of a later leader and stays one. -/
def takesAsLeader (request : AppendEntriesRequest) (n : Node) : Prop :=
  n.takesEntries request ∧ n.raft.state = .leader ∧ n.raft.currentTerm < request.term

instance (request : AppendEntriesRequest) (n : Node) : Decidable (n.takesUnfounded request) :=
  inferInstanceAs (Decidable (_ ∧ _ ∧ _))

instance (request : AppendEntriesRequest) (n : Node) : Decidable (n.takesAsLeader request) :=
  inferInstanceAs (Decidable (_ ∧ _ ∧ _))

theorem timerLabels_silent (i : CString) (r : Readings) (n : Node) :
    ∀ l ∈ n.timerLabels i r, l.writes = false ∧ l.answers = false := by
  rcases timerLabels_cases i r n with ⟨he,-⟩ | ⟨-,-,-,⟨he,-⟩ | ⟨he,-⟩ | ⟨he,-⟩⟩ | ⟨-,he,-⟩ <;>
    rw [he] <;> simp [Label.writes,Label.answers]

theorem voteRequestLabels_silent (i src : CString) (request : RequestVoteRequest) (n : Node) :
    ∀ l ∈ n.voteRequestLabels i src request, l.writes = false := by
  unfold voteRequestLabels
  split_ifs <;> simp [Label.writes]

theorem voteResponseLabels_silent (i : CString) (response : RequestVoteResponse) (n : Node) :
    ∀ l ∈ n.voteResponseLabels i response, l.writes = false ∧ l.answers = false := by
  unfold voteResponseLabels
  split_ifs <;> simp [Label.writes,Label.answers]

theorem appendResponseLabels_silent (i : CString) (response : AppendEntriesResponse) (n : Node) :
    ∀ l ∈ n.appendResponseLabels i response, l.writes = false ∧ l.answers = false := by
  unfold appendResponseLabels
  split_ifs <;> simp [Label.writes,Label.answers]

/-- An election and a heartbeat send no entries. -/
theorem onTimer_carried {g : History} {i : CString} {n : Node} (hidle : n.calls = [])
    (r : Readings) : ∀ call ∈ (n.onTimer r).calls, CarriedCall g i call := by
  have hvotes : ∀ call ∈ (n.doElection r).calls, CarriedCall g i call := by
    intro call hc
    rw [doElection_calls,hidle,List.nil_append] at hc
    obtain ⟨-,-,-,rfl⟩ := callPeers_mem hc
    trivial
  rcases onTimer_cases r n with ⟨-,he⟩ | ⟨-,-,due,he⟩ | ⟨-,-,he⟩ | ⟨-,-,due,he⟩ <;> rw [he]
  · simp [hidle]
  · intro call hc
    rw [doAppendEntries_calls] at hc
    rcases List.mem_append.mp hc with hc | hc
    · exact absurd (hidle ▸ hc) List.not_mem_nil
    · obtain ⟨-,-,-,rfl⟩ := callPeers_mem hc
      exact fun hne => absurd rfl hne
  · rcases timerFail_cases r (n.doElection r) with he' | ⟨-,due,he'⟩ <;> rw [he']
    · exact hvotes
    · exact hvotes
  · simp [hidle]

theorem newEntry_contiguous {s : SRaft} (h : ContiguousFrom 0 s.logs) (cmd : CString)
    (hb : s.lastLogIndex+1 < 2^63) : ContiguousFrom 0 (s.logs++[newEntry cmd s]) := by
  have hidx : s.lastLogIndex+1 = s.logs.length := by
    rw [SRaft.lastLogIndex_length h]
    omega
  refine h.append (.singleton ?_ ?_ rfl)
  · simp only [newEntry]
    omega
  · omega

end Node

/-- Entries that are taken, and not without the one before them, give a copy of the log of
their term. -/
theorem Carried.taken {g : History} {i src : CString} {n : Node}
    {request : AppendEntriesRequest} {base : List LogEntry} (h : Carried g src request base)
    (hn : NodeLog g i n) (hl : Logs LogEntry.term g) (hnum : Everywhere (ContiguousFrom 0) g)
    (htakes : n.takesEntries request) (hbase : ¬n.takesUnfounded request) :
    Node.splice n.raft request = base++request.entries := by
  have hlog := hl.log i
  have hindex := hnum.log i
  rw [← hn.memory htakes.1] at hlog hindex
  refine h.splice hlog (hl.canon request.term) hindex (hnum.canon request.term) htakes.2.2.1 ?_
  by_cases hprev : request.prevLogIndex = -1
  · exact .inl hprev
  · exact .inr (fun hf => hbase ⟨htakes,hprev,hf⟩)

namespace Cluster

/-- The step takes a branch after which two logs can differ below a common entry. -/
def copySlip (c : Cluster) : Event → Bool
  | .deliver k _ =>
    match c.net[k]? with
    | some (.appendCall _ dst _ request _) =>
      (c.servers dst).node.takesUnfounded request || (c.servers dst).node.takesAsLeader request
    | _ => false
  | _ => false

def copySound (cfg : Config) (c : Cluster) (e : Event) : Prop :=
  c.electionSound cfg e ∧ c.copySlip e = false

instance (cfg : Config) (c : Cluster) (e : Event) : Decidable (c.copySound cfg e) :=
  inferInstanceAs (Decidable (_ ∧ _))

/-- The cluster carries out the steps of the replication of logs, votes and entries. -/
structure Copying (cfg : Config) (c : Cluster) (g : History) : Prop where
  electing : Electing cfg c g
  tidy : (∀ i, Tidy (c.servers i).node) ∧ ∀ rpc ∈ c.net, TidyRpc rpc
  logs : Logs LogEntry.term g
  numbered : Everywhere (ContiguousFrom 0) g
  node : ∀ i, NodeLog g i (c.servers i).node
  rpc : ∀ rpc ∈ c.net, CarriedRpc g rpc

variable {cfg : Config} {c c' : Cluster} {g : History} {e : Event}

theorem Copying.initial (cfg : Config) : Copying cfg (.initial cfg) Core.initial where
  electing := .initial cfg
  tidy := (tidy_invariant cfg).toLocalClosed.initial
  logs := .initial
  numbered := ⟨fun _ => .nil 0,fun _ => .nil 0⟩
  node := fun _ => ⟨fun h => absurd h Bool.false_ne_true,fun _ => rfl,rfl⟩
  rpc := fun rpc h => absurd h (by simp [Cluster.initial])

/-- What a handler at `i` makes of the logs. -/
structure LogsMoved (cfg : Config) (g : History) (ls : List HistoryLabel) (i : CString)
    (n : Node) : Prop where
  allowed : Allowed (Writes cfg.quorums LogEntry.term) g ls
  numbered : Everywhere (ContiguousFrom 0) (g.applyAll ls)
  node : NodeLog (g.applyAll ls) i n
  sent : ∀ call ∈ n.calls, CarriedCall (g.applyAll ls) i call

/-- A handler that leaves the log. -/
theorem LogsMoved.of_silent {i : CString} {n m : Node} {ls : List HistoryLabel}
    (hall : Allowed (Votes cfg.quorums) g ls) (hs : ∀ l ∈ ls, l.writes = false)
    (hnum : Everywhere (ContiguousFrom 0) g) (hn : NodeLog g i n) (hk : n.LogKept m)
    (hsent : ∀ call ∈ m.calls, CarriedCall (g.applyAll ls) i call) :
    LogsMoved cfg g ls i m := by
  obtain ⟨hwrites,hlog⟩ := hall.writes LogEntry.term hs
  refine ⟨hwrites,hnum.silent (fun _ k hl => hl.take k) hs,hn.kept hk ?_,hsent⟩
  rw [hlog]

theorem Copying.doLog (h : Copying cfg c g) (i : CString) (cmd : CString)
    (hall : Allowed (Votes cfg.quorums) g ((c.servers i).node.logLabels i cmd)) :
    LogsMoved cfg g ((c.servers i).node.logLabels i cmd) i ((c.servers i).node.doLog cmd).1 := by
  have hn := h.node i
  have hv := h.electing.node i
  have hidle := h.electing.callers.idle i
  have hpeers := (h.tidy.1 i).peers
  have hlog := h.numbered.log i
  generalize (c.servers i).node = n at *
  rcases Node.logLabels_cases i cmd n with ⟨hl,he⟩ | ⟨hrun,hs,hb,hl,he⟩
  · refine .of_silent hall (by simp [hl]) h.numbered hn ?_ ?_
    · rcases he with he | he <;> rw [he] <;> exact .same rfl rfl rfl
    · rcases he with he | he <;> rw [he] <;> simp [hidle]
  · have hmem := hn.memory hrun
    have hcur := hv.cur_eq hrun
    have hrole : g.role i = .leader := by rw [hv.role,hs]; rfl
    rw [← hmem] at hlog
    have hnew := Node.newEntry_contiguous hlog cmd hb
    obtain ⟨ci,la,hr⟩ := Node.logEntry_raft cmd n
    rw [hl] at hall ⊢
    rw [he]
    have hcanon : (g.apply (.append i (Node.newEntry cmd n.raft))).canon n.raft.currentTerm =
        n.raft.logs++[Node.newEntry cmd n.raft] := by
      simp [Core.apply,hcur,hmem]
    have hone : g.applyAll [.append i (Node.newEntry cmd n.raft)] =
        g.apply (.append i (Node.newEntry cmd n.raft)) := rfl
    refine ⟨⟨⟨hall.1,hrole,hcur.symm⟩,trivial⟩,?_,?_,?_⟩
    · rw [hone]
      refine h.numbered.step (fun _ k hl => hl.take k) ?_
      rintro v e ⟨⟩
      rw [← hmem]
      exact hnew
    · refine .set (n.raft.logs++[Node.newEntry cmd n.raft]) (by rw [hr]; exact hrun)
        (by rw [hr]) ?_ ?_
      · simp [Node.diskLog]
      · simp [hone,Core.apply,hmem]
    · rw [hone]
      intro call hc
      rw [Node.logEntry,Node.doAppendEntries_calls] at hc
      rcases List.mem_append.mp hc with hc | hc
      · exact absurd (hidle ▸ hc) List.not_mem_nil
      · obtain ⟨name,peer,hp,rfl⟩ := Node.callPeers_mem hc
        obtain ⟨h0,h1⟩ := hpeers name peer hp
        intro hne
        have hwon : (g.apply (.append i (Node.newEntry cmd n.raft))).won n.raft.currentTerm =
            some i := hcur ▸ h.electing.elections.leader i hrole
        exact ⟨_,carried_appendRequest (s := {n.raft with
          logs := n.raft.logs++[Node.newEntry cmd n.raft]}) hnew (by simp) hwon hcanon
          (by simp [Node.newEntry]) h0 h1 hne⟩

theorem Copying.onAppendEntriesRequest (hc : cfg.Symmetric) (h : Copying cfg c g) {i : CString}
    {k : Nat} {src : CString} {life : Nat} {request : AppendEntriesRequest}
    {isHeartbeat : Bool} (hk : c.net[k]? = some (.appendCall src i life request isHeartbeat))
    (hbase : ¬(c.servers i).node.takesUnfounded request)
    (hleads : ¬(c.servers i).node.takesAsLeader request) (r : Readings)
    (hall : Allowed (Votes cfg.quorums) g ((c.servers i).node.appendRequestLabels i request)) :
    LogsMoved cfg g ((c.servers i).node.appendRequestLabels i request) i
      ((c.servers i).node.onAppendEntriesRequest request r).1 := by
  have hn := h.node i
  have hv := h.electing.node i
  have hidle := h.electing.callers.idle i
  have hmem := List.mem_of_getElem? hk
  have hcarried : request.entries ≠ [] → ∃ base, Carried g src request base := h.rpc _ hmem
  have hsrc : i ≠ src := (h.electing.wired.2 _ hmem).symmetric hc |>.2.1
  generalize (c.servers i).node = n at *
  rcases Node.appendRequestLabels_cases i request r n with
    ⟨hl,he⟩ | ⟨-,-,-,hl,due,he⟩ | ⟨hrun,hle,hne,hb,logs,hlogs,hl,he⟩ | ⟨hrun,hl,he⟩
  · rw [he]
    exact .of_silent hall (by simp [hl]) h.numbered hn (.same rfl rfl rfl) (by simp [hidle])
  · rw [he]
    exact .of_silent hall (by simp [hl,Label.writes]) h.numbered hn (.same rfl rfl rfl)
      (by simp [hidle])
  · obtain ⟨base,hcar⟩ := hcarried hne
    have htakes : n.takesEntries request := ⟨hrun,hle,hne,hb⟩
    have hcur := hv.cur_eq hrun
    have hsplice : logs = base++request.entries :=
      hlogs.trans (hcar.taken hn h.logs h.numbered htakes hbase)
    have hrole : g.role i ≠ .leader := by
      intro hrole
      have hs : n.raft.state = .leader := State.role_inj (t := .leader) (hv.role.symm.trans hrole)
      have hterm : g.cur i = request.term := by
        by_contra hlt
        exact hleads ⟨htakes,hs,by omega⟩
      have hwon := h.electing.elections.leader i hrole
      rw [hterm,hcar.won] at hwon
      exact hsrc (Option.some.inj hwon).symm
    have htake : (g.canon request.term).take logs.length = logs := by
      rw [hsplice]
      exact (List.prefix_iff_eq_take.mp hcar.canon).symm
    rw [hl] at hall ⊢
    rw [he]
    refine ⟨⟨⟨hall.1,hrole⟩,trivial⟩,?_,?_,by simp [hidle]⟩
    · have hone : g.applyAll [.accept i request.term logs.length] =
          g.apply (.accept i request.term logs.length) := rfl
      rw [hone]
      exact h.numbered.step (fun _ k hl => hl.take k) (by simp)
    · refine .set logs hrun rfl rfl ?_
      simp [Core.applyAll,Core.apply,htake]
  · rw [he]
    exact .of_silent hall (by simp [hl,Label.writes]) h.numbered hn
      (.dumped hrun rfl rfl rfl rfl) (by simp [hidle])

/-- One handler, on a step without a slip. -/
theorem Copying.move (hc : cfg.Symmetric) (h : Copying cfg c g) {i : CString} {n : Node}
    {net : List Rpc} (hlive : c.live cfg i) (hok : c.copySound cfg e)
    (hm : c.Move i e n net) : LogsMoved cfg g (c.labels e) i n := by
  have hall := (h.electing.move hc hlive hok.1 hm).allowed
  have hn := h.node i
  have hidle := h.electing.callers.idle i
  have hquiet : ∀ (ls : List HistoryLabel) (m : Node), m.calls = (c.servers i).node.calls →
      ∀ call ∈ m.calls, CarriedCall (g.applyAll ls) i call := by
    intro ls m hm call hmem
    rw [hm,hidle] at hmem
    exact absurd hmem List.not_mem_nil
  cases hm with
  | run r hrun =>
    exact ⟨trivial,h.numbered,hn.run hrun r,hquiet [] _ (Node.run_calls r _)⟩
  | timer r =>
    exact .of_silent hall (fun l hl => (Node.timerLabels_silent i r _ l hl).1) h.numbered hn
      (Node.onTimer_logKept r _) (Node.onTimer_carried hidle r)
  | doLog cmd => exact h.doLog i cmd hall
  | putLog request hp =>
    rw [labels_putLog hp] at hall ⊢
    exact h.doLog i request.command hall
  | voteCall k r src life request response hk _ =>
    rw [labels_voteCall hk] at hall ⊢
    exact .of_silent hall (Node.voteRequestLabels_silent i src request _) h.numbered hn
      (Node.onRequestVoteRequest_logKept request _)
      (hquiet _ _ (Node.onRequestVoteRequest_calls request _))
  | appendCall k r src life request isHeartbeat hk _ =>
    have hslip := hok.2
    rw [copySlip,hk] at hslip
    obtain ⟨hbase,hleads⟩ := Bool.or_eq_false_iff.mp hslip
    rw [labels_appendCall hk] at hall ⊢
    exact h.onAppendEntriesRequest hc hk (of_decide_eq_false hbase) (of_decide_eq_false hleads)
      r hall
  | voteReply k dst request response hk =>
    have hrun := (h.electing.callers.life _ (List.mem_of_getElem? hk)).2 rfl
    rw [labels_voteReply hk] at hall ⊢
    exact .of_silent hall (fun l hl => (Node.voteResponseLabels_silent i response _ l hl).1)
      h.numbered hn
      (Node.onRequestVoteResponse_logKept response hrun)
      (hquiet _ _ (Node.onRequestVoteResponse_calls response _))
  | appendReply k dst request isHeartbeat response hk =>
    have hrun := (h.electing.callers.life _ (List.mem_of_getElem? hk)).2 rfl
    rw [labels_appendReply hk] at hall ⊢
    exact .of_silent hall (fun l hl => (Node.appendResponseLabels_silent i response _ l hl).1)
      h.numbered hn
      (Node.onAppendEntriesReponse_logKept response isHeartbeat hrun)
      (hquiet _ _ (Node.onAppendEntriesReponse_calls response isHeartbeat _))

/-- The answers that a handler puts in place of calls carry no entries. -/
theorem move_carried {i : CString} {n : Node} {net : List Rpc} (hm : c.Move i e n net)
    (h : ∀ rpc ∈ c.net, CarriedRpc g rpc) : ∀ rpc ∈ net, CarriedRpc g rpc := by
  have hset : ∀ k new, CarriedRpc g new → ∀ rpc ∈ c.net.set k new, CarriedRpc g rpc := by
    intro k new hnew rpc hrpc
    rcases List.mem_or_eq_of_mem_set hrpc with hrpc | rfl
    · exact h rpc hrpc
    · exact hnew
  cases hm with
  | run r _ => exact h
  | timer r => exact h
  | doLog cmd => exact h
  | putLog request _ => exact h
  | voteCall k r src life request response _ _ => exact hset k _ trivial
  | appendCall k r src life request isHeartbeat _ _ => exact hset k _ trivial
  | voteReply k dst request response _ =>
    exact fun rpc hrpc => h rpc (List.mem_of_mem_eraseIdx hrpc)
  | appendReply k dst request isHeartbeat response _ =>
    exact fun rpc hrpc => h rpc (List.mem_of_mem_eraseIdx hrpc)

theorem Copying.step (hc : cfg.Symmetric) (h : Copying cfg c g) (hok : c.copySound cfg e)
    (hs : (machine cfg).step c e = some c') :
    Allowed (Writes cfg.quorums LogEntry.term) g (c.labels e) ∧
      Copying cfg c' (g.applyAll (c.labels e)) := by
  have helecting := (h.electing.step hc hok.1 hs).2
  have htidy := (tidy_invariant cfg).step h.tidy hs
  rcases step_cases hs with
    ⟨i,n,net,hlive,hm,hmoved⟩ | ⟨k,rpc,rfl,hk,rfl⟩ | ⟨i,hi,rfl,rfl⟩ | ⟨hout,hq⟩
  · obtain ⟨hall,hnum,hnode,hsent⟩ := h.move hc hlive hok hm
    obtain ⟨-,hlogs,hgrow⟩ := Logs.path hall.path h.electing.elections h.logs
    have hwon := (h.electing.elections.path
      (h.electing.move hc hlive hok.1 hm).allowed.path).2.won
    refine ⟨hall,helecting,htidy,hlogs,hnum,?_,?_⟩
    · refine hmoved.each (P := fun j s => NodeLog _ j s.node) ?_ (fun j hj => ?_)
      · rw [hmoved.node]
        exact hnode.kept (.same rfl rfl rfl) rfl
      · obtain ⟨-,-,-,hlog,-⟩ := g.applyAll_other (move_labels hm) hj
        exact (h.node j).kept (.same rfl rfl rfl) hlog
    · exact hmoved.each_rpc
        (fun rpc hrpc => (move_carried hm h.rpc rpc hrpc).mono hwon hgrow)
        (fun call hcall => (hsent call hcall).sent _)
  · exact ⟨trivial,helecting,htidy,h.logs,h.numbered,h.node,
      failed_each hk h.rpc CarriedRpc.fail⟩
  · have hall : Allowed (Writes cfg.quorums LogEntry.term) g [.restart i] :=
      ⟨⟨trivial,trivial⟩,trivial⟩
    obtain ⟨-,hlogs,-⟩ := Logs.path hall.path h.electing.elections h.logs
    have hlabels : c.labels (.crash i) = [.restart i] := rfl
    have hone : g.applyAll [.restart i] = g.apply (.restart i) := rfl
    have hsame : ∀ j m, NodeLog g j m → NodeLog (g.apply (.restart i)) j m :=
      fun j m hm => hm.kept (.same rfl rfl rfl) rfl
    rw [hlabels,hone] at helecting ⊢
    refine ⟨hall,helecting,htidy,hlogs,⟨h.numbered.log,h.numbered.canon⟩,?_,?_⟩
    · exact crashed_each (P := fun j s => NodeLog _ j s.node)
        (hsame i _ ((h.node i).boot cfg ((c.servers i).life+1)))
        (fun j _ => hsame j _ (h.node j))
    · exact fun rpc hrpc => (h.rpc rpc hrpc).mono (fun _ _ hw => hw) (fun _ => List.prefix_rfl)
  · have hlabels := labels_outside (c := c) hout
    rw [hlabels] at helecting ⊢
    refine ⟨trivial,helecting,htidy,h.logs,h.numbered,?_,?_⟩
    · intro j
      obtain ⟨hr,hp,-⟩ := hq.node j
      exact (h.node j).kept (.same (by rw [hr]) (by rw [hr]) hp) rfl
    · rw [hq.net]
      exact h.rpc

theorem Copying.simulates (hc : cfg.Symmetric) (h : Copying cfg c g)
    (hp : (machine cfg).Path (copySound cfg) c c') :
    ∃ g', (replication CString LogEntry).Path (Writes cfg.quorums LogEntry.term) g g' ∧
      Copying cfg c' g' := by
  refine hp.simulates (R := Copying cfg) ?_ h
  intro s a e t hsim hok hs
  obtain ⟨hall,hnext⟩ := hsim.step hc hok hs
  exact ⟨_,hall.path,hnext⟩

/-- An entry in the memory of a node stands at its index in the log of the history. -/
theorem Copying.position (h : Copying cfg c g) {i : CString} {x : LogEntry}
    (hx : x ∈ (c.raft i).logs) : (c.raft i).logs = g.log i ∧
      ∃ k : Nat, x.index = k ∧ (g.log i)[k]? = some x := by
  have hn := h.node i
  have hmem : (c.raft i).logs = g.log i := by
    cases hrun : (c.raft i).running with
    | true => exact hn.memory hrun
    | false =>
      have hnil : (c.raft i).logs = [] := hn.fresh hrun
      rw [hnil] at hx
      exact absurd hx List.not_mem_nil
  rw [hmem] at hx
  obtain ⟨k,hk⟩ := List.mem_iff_getElem?.mp hx
  have hidx := (h.numbered.log i k x hk).1
  exact ⟨hmem,k,by omega,hk⟩

/-- Two logs with entries of one index and term hold the same entries up to there. -/
theorem log_matching (hc : cfg.Symmetric)
    (h : (machine cfg).Path (copySound cfg) (.initial cfg) c) {i j : CString} {x y : LogEntry}
    (hx : x ∈ (c.raft i).logs) (hy : y ∈ (c.raft j).logs) (hindex : x.index = y.index)
    (hterm : x.term = y.term) : ∀ e : LogEntry, e.index ≤ x.index →
      (e ∈ (c.raft i).logs ↔ e ∈ (c.raft j).logs) := by
  obtain ⟨g,-,hg⟩ := (Copying.initial cfg).simulates hc h
  obtain ⟨hi,k,hxk,hgx⟩ := hg.position hx
  obtain ⟨hj,k',hyk,hgy⟩ := hg.position hy
  obtain rfl : k = k' := by omega
  have hmatch := (hg.logs.log i).matching (hg.logs.log j) hgx hgy hterm
  have hhold : ∀ u v : CString, (g.log u).take (k+1) = (g.log v).take (k+1) →
      ∀ e : LogEntry, e.index ≤ x.index → e ∈ g.log u → e ∈ g.log v := by
    intro u v hsame e he hin
    obtain ⟨p,hp⟩ := List.mem_iff_getElem?.mp hin
    have hidx := (hg.numbered.log u p e hp).1
    have htake : ((g.log u).take (k+1))[p]? = some e := by
      rw [List.getElem?_take,if_pos (by omega)]
      exact hp
    rw [hsame] at htake
    exact List.mem_of_mem_take (List.mem_of_getElem? htake)
  intro e he
  rw [hi,hj]
  exact ⟨hhold i j hmatch e he,hhold j i hmatch.symm e he⟩

/-- `a` logs two commands and `b` takes both over. -/
theorem log_matching_two : ∃ (c : Cluster) (x y : LogEntry),
    x ∈ (c.raft ['a']).logs ∧ y ∈ (c.raft ['b']).logs ∧ x.index = 1 ∧ x.index = y.index ∧
    x.term = y.term ∧ ∀ e : LogEntry, e.index ≤ x.index →
      (e ∈ (c.raft ['a']).logs ↔ e ∈ (c.raft ['b']).logs) := by
  obtain ⟨c,hp,hc⟩ := Machine.exec_any (machine .two) (copySound .two) (.initial .two)
    [.run ['a'] (.now 0),.run ['b'] (.now 0),.timer ['a'] (.now 451),.deliver 0 (.now 451),
      .respond 0,.doLog ['a'] ['x'],.deliver 0 (.now 451),.respond 0,.doLog ['a'] ['y'],
      .deliver 0 (.now 451)]
    (fun c => (c.raft ['a']).logs.any (fun x => x.index = 1 && (c.raft ['b']).logs.any (fun y =>
      x.index = y.index && x.term = y.term))) (by decide +kernel)
  simp only [List.any_eq_true,Bool.and_eq_true,decide_eq_true_eq] at hc
  obtain ⟨x,hx,hone,y,hy,hindex,hterm⟩ := hc
  exact ⟨c,x,y,hx,hy,hone,hindex,hterm,
    log_matching Config.two_symmetric hp hx hy hindex hterm⟩

/-- `b` wins term two with an empty log, against an entry that only `a` has. `a` refuses its
first command; at the second `FindLog` does not find the entry before it, and `a` drops its
whole log for the one entry. -/
theorem log_matching_erased : ∃ (c : Cluster) (x y e : LogEntry),
    (machine .two).Path Machine.always (.initial .two) c ∧
    x ∈ (c.raft ['a']).logs ∧ y ∈ (c.raft ['b']).logs ∧ x.index = y.index ∧ x.term = y.term ∧
    e.index ≤ x.index ∧ e ∈ (c.raft ['b']).logs ∧ e ∉ (c.raft ['a']).logs := by
  obtain ⟨c,hp,hc⟩ := Machine.exec_any (machine .two) Machine.always (.initial .two)
    [.run ['a'] (.now 0),.run ['b'] (.now 0),.timer ['a'] (.now 451),.deliver 0 (.now 451),
      .respond 0,.doLog ['a'] ['x'],.timer ['b'] (.now 451),.deliver 1 (.now 451),.respond 1,
      .doLog ['b'] ['y'],.deliver 1 (.now 451),.respond 1,.doLog ['b'] ['z'],
      .deliver 1 (.now 451)]
    (fun c => (c.raft ['a']).logs.any (fun x => (c.raft ['b']).logs.any (fun y =>
      x.index = y.index && x.term = y.term && (c.raft ['b']).logs.any (fun e =>
        e.index ≤ x.index && e ∉ (c.raft ['a']).logs)))) (by decide +kernel)
  simp only [List.any_eq_true,Bool.and_eq_true,decide_eq_true_eq] at hc
  obtain ⟨x,hx,y,hy,⟨hindex,hterm⟩,e,he,hle,hout⟩ := hc
  exact ⟨c,x,y,e,hp,hx,hy,hindex,hterm,hle,he,hout⟩

end Cluster
end SRaftMuduo
