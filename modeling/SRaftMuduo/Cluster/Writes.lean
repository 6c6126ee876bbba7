import SRaftMuduo.Cluster.Safety

namespace SRaftMuduo

open Replication

namespace Cluster

/-- The term in which the step makes a node leader. -/
def winTerm (c : Cluster) : Event → Option Nat
  | .timer i r =>
    let n := (c.servers i).node
    if n.raft.running = true ∧ n.electionDue r ∧ n.raft.peers = [] then
      some (n.raft.currentTerm+1)
    else none
  | .respond k =>
    match c.net[k]? with
    | some (.voteReply src _ _ _ response) =>
      let n := (c.servers src).node
      if n.winsWith response then some n.raft.currentTerm else none
    | _ => none
  | _ => none

/-- A leader of the term of the answer has committed the entry. -/
def covered (c : Cluster) (a : Ack) : Bool :=
  c.commits.any (fun m => m.term = a.term && a.index ≤ m.index)

/-- `putAppend` answers for a node that does not lead, or no longer leads the last term; or a
node is elected before an answered write of an earlier term is committed. -/
def ackSlip (cfg : Config) (c : Cluster) : Event → Bool
  | .putLog i => !((c.raft i).running && (c.raft i).state = .leader) ||
      cfg.names.any (fun j => (c.raft j).state = .leader &&
        (c.raft i).currentTerm < (c.raft j).currentTerm)
  | e => (c.winTerm e).any (fun t => c.acks.any (fun a => a.term < t && !c.covered a))

def ackSound (cfg : Config) (c : Cluster) (e : Event) : Prop :=
  c.commitSound cfg e ∧ c.ackSlip cfg e = false

instance (cfg : Config) (c : Cluster) (e : Event) : Decidable (c.ackSound cfg e) :=
  inferInstanceAs (Decidable (_ ∧ _))

/-- The write that a `putAppend` answers for. -/
def ackOf (c : Cluster) (i : CString) (request : PutAppendRequest) : Ack :=
  let node := ((c.servers i).node.doLog request.command).1
  ⟨i,node.raft.currentTerm,node.raft.lastLogIndex,request.command⟩

variable {cfg : Config} {c c' : Cluster} {g : History} {e : Event} {i : CString} {n : Node}
  {net : List Rpc}

theorem deliverCall_acks {k : Nat} {r : Readings} {rpc : Rpc}
    (h : c.deliverCall cfg k r rpc = some c') : c'.acks = c.acks := by
  cases rpc with
  | voteCall src dst life request =>
    obtain ⟨-,⟨⟩⟩ := Option.ite_none_right_eq_some.mp h
    rfl
  | appendCall src dst life request isHeartbeat =>
    obtain ⟨-,⟨⟩⟩ := Option.ite_none_right_eq_some.mp h
    rfl
  | voteReply => exact absurd h (by simp [deliverCall])
  | appendReply => exact absurd h (by simp [deliverCall])

theorem respondCall_acks {k : Nat} {rpc : Rpc}
    (h : c.respondCall cfg k rpc = some c') : c'.acks = c.acks := by
  cases rpc with
  | voteReply src dst life request response =>
    obtain ⟨-,⟨⟩⟩ := Option.ite_none_right_eq_some.mp h
    rfl
  | appendReply src dst life request isHeartbeat response =>
    obtain ⟨-,⟨⟩⟩ := Option.ite_none_right_eq_some.mp h
    rfl
  | voteCall => exact absurd h (by simp [respondCall])
  | appendCall => exact absurd h (by simp [respondCall])

/-- Only the second part of `putAppend` answers for a write. -/
theorem step_acks (hs : (machine cfg).step c e = some c') :
    c'.acks = c.acks ∨ ∃ i request, e = .putLog i ∧ (c.servers i).pending = some request ∧
      ((c.servers i).node.doLog request.command).1.stopped = false ∧
      c'.acks = c.acks++[c.ackOf i request] := by
  cases e with
  | run i r =>
    obtain ⟨-,⟨⟩⟩ := Option.ite_none_right_eq_some.mp hs
    exact .inl rfl
  | timer i r =>
    obtain ⟨-,⟨⟩⟩ := Option.ite_none_right_eq_some.mp hs
    exact .inl rfl
  | doLog i cmd =>
    obtain ⟨-,⟨⟩⟩ := Option.ite_none_right_eq_some.mp hs
    exact .inl rfl
  | deliver k r =>
    obtain ⟨rpc,-,hd⟩ := Option.bind_eq_some_iff.mp hs
    exact .inl (deliverCall_acks hd)
  | respond k =>
    obtain ⟨rpc,-,hd⟩ := Option.bind_eq_some_iff.mp hs
    exact .inl (respondCall_acks hd)
  | fail k =>
    obtain ⟨rpc,-,rfl⟩ := Option.map_eq_some_iff.mp hs
    exact .inl rfl
  | crash i =>
    obtain ⟨-,⟨⟩⟩ := Option.ite_none_right_eq_some.mp hs
    exact .inl rfl
  | receive i =>
    obtain ⟨-,hr⟩ := Option.ite_none_right_eq_some.mp hs
    unfold receiveOne at hr
    split at hr
    · obtain rfl := Option.some.inj hr
      exact .inl rfl
    · exact absurd hr (by simp)
  | putCheck i request =>
    obtain ⟨-,⟨⟩⟩ := Option.ite_none_right_eq_some.mp hs
    unfold checkPut
    split_ifs <;> exact .inl rfl
  | putLog i =>
    obtain ⟨-,hm⟩ := Option.ite_none_right_eq_some.mp hs
    obtain ⟨request,hp,rfl⟩ := Option.map_eq_some_iff.mp hm
    unfold logPut
    dsimp only
    split_ifs with hstop
    · exact .inl rfl
    · exact .inr ⟨i,request,rfl,hp,by simpa using hstop,rfl⟩

/-- A win among the steps of the replication is one of the cluster, with its term. -/
theorem winTerm_of_win (h : Electing cfg c g) (hm : c.Move i e n net) {u : CString}
    (hw : Label.win u ∈ c.labels e) :
    u = i ∧ c.winTerm e = some ((g.applyAll (c.labels e)).cur i) := by
  have hv := h.node i
  have hnode := move_labels hm _ hw
  refine ⟨hnode,?_⟩
  have hlog : ∀ cmd, Label.win u ∉ (c.servers i).node.logLabels i cmd := by
    intro cmd
    unfold Node.logLabels
    split_ifs <;> simp
  cases hm with
  | run r _ => exact absurd hw List.not_mem_nil
  | timer r =>
    change Label.win u ∈ (c.servers i).node.timerLabels i r at hw
    change _ = some ((g.applyAll ((c.servers i).node.timerLabels i r)).cur i)
    rcases Node.timerLabels_cases i r (c.servers i).node with
      ⟨hl,-⟩ | ⟨hrun,hdue,-,⟨hl,-⟩ | ⟨hl,hp,-⟩ | ⟨hl,-⟩⟩ | ⟨-,hl,-⟩ <;> rw [hl] at hw ⊢
    · exact absurd hw List.not_mem_nil
    · exact absurd hw (by simp)
    · have hcur := hv.cur_eq hrun
      have hwin : c.winTerm (.timer i r) = some ((c.servers i).node.raft.currentTerm+1) :=
        if_pos ⟨hrun,hdue,hp⟩
      rw [hwin]
      simp [Core.applyAll,Core.apply,hcur]
    · exact absurd hw (by simp)
    · exact absurd hw (by simp)
  | doLog cmd => exact absurd hw (hlog cmd)
  | putLog request hp =>
    rw [labels_putLog hp] at hw
    exact absurd hw (hlog _)
  | voteCall k r src life request response hk _ =>
    rw [labels_voteCall hk,Node.voteRequestLabels] at hw
    split_ifs at hw <;> simp at hw
  | appendCall k r src life request isHeartbeat hk _ =>
    rw [labels_appendCall hk,Node.appendRequestLabels] at hw
    split_ifs at hw <;> simp at hw
  | voteReply k dst request response hk =>
    have hrun := (h.callers.life _ (List.mem_of_getElem? hk)).2 rfl
    have hcur := hv.cur_eq hrun
    rw [labels_voteReply hk] at hw ⊢
    rw [winTerm,hk]
    rcases Node.voteResponseLabels_cases i response (c.servers i).node with
      ⟨-,hl,-⟩ | ⟨hl,-⟩ | ⟨-,-,⟨hl,-⟩ | ⟨hwin,hl,-⟩⟩ <;> rw [hl] at hw ⊢
    · exact absurd hw (by simp)
    · exact absurd hw List.not_mem_nil
    · exact absurd hw List.not_mem_nil
    · dsimp only
      rw [if_pos hwin]
      simp [Core.applyAll,Core.apply,hcur]
  | appendReply k dst request isHeartbeat response hk =>
    rw [labels_appendReply hk,Node.appendResponseLabels] at hw
    split_ifs at hw <;> simp at hw

/-- The answered writes of a run stand in the log of their term, and in that of every leader
of a later one. -/
structure Acknowledged (cfg : Config) (c : Cluster) (g : History) : Prop where
  committing : Committing cfg c g
  logged : ∀ a ∈ c.acks, ∃ (k : Nat) (x : LogEntry), a.index = k ∧
    (g.canon a.term)[k]? = some x ∧ x.data = a.cmd
  held : ∀ a ∈ c.acks, ∀ u, g.role u = .leader → a.term < g.cur u →
    ∃ x ∈ g.log u, x.index = a.index ∧ x.data = a.cmd
  named : ∀ u, g.role u = .leader → u ∈ cfg.names

theorem Acknowledged.initial (cfg : Config) : Acknowledged cfg (.initial cfg) Core.initial where
  committing := .initial cfg
  logged := fun a h => absurd h (by simp [Cluster.initial])
  held := fun a h => absurd h (by simp [Cluster.initial])
  named := fun u h => absurd h (by simp [Core.initial])

/-- What a running leader logs for a client. -/
theorem Acknowledged.logs (h : Acknowledged cfg c g) {request : PutAppendRequest}
    (hp : (c.servers i).pending = some request) (hok : c.ackSlip cfg (.putLog i) = false)
    (hrun : ((c.servers i).node.doLog request.command).1.stopped = false) :
    (c.ackOf i request).term = (c.raft i).currentTerm ∧
    (∃ (k : Nat) (x : LogEntry), (c.ackOf i request).index = k ∧
      ((g.applyAll (c.labels (.putLog i))).canon (c.ackOf i request).term)[k]? = some x ∧
      x.data = (c.ackOf i request).cmd) ∧
    ∀ u ∈ cfg.names, (c.raft u).state = .leader →
      (c.raft u).currentTerm ≤ (c.raft i).currentTerm := by
  obtain ⟨hleads,hlast⟩ := Bool.or_eq_false_iff.mp hok
  have hlead : (c.raft i).running = true ∧ (c.raft i).state = .leader := by
    simpa using hleads
  have hlater : ∀ u ∈ cfg.names, (c.raft u).state = .leader →
      (c.raft u).currentTerm ≤ (c.raft i).currentTerm := by
    intro u hu hs
    have hnot := List.any_eq_false.mp hlast u hu
    simpa [hs] using hnot
  have hnum := h.committing.copying.numbered.log i
  have hmem := (h.committing.copying.node i).memory hlead.1
  have hcur := (h.committing.copying.electing.node i).cur_eq hlead.1
  rw [labels_putLog hp]
  rw [raft] at hlead hlater ⊢
  unfold ackOf
  generalize (c.servers i).node = n at *
  rcases Node.doLog_cases request.command n with ⟨hnot,-⟩ | ⟨-,he⟩ | ⟨-,-,hb,he⟩
  · exact absurd hlead hnot
  · rw [he] at hrun
    exact absurd hrun (by simp)
  · have hlabels : n.logLabels i request.command =
        [.append i (Node.newEntry request.command n.raft)] := if_pos ⟨hlead.1,hlead.2,hb⟩
    obtain ⟨ci,la,hr⟩ := Node.logEntry_raft request.command n
    rw [he,hlabels]
    dsimp only
    rw [hr]
    rw [← hmem] at hnum
    have hlen := SRaft.lastLogIndex_length hnum
    refine ⟨rfl,⟨n.raft.logs.length,Node.newEntry request.command n.raft,?_,?_,rfl⟩,hlater⟩
    · have hindex : SRaft.lastLogIndex {n.raft with
          logs := n.raft.logs++[Node.newEntry request.command n.raft]} =
          n.raft.lastLogIndex+1 := by
        simp [SRaft.lastLogIndex,Node.newEntry]
      have hsame : n.raft.lastLogIndex+1 = (n.raft.logs.length : Int) := by omega
      exact hindex.trans hsame
    · simp [Core.applyAll,Core.apply,hcur,hmem]

/-- A new leader has every answered write of an earlier term that was committed. -/
theorem Committing.holds (h : Committing cfg c g) {g' : History}
    (hs : Sound cfg.quorums LogEntry.term g') (hg : Grows g g') {a : Ack}
    (hcover : c.covered a = true) {k : Nat} {x : LogEntry} (hk : a.index = k)
    (hx : (g'.canon a.term)[k]? = some x) {u : CString} {t : Nat} (hwon : g'.won t = some u)
    (hlt : a.term < t) : x ∈ g'.canon t := by
  obtain ⟨m,hm,hcovers⟩ := List.any_eq_true.mp hcover
  simp only [Bool.and_eq_true,decide_eq_true_eq] at hcovers
  obtain ⟨hterm,hle⟩ := hcovers
  obtain ⟨-,j,hj,hcommit⟩ := h.commits m hm
  rw [hterm] at hcommit
  refine ((hcommit.mono hg).leader_complete hs t u hlt hwon).subset ?_
  refine List.mem_of_getElem? (i := k) ?_
  rw [List.getElem?_take,if_pos (by omega)]
  exact hx

/-- A leader was one before, or the step is its election. -/
theorem Committing.leader_step (hc : cfg.Symmetric) (h : Committing cfg c g)
    (hok : c.commitSound cfg e) (hs : (machine cfg).step c e = some c') {u : CString}
    (hu : (g.applyAll (c.labels e)).role u = .leader) :
    (g.role u = .leader ∧ (g.applyAll (c.labels e)).cur u = g.cur u ∧
      g.log u <+: (g.applyAll (c.labels e)).log u) ∨
    u ∈ cfg.names ∧ c.winTerm e = some ((g.applyAll (c.labels e)).cur u) ∧ c'.acks = c.acks := by
  by_cases hw : Label.win u ∈ c.labels e
  · right
    rcases step_cases hs with
      ⟨i,n,net,hlive,hm,hmoved⟩ | ⟨k,rpc,rfl,-,-⟩ | ⟨i,-,rfl,-⟩ | ⟨hout,-⟩
    · obtain ⟨rfl,hterm⟩ := winTerm_of_win h.copying.electing hm hw
      refine ⟨hlive.1,hterm,?_⟩
      rcases step_acks hs with hacks | ⟨i,request,rfl,-⟩
      · exact hacks
      · exact absurd hterm (by simp [winTerm])
    · exact absurd hw List.not_mem_nil
    · exact absurd hw (by simp [labels])
    · rw [labels_outside hout] at hw
      exact absurd hw List.not_mem_nil
  · exact .inl ((h.copying.step hc hok.1 hs).1.leader_kept hw hu)

/-- What is acknowledged stands in the log of its term, also after a step. -/
theorem Acknowledged.logged_step (h : Acknowledged cfg c g) (hok : c.ackSound cfg e)
    (hgrow : Grows g (g.applyAll (c.labels e))) (hs : (machine cfg).step c e = some c') :
    ∀ a ∈ c'.acks, ∃ (k : Nat) (x : LogEntry), a.index = k ∧
      ((g.applyAll (c.labels e)).canon a.term)[k]? = some x ∧ x.data = a.cmd := by
  intro a ha
  have hold : a ∈ c.acks → ∃ (k : Nat) (x : LogEntry), a.index = k ∧
      ((g.applyAll (c.labels e)).canon a.term)[k]? = some x ∧ x.data = a.cmd := by
    intro ha
    obtain ⟨k,x,hk,hx,hd⟩ := h.logged a ha
    obtain ⟨rest,hr⟩ := hgrow.canon a.term
    refine ⟨k,x,hk,?_,hd⟩
    rw [← hr,List.getElem?_append_left (List.getElem?_eq_some_iff.mp hx).1]
    exact hx
  rcases step_acks hs with hacks | ⟨i,request,rfl,hp,hrun,hacks⟩
  · exact hold (hacks ▸ ha)
  · rw [hacks] at ha
    rcases List.mem_append.mp ha with ha | ha
    · exact hold ha
    · obtain rfl := List.mem_singleton.mp ha
      exact (h.logs hp hok.2 hrun).2.1

theorem Acknowledged.step (hc : cfg.Symmetric) (h : Acknowledged cfg c g)
    (hok : c.ackSound cfg e) (hs : (machine cfg).step c e = some c') :
    Allowed (Acknowledges cfg.quorums LogEntry.term) g (c.labels e) ∧
      Acknowledged cfg c' (g.applyAll (c.labels e)) := by
  obtain ⟨hall,hcommitting⟩ := h.committing.step hc hok.1 hs
  obtain ⟨hsound,hgrow⟩ := h.committing.grows hall
  have hnum := hcommitting.copying.numbered
  have hlogged := h.logged_step hok hgrow hs
  refine ⟨hall,hcommitting,hlogged,?_,?_⟩
  · intro a ha u hu hlt
    rcases h.committing.leader_step hc hok.1 hs hu with ⟨hbefore,hcur,hlog⟩ | ⟨-,hterm,hacks⟩
    · rw [hcur] at hlt
      have hold : a ∈ c.acks → ∃ x ∈ (g.applyAll (c.labels e)).log u,
          x.index = a.index ∧ x.data = a.cmd := by
        intro ha
        obtain ⟨x,hx,hsame⟩ := h.held a ha u hbefore hlt
        exact ⟨x,hlog.subset hx,hsame⟩
      rcases step_acks hs with hacks | ⟨i,request,rfl,hp,hrun,hacks⟩
      · exact hold (hacks ▸ ha)
      · rw [hacks] at ha
        rcases List.mem_append.mp ha with ha | ha
        · exact hold ha
        · -- no leader is in a later term than the one that has just answered
          obtain rfl := List.mem_singleton.mp ha
          obtain ⟨hterm,-,hlater⟩ := h.logs hp hok.2 hrun
          have hv := h.committing.copying.electing.node u
          have hs : (c.raft u).state = .leader :=
            State.role_inj (t := .leader) (hv.role.symm.trans hbefore)
          obtain ⟨-,hcur',-⟩ := h.committing.leader hs
          have := hlater u (h.named u hbefore) hs
          omega
    · rw [hacks] at ha
      have hcover : c.covered a = true := by
        have hslip := hok.2
        have hany : (c.winTerm e).any (fun t =>
            c.acks.any (fun a => a.term < t && !c.covered a)) = false := by
          cases e <;> first | exact hslip | exact absurd hterm (by simp [winTerm])
        rw [hterm] at hany
        have hnot := List.any_eq_false.mp hany a ha
        simpa [hlt] using hnot
      obtain ⟨k,x,hk,hx,hd⟩ := hlogged a (hacks ▸ ha)
      have hwon := hcommitting.copying.electing.elections.leader u hu
      have hidx := (hnum.canon _ _ x hx).1
      refine ⟨x,?_,by omega,hd⟩
      rw [hcommitting.copying.logs.leader u hu]
      exact h.committing.holds hsound hgrow hcover hk hx hwon hlt
  · intro u hu
    rcases h.committing.leader_step hc hok.1 hs hu with ⟨hbefore,-⟩ | ⟨hin,-⟩
    · exact h.named u hbefore
    · exact hin

theorem Acknowledged.simulates (hc : cfg.Symmetric) (h : Acknowledged cfg c g)
    (hp : (machine cfg).Path (ackSound cfg) c c') :
    ∃ g', (replication CString LogEntry).Path (Acknowledges cfg.quorums LogEntry.term) g g' ∧
      Acknowledged cfg c' g' := by
  refine hp.simulates (R := Acknowledged cfg) ?_ h
  intro s a e t hsim hok hs
  obtain ⟨hall,hnext⟩ := hsim.step hc hok hs
  exact ⟨_,hall.path,hnext⟩

/-- A write that `putAppend` has answered is in the log of every leader of a later term. -/
theorem acknowledged_durable (hc : cfg.Symmetric)
    (h : (machine cfg).Path (ackSound cfg) (.initial cfg) c) {a : Ack} (ha : a ∈ c.acks)
    {j : CString} (hj : (c.raft j).state = .leader) (hlt : a.term < (c.raft j).currentTerm) :
    ∃ x ∈ (c.raft j).logs, x.index = a.index ∧ x.data = a.cmd := by
  obtain ⟨g,-,hg⟩ := (Acknowledged.initial cfg).simulates hc h
  have hv := hg.committing.copying.electing.node j
  obtain ⟨hrun,hcur,-⟩ := hg.committing.leader hj
  have hlog : (c.raft j).logs = g.log j := (hg.committing.copying.node j).memory hrun
  have hrole : g.role j = .leader := by
    rw [hv.role,show (c.servers j).node.raft.state = _ from hj]
    rfl
  rw [hlog]
  exact hg.held a ha j hrole (by omega)

/-- `a` answers a write and commits it, and `b` leads the next term with it. -/
theorem acknowledged_durable_two : ∃ (c : Cluster) (a : Ack), a ∈ c.acks ∧
    (c.raft ['b']).state = .leader ∧ a.term < (c.raft ['b']).currentTerm ∧
    ∃ x ∈ (c.raft ['b']).logs, x.index = a.index ∧ x.data = a.cmd := by
  obtain ⟨c,hp,hc⟩ := Machine.exec_any (machine .two) (ackSound .two) (.initial .two)
    [.run ['a'] (.now 0),.run ['b'] (.now 0),.timer ['a'] (.now 451),.deliver 0 (.now 451),
      .respond 0,.putCheck ['a'] ⟨['k'],['v'],opPut⟩,.putLog ['a'],.deliver 0 (.now 451),
      .respond 0,.timer ['b'] (.now 451),.deliver 0 (.now 451),.respond 0]
    (fun c => (c.raft ['b']).state = .leader &&
      c.acks.any (fun a => a.term < (c.raft ['b']).currentTerm)) (by decide +kernel)
  simp only [Bool.and_eq_true,List.any_eq_true,decide_eq_true_eq] at hc
  obtain ⟨hlead,a,ha,hlt⟩ := hc
  exact ⟨c,a,ha,hlead,hlt,acknowledged_durable Config.two_symmetric hp ha hlead hlt⟩

/-- `a` answers a write that no other node has yet; `b` is elected by `c` without it. -/
theorem acknowledged_lost : ∃ (c : Cluster) (a : Ack),
    (machine .three).Path (commitSound .three) (.initial .three) c ∧ a ∈ c.acks ∧
    (c.raft ['b']).state = .leader ∧ a.term < (c.raft ['b']).currentTerm ∧
    ∀ x ∈ (c.raft ['b']).logs, x.data ≠ a.cmd := by
  obtain ⟨c,hp,hc⟩ := Machine.exec_any (machine .three) (commitSound .three) (.initial .three)
    [.run ['a'] (.now 0),.run ['b'] (.now 0),.run ['c'] (.now 0),.timer ['a'] (.now 451),
      .deliver 0 (.now 451),.respond 0,.putCheck ['a'] ⟨['k'],['v'],opPut⟩,.putLog ['a'],
      .timer ['b'] (.now 451),.deliver 4 (.now 451),.respond 4]
    (fun c => (c.raft ['b']).state = .leader &&
      c.acks.any (fun a => a.term < (c.raft ['b']).currentTerm &&
        (c.raft ['b']).logs.all (fun x => x.data ≠ a.cmd))) (by decide +kernel)
  simp only [Bool.and_eq_true,List.any_eq_true,List.all_eq_true,decide_eq_true_eq] at hc
  obtain ⟨hlead,a,ha,hlt,hall⟩ := hc
  exact ⟨c,a,hp,ha,hlead,hlt,hall⟩

end Cluster
end SRaftMuduo
