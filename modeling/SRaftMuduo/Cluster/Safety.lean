import SRaftMuduo.Cluster.Agreement
import SRaftMuduo.Cluster.Validity

namespace SRaftMuduo

open Replication

/-- The log of a running node; a process that has not loaded the file yet counts with the
log it will load. -/
def Node.ownLog (n : Node) : List LogEntry := if n.raft.running then n.raft.logs else n.diskLog

/-- A quorum, counted. -/
theorem Config.quorums_countP {cfg : Config} (hc : cfg.Symmetric) {A : Set CString}
    (h : cfg.quorums.IsQuorum A) {p : CString → Bool} (hp : ∀ v ∈ A, p v = true) :
    cfg.names.length < 2*cfg.names.countP p := by
  obtain ⟨S,hS,hA,hcard⟩ := h
  rw [List.toFinset_card_of_nodup hc.nodup] at hcard
  have hle : S.card ≤ (cfg.names.filter p).toFinset.card := by
    refine Finset.card_le_card (fun v hv => ?_)
    rw [List.mem_toFinset,List.mem_filter]
    exact ⟨List.mem_toFinset.mp (hS hv),hp v (hA v hv)⟩
  rw [List.toFinset_card_of_nodup (hc.nodup.filter p),← List.countP_eq_length_filter] at hle
  omega

theorem NodeLog.ownLog {g : History} {i : CString} {n : Node} (h : NodeLog g i n) :
    n.ownLog = g.log i := by
  unfold Node.ownLog
  split_ifs with hrun
  · exact h.memory hrun
  · exact h.disk

/-- The entry at `commitIndex_` of a node that commits, and who holds it. -/
theorem CommitsLog.held {cfg : Config} {g : History} {i : CString} {n : Node}
    (h : CommitsLog cfg g i n)
    (hs : Sound cfg.quorums LogEntry.term g) (hnum : Everywhere (ContiguousFrom 0) g) :
    ∃ e ∈ n.raft.logs, e.index = n.raft.commitIndex ∧
      cfg.quorums.IsQuorum {v | e ∈ g.log v} := by
  obtain ⟨-,hlog,k,hk,hcommit⟩ := h
  obtain ⟨hpos,e,he,-⟩ := id hcommit.1
  have hidx := (hnum.canon _ _ e he).1
  refine ⟨e,by rw [hlog]; exact List.mem_of_getElem? he,by omega,?_⟩
  refine cfg.quorums.mono (fun v hv => (hcommit.retained hs hv).subset ?_) hcommit.2
  refine List.mem_of_getElem? (i := k-1) ?_
  rw [List.getElem?_take,if_pos (by omega)]
  exact he

namespace Cluster

/-- How many nodes hold an entry with the index, the term and the data of this one. -/
def holding (cfg : Config) (c : Cluster) (e : LogEntry) : Nat :=
  cfg.names.countP (fun v => (c.servers v).node.ownLog.any (fun x =>
    x.index = e.index && x.term = e.term && x.data = e.data))

variable {cfg : Config} {c c' : Cluster}

/-- At one index all nodes, at any two moments of a run, push one command. -/
theorem state_machine_safety (hc : cfg.Symmetric) {s t : Cluster}
    (hs : (machine cfg).Path (commitSound cfg) (.initial cfg) s)
    (ht : (machine cfg).Path (commitSound cfg) s t) {i j : CString} {k : Int}
    {cmd cmd' : CString} (hi : (k,cmd) ∈ (s.servers i).node.pushes)
    (hj : (k,cmd') ∈ (t.servers j).node.pushes) : cmd = cmd' := by
  obtain ⟨g,-,hg⟩ := (Committing.initial cfg).simulates hc hs
  obtain ⟨g',hpath,hg'⟩ := hg.simulates hc ht
  have hgrow := (hg.sound.path hpath).2
  rw [(hg.pipe.piped i).pushes] at hi
  rw [(hg'.pipe.piped j).pushes] at hj
  have hfirst := (hg.applied i _ (List.mem_of_mem_filter hi)).mono hgrow
  exact hfirst.agree hg'.sound (hg'.applied j _ (List.mem_of_mem_filter hj)) rfl

/-- `a` and `b` push the command that `a` has logged, `b` as the leader after `a`. -/
theorem state_machine_safety_two : ∃ (s t : Cluster) (cmd cmd' : CString),
    (0,cmd) ∈ (s.servers ['a']).node.pushes ∧ (0,cmd') ∈ (t.servers ['b']).node.pushes ∧
    (t.raft ['b']).state = .leader ∧ cmd = cmd' := by
  obtain ⟨s,hs,hpush⟩ := Machine.exec_any (machine .two) (commitSound .two) (.initial .two)
    [.run ['a'] (.now 0),.run ['b'] (.now 0),.timer ['a'] (.now 451),.deliver 0 (.now 451),
      .respond 0,.doLog ['a'] ['x'],.deliver 0 (.now 451),.respond 0]
    (fun s => (0,['x']) ∈ (s.servers ['a']).node.pushes &&
      ((machine .two).exec (commitSound .two) s [.timer ['b'] (.now 451),.deliver 0 (.now 451),
        .respond 0,.doLog ['b'] ['y'],.deliver 0 (.now 451),.respond 0,.doLog ['b'] ['z'],
        .deliver 0 (.now 451),.respond 0]).any (fun t =>
          (0,['x']) ∈ (t.servers ['b']).node.pushes && (t.raft ['b']).state = .leader))
    (by decide +kernel)
  simp only [Bool.and_eq_true,Option.any_eq_true,decide_eq_true_eq] at hpush
  obtain ⟨hi,t,hexec,hj,hlead⟩ := hpush
  exact ⟨s,t,_,_,hi,hj,hlead,state_machine_safety Config.two_symmetric hs
    (Machine.exec_path _ hexec) hi hj⟩

/-- `c`, which has the entry that `a` has committed, gives its vote to `b`, which has none.
`b` commits its own entry of the same index. -/
theorem two_commands_at_one_index : ∃ (c : Cluster) (cmd cmd' : CString),
    (machine .three).Path Machine.always (.initial .three) c ∧
    (0,cmd) ∈ (c.servers ['a']).node.pushes ∧ (0,cmd') ∈ (c.servers ['b']).node.pushes ∧
    cmd ≠ cmd' := by
  obtain ⟨c,hp,hc⟩ := Machine.exec_any (machine .three) Machine.always (.initial .three)
    [.run ['a'] (.now 0),.run ['b'] (.now 0),.run ['c'] (.now 0),.timer ['a'] (.now 451),
      .deliver 0 (.now 451),.respond 0,.doLog ['a'] ['x'],.deliver 2 (.now 451),.respond 2,
      .timer ['b'] (.now 451),.deliver 3 (.now 451),.respond 3,.doLog ['b'] ['y'],
      .deliver 4 (.now 451),.respond 4,.doLog ['b'] ['z'],.deliver 5 (.now 451),.respond 5]
    (fun c => (0,['x']) ∈ (c.servers ['a']).node.pushes ∧
      (0,['y']) ∈ (c.servers ['b']).node.pushes) (by decide +kernel)
  obtain ⟨hx,hy⟩ := of_decide_eq_true hc
  exact ⟨c,_,_,hp,hx,hy,by decide⟩

/-- What a leader commits by the answer of a peer, more than half of the nodes hold. -/
theorem commit_quorum (hc : cfg.Symmetric)
    (h : (machine cfg).Path (commitSound cfg) (.initial cfg) c) {k : Nat} {src dst : CString}
    {life : Nat} {request : AppendEntriesRequest} {isHeartbeat : Bool}
    {response : AppendEntriesResponse}
    (hk : c.net[k]? = some (.appendReply src dst life request isHeartbeat response))
    (hlead : (c.raft src).state = .leader) (hok : c.commitSound cfg (.respond k))
    (hs : (machine cfg).step c (.respond k) = some c')
    (hset : (c'.raft src).commitIndex ≠ (c.raft src).commitIndex) :
    ∃ e ∈ (c'.raft src).logs, e.index = (c'.raft src).commitIndex ∧
      cfg.names.length < 2*c'.holding cfg e := by
  obtain ⟨g,-,hg⟩ := (Committing.initial cfg).simulates hc h
  obtain ⟨hall,hg'⟩ := hg.step hc hok hs
  rcases step_cases hs with
    ⟨i,n,net,hlive,hm,hmoved⟩ | ⟨_,_,he,-⟩ | ⟨_,-,he,-⟩ | ⟨hout,-⟩
  · have hi : i = src := by
      cases hm with
      | voteReply k dst' request' response' hk' => exact absurd (hk.symm.trans hk') (by simp)
      | appendReply k dst' request' hb' response' hk' =>
        have hsame := Option.some.inj (hk.symm.trans hk')
        exact (Rpc.appendReply.inj hsame).1.symm
    subst hi
    have hraft : c'.raft i = n.raft := by rw [raft,hmoved.node]
    rw [hraft] at hset ⊢
    rcases hg.commitsLog hc hlive hok hm with hsame | hlog
    · exact absurd hsame hset
    obtain ⟨e,hmem,hindex,hquorum⟩ := hlog.held hg'.sound hg'.copying.numbered
    refine ⟨e,hmem,hindex,Config.quorums_countP hc hquorum ?_⟩
    intro v hv
    rw [(hg'.copying.node v).ownLog]
    exact List.any_eq_true.mpr ⟨e,hv,by simp⟩
  · exact absurd he (by simp)
  · exact absurd he (by simp)
  · exact absurd hout Bool.false_ne_true

/-- The first command of `a`, which `b` has taken over. -/
theorem commit_quorum_two : ∃ c' : Cluster, (c'.raft ['a']).commitIndex = 0 ∧
    ∃ e ∈ (c'.raft ['a']).logs, e.index = (c'.raft ['a']).commitIndex ∧
      Config.two.names.length < 2*c'.holding .two e := by
  obtain ⟨c,hp,hc⟩ := Machine.exec_any (machine .two) (commitSound .two) (.initial .two)
    [.run ['a'] (.now 0),.run ['b'] (.now 0),.timer ['a'] (.now 451),.deliver 0 (.now 451),
      .respond 0,.doLog ['a'] ['x'],.deliver 0 (.now 451)]
    (fun (c : Cluster) => (c.raft ['a']).state = .leader &&
      decide (c.commitSound .two (.respond 0)) &&
      ((machine .two).step c (.respond 0)).any (fun c' => (c'.raft ['a']).commitIndex = 0 &&
        (c.raft ['a']).commitIndex = -1) &&
      (c.net[0]?).any (fun (rpc : Rpc) => rpc.src = ['a'] && rpc.entries.length = 1))
    (by decide +kernel)
  simp only [Bool.and_eq_true,Option.any_eq_true,decide_eq_true_eq] at hc
  obtain ⟨⟨⟨hlead,hok⟩,c',hs,hzero,hone⟩,rpc,hk,hsrc,hlen⟩ := hc
  cases rpc with
  | appendReply src dst life request isHeartbeat response =>
    obtain rfl : src = ['a'] := hsrc
    exact ⟨c',hzero,commit_quorum Config.two_symmetric hp hk hlead hok hs (by omega)⟩
  | appendCall src dst life request isHeartbeat =>
    have hnone : (machine .two).step c (.respond 0) = none := by
      show (c.net[0]?).bind (c.respondCall .two 0) = none
      rw [hk]
      rfl
    exact absurd (hs.symm.trans hnone) (by simp)
  | voteCall src dst life request => exact absurd hlen (by simp [Rpc.entries])
  | voteReply src dst life request response => exact absurd hlen (by simp [Rpc.entries])

/-- With five nodes the answer of one peer is enough for the code. -/
theorem committed_by_two_of_five : ∃ c c' : Cluster,
    (machine .five).Path Machine.always (.initial .five) c ∧
    (c.raft ['a']).state = .leader ∧ (machine .five).step c (.respond 2) = some c' ∧
    (c'.raft ['a']).commitIndex ≠ (c.raft ['a']).commitIndex ∧
    ∃ e ∈ (c'.raft ['a']).logs, e.index = (c'.raft ['a']).commitIndex ∧
      c'.holding .five e = 2 ∧ ¬Config.five.names.length < 2*c'.holding .five e := by
  obtain ⟨c,hp,hc⟩ := Machine.exec_any (machine .five) Machine.always (.initial .five)
    [.run ['a'] (.now 0),.run ['b'] (.now 0),.run ['c'] (.now 0),.timer ['a'] (.now 451),
      .deliver 0 (.now 451),.deliver 1 (.now 451),.respond 0,.respond 0,.doLog ['a'] ['x'],
      .deliver 2 (.now 451)]
    (fun (c : Cluster) => (c.raft ['a']).state = .leader &&
      ((machine .five).step c (.respond 2)).any (fun c' =>
        (c'.raft ['a']).commitIndex ≠ (c.raft ['a']).commitIndex &&
        (c'.raft ['a']).logs.any (fun e => e.index = (c'.raft ['a']).commitIndex &&
          c'.holding .five e = 2))) (by decide +kernel)
  simp only [Bool.and_eq_true,Option.any_eq_true,decide_eq_true_eq,List.any_eq_true] at hc
  obtain ⟨hlead,c',hs,hset,e,he,hindex,htwo⟩ := hc
  exact ⟨c,c',hp,hlead,hs,hset,e,he,hindex,htwo,by rw [htwo]; decide⟩

end Cluster
end SRaftMuduo
