import SRaftMuduo.Cluster.Failures
import SRaftMuduo.Cluster.Lookups
import SRaftMuduo.Cluster.Overlap
import SRaftMuduo.Cluster.Reads

namespace SRaftMuduo

open Node (Applies Still Commits)

/-- A server that `addPeer` was never called on. -/
def Config.one : Config := .full [['a']] (by decide)

/-- The commands for which `DoLog` has returned `1` at an address, by all its processes, and
whether the present process was asked for one of them. -/
structure Logged where
  cmds : List CString
  here : Bool
  deriving DecidableEq

def Logged.doLog (g : Logged) (n : Node) (cmd : CString) : Logged :=
  if (n.doLog cmd).2 = some 1 then ⟨g.cmds++[cmd],true⟩ else g

/-- What the present process has applied: nothing before its first `DoLog`, and from then on
the commands of the earlier processes too. -/
def Logged.applied (g : Logged) : List CString := if g.here then g.cmds else []

namespace Node

/-- The new entry is committed at once. -/
theorem logEntry_commits (cmd : CString) {n : Node} (hp : n.raft.peers = []) :
    Commits n (n.logEntry cmd) (n.raft.lastLogIndex+1) ∧ (n.logEntry cmd).stopped = n.stopped := by
  have hlast : SRaft.lastLogIndex {n.raft with
      logs := n.raft.logs++[newEntry cmd n.raft]} = n.raft.lastLogIndex+1 := by
    simp [SRaft.lastLogIndex,newEntry]
  let m : Node := dump {n with raft := {n.raft with
    logs := n.raft.logs++[newEntry cmd n.raft]}}
  have halone : n.logEntry cmd = m.commitAlone := doAppendEntries_alone m hp
  rw [halone]
  exact ⟨⟨m,.refl n,by rw [← hlast]; rfl⟩,(applyLoop_frame _ _).2.2.2⟩

/-- What `DoLog` does on a node without peers: it returns `1` exactly when it logs the
command, which is then committed. -/
theorem doLog_alone (cmd : CString) {n : Node} (hp : n.raft.peers = [])
    (hlive : n.stopped = false) :
    ((n.doLog cmd).2 ≠ some 1 ∧ ((n.doLog cmd).1 = n ∨ (n.doLog cmd).1 = n.stop)) ∨
    ((n.doLog cmd).2 = some 1 ∧ n.raft.running = true ∧ (n.doLog cmd).1 = n.logEntry cmd ∧
      n.raft.lastLogIndex+1 < 2^63) := by
  have hstopped : (n.logEntry cmd).stopped = false := (logEntry_commits cmd hp).2.trans hlive
  unfold doLog
  by_cases h1 : n.raft.running = false
  · rw [if_pos h1]
    exact .inl ⟨by simp,.inl rfl⟩
  by_cases h2 : n.raft.state ≠ .leader
  · rw [if_neg h1,if_pos h2]
    exact .inl ⟨by simp,.inl rfl⟩
  by_cases h3 : 2^63 ≤ n.raft.lastLogIndex+1
  · rw [if_neg h1,if_neg h2,if_pos h3]
    exact .inl ⟨by simp,.inr rfl⟩
  · rw [if_neg h1,if_neg h2,if_neg h3]
    exact .inr ⟨by simp [hstopped],by simpa using h1,rfl,by omega⟩

/-- The lookups that reach the end of the log find all that was not yet applied. -/
theorem Applies.found {n m : Node} {more : List (Int × CString)} (h : Applies n m more)
    (hlog : ContiguousFrom 0 m.raft.logs) (hlow : -1 ≤ n.raft.lastApplied)
    (hlast : m.raft.lastApplied+1 = m.raft.logs.length) :
    more.map Prod.snd = (m.raft.logs.map LogEntry.data).drop (n.raft.lastApplied+1).toNat := by
  have hlen := h.last
  refine List.ext_getElem? (fun k => ?_)
  rw [List.getElem?_map,List.getElem?_drop,List.getElem?_map]
  by_cases hk : k < more.length
  · have hp := List.getElem?_eq_getElem hk
    have he := List.getElem?_eq_getElem
      (show (n.raft.lastApplied+1).toNat+k < m.raft.logs.length by omega)
    have hidx : (more[k]).1 = n.raft.lastApplied+1+k := by
      have hat := congrArg (fun xs => xs[k]?) h.indices
      simpa [hp,hk] using hat
    have hu : toU64 (more[k]).1 = (n.raft.lastApplied+1).toNat+k := by
      obtain ⟨hpos,hbound,-⟩ := hlog _ _ he
      rw [hidx,toU64_of_nonneg (by omega) (by omega)]
      omega
    rw [hp,he,Option.map_some,Option.map_some,h.data _ (List.mem_of_getElem? hp),hu,
      SRaft.getLogByIndex_position hlog he]
  · rw [List.getElem?_eq_none (by omega),List.getElem?_eq_none (by omega)]
    rfl

end Node

/-- A node without peers, and what was logged there: the file has every command, and so has
the memory of a running process, which has applied them all or none. -/
structure Keeps (g : Logged) (n : Node) : Prop where
  saved : Saved n
  numbered : AloneLog n
  peers : n.raft.peers = []
  disk : n.diskLog.map LogEntry.data = g.cmds
  commit : n.raft.commitIndex+1 = g.applied.length
  looked : n.applied.map Prod.snd = g.applied

namespace Keeps

variable {g : Logged} {n m : Node} {cfg : Config} {i : CString}

/-- What changes at most the calls, the queue, and whether the process has stopped. -/
theorem same (h : Keeps g n) (hr : m.raft = n.raft) (hd : m.persist = n.persist)
    (ha : m.applied = n.applied) : Keeps g m := by
  have hdisk : m.diskLog = n.diskLog := by
    unfold Node.diskLog
    rw [hd]
  exact ⟨⟨by rw [hr,hdisk]; exact h.saved.memory,by rw [hr]; exact h.saved.fresh⟩,
    h.numbered.same (by rw [hr]) (.inl hd),by rw [hr]; exact h.peers,by rw [hdisk]; exact h.disk,
    by rw [hr]; exact h.commit,by rw [ha]; exact h.looked⟩

theorem boot (hnil : cfg.peersOf i = []) (h : Keeps g n) (life : Nat) :
    Keeps {g with here := false} (Server.boot cfg i n.persist life).node := by
  refine ⟨.boot cfg i _ life,⟨.nil 0,h.numbered.disk⟩,?_,h.disk,rfl,rfl⟩
  simp [Server.boot,Node.create,SRaft.create,hnil]

theorem run (h : Keeps g n) (hrun : n.raft.running = false) (r : Readings) :
    Keeps g (n.run r) := by
  obtain ⟨hsaved,hdisk⟩ := h.saved.run hrun r
  have hstill := Node.run_still r n
  refine ⟨hsaved,h.numbered.run r,?_,by rw [hdisk]; exact h.disk,
    by rw [hstill.2.2.2.2]; exact h.commit,by rw [hstill.1]; exact h.looked⟩
  have hp : n.load.raft.peers = n.raft.peers := by
    unfold Node.load
    split <;> rfl
  exact hp.trans h.peers

theorem onTimer (h : Keeps g n) (r : Readings) : Keeps g (n.onTimer r) := by
  by_cases hrun : n.raft.running = true
  · obtain ⟨hsaved,hdisk⟩ := h.saved.kept hrun (Node.onTimer_logKept r n)
    have hstill := Node.onTimer_still r n
    exact ⟨hsaved,h.numbered.onTimer r,(Node.onTimer_peers r n).trans h.peers,
      by rw [hdisk]; exact h.disk,by rw [hstill.2.2.2.2]; exact h.commit,
      by rw [hstill.1]; exact h.looked⟩
  · rwa [Node.onTimer,if_neg hrun]

/-- The first `DoLog` of a process applies what the file had, and then its own command. -/
theorem doLog (h : Keeps g n) (hs : Synced cfg i n) (hch : n.channel ≠ none)
    (hlive : n.stopped = false) (cmd : CString) : Keeps (g.doLog n cmd) (n.doLog cmd).1 := by
  have hnum := h.numbered.doLog cmd
  rcases Node.doLog_alone cmd h.peers hlive with ⟨hret,he⟩ | ⟨hret,hrun,he,hb⟩
  · rw [Logged.doLog,if_neg hret]
    rcases he with he | he <;> rw [he]
    · exact h
    · exact h.same rfl rfl rfl
  rw [Logged.doLog,if_pos hret]
  rw [he] at hnum ⊢
  obtain ⟨hcommits,-⟩ := Node.logEntry_commits cmd h.peers
  obtain ⟨ci,la,hraft⟩ := Node.logEntry_raft cmd n
  have hmem := h.saved.memory hrun
  have hlogs : (n.logEntry cmd).raft.logs = n.raft.logs++[Node.newEntry cmd n.raft] := by
    rw [hraft]
  have hdisk : (n.logEntry cmd).diskLog = n.raft.logs++[Node.newEntry cmd n.raft] := by
    rw [Node.diskLog,Node.logEntry_persist]
  have hdata : (n.raft.logs++[Node.newEntry cmd n.raft]).map LogEntry.data = g.cmds++[cmd] := by
    rw [List.map_append,hmem,h.disk]
    rfl
  have hsize : n.raft.lastLogIndex+1 = g.cmds.length := by
    rw [SRaft.lastLogIndex_length h.numbered.logs,hmem,← h.disk,List.length_map]
    omega
  have hstart : n.raft.lastApplied+1 = g.applied.length := by
    rw [hs.applied]
    exact h.commit
  have hlow := hs.low
  have happ := hs.applied
  have hbelow : g.applied.length ≤ g.cmds.length := by
    unfold Logged.applied
    split_ifs
    · exact le_refl _
    · exact Nat.zero_le _
  refine ⟨.set (by rw [hraft]; exact hrun) (by rw [hlogs,hdisk]),hnum,
    by rw [hraft]; exact h.peers,by rw [hdisk,hdata],?commit,?looked⟩
  case commit =>
    rw [hcommits.commitIndex,hsize]
    simp [Logged.applied]
  case looked =>
    obtain ⟨more,hmore⟩ := hcommits.applies hch
    have hlast : (n.logEntry cmd).raft.lastApplied+1 = (n.logEntry cmd).raft.logs.length := by
      have hlen := congrArg List.length hdata
      rw [List.length_map] at hlen
      rw [hcommits.lastApplied,hlogs,hlen,List.length_append,List.length_singleton]
      omega
    have hfound := hmore.found hnum.logs (by omega) hlast
    rw [hlogs,hdata,hstart,Int.toNat_natCast] at hfound
    rw [hmore.applied,List.map_append,h.looked,hfound]
    unfold Logged.applied
    cases g.here <;> simp

end Keeps

namespace Cluster

variable {cfg : Config} {c c' : Cluster} {g : Logged} {i : CString}

/-- Notes a `DoLog` at `i` by what it returns, and the death of the process there. -/
def noteLogged (i : CString) (g : Logged) (c : Cluster) : Event → Logged
  | .crash j => if j = i then {g with here := false} else g
  | .doLog j cmd => if j = i then g.doLog (c.servers i).node cmd else g
  | .putLog j =>
    match (c.servers i).pending with
    | some request => if j = i then g.doLog (c.servers i).node request.command else g
    | none => g
  | _ => g

/-- A handler at another address. -/
theorem noteLogged_other {j : CString} {e : Event} {n : Node} {net : List Rpc}
    (hm : c.Move j e n net) (hj : i ≠ j) : c.noteLogged i g e = g := by
  cases hm with
  | doLog cmd => exact if_neg (Ne.symm hj)
  | putLog request _ =>
    rw [noteLogged]
    split
    · exact if_neg (Ne.symm hj)
    · rfl
  | run | timer | voteCall | appendCall | voteReply | appendReply => rfl

/-- The handlers of a node without peers. -/
theorem Keeps.move (h : Keeps g (c.servers i).node) (hp : PipeInv cfg c) (hc : cfg.Symmetric)
    (hnil : cfg.peersOf i = []) (hlive : c.live cfg i) {e : Event} {n : Node} {net : List Rpc}
    (hm : c.Move i e n net) : Keeps (c.noteLogged i g e) n := by
  have hnone : ∀ rpc ∈ c.net, ¬(i = rpc.src ∨ i = rpc.dst) := by
    rintro rpc hrpc (rfl | rfl)
    · exact (hp.has_peer hc hrpc).1 hnil
    · exact (hp.has_peer hc hrpc).2 hnil
  cases hm with
  | run r hrun => exact h.run hrun r
  | timer r => exact h.onTimer r
  | doLog cmd =>
    rw [noteLogged,if_pos rfl]
    exact h.doLog (hp.synced i) (hp.channel i) hlive.2 cmd
  | putLog request hpending =>
    simp only [noteLogged,hpending,if_true]
    exact h.doLog (hp.synced i) (hp.channel i) hlive.2 request.command
  | voteCall k r src life request response hk _ =>
    exact absurd (.inr rfl) (hnone _ (List.mem_of_getElem? hk))
  | appendCall k r src life request isHeartbeat hk _ =>
    exact absurd (.inr rfl) (hnone _ (List.mem_of_getElem? hk))
  | voteReply k dst request response hk =>
    exact absurd (.inl rfl) (hnone _ (List.mem_of_getElem? hk))
  | appendReply k dst request isHeartbeat response hk =>
    exact absurd (.inl rfl) (hnone _ (List.mem_of_getElem? hk))

theorem Keeps.step (h : Keeps g (c.servers i).node) (hp : PipeInv cfg c) (hc : cfg.Symmetric)
    (hnil : cfg.peersOf i = []) {e : Event} (hs : (machine cfg).step c e = some c') :
    Keeps (c.noteLogged i g e) (c'.servers i).node := by
  rcases step_cases hs with
    ⟨j,n,net,hlive,hmove,hmoved⟩ | ⟨k,rpc,rfl,-,rfl⟩ | ⟨j,-,rfl,rfl⟩ | ⟨hout,hq⟩
  · by_cases hj : i = j
    · subst hj
      rw [hmoved.node]
      exact (Keeps.move h hp hc hnil hlive hmove).same rfl rfl rfl
    · rw [noteLogged_other hmove hj,hmoved.other i hj]
      exact h
  · exact h
  · by_cases hj : j = i
    · subst hj
      rw [noteLogged,if_pos rfl]
      simpa [crashed] using h.boot hnil ((c.servers j).life+1)
    · rw [noteLogged,if_neg hj]
      simpa [crashed,Ne.symm hj] using h
  · obtain ⟨hr,hd,-,ha,-⟩ := hq.node i
    cases e with
    | receive j => exact h.same hr hd ha
    | putCheck j request => exact h.same hr hd ha
    | _ => exact absurd hout Bool.false_ne_true

theorem Keeps.reachable (hc : cfg.Symmetric) (hnil : cfg.peersOf i = [])
    (h : ((machine cfg).withGhost (noteLogged i)).Path Machine.always
      (.initial cfg,⟨[],false⟩) (c,g)) : PipeInv cfg c ∧ Keeps g (c.servers i).node := by
  refine h.invariant (I := fun s => PipeInv cfg s.1 ∧ Keeps s.2 (s.1.servers i).node) ?step
    ⟨.initial cfg,?init⟩
  case step =>
    rintro ⟨c,g⟩ e ⟨c',g'⟩ ⟨hp,hk⟩ - hs
    obtain ⟨hs,rfl⟩ := Machine.withGhost_step hs
    exact ⟨hp.step hc hs,Keeps.step hk hp hc hnil hs⟩
  case init =>
    refine ⟨.boot cfg i none 0,(alone_closed cfg).initial.1 i hnil,?_,rfl,rfl,rfl⟩
    simp [initial,Server.boot,Node.create,SRaft.create,hnil]

end Cluster

namespace Threaded

variable {cfg : Config} {s t : Threaded} {g g' : Logged} {i : CString}

def noteLogged (i : CString) (g : Logged) (s : Threaded) : TurnEvent → Logged
  | .handler e => s.cluster.noteLogged i g e
  | _ => g

end Threaded

end SRaftMuduo
