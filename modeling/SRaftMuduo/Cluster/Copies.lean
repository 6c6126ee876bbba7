import SRaftMuduo.Cluster.Leaders
import SRaftMuduo.Cluster.Contiguity

namespace SRaftMuduo

open Replication

namespace SRaft

variable {s : SRaft}

theorem getLogByIndex_position (h : ContiguousFrom 0 s.logs) {j : Nat} {e : LogEntry}
    (hj : s.logs[j]? = some e) : s.getLogByIndex j = e := by
  obtain ⟨hidx,hlt,-⟩ := h j e hj
  have hu : toU64 e.index = j := by
    rw [toU64_of_nonneg (by omega) (by omega)]
    omega
  rw [← hu]
  exact getLogByIndex_mem ⟨0,le_refl _,h⟩ (List.mem_of_getElem? hj)

/-- What is sent to a peer is the rest of the log. -/
theorem entriesFrom_eq (h : ContiguousFrom 0 s.logs) (hn : s.logs ≠ []) {nextIndex : Int}
    (h0 : 0 ≤ nextIndex) (h1 : nextIndex ≤ 2^63) :
    s.entriesFrom nextIndex = s.logs.drop nextIndex.toNat := by
  simpa using entriesFrom_drop (le_refl 0) h hn h0 h1

end SRaft

/-- What a leader sends: the entries of its term after `base`, down to one it has appended
in the term, with the place they belong to. -/
structure Carried (g : History) (src : CString) (request : AppendEntriesRequest)
    (base : List LogEntry) : Prop where
  won : g.won request.term = some src
  canon : base++request.entries <+: g.canon request.term
  prevLogIndex : request.prevLogIndex = (base.length : Int)-1
  prevLogTerm : ∀ e, base.getLast? = some e → request.prevLogTerm = e.term
  last : ∀ e, request.entries.getLast? = some e → e.term = request.term

def CarriedCall (g : History) (src : CString) : Call → Prop
  | .requestVote _ _ => True
  | .appendEntries _ request _ => request.entries ≠ [] → ∃ base, Carried g src request base

def CarriedRpc (g : History) : Rpc → Prop
  | .appendCall src _ _ request _ => request.entries ≠ [] → ∃ base, Carried g src request base
  | _ => True

section Sending

variable {g g' : History} {i : CString} {s : SRaft} {n : Node} {rpc : Rpc}

theorem Carried.mono {src : CString} {request : AppendEntriesRequest} {base : List LogEntry}
    (h : Carried g src request base) (hw : ∀ t c, g.won t = some c → g'.won t = some c)
    (hc : ∀ t, g.canon t <+: g'.canon t) : Carried g' src request base :=
  ⟨hw _ _ h.won,h.canon.trans (hc _),h.prevLogIndex,h.prevLogTerm,h.last⟩

theorem CarriedRpc.mono (h : CarriedRpc g rpc) (hw : ∀ t c, g.won t = some c → g'.won t = some c)
    (hc : ∀ t, g.canon t <+: g'.canon t) : CarriedRpc g' rpc := by
  cases rpc with
  | appendCall src dst life request isHeartbeat =>
    intro hne
    obtain ⟨base,hcarried⟩ := h hne
    exact ⟨base,hcarried.mono hw hc⟩
  | _ => trivial

theorem CarriedRpc.fail (h : CarriedRpc g rpc) : CarriedRpc g (Cluster.failCall rpc) := by
  cases rpc <;> trivial

theorem CarriedCall.sent {call : Call} (h : CarriedCall g i call) (life : Nat) :
    CarriedRpc g (call.rpc i life) := by
  cases call with
  | requestVote => trivial
  | appendEntries peer request isHeartbeat => exact h

theorem carried_appendRequest (h : ContiguousFrom 0 s.logs) (hn : s.logs ≠ [])
    (hwon : g.won s.currentTerm = some i) (hcanon : g.canon s.currentTerm = s.logs)
    (hlast : ∀ e, s.logs.getLast? = some e → e.term = s.currentTerm) {peer : SRaftPeer}
    (h0 : 0 ≤ peer.nextIndex) (h1 : peer.nextIndex ≤ 2^63)
    (hne : (s.appendRequest false peer).entries ≠ []) :
    Carried g i (s.appendRequest false peer) (s.logs.take peer.nextIndex.toNat) := by
  have hentries : (s.appendRequest false peer).entries = s.logs.drop peer.nextIndex.toNat :=
    SRaft.entriesFrom_eq h hn h0 h1
  rw [hentries] at hne
  have hlt : peer.nextIndex.toNat < s.logs.length := by
    by_contra hge
    exact hne (List.drop_eq_nil_of_le (by omega))
  refine ⟨hwon,?_,?_,?_,?_⟩
  · rw [hentries,List.take_append_drop]
    exact hcanon ▸ List.prefix_rfl
  · have hlen : (s.logs.take peer.nextIndex.toNat).length = peer.nextIndex.toNat := by
      rw [List.length_take]
      omega
    have hprev : (s.appendRequest false peer).prevLogIndex = peer.nextIndex-1 := rfl
    rw [hprev,hlen]
    omega
  · intro e he
    rw [List.getLast?_eq_getElem?,List.length_take,Nat.min_eq_left hlt.le,
      List.getElem?_take] at he
    split_ifs at he with hpos
    have hnat : toU64 (peer.nextIndex-1) = peer.nextIndex.toNat-1 := by
      rw [toU64_of_nonneg (by omega) (by omega)]
      omega
    have hterm : (s.appendRequest false peer).prevLogTerm =
        if peer.nextIndex-1 > -1 then (s.getLogByIndex (toU64 (peer.nextIndex-1))).term
        else 0 := rfl
    rw [hterm,if_pos (by omega),hnat,SRaft.getLogByIndex_position h he]
  · intro e he
    rw [hentries,List.getLast?_drop,if_neg (by omega)] at he
    exact hlast e he

/-- Entries that go behind the entry they were sent after make the log a copy of the
leader's. -/
theorem Carried.splice {src : CString} {request : AppendEntriesRequest} {base : List LogEntry}
    (h : Carried g src request base) (hlog : PrefixOk LogEntry.term g.canon s.logs)
    (hcanon : PrefixOk LogEntry.term g.canon (g.canon request.term))
    (hnum : ContiguousFrom 0 s.logs) (hcnum : ContiguousFrom 0 (g.canon request.term))
    (hne : request.entries ≠ []) (hfound : request.prevLogIndex = -1 ∨
      s.findLog request.prevLogTerm (toU64 request.prevLogIndex) ≠ 2^64-1) :
    Node.splice s request = base++request.entries := by
  have hprev := h.prevLogIndex
  have hlen : base.length < 2^63 := by
    have hpos : 0 < request.entries.length := List.length_pos_iff.mpr hne
    have hle := h.canon.length_le
    rw [List.length_append] at hle
    have hmax := hcnum.length_le (List.ne_nil_of_length_pos (by omega))
    omega
  rcases Node.splice_cases s request with ⟨hnone,he⟩ | ⟨i,e,hi,ht,hx,-,he⟩
  · rcases hfound with hfound | hfound
    · have hbase : base = [] := List.eq_nil_of_length_eq_zero (by omega)
      rw [he,hbase,List.nil_append]
    · exact absurd hnone hfound
  · obtain ⟨hidx,hlt,-⟩ := hnum i e hi
    have hsame : e.index = request.prevLogIndex :=
      toU64_inj (by omega) hlt (by omega) (by omega) hx
    have hbase : base.length = i+1 := by omega
    -- the last entry before those sent is the one found, and the logs agree up to it
    obtain ⟨x,hin⟩ : ∃ x, base[i]? = some x := ⟨_,List.getElem?_eq_getElem (by omega)⟩
    have hat : (g.canon request.term)[i]? = some x := by
      obtain ⟨rest,hr⟩ := h.canon
      rw [← hr,List.append_assoc,List.getElem?_append_left (by omega),hin]
    have hterm : e.term = x.term := by
      have hlast : base.getLast? = some x := by
        rw [List.getLast?_eq_getElem?,hbase]
        exact hin
      rw [ht]
      exact h.prevLogTerm _ hlast
    have hmatch := hlog.matching hcanon hi hat hterm
    have htake : (g.canon request.term).take (i+1) = base := by
      have hpre := (List.prefix_append base request.entries).trans h.canon
      rw [← hbase]
      exact (List.prefix_iff_eq_take.mp hpre).symm
    rw [he,hmatch,htake]

end Sending

/-- The log of the history is the one in the memory of a running process, and that on its
disk. -/
structure NodeLog (g : History) (i : CString) (n : Node) : Prop where
  memory : n.raft.running = true → n.raft.logs = g.log i
  fresh : n.raft.running = false → n.raft.logs = []
  disk : n.diskLog = g.log i

namespace Node

/-- A handler leaves the log, and writes it to the disk if it writes at all. -/
structure LogKept (n m : Node) : Prop where
  running : m.raft.running = n.raft.running
  logs : m.raft.logs = n.raft.logs
  disk : m.diskLog = n.diskLog ∨ n.raft.running = true ∧ m.diskLog = n.raft.logs

theorem LogKept.same {n m : Node} (hr : m.raft.running = n.raft.running)
    (hl : m.raft.logs = n.raft.logs) (hp : m.persist = n.persist) : LogKept n m := by
  refine ⟨hr,hl,.inl ?_⟩
  unfold diskLog
  rw [hp]

theorem LogKept.dumped {n m : Node} (hrun : n.raft.running = true)
    (hr : m.raft.running = n.raft.running) (hl : m.raft.logs = n.raft.logs)
    {record : PersistRecord} (hp : m.persist = some record)
    (hd : record.entries = n.raft.logs) : LogKept n m := by
  refine ⟨hr,hl,.inr ⟨hrun,?_⟩⟩
  unfold diskLog
  rw [hp]
  exact hd

theorem onTimer_logKept (r : Readings) (n : Node) : LogKept n (n.onTimer r) := by
  rcases onTimer_cases r n with ⟨-,he⟩ | ⟨-,-,due,he⟩ | ⟨hrun,-,he⟩ | ⟨-,-,due,he⟩ <;> rw [he]
  · exact .same rfl rfl rfl
  · obtain ⟨ci,la,hr⟩ := doAppendEntries_raft true
      {n with raft := {n.raft with dueHeartBeat := due}}
    exact .same (by rw [hr]) (by rw [hr]) (by simp)
  · have hd := doElection_persist r n
    rcases timerFail_cases r (n.doElection r) with he' | ⟨-,due,he'⟩ <;> rw [he']
    · exact .dumped hrun (by simp) (by simp) hd rfl
    · exact .dumped hrun (by simp) (by simp) hd rfl
  · exact .same rfl rfl rfl

theorem onRequestVoteRequest_logKept (request : RequestVoteRequest) (n : Node) :
    LogKept n (n.onRequestVoteRequest request).1 := by
  rcases onRequestVoteRequest_cases request n with
    ⟨-,he,-⟩ | ⟨-,-,-,he⟩ | ⟨hrun,-,-,-,he⟩ <;> rw [he]
  · exact .same rfl rfl rfl
  · exact .same rfl rfl rfl
  · exact .dumped hrun rfl rfl rfl rfl

theorem onRequestVoteResponse_logKept (response : RequestVoteResponse) {n : Node}
    (hrun : n.raft.running = true) : LogKept n (n.onRequestVoteResponse response) := by
  rcases onRequestVoteResponse_cases response n with
    ⟨-,he⟩ | ⟨-,-,he⟩ | ⟨-,-,-,he⟩ <;> rw [he]
  · exact .dumped hrun rfl rfl rfl rfl
  · exact .same rfl rfl rfl
  · exact .same rfl rfl rfl

theorem onAppendEntriesReponse_logKept (response : AppendEntriesResponse)
    (isHeartbeat : Bool) {n : Node} (hrun : n.raft.running = true) :
    LogKept n (n.onAppendEntriesReponse response isHeartbeat) := by
  obtain ⟨m,hm,⟨peers,ci,la,hr⟩,hp,-⟩ := onAppendEntriesReponse_frame response isHeartbeat n
  split_ifs at hm <;> rw [hm] at hr hp
  · exact .dumped hrun (by rw [hr]; rfl) (by rw [hr]; rfl) hp rfl
  · exact .same (by rw [hr]) (by rw [hr]) hp

end Node

namespace NodeLog

variable {g g' : History} {i : CString} {n m : Node}

theorem kept (h : NodeLog g i n) (hk : n.LogKept m) (hg : g'.log i = g.log i) :
    NodeLog g' i m := by
  refine ⟨?_,?_,?_⟩
  · rw [hk.running,hk.logs,hg]
    exact h.memory
  · rw [hk.running,hk.logs]
    exact h.fresh
  · rw [hg]
    rcases hk.disk with hd | ⟨hrun,hd⟩
    · exact hd.trans h.disk
    · exact hd.trans (h.memory hrun)

/-- A handler that gives a running node a new log writes it to the disk. -/
theorem set (logs : List LogEntry) (hrun : m.raft.running = true) (hl : m.raft.logs = logs)
    (hd : m.diskLog = logs) (hg : g.log i = logs) : NodeLog g i m :=
  ⟨fun _ => hl.trans hg.symm,fun hr => absurd (hrun.symm.trans hr) (by decide),hd.trans hg.symm⟩

theorem run (h : NodeLog g i n) (hrun : n.raft.running = false) (r : Readings) :
    NodeLog g i (n.run r) := by
  refine ⟨fun _ => ?_,fun hr => absurd hr (by simp [Node.run]),?_⟩
  · rw [← h.disk]
    cases hp : n.persist with
    | none => simpa only [Node.run,Node.load,Node.diskLog,hp] using h.fresh hrun
    | some record => simp only [Node.run,Node.load,Node.diskLog,hp]
  · rw [← h.disk]
    unfold Node.diskLog
    rw [Node.run_persist]

theorem boot (h : NodeLog g i n) (cfg : Config) (life : Nat) :
    NodeLog g i (Server.boot cfg i n.persist life).node :=
  ⟨fun hr => absurd hr Bool.false_ne_true,fun _ => rfl,h.disk⟩

end NodeLog

end SRaftMuduo
