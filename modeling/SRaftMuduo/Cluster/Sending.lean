import SRaftMuduo.Cluster.Ballots
import SRaftMuduo.Cluster.Contiguity
import SRaftMuduo.Raft.Consistency

namespace SRaftMuduo
namespace SRaft

/-- The state in which `DoLog` starts its calls to the peers. -/
def logged (cmd : CString) (s : SRaft) : SRaft := {s with logs := s.logs++[Node.newEntry cmd s]}

/-- A request with the log from the entry after the previous one on, `entry` among it, and
with a previous entry that the log has, or the index `-1`. -/
structure SendsHeld (s : SRaft) (entry : LogEntry) (request : AppendEntriesRequest) :
    Prop where
  nonempty : request.entries ≠ []
  entries : request.entries = s.logs.filter (fun e => request.prevLogIndex < e.index)
  logged : entry ∈ request.entries
  prev : request.prevLogIndex = -1 ∨ s.holdsPrev request

/-- `nextIndex_` lies past the first entry of the log and at most one past its last, or it
is zero and so is the first index. -/
def nextInLog (s : SRaft) (peer : SRaftPeer) : Prop :=
  peer.nextIndex = 0 ∧ s.baseLogIndex ≤ 0 ∨
    s.baseLogIndex < peer.nextIndex ∧ peer.nextIndex ≤ s.lastLogIndex+1

section Request

variable {s : SRaft} {base : Int} {peer : SRaftPeer}

theorem appendRequest_prevLogIndex (s : SRaft) (peer : SRaftPeer) :
    (s.appendRequest false peer).prevLogIndex = peer.nextIndex-1 := rfl

theorem appendRequest_entries (s : SRaft) (peer : SRaftPeer) :
    (s.appendRequest false peer).entries = s.entriesFrom peer.nextIndex := rfl

/-- Below the first index the loop copies default entries, which no log holds. -/
theorem entriesFrom_below (hb : 0 ≤ base) (h : ContiguousFrom base s.logs) {nextIndex : Int}
    (h0 : 0 ≤ nextIndex) (hlt : nextIndex < base) (hn : s.logs ≠ []) :
    LogEntry.empty ∈ s.entriesFrom nextIndex := by
  have hlen := h.length_le hn
  have hpos : 0 < s.logs.length := List.length_pos_iff.mpr hn
  have hmiss : s.getLogByIndex (toU64 nextIndex) = LogEntry.empty := by
    refine getLogByIndex_absent ⟨base,hb,h⟩ h0 (by omega) (fun e he => ?_)
    obtain ⟨k,hk⟩ := List.mem_iff_getElem?.mp he
    have := (h k e hk).1
    omega
  refine List.mem_map.mpr ⟨toU64 nextIndex,?_,hmiss⟩
  rw [max_eq_right h0,List.mem_range'_1,lastLogIndex_eq h hn,toU64_of_nonneg h0 (by omega),
    toU64_of_nonneg (by omega) (by omega)]
  omega

theorem empty_not_mem (h : ContiguousFrom base s.logs) : LogEntry.empty ∉ s.logs := by
  intro he
  obtain ⟨k,hk⟩ := List.mem_iff_getElem?.mp he
  exact absurd (h k _ hk).2.2 (by decide)

/-- The previous index of a request that starts past the first entry is that of an entry,
and its term is found there. -/
theorem appendRequest_holdsPrev (hb : 0 ≤ base) (h : ContiguousFrom base s.logs)
    (hlt : base < peer.nextIndex) (hle : peer.nextIndex ≤ base+s.logs.length) :
    s.holdsPrev (s.appendRequest false peer) := by
  have hin : (peer.nextIndex-1-base).toNat < s.logs.length := by omega
  have hentry := List.getElem?_eq_getElem hin
  obtain ⟨hidx,-,-⟩ := h _ _ hentry
  have hi : (s.logs[(peer.nextIndex-1-base).toNat]).index = peer.nextIndex-1 := by omega
  have hmem := List.mem_of_getElem? hentry
  have hget := getLogByIndex_mem ⟨base,hb,h⟩ hmem
  rw [hi] at hget
  refine ⟨_,hmem,hi,?_⟩
  simp only [appendRequest,Bool.false_eq_true,if_false,hget]
  rw [if_pos (by omega)]

/-- A request that starts in the log has what the log has above the previous index. -/
theorem appendRequest_filter (hb : 0 ≤ base) (h : ContiguousFrom base s.logs) (hn : s.logs ≠ [])
    (h0 : base ≤ peer.nextIndex) (h1 : peer.nextIndex ≤ 2^63) :
    (s.appendRequest false peer).entries =
      s.logs.filter (fun e => (s.appendRequest false peer).prevLogIndex < e.index) := by
  rw [appendRequest_entries,entriesFrom_drop hb h hn h0 h1,appendRequest_prevLogIndex,h.above]
  congr 2
  omega

/-- On a log that ends with the new entry the request is what it should be exactly when
`nextIndex_` is in the log. -/
theorem appendRequest_held (hb : 0 ≤ base) (h : ContiguousFrom base s.logs)
    {logs : List LogEntry} {entry : LogEntry} (hl : s.logs = logs++[entry])
    (h0 : 0 ≤ peer.nextIndex) (h1 : peer.nextIndex ≤ 2^63) :
    s.SendsHeld entry (s.appendRequest false peer) ↔
      peer.nextIndex = 0 ∧ base = 0 ∨
        base < peer.nextIndex ∧ peer.nextIndex < base+s.logs.length := by
  have hn : s.logs ≠ [] := by simp [hl]
  constructor
  · rintro ⟨hne,hentries,-,hprev⟩
    rw [appendRequest_entries] at hne hentries
    have hbase : base ≤ peer.nextIndex := by
      by_contra hlt
      have hmem := entriesFrom_below hb h h0 (by omega) hn
      rw [hentries] at hmem
      exact empty_not_mem h (List.mem_of_mem_filter hmem)
    rw [entriesFrom_drop hb h hn hbase h1] at hne
    have hlt : (peer.nextIndex-base).toNat < s.logs.length := by
      by_contra hge
      exact hne (List.drop_eq_nil_of_le (by omega))
    rcases hprev with hprev | ⟨e,he,hidx,-⟩
    · rw [appendRequest_prevLogIndex] at hprev
      exact .inl ⟨by omega,by omega⟩
    · obtain ⟨k,hk⟩ := List.mem_iff_getElem?.mp he
      have := (h k e hk).1
      rw [appendRequest_prevLogIndex] at hidx
      exact .inr ⟨by omega,by omega⟩
  · intro hnext
    have hpos : 0 < s.logs.length := List.length_pos_iff.mpr hn
    have hbase : base ≤ peer.nextIndex := by omega
    have hdrop : (peer.nextIndex-base).toNat ≤ logs.length := by
      rw [hl,List.length_append,List.length_singleton] at hnext
      omega
    have hentries : (s.appendRequest false peer).entries =
        s.logs.drop (peer.nextIndex-base).toNat := entriesFrom_drop hb h hn hbase h1
    have hmem : entry ∈ (s.appendRequest false peer).entries := by
      rw [hentries,hl,List.drop_append_of_le_length hdrop]
      simp
    refine ⟨List.ne_nil_of_mem hmem,appendRequest_filter hb h hn hbase h1,hmem,?_⟩
    rcases hnext with ⟨hz,-⟩ | ⟨hlt,hle⟩
    · left
      rw [appendRequest_prevLogIndex]
      omega
    · exact .inr (appendRequest_holdsPrev hb h hlt (by omega))

end Request

/-- The same in terms of the log before the new entry. -/
theorem logged_held {s : SRaft} {peer : SRaftPeer} {cmd : CString} (h : Contiguous s.logs)
    (hmax : s.lastLogIndex+1 < 2^63) (h0 : 0 ≤ peer.nextIndex) (h1 : peer.nextIndex ≤ 2^63) :
    (s.logged cmd).SendsHeld (Node.newEntry cmd s) ((s.logged cmd).appendRequest false peer) ↔
      s.nextInLog peer := by
  obtain ⟨base,hb,hc⟩ := Tidy.newEntry cmd h hmax
  have hlen : (s.logged cmd).logs.length = s.logs.length+1 := by simp [logged]
  rw [appendRequest_held (s := s.logged cmd) hb hc rfl h0 h1,hlen,nextInLog]
  by_cases hn : s.logs = []
  · have hbase : base = 0 := by
      have hfirst := (hc 0 (Node.newEntry cmd s) (by rw [hn]; rfl)).1
      simp only [Node.newEntry,lastLogIndex_nil hn] at hfirst
      omega
    have hlow : s.baseLogIndex = -1 := by rw [baseLogIndex,hn]
    rw [hlow,lastLogIndex_nil hn,hn,hbase]
    constructor
    · rintro (⟨hz,-⟩ | ⟨hlt,hle⟩)
      · exact .inl ⟨hz,by omega⟩
      · simp only [List.length_nil] at hle
        omega
    · intro hnext
      exact .inl ⟨by omega,rfl⟩
  · have hold : ContiguousFrom base s.logs := by
      have := hc.take s.logs.length
      rwa [List.take_left] at this
    have hpos : 0 < s.logs.length := List.length_pos_iff.mpr hn
    rw [baseLogIndex_eq hold hn,lastLogIndex_eq hold hn]
    push_cast
    omega

end SRaft

namespace Node

/-- The calls `DoLog` starts. -/
theorem doLog_calls (cmd : CString) (n : Node) : (n.doLog cmd).1.calls = n.calls++
    if n.raft.running = true ∧ n.raft.state = .leader ∧ n.raft.lastLogIndex+1 < 2^63 then
      (callPeers (fun peer => .appendEntries peer.name
        ((n.raft.logged cmd).appendRequest false peer) false) n.raft.peers).1
    else [] := by
  unfold doLog
  by_cases hr : n.raft.running = true
  swap
  · rw [if_pos (by simpa using hr),if_neg (fun h => hr h.1),List.append_nil]
  rw [if_neg (by simp [hr])]
  by_cases hs : n.raft.state = .leader
  swap
  · rw [if_pos hs,if_neg (fun h => hs h.2.1),List.append_nil]
  rw [if_neg (not_not.mpr hs)]
  by_cases hm : n.raft.lastLogIndex+1 < 2^63
  · have hsend : n.raft.running = true ∧ n.raft.state = .leader ∧
        n.raft.lastLogIndex+1 < 2^63 := ⟨hr,hs,hm⟩
    rw [if_neg (by omega),if_pos hsend]
    exact doAppendEntries_calls _ _
  · rw [if_pos (by omega),if_neg (fun h => hm h.2.2),List.append_nil]
    rfl

end Node

namespace Cluster

/-- In every reachable state the calls of `DoLog` on a leader go to all peers, unless there is
a null pointer in `peers_`, and the request in one of them is built from held entries exactly
when the next index of the peer is in the log. -/
theorem doLog_sends_held_iff (cfg : Config) (c : Cluster) (i cmd : CString)
    (h : (machine cfg).Path Machine.always (.initial cfg) c) :
    ((c.raft i).running = true → (c.raft i).state = .leader →
      (c.raft i).lastLogIndex+1 < 2^63 → (c.raft i).anyNullPeer = false →
      ((c.servers i).node.doLog cmd).1.calls.map Call.peer = cfg.peersOf i) ∧
    ∀ call ∈ ((c.servers i).node.doLog cmd).1.calls,
      ∃ peer, (peer.name,some peer) ∈ (c.raft i).peers ∧
        ∃ request, call = .appendEntries peer.name request false ∧
          (((c.raft i).logged cmd).SendsHeld (Node.newEntry cmd (c.raft i)) request ↔
            (c.raft i).nextInLog peer) := by
  have hidle : (c.servers i).node.calls = [] :=
    (h.invariant (fun _ _ _ hi _ hs => Callers.step hi hs) (Callers.initial cfg)).idle i
  have hwired := ((wired_invariant cfg).reachable h).1 i
  have htidy := ((tidy_invariant cfg).reachable h).1 i
  obtain ⟨real,hnames,hreal,hcalls⟩ := hwired.peers.callPeers (fun peer =>
    .appendEntries peer.name (((c.raft i).logged cmd).appendRequest false peer) false)
  rw [Node.doLog_calls,hidle,List.nil_append]
  split_ifs with hon
  · refine ⟨fun _ _ _ _ => ?_,fun call hcall => ?_⟩
    · have hpeers := congrArg (List.map Call.peer) hcalls
      rw [List.map_map] at hpeers
      exact hpeers.trans hnames
    · obtain ⟨peer,hpeer,rfl⟩ := List.mem_map.mp (hcalls ▸ hcall)
      obtain ⟨h0,h1⟩ := htidy.peers _ _ (hreal peer hpeer)
      exact ⟨peer,hreal peer hpeer,_,rfl,SRaft.logged_held htidy.logs hon.2.2 h0 h1⟩
  · exact ⟨fun hr hs hm _ => absurd ⟨hr,hs,hm⟩ hon,fun call hcall => absurd hcall List.not_mem_nil⟩

/-- The first command of a leader, whose peer still has the next index zero. -/
theorem doLog_sends_held_first : ∃ c : Cluster, (c.raft ['a']).state = .leader ∧
    ∀ call ∈ ((c.servers ['a']).node.doLog ['x']).1.calls,
      ∃ peer, (peer.name,some peer) ∈ (c.raft ['a']).peers ∧
        ∃ request, call = .appendEntries peer.name request false ∧
          (((c.raft ['a']).logged ['x']).SendsHeld (Node.newEntry ['x'] (c.raft ['a'])) request ↔
            (c.raft ['a']).nextInLog peer) := by
  obtain ⟨c,hp,hs⟩ := Machine.exec_any (machine .two) Machine.always (.initial .two)
    [.run ['a'] (.now 0),.run ['b'] (.now 0),.timer ['a'] (.now 451),.deliver 0 (.now 451),
      .respond 0]
    (fun c => (c.raft ['a']).state = .leader) (by decide +kernel)
  exact ⟨c,of_decide_eq_true hs,(doLog_sends_held_iff .two c ['a'] ['x'] hp).2⟩

/-- A follower with a longer log has refused the first entry of a new leader and reported its
own last index: the next command goes out in a request without entries. -/
theorem doLog_sends_nothing : ∃ c : Cluster,
    (machine .two).Path Machine.always (.initial .two) c ∧ (c.raft ['b']).state = .leader ∧
    ∃ request, ((c.servers ['b']).node.doLog ['z']).1.calls =
        [.appendEntries ['a'] request false] ∧ request.entries = [] ∧
      ¬((c.raft ['b']).logged ['z']).SendsHeld (Node.newEntry ['z'] (c.raft ['b'])) request := by
  obtain ⟨c,hp,hc⟩ := Machine.exec_any (machine .two) Machine.always (.initial .two)
    [.run ['a'] (.now 0),.run ['b'] (.now 0),.timer ['a'] (.now 451),.deliver 0 (.now 451),
      .respond 0,.doLog ['a'] ['x'],.doLog ['a'] ['w'],.timer ['b'] (.now 451),
      .deliver 2 (.now 451),.respond 2,.doLog ['b'] ['y'],.deliver 2 (.now 451),.respond 2]
    (fun c => (c.raft ['b']).state = .leader ∧
      ((c.servers ['b']).node.doLog ['z']).1.calls =
        [.appendEntries ['a'] ⟨['b'],2,1,2,-1,[],0⟩ false]) (by decide +kernel)
  obtain ⟨hs,hcalls⟩ := of_decide_eq_true hc
  exact ⟨c,hp,hs,_,hcalls,rfl,fun h => h.nonempty rfl⟩

end Cluster
end SRaftMuduo
