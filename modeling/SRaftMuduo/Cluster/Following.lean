import SRaftMuduo.Cluster.Client

namespace SRaftMuduo

open Node (Still Commits)

namespace Node

/-- The commands at or below `k` have been pushed. -/
def PushedUpTo (k : Int) (logs : List LogEntry) (pushes : List (Int × CString)) : Prop :=
  ∀ e ∈ logs, e.index ≤ k → e.data ≠ [] → (e.index,e.data) ∈ pushes

instance (k : Int) (logs : List LogEntry) (pushes : List (Int × CString)) :
    Decidable (PushedUpTo k logs pushes) :=
  inferInstanceAs (Decidable (∀ e ∈ logs, e.index ≤ k → e.data ≠ [] → (e.index,e.data) ∈ pushes))

/-- The node has committed up to `k`, and has pushed the commands up to there, each once and
in the order of the indices. -/
structure CommittedTo (k : Int) (n : Node) : Prop where
  commitIndex : n.raft.commitIndex = k
  pushed : PushedUpTo k n.raft.logs n.pushes
  ordered : n.pushes.Pairwise Below

/-- What the node keeps of its log in front of the entries of the request: nothing above the
previous one, and nothing at all when `FindLog` does not find that. -/
def kept (s : SRaft) (request : AppendEntriesRequest) : List LogEntry :=
  if s.findLog request.prevLogTerm (toU64 request.prevLogIndex) = 2^64-1 then []
  else s.logs.filter (fun e => toU64 e.index ≤ toU64 request.prevLogIndex)

/-- The log after the request: what is kept, and what was sent. -/
theorem mem_splice_iff {s : SRaft} (hs : Contiguous s.logs) (request : AppendEntriesRequest)
    (x : LogEntry) : x ∈ splice s request ↔ x ∈ kept s request ∨ x ∈ request.entries := by
  rcases s.findLog_cases request.prevLogTerm (toU64 request.prevLogIndex) with
    hnone | ⟨i,e,hfind,hi,he,-,hidx⟩
  · rw [splice_none hnone,kept,if_pos hnone]
    simp
  · have hne : s.findLog request.prevLogTerm (toU64 request.prevLogIndex) ≠ 2^64-1 := by
      rw [hfind]
      omega
    rw [splice_some hfind hi,kept,if_neg hne,List.mem_append,List.mem_filter]
    refine or_congr_left ?_
    obtain ⟨base,hb,hlogs⟩ := hs
    obtain ⟨hie,hlt,-⟩ := hlogs i e he
    rw [← hidx,toU64_of_nonneg (x := e.index) (by omega) (by omega)]
    constructor
    · intro hx
      obtain ⟨k,hk⟩ := List.mem_iff_getElem?.mp hx
      have hki := (List.getElem?_eq_some_iff.mp hk).1
      rw [List.length_take] at hki
      obtain ⟨hkx,hxlt,-⟩ := hlogs.take (i+1) k x hk
      refine ⟨List.mem_of_mem_take hx,?_⟩
      rw [toU64_of_nonneg (by omega) (by omega)]
      exact decide_eq_true (by omega)
    · rintro ⟨hx,hle⟩
      obtain ⟨k,hk⟩ := List.mem_iff_getElem?.mp hx
      obtain ⟨hkx,hxlt,-⟩ := hlogs k x hk
      rw [toU64_of_nonneg (by omega) (by omega)] at hle
      have hle := of_decide_eq_true hle
      refine List.mem_of_getElem? (i := k) ?_
      rw [List.getElem?_take,if_pos (by omega)]
      exact hk

/-- The commands of the log after the request have been pushed where those of the entries kept
and of those sent have been. -/
theorem pushedUpTo_splice_iff {s : SRaft} (hs : Contiguous s.logs)
    (request : AppendEntriesRequest) (k : Int) (pushes : List (Int × CString)) :
    PushedUpTo k (splice s request) pushes ↔
      PushedUpTo k (kept s request) pushes ∧ PushedUpTo k request.entries pushes := by
  constructor
  · intro h
    exact ⟨fun e he => h e ((mem_splice_iff hs request e).mpr (.inl he)),
      fun e he => h e ((mem_splice_iff hs request e).mpr (.inr he))⟩
  · rintro ⟨hkept,hsent⟩ e he
    rcases (mem_splice_iff hs request e).mp he with h | h
    · exact hkept e h
    · exact hsent e h

end Node

namespace Cluster

variable {cfg : Config} {c c' : Cluster} {i : CString}

/-- Whoever takes entries has committed what the sender had, as far as the entries go, only
where that was no more than it had committed itself: the handler does not read
`leader_commit`, and calls no `DoApply`. -/
theorem follower_commit_iff (hc : cfg.Symmetric)
    (h : (machine cfg).Path Machine.always (.initial cfg) c) {request : AppendEntriesRequest}
    {r : Readings} (hs : ((c.servers i).node.onAppendEntriesRequest request r).2.success = true) :
    ∀ e, request.entries.getLast? = some e →
      (Node.CommittedTo (max (c.raft i).commitIndex (min request.leaderCommit e.index))
          ((c.servers i).node.onAppendEntriesRequest request r).1 ↔
        min request.leaderCommit e.index ≤ (c.raft i).commitIndex ∧
          Node.PushedUpTo (c.raft i).commitIndex (Node.kept (c.raft i) request)
            (c.servers i).node.pushes ∧
          Node.PushedUpTo (c.raft i).commitIndex request.entries
            (c.servers i).node.pushes) := by
  intro e _
  have ht := (Node.success_iff request r _).mp hs
  have hlogs := Node.takes_logs ht r
  have hinv := PipeInv.reachable hc h
  have hpipe := hinv.piped i
  have hlog : Contiguous (c.raft i).logs := (hinv.tidy.1 i).logs
  rw [← Node.pushedUpTo_splice_iff hlog]
  obtain ⟨-,hpushes,-,-,hcommit⟩ := Node.onAppendEntriesRequest_still request r (c.servers i).node
  constructor
  · rintro ⟨hk,hpush,-⟩
    rw [hcommit] at hk
    have hle : min request.leaderCommit e.index ≤ (c.raft i).commitIndex := by
      unfold raft at hk ⊢
      omega
    rw [max_eq_left hle,hlogs,hpushes] at hpush
    exact ⟨hle,hpush⟩
  · rintro ⟨hle,hpush⟩
    rw [max_eq_left hle]
    refine ⟨hcommit,by rw [hlogs,hpushes]; exact hpush,?_⟩
    rw [hpushes,hpipe.pushes]
    exact hpipe.ordered.filter _

/-- `b` leads and commits `x`, then `a` leads and commits `y` and `z`, then `b` leads again. -/
def threeTerms : List Event :=
  [.run ['a'] (.now 0),.run ['b'] (.now 0),.timer ['b'] (.now 451),.deliver 0 (.now 451),
    .respond 0,.doLog ['b'] ['x'],.deliver 0 (.now 451),.respond 0,.timer ['a'] (.now 452),
    .deliver 0 (.now 452),.respond 0,.doLog ['a'] ['y'],.deliver 0 (.now 452),.respond 0,
    .doLog ['a'] ['z'],.deliver 0 (.now 452),.respond 0,.timer ['b'] (.now 453),
    .deliver 0 (.now 453),.respond 0,.doLog ['b'] ['w']]

/-- The request that then leaves `b`, which has committed no more than `x` itself. -/
def laterRequest : AppendEntriesRequest :=
  ⟨['b'],3,0,1,0,[⟨1,2,0,['y'],true⟩,⟨2,2,0,['z'],true⟩,⟨3,3,0,['w'],true⟩],0⟩

/-- A node that has led keeps what it has committed. -/
theorem follower_commit_first : ∃ c : Cluster, (c.raft ['a']).commitIndex = 2 ∧
    Node.CommittedTo 2
      ((c.servers ['a']).node.onAppendEntriesRequest laterRequest (.now 453)).1 := by
  obtain ⟨c,hp,hs⟩ := Machine.exec_any (machine .two) Machine.always (.initial .two) threeTerms
    (fun c => (c.raft ['a']).commitIndex = 2 ∧
      ((c.servers ['a']).node.onAppendEntriesRequest laterRequest (.now 453)).2.success = true ∧
      Node.PushedUpTo 2 (Node.kept (c.raft ['a']) laterRequest) (c.servers ['a']).node.pushes ∧
      Node.PushedUpTo 2 laterRequest.entries (c.servers ['a']).node.pushes)
    (by decide +kernel)
  obtain ⟨hci,hs,hkept,hsent⟩ := of_decide_eq_true hs
  have hiff := follower_commit_iff Config.two_symmetric hp hs ⟨3,3,0,['w'],true⟩ rfl
  rw [hci] at hiff
  exact ⟨c,hci,hiff.mpr ⟨by decide,hkept,hsent⟩⟩

/-- Up to the second command of a leader, which has committed the first. -/
def twoCommands : List Event :=
  [.run ['a'] (.now 0),.run ['b'] (.now 0),.timer ['a'] (.now 451),.deliver 0 (.now 451),
    .respond 0,.doLog ['a'] ['x'],.deliver 0 (.now 451),.respond 0,.doLog ['a'] ['y']]

/-- The request of the second command, which says that the first is committed. -/
def secondRequest : AppendEntriesRequest := ⟨['a'],1,0,1,0,[⟨1,1,0,['y'],true⟩],0⟩

def isSecondRequest : Rpc → Bool
  | .appendCall src dst _ request isHeartbeat =>
    (src,dst,request,isHeartbeat) = (['a'],['b'],secondRequest,false)
  | .voteCall .. => false
  | .voteReply .. => false
  | .appendReply .. => false

/-- The follower takes it, answers with `success`, and has still committed nothing. -/
theorem follower_commits_nothing : ∃ c : Cluster,
    (machine .two).Path Machine.always (.initial .two) c ∧ (c.raft ['b']).state = .follower ∧
    (∃ life, .appendCall ['a'] ['b'] life secondRequest false ∈ c.net) ∧
    ((c.servers ['b']).node.onAppendEntriesRequest secondRequest (.now 451)).2.success = true ∧
    ¬Node.CommittedTo (max (c.raft ['b']).commitIndex (min secondRequest.leaderCommit 1))
      ((c.servers ['b']).node.onAppendEntriesRequest secondRequest (.now 451)).1 := by
  obtain ⟨c,hp,hc⟩ := Machine.exec_any (machine .two) Machine.always (.initial .two)
    twoCommands
    (fun c => (c.raft ['b']).state = .follower ∧ (c.raft ['b']).commitIndex = -1 ∧
      ((c.servers ['b']).node.onAppendEntriesRequest secondRequest (.now 451)).2.success = true ∧
      c.net.any isSecondRequest = true) (by decide +kernel)
  obtain ⟨hstate,hci,hs,hnet⟩ := of_decide_eq_true hc
  refine ⟨c,hp,hstate,?_,hs,?_⟩
  · obtain ⟨rpc,hrpc,his⟩ := List.any_eq_true.mp hnet
    cases rpc with
    | appendCall src dst life request isHeartbeat =>
      cases of_decide_eq_true his
      exact ⟨life,hrpc⟩
    | voteCall => exact absurd his Bool.false_ne_true
    | voteReply => exact absurd his Bool.false_ne_true
    | appendReply => exact absurd his Bool.false_ne_true
  · rintro ⟨hk,-,-⟩
    have hstill := (Node.onAppendEntriesRequest_still secondRequest (.now 451)
      (c.servers ['b']).node).2.2.2.2
    rw [hstill] at hk
    unfold raft at hk hci
    rw [hci] at hk
    exact absurd hk (by decide)

/-- A step moves `commitIndex_` of a process that goes on only while it leads. -/
theorem commitIndex_kept {e : Event}
    (hs : (machine cfg).step c e = some c') (hl : (c.raft i).state ≠ .leader) :
    (c'.raft i).commitIndex = (c.raft i).commitIndex ∨ (c'.raft i).commitIndex = -1 := by
  rcases step_cases hs with
    ⟨j,n,net,-,hm,hmoved⟩ | ⟨k,rpc,-,-,rfl⟩ | ⟨j,-,rfl,rfl⟩ | ⟨-,hq⟩
  · by_cases hi : i = j
    swap
    · rw [raft,raft,hmoved.other i hi]
      exact .inl rfl
    subst hi
    have hstill : Still (c.servers i).node n →
        (c'.raft i).commitIndex = (c.raft i).commitIndex := by
      intro hstill
      rw [raft,hmoved.node]
      exact hstill.2.2.2.2
    left
    cases hm with
    | run r _ => exact hstill (Node.run_still r _)
    | timer r => exact hstill (Node.onTimer_still r _)
    | doLog cmd =>
      rcases Node.doLog_commits cmd (c.servers i).node with hs | ⟨-,hlead,-⟩
      · exact hstill hs
      · exact absurd hlead hl
    | putLog request _ =>
      rcases Node.doLog_commits request.command (c.servers i).node with hs | ⟨-,hlead,-⟩
      · exact hstill hs
      · exact absurd hlead hl
    | voteCall k r src life request response _ _ =>
      exact hstill (Node.onRequestVoteRequest_still request _)
    | appendCall k r src life request isHeartbeat _ _ =>
      exact hstill (Node.onAppendEntriesRequest_still request r _)
    | voteReply k dst request response _ =>
      exact hstill (Node.onRequestVoteResponse_still response _)
    | appendReply k dst request isHeartbeat response _ =>
      rcases Node.onAppendEntriesReponse_commits response isHeartbeat (c.servers i).node with
        hs | ⟨hlead,-⟩
      · exact hstill hs
      · exact absurd hlead hl
  · exact .inl rfl
  · by_cases hi : i = j
    · subst hi
      right
      simp [crashed,raft,Server.boot,Node.create,SRaft.create]
    · left
      simp [crashed,raft,hi]
  · left
    obtain ⟨hr,-⟩ := hq.node i
    rw [raft,raft,hr]

/-- The steps before which the node is not a leader. -/
def notLeading (i : CString) (c : Cluster) (_ : Event) : Prop := (c.raft i).state ≠ .leader

instance (i : CString) (c : Cluster) (e : Event) : Decidable (notLeading i c e) :=
  inferInstanceAs (Decidable (_ ≠ _))

/-- A replica that never leads executes nothing, however much it has taken. -/
theorem replica_applies_nothing (hc : cfg.Symmetric)
    (h : (machine cfg).Path (notLeading i) (.initial cfg) c) :
    (c.raft i).commitIndex = -1 ∧ (c.servers i).node.pushes = [] ∧
      (c.servers i).kvDB = Store.initial := by
  have hkept : (c.raft i).commitIndex = -1 :=
    h.invariant (I := fun c => (c.raft i).commitIndex = -1) (fun c e c' hi hl hs => by
      rcases commitIndex_kept hs hl with hk | hk
      · exact hk.trans hi
      · exact hk) rfl
  have hinv := PipeInv.reachable hc h
  have hpipe := hinv.piped i
  have happlied : (c.servers i).node.applied = [] := by
    have hlast : (c.servers i).node.raft.lastApplied = -1 := (hinv.synced i).applied.trans hkept
    have hlookups := hpipe.lookups
    rw [hlast] at hlookups
    simpa using hlookups
  have hpushes : (c.servers i).node.pushes = [] := by
    rw [hpipe.pushes,happlied]
    rfl
  obtain ⟨que,-,hpop⟩ := hpipe.queue
  rw [hpushes] at hpop
  have hpopped : (c.servers i).popped = [] := (List.append_eq_nil_iff.mp hpop).1
  refine ⟨hkept,hpushes,?_⟩
  rw [hpipe.kvDB,hpopped]
  rfl

end Cluster
end SRaftMuduo
