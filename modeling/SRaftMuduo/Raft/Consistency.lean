import SRaftMuduo.Raft.Durable
import SRaftMuduo.Raft.Lookup

namespace SRaftMuduo

/-- The values of an `int64_t`. -/
def InI64 (x : Int) : Prop := -2^63 ≤ x ∧ x < 2^63

instance (x : Int) : Decidable (InI64 x) := inferInstanceAs (Decidable (_ ∧ _))

namespace SRaft

/-- The log has the entry that those of the request are to follow. -/
def holdsPrev (s : SRaft) (request : AppendEntriesRequest) : Prop :=
  ∃ e ∈ s.logs, e.index = request.prevLogIndex ∧ e.term = request.prevLogTerm

instance (s : SRaft) (request : AppendEntriesRequest) : Decidable (s.holdsPrev request) :=
  inferInstanceAs (Decidable (∃ e ∈ s.logs,
    e.index = request.prevLogIndex ∧ e.term = request.prevLogTerm))

/-- `kept` is the log up to and including that entry, and empty for the index `-1`. -/
def UpToPrev (s : SRaft) (request : AppendEntriesRequest) (kept : List LogEntry) : Prop :=
  (request.prevLogIndex = -1 → kept = []) ∧ (request.prevLogIndex ≠ -1 →
    ∃ i e, s.logs[i]? = some e ∧ e.index = request.prevLogIndex ∧
      e.term = request.prevLogTerm ∧ kept = s.logs.take (i+1))

/-- When the comparison with `BaseLogIndex()` and the search of `FindLog` come to what the
check is for. -/
def comparesPrev (s : SRaft) (request : AppendEntriesRequest) : Prop :=
  if s.baseLogIndex ≤ request.prevLogIndex then
    request.prevLogIndex = -1 ↔
      s.findLog request.prevLogTerm (toU64 request.prevLogIndex) = 2^64-1
  else request.prevLogIndex ≠ -1 ∧ ¬s.holdsPrev request

instance (s : SRaft) (request : AppendEntriesRequest) : Decidable (s.comparesPrev request) := by
  unfold comparesPrev
  infer_instance

theorem findLogFrom_none {logs : List LogEntry} {term index n i : Nat} {e : LogEntry}
    (h : findLogFrom logs term index n = none) (hi : i < n) (he : logs[i]? = some e) :
    ¬(e.term = term ∧ toU64 e.index = index) := by
  induction n with
  | zero => omega
  | succ n ih =>
    rw [findLogFrom] at h
    by_cases hin : i = n
    · -- the turn that looks at this entry
      rw [← hin,he] at h
      dsimp only at h
      split_ifs at h with hm
      exact hm
    · have hlt : i < n := by omega
      split at h
      · split_ifs at h
        exact ih h hlt
      · exact ih h hlt

/-- The loop starts at the last entry, when the size of the log is in the range of `int`. -/
theorem findTurns_eq {s : SRaft} (h : s.logs.length ≤ 2^31) : s.findTurns = s.logs.length := by
  unfold findTurns toI32 u64
  split_ifs <;> omega

/-- In such a log `FindLog` misses no entry. -/
theorem findLog_none {s : SRaft} {request : AppendEntriesRequest} (h : s.logs.length ≤ 2^31)
    (hf : s.findLog request.prevLogTerm (toU64 request.prevLogIndex) = 2^64-1) :
    ¬s.holdsPrev request := by
  rintro ⟨e,he,hidx,hterm⟩
  obtain ⟨i,hi⟩ := List.mem_iff_getElem?.mp he
  have hlt : i < s.findTurns := by
    rw [findTurns_eq h]
    exact (List.getElem?_eq_some_iff.mp hi).1
  rw [findLog] at hf
  cases hfrom : findLogFrom s.logs request.prevLogTerm (toU64 request.prevLogIndex)
      s.findTurns with
  | none => exact findLogFrom_none hfrom hlt hi ⟨hterm,by rw [hidx]⟩
  | some j =>
    rw [hfrom,Option.getD_some] at hf
    have hj := (findLogFrom_some hfrom).1
    have hmax := s.findTurns_le
    omega

/-- On a log as the cluster has it: an empty log has no entry to check and must get the
index `-1`, any other must not, and must not lack an entry at or above its first. -/
theorem comparesPrev_iff {s : SRaft} {request : AppendEntriesRequest} {base : Int}
    (hbase : 0 ≤ base) (hlog : ContiguousFrom base s.logs) (hlen : s.logs.length ≤ 2^31)
    (hprev : InI64 request.prevLogIndex) : s.comparesPrev request ↔
      if s.logs = [] then request.prevLogIndex ≤ -1
      else request.prevLogIndex ≠ -1 ∧
        (request.prevLogIndex < base ∨ s.holdsPrev request) := by
  have hholds : s.findLog request.prevLogTerm (toU64 request.prevLogIndex) ≠ 2^64-1 →
      s.holdsPrev request := by
    intro hf
    rcases s.findLog_cases request.prevLogTerm (toU64 request.prevLogIndex) with
      h | ⟨i,e,-,-,hi,ht,hx⟩
    · exact absurd h hf
    · have hidx := hlog i e hi
      exact ⟨e,List.mem_of_getElem? hi,
        toU64_inj (by omega) hidx.2.1 hprev.1 hprev.2 hx,ht⟩
  unfold comparesPrev
  by_cases hn : s.logs = []
  · have hb : s.baseLogIndex = -1 := by rw [baseLogIndex,hn]
    have hno : ¬s.holdsPrev request := by
      rintro ⟨e,he,-⟩
      rw [hn] at he
      exact absurd he List.not_mem_nil
    have hf : s.findLog request.prevLogTerm (toU64 request.prevLogIndex) = 2^64-1 := by
      by_contra hf
      exact hno (hholds hf)
    rw [if_pos hn,hb]
    split_ifs with hle
    · constructor
      · intro h
        exact (h.mpr hf).le
      · intro h
        exact ⟨fun _ => hf,fun _ => by omega⟩
    · constructor
      · intro _
        omega
      · intro _
        exact ⟨by omega,hno⟩
  · rw [if_neg hn,baseLogIndex_eq hlog hn]
    split_ifs with hle
    · have hne : request.prevLogIndex ≠ -1 := by omega
      constructor
      · intro h
        exact ⟨hne,.inr (hholds (fun hf => hne (h.mpr hf)))⟩
      · rintro ⟨-,hlt | hin⟩
        · omega
        · exact ⟨fun h => absurd h hne,fun hf => absurd hin (findLog_none hlen hf)⟩
    · constructor
      · rintro ⟨hne,-⟩
        exact ⟨hne,.inl (by omega)⟩
      · rintro ⟨hne,-⟩
        refine ⟨hne,?_⟩
        rintro ⟨e,he,hidx,-⟩
        obtain ⟨i,hi⟩ := List.mem_iff_getElem?.mp he
        have := (hlog i e hi).1
        omega

end SRaft

namespace Node

/-- The consistency check on entries: success exactly when they follow an entry of the log
or are its first, the log then cut behind that entry and continued with them, and no
change without success. -/
structure ChecksPrev (request : AppendEntriesRequest) (n m : Node)
    (response : AppendEntriesResponse) : Prop where
  success : response.success = true ↔
    request.prevLogIndex = -1 ∨ n.raft.holdsPrev request
  taken : response.success = true →
    ∃ kept, n.raft.UpToPrev request kept ∧ m.raft.logs = kept++request.entries
  refused : response.success = false → m.raft.logs = n.raft.logs

variable {n : Node} {request : AppendEntriesRequest}

/-- A request whose entries are taken. -/
theorem checksPrev_taken {m : Node} {response : AppendEntriesResponse}
    (hlog : ∀ e ∈ n.raft.logs, InI64 e.index) (hprev : InI64 request.prevLogIndex)
    (hs : response.success = true) (hm : m.raft.logs = splice n.raft request) :
    ChecksPrev request n m response ↔ (request.prevLogIndex = -1 ↔
      n.raft.findLog request.prevLogTerm (toU64 request.prevLogIndex) = 2^64-1) := by
  have hnever : response.success = false → m.raft.logs = n.raft.logs :=
    fun hfalse => absurd (hs.symm.trans hfalse) (by decide)
  rcases n.raft.findLog_cases request.prevLogTerm (toU64 request.prevLogIndex) with
    hf | ⟨i,e,hf,hlt,hi,ht,hx⟩
  · rw [splice_none hf] at hm
    constructor
    · intro h
      refine ⟨fun _ => hf,fun _ => ?_⟩
      by_contra hne
      obtain ⟨kept,hkept,hlogs⟩ := h.taken hs
      obtain ⟨i,e,hi,-,-,hk⟩ := hkept.2 hne
      -- an entry before those of the request would have been kept
      have hnil : kept = [] := by
        rw [hm] at hlogs
        exact List.self_eq_append_left.mp hlogs
      have hpos := (List.getElem?_eq_some_iff.mp hi).1
      have hlen := congrArg List.length (hk.symm.trans hnil)
      rw [List.length_take,List.length_nil] at hlen
      omega
    · intro h
      have hone := h.mpr hf
      exact ⟨⟨fun _ => .inl hone,fun _ => hs⟩,
        fun _ => ⟨[],⟨fun _ => rfl,fun hne => absurd hone hne⟩,hm⟩,hnever⟩
  · rw [splice_some hf hlt] at hm
    have hmem := hlog e (List.mem_of_getElem? hi)
    have hidx : e.index = request.prevLogIndex :=
      toU64_inj hmem.1 hmem.2 hprev.1 hprev.2 hx
    have hbound := (List.getElem?_eq_some_iff.mp hi).1
    constructor
    · intro h
      refine ⟨fun hone => ?_,fun hnone => by omega⟩
      obtain ⟨kept,hkept,hlogs⟩ := h.taken hs
      rw [hm,hkept.1 hone] at hlogs
      have hlen := congrArg List.length (List.append_cancel_right hlogs)
      rw [List.length_take,List.length_nil] at hlen
      omega
    · intro h
      have hne : request.prevLogIndex ≠ -1 := by
        intro hone
        have := h.mp hone
        omega
      exact ⟨⟨fun _ => .inr ⟨e,List.mem_of_getElem? hi,hidx,ht⟩,fun _ => hs⟩,
        fun _ => ⟨_,⟨fun hone => absurd hone hne,fun _ => ⟨i,e,hi,hidx,ht,rfl⟩⟩,hm⟩,hnever⟩

/-- The handler checks what it should exactly when its comparison and its search come to
that. -/
theorem consistency_check_iff (r : Readings) (hrun : n.raft.running = true)
    (hterm : n.raft.currentTerm ≤ request.term) (hne : request.entries ≠ [])
    (hlog : ∀ e ∈ n.raft.logs, InI64 e.index) (hprev : InI64 request.prevLogIndex) :
    ChecksPrev request n (n.onAppendEntriesRequest request r).1
      (n.onAppendEntriesRequest request r).2 ↔ n.raft.comparesPrev request := by
  unfold SRaft.comparesPrev
  rcases onAppendEntriesRequest_cases request r n with
    ⟨hold,-⟩ | ⟨-,-,hnil,-⟩ | ⟨-,-,-,hbase,logs,hlogs,he⟩ | ⟨-,-,-,hbase,he⟩
  · have := hold hrun
    omega
  · exact absurd hnil hne
  · rw [if_pos hbase,he]
    exact checksPrev_taken hlog hprev rfl hlogs
  · rw [if_neg (by omega),he]
    constructor
    · intro h
      have hno := fun hprev => Bool.false_ne_true (h.success.mpr hprev)
      exact ⟨fun hone => hno (.inl hone),fun hin => hno (.inr hin)⟩
    · rintro ⟨hone,hin⟩
      refine ⟨⟨fun hs => absurd hs Bool.false_ne_true,?_⟩,
        fun hs => absurd hs Bool.false_ne_true,fun _ => rfl⟩
      rintro (h | h)
      · exact absurd h hone
      · exact absurd h hin

/-- One entry, and a request that continues it. -/
theorem consistency_check_follows : ∃ (n : Node) (request : AppendEntriesRequest) (r : Readings),
    n.raft.logs.length = 1 ∧
    (ChecksPrev request n (n.onAppendEntriesRequest request r).1
      (n.onAppendEntriesRequest request r).2 ↔ n.raft.comparesPrev request) ∧
    n.raft.comparesPrev request := by
  let n : Node := (((create ['a'] [['b']] none none).run (.now 0)).onAppendEntriesRequest
    ⟨['b'],1,-1,0,-1,[⟨0,1,0,['x'],true⟩],0⟩ (.now 0)).1
  refine ⟨n,⟨['b'],1,0,1,-1,[⟨1,1,0,['y'],true⟩],0⟩,(.now 0),by decide +kernel,?_,
    by decide +kernel⟩
  exact consistency_check_iff _ (by decide +kernel) (by decide +kernel) (by decide)
    (by decide +kernel) (by decide +kernel)

/-- An entry of term one at index `0`, and entries that are to follow one of term two there:
`FindLog` does not find it, the log is dropped, and the answer is a success. -/
theorem consistency_check_erases : ∃ (start n : Node) (request : AppendEntriesRequest),
    (handlers ['a'] [['b'],['c']] none).init start ∧
    (handlers ['a'] [['b'],['c']] none).Path Machine.always start n ∧
    n.raft.running = true ∧ n.raft.currentTerm ≤ request.term ∧ request.entries ≠ [] ∧
    ContiguousFrom (request.prevLogIndex+1) request.entries ∧
    ∀ r, (n.onAppendEntriesRequest request r).2.success = true ∧
      ¬ChecksPrev request n (n.onAppendEntriesRequest request r).1
        (n.onAppendEntriesRequest request r).2 := by
  let start := (create ['a'] [['b'],['c']] none none).run (.now 0)
  let request : AppendEntriesRequest := ⟨['c'],2,0,2,-1,[⟨1,2,0,['z'],true⟩],0⟩
  obtain ⟨n,hp,hn⟩ := (handlers ['a'] [['b'],['c']] none).exec_any Machine.always start
    [.appendRequest ⟨['b'],1,-1,0,-1,[⟨0,1,0,['x'],true⟩],0⟩ (.now 0)]
    (fun n => n.raft.running = true ∧ n.raft.currentTerm ≤ request.term ∧
      n.raft.logs = [⟨0,1,0,['x'],true⟩]) (by decide +kernel)
  obtain ⟨hrun,hterm,hlogs⟩ := of_decide_eq_true hn
  refine ⟨start,n,request,⟨none,.now 0,rfl⟩,hp,hrun,hterm,by decide,
    .singleton rfl (by decide) rfl,fun r => ?_⟩
  have hbase : n.raft.baseLogIndex = 0 := by rw [SRaft.baseLogIndex,hlogs]
  have hs := (success_iff request r n).mpr ⟨hrun,hterm,by decide,hbase.le⟩
  refine ⟨hs,fun h => ?_⟩
  rcases h.success.mp hs with hone | ⟨e,he,-,ht⟩
  · exact absurd hone (by decide)
  · rw [hlogs] at he
    obtain rfl := List.mem_singleton.mp he
    exact absurd ht (by decide)

end Node
end SRaftMuduo
