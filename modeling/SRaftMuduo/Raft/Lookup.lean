import SRaftMuduo.Raft.Node
import Mathlib.Data.List.Basic
import Mathlib.Data.Int.Order.Basic

namespace SRaftMuduo

/-- Indices go up by one from `base`, within `int64_t`, and every entry can be sent. -/
def ContiguousFrom (base : Int) (logs : List LogEntry) : Prop :=
  ∀ (k : Nat) (e : LogEntry), logs[k]? = some e →
    e.index = base+k ∧ e.index < 2^63 ∧ e.hasRequired = true

def Contiguous (logs : List LogEntry) : Prop := ∃ base, 0 ≤ base ∧ ContiguousFrom base logs

theorem pairwise_last {α : Type*} {R : α → α → Prop} {l : List α} {e x : α}
    (h : l.Pairwise R) (hl : l.getLast? = some e) (hx : x ∈ l) : x = e ∨ R x e := by
  obtain ⟨rest,rfl⟩ := List.getLast?_eq_some_iff.mp hl
  rcases List.mem_append.mp hx with hx | hx
  · exact .inr ((List.pairwise_append.mp h).2.2 x hx e (List.mem_singleton_self e))
  · exact .inl (List.mem_singleton.mp hx)

namespace ContiguousFrom

variable {base : Int} {logs more : List LogEntry}

theorem nil (base : Int) : ContiguousFrom base [] := by
  intro k e h
  exact absurd h (by simp)

theorem take (h : ContiguousFrom base logs) (i : Nat) : ContiguousFrom base (logs.take i) := by
  intro k e hk
  rw [List.getElem?_take] at hk
  split_ifs at hk
  exact h k e hk

theorem append (h : ContiguousFrom base logs)
    (hm : ContiguousFrom (base+logs.length) more) : ContiguousFrom base (logs++more) := by
  intro k e hk
  by_cases hl : k < logs.length
  · rw [List.getElem?_append_left hl] at hk
    exact h k e hk
  · rw [List.getElem?_append_right (by omega)] at hk
    obtain ⟨hi,hb,hr⟩ := hm _ e hk
    exact ⟨by omega,hb,hr⟩

theorem singleton {e : LogEntry} (hi : e.index = base) (hb : base < 2^63)
    (hr : e.hasRequired = true) : ContiguousFrom base [e] := by
  intro k x hk
  cases k with
  | zero =>
    obtain rfl : e = x := by simpa using hk
    exact ⟨by simpa using hi,by omega,hr⟩
  | succ k => exact absurd hk (by simp)

theorem ordered (h : ContiguousFrom base logs) :
    logs.Pairwise (fun x y => x.index < y.index) := by
  rw [List.pairwise_iff_getElem]
  intro i j hi hj hij
  have hx := (h i _ (List.getElem?_eq_getElem hi)).1
  have hy := (h j _ (List.getElem?_eq_getElem hj)).1
  omega

theorem tail {e : LogEntry} (h : ContiguousFrom base (e::logs)) :
    ContiguousFrom (base+1) logs := by
  intro k x hk
  obtain ⟨hi,hb,hr⟩ := h (k+1) x hk
  exact ⟨by omega,hb,hr⟩

/-- The entries above an index are those from a position on. -/
theorem above (h : ContiguousFrom base logs) (k : Int) :
    logs.filter (fun e => k < e.index) = logs.drop (k+1-base).toNat := by
  induction logs generalizing base with
  | nil => simp
  | cons e logs ih =>
    have he : e.index = base := by simpa using (h 0 e rfl).1
    have hrest := ih h.tail
    by_cases hk : k < base
    · have hz : (k+1-base).toNat = 0 := by omega
      have hz' : (k+1-(base+1)).toNat = 0 := by omega
      rw [hz',List.drop_zero] at hrest
      rw [List.filter_cons_of_pos (by simpa [he] using hk),hrest,hz,List.drop_zero]
    · have hs : (k+1-base).toNat = (k+1-(base+1)).toNat+1 := by omega
      rw [List.filter_cons_of_neg (by simpa [he] using hk),hrest,hs,List.drop_succ_cons]

theorem length_le (h : ContiguousFrom base logs) (hn : logs ≠ []) :
    base+logs.length ≤ 2^63 := by
  have hpos : 0 < logs.length := List.length_pos_iff.mpr hn
  have hlast := List.getElem?_eq_getElem (show logs.length-1 < logs.length by omega)
  have hi := h _ _ hlast
  omega

end ContiguousFrom

theorem Contiguous.length_le {logs : List LogEntry} (h : Contiguous logs) :
    logs.length ≤ 2^63 := by
  obtain ⟨base,hb,hc⟩ := h
  by_cases hn : logs = []
  · rw [hn]
    exact Nat.zero_le _
  · have := hc.length_le hn
    omega

namespace SRaft

variable {s : SRaft} {base : Int}

theorem lastLogIndex_nil (h : s.logs = []) : s.lastLogIndex = -1 := by
  rw [lastLogIndex,h]
  rfl

theorem baseLogIndex_eq (h : ContiguousFrom base s.logs) (hn : s.logs ≠ []) :
    s.baseLogIndex = base := by
  unfold baseLogIndex
  cases hl : s.logs with
  | nil => exact absurd hl hn
  | cons e es => simpa using (h 0 e (by rw [hl]; rfl)).1

theorem lastLogIndex_eq (h : ContiguousFrom base s.logs) (hn : s.logs ≠ []) :
    s.lastLogIndex = base+s.logs.length-1 := by
  have hpos : 0 < s.logs.length := List.length_pos_iff.mpr hn
  unfold lastLogIndex
  rw [List.getLast?_eq_getElem?]
  cases hl : s.logs[s.logs.length-1]? with
  | none =>
    rw [List.getElem?_eq_none_iff] at hl
    omega
  | some e =>
    have := (h _ e hl).1
    dsimp only
    omega

theorem lastLogIndex_length (h : ContiguousFrom 0 s.logs) :
    s.lastLogIndex = (s.logs.length : Int)-1 := by
  by_cases hn : s.logs = []
  · rw [lastLogIndex_nil hn,hn]
    rfl
  · rw [lastLogIndex_eq h hn]
    omega

theorem lastLogIndex_bounds (h : Contiguous s.logs) :
    -1 ≤ s.lastLogIndex ∧ s.lastLogIndex < 2^63 := by
  obtain ⟨base,hb,hc⟩ := h
  by_cases hn : s.logs = []
  · rw [lastLogIndex_nil hn]
    decide
  · have := hc.length_le hn
    rw [lastLogIndex_eq hc hn]
    omega

theorem getLogByIndex_mem (h : Contiguous s.logs) {e : LogEntry} (he : e ∈ s.logs) :
    s.getLogByIndex (toU64 e.index) = e := by
  obtain ⟨base,hb,hc⟩ := h
  have hn : s.logs ≠ [] := List.ne_nil_of_mem he
  obtain ⟨i,hi⟩ := List.mem_iff_getElem?.mp he
  obtain ⟨hidx,hlt,-⟩ := hc i e hi
  have hpos : u64 (toU64 e.index+(2^64-toU64 base)) = i := by
    rw [toU64_of_nonneg (by omega) (by omega),toU64_of_nonneg hb (by omega),u64]
    omega
  unfold getLogByIndex
  rw [baseLogIndex_eq hc hn]
  dsimp only
  rw [hpos,hi]
  rfl

/-- The loop of `DoAppendEntries` copies the rest of the log when it starts in it. -/
theorem entriesFrom_drop (hb : 0 ≤ base) (h : ContiguousFrom base s.logs) (hn : s.logs ≠ [])
    {nextIndex : Int} (h0 : base ≤ nextIndex) (h1 : nextIndex ≤ 2^63) :
    s.entriesFrom nextIndex = s.logs.drop (nextIndex-base).toNat := by
  have hpos : 0 < s.logs.length := List.length_pos_iff.mpr hn
  have hlen := h.length_le hn
  have hlast : toU64 s.lastLogIndex+1 = (base+s.logs.length).toNat := by
    rw [lastLogIndex_eq h hn,toU64_of_nonneg (by omega) (by omega)]
    omega
  have hi : toU64 (max 0 nextIndex) = nextIndex.toNat := by
    rw [toU64_of_nonneg (by omega) (by omega)]
    omega
  unfold entriesFrom
  dsimp only
  rw [hlast,hi]
  refine List.ext_getElem? (fun k => ?_)
  rw [List.getElem?_map,List.getElem?_drop]
  by_cases hk : (nextIndex-base).toNat+k < s.logs.length
  · have hentry := List.getElem?_eq_getElem hk
    obtain ⟨hidx,hlt,-⟩ := h _ _ hentry
    have hu : toU64 (s.logs[(nextIndex-base).toNat+k]).index = nextIndex.toNat+k := by
      rw [toU64_of_nonneg (by omega) (by omega)]
      omega
    have hget := getLogByIndex_mem ⟨base,hb,h⟩ (List.mem_of_getElem? hentry)
    rw [hu] at hget
    rw [List.getElem?_range' (by omega),Option.map_some,hentry,Nat.one_mul,hget]
  · rw [List.getElem?_eq_none (by rw [List.length_range']; omega),Option.map_none,
      List.getElem?_eq_none (by omega)]

/-- A lookup that finds an entry finds the one with the index asked for: a position that
wrapped below the base would lie past the end. -/
theorem getLogByIndex_cases (h : Contiguous s.logs) {j : Nat} (hj : j < 2^64) :
    s.getLogByIndex j = LogEntry.empty ∨
      ∃ e ∈ s.logs, e.index = j ∧ s.getLogByIndex j = e := by
  unfold getLogByIndex
  dsimp only
  cases hl : s.logs[u64 (j+(2^64-toU64 s.baseLogIndex))]? with
  | none => exact .inl rfl
  | some e =>
    obtain ⟨base,hb,hc⟩ := h
    have hmem := List.mem_of_getElem? hl
    have hn := List.ne_nil_of_mem hmem
    have hlen := hc.length_le hn
    have hpos : 0 < s.logs.length := List.length_pos_iff.mpr hn
    have hin := (List.getElem?_eq_some_iff.mp hl).1
    have hidx := (hc _ _ hl).1
    rw [baseLogIndex_eq hc hn,toU64_of_nonneg hb (by omega),u64] at hin hidx
    exact .inr ⟨e,hmem,by omega,rfl⟩

theorem getLogByIndex_absent (h : Contiguous s.logs) {k : Int} (h0 : 0 ≤ k) (hk : k < 2^63)
    (he : ∀ e ∈ s.logs, e.index ≠ k) : s.getLogByIndex (toU64 k) = LogEntry.empty := by
  rcases getLogByIndex_cases h (toU64_lt k) with hg | ⟨e,hmem,hidx,-⟩
  · exact hg
  · rw [toU64_of_nonneg h0 (by omega)] at hidx
    exact absurd (by omega) (he e hmem)

theorem findLogFrom_some {logs : List LogEntry} {term index n i : Nat}
    (h : findLogFrom logs term index n = some i) :
    i < n ∧ ∃ e, logs[i]? = some e ∧ e.term = term ∧ toU64 e.index = index := by
  induction n with
  | zero => exact absurd h (by simp [findLogFrom])
  | succ n ih =>
    rw [findLogFrom] at h
    have hrec : findLogFrom logs term index n = some i →
        i < n+1 ∧ ∃ e, logs[i]? = some e ∧ e.term = term ∧ toU64 e.index = index := by
      intro hr
      obtain ⟨hlt,he⟩ := ih hr
      exact ⟨by omega,he⟩
    split at h
    · next e hl =>
      split_ifs at h with hm
      · obtain rfl := Option.some.inj h
        exact ⟨by omega,e,hl,hm⟩
      · exact hrec h
    · exact hrec h

theorem findTurns_le (s : SRaft) : s.findTurns ≤ 2^31 := toI32_le _

/-- `FindLog` returns the wrapped `-1` or the position of an entry that matches. -/
theorem findLog_cases (s : SRaft) (term index : Nat) :
    s.findLog term index = 2^64-1 ∨
    ∃ i e, s.findLog term index = i ∧ i < 2^31 ∧ s.logs[i]? = some e ∧ e.term = term ∧
      toU64 e.index = index := by
  rw [findLog]
  cases h : findLogFrom s.logs term index s.findTurns with
  | none => exact .inl (Option.getD_none)
  | some i =>
    obtain ⟨hlt,e,he,hm⟩ := findLogFrom_some h
    exact .inr ⟨i,e,Option.getD_some,Nat.lt_of_lt_of_le hlt s.findTurns_le,he,hm⟩
end SRaft

theorem Node.splice_none {s : SRaft} {request : AppendEntriesRequest}
    (h : s.findLog request.prevLogTerm (toU64 request.prevLogIndex) = 2^64-1) :
    Node.splice s request = request.entries := by
  have hz : u64 (s.findLog request.prevLogTerm (toU64 request.prevLogIndex)+1) = 0 := by
    rw [h,u64_wrap]
  simp only [Node.splice,hz,List.take_zero,List.nil_append]

theorem Node.splice_some {s : SRaft} {request : AppendEntriesRequest} {i : Nat}
    (h : s.findLog request.prevLogTerm (toU64 request.prevLogIndex) = i) (hi : i < 2^31) :
    Node.splice s request = s.logs.take (i+1)++request.entries := by
  have hs : u64 (i+1) = i+1 := u64_of_lt (by omega)
  simp only [Node.splice,h,hs]

/-- The log ends as the request does. -/
theorem Node.splice_last (s : SRaft) {request : AppendEntriesRequest}
    (hne : request.entries ≠ []) :
    (Node.splice s request).getLast? = request.entries.getLast? := by
  rw [Node.splice,List.getLast?_append_of_ne_nil _ hne]

/-- What `OnAppendEntriesRequest` makes of the log: the prefix up to an entry that matches
the previous one of the request, or nothing of it, followed by the sent entries. -/
theorem Node.splice_cases (s : SRaft) (request : AppendEntriesRequest) :
    (s.findLog request.prevLogTerm (toU64 request.prevLogIndex) = 2^64-1 ∧
      Node.splice s request = request.entries) ∨
    ∃ i e, s.logs[i]? = some e ∧ e.term = request.prevLogTerm ∧
      toU64 e.index = toU64 request.prevLogIndex ∧
      s.findLog request.prevLogTerm (toU64 request.prevLogIndex) = i ∧
      Node.splice s request = s.logs.take (i+1)++request.entries := by
  rcases s.findLog_cases request.prevLogTerm (toU64 request.prevLogIndex) with
    h | ⟨i,e,h,hi,he,ht,hx⟩
  · exact .inl ⟨h,Node.splice_none h⟩
  · exact .inr ⟨i,e,he,ht,hx,h,Node.splice_some h hi⟩

end SRaftMuduo
